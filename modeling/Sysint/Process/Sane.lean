import Sysint.Process.Queue

/-! Every function of the kernel keeps the queues intact, if its insertions leave
red-black trees and `setnice` does nothing. -/
namespace Sysint.Process
open List Option Nat
open Rbtree (Holds)
open Kernel
open Rbtree

/-- The queues are intact, and `proc_list`, `parent` and `cur_proc` name processes
that were made. -/
structure Sane (s : Kernel) : Prop where
  queues : ∃ rq sq, Queues s rq sq
  list : ∃ pl, Holds s.procList pl ∧ ∀ x ∈ pl, 0 < x.2 ∧ x.2 < s.nextTid
  parent : ∀ p, (s.proc p).parent < s.nextTid
  cur : s.curProc < s.nextTid

/-- The step from `s` to `s'` keeps sane states sane, and processes in their nodes
in order. -/
def Keeps (s s' : Kernel) : Prop := Sane s → Sane s' ∧ Steady s s'

/-- The step from `s` to `s'` keeps sane states sane, and `R` holds of it. -/
def KeepsBy (R : Kernel → Kernel → Prop) (s s' : Kernel) : Prop := Sane s → Sane s' ∧ R s s'

variable {cfg : Config} {s s' s'' : Kernel} {rq : List (Nat × Nat)} {sq : List (Nat × SleepProc)}
  {p cv : Nat} {P : Kernel → Prop} {f : Proc → Proc} {tid pid : Int} {e : Event}

/-! ## Changes that no queue can tell -/

/-- What `Sane` reads apart from the processes. -/
def Kernel.core (s : Kernel) :
    Rbtree Nat × Rbtree SleepProc × (Nat → List (Nat × Nat)) × Nat × Rbtree Nat :=
  (s.runQueue, s.sleepQueue, s.waiting, s.freshEntry, s.procList)

structure Frame (s s' : Kernel) : Prop where
  core : s'.core = s.core
  tid : s.nextTid ≤ s'.nextTid
  cur : s.curProc < s.nextTid → s'.curProc < s'.nextTid
  parent : (∀ p, (s.proc p).parent < s.nextTid) → ∀ p, (s'.proc p).parent < s'.nextTid
  slot : ∀ p, SameSlot (s.proc p) (s'.proc p)

theorem SameSlot.refl (q : Proc) : SameSlot q q := .of_eq rfl

theorem SameSlot.setStatus {q : Proc} {st : Status} (hc : st ≠ .created) (hz : st ≠ .zombie) :
    SameSlot q (q.setStatus st) :=
  ⟨rfl, fun _ => rfl, fun _ => rfl, fun _ => rfl, fun _ h => absurd h hc, fun _ h => absurd h hz⟩

theorem Frame.fields (F : Frame s s') : s'.runQueue = s.runQueue ∧ s'.sleepQueue = s.sleepQueue ∧
    s'.waiting = s.waiting ∧ s'.freshEntry = s.freshEntry ∧ s'.procList = s.procList := by
  simpa only [Kernel.core, Prod.mk.injEq] using F.core

theorem Frame.sane (F : Frame s s') (H : Sane s) : Sane s' := by
  obtain ⟨rq, sq, Q⟩ := H.queues
  obtain ⟨pl, hpl, hr⟩ := H.list
  obtain ⟨h1, h2, h3, h4, h5⟩ := F.fields
  refine ⟨⟨rq, sq, Q.congr h1 h2 h3 h4 F.tid F.slot⟩, ⟨pl, h5 ▸ hpl, fun x hx => ?_⟩,
    F.parent H.parent, F.cur H.cur⟩
  exact ⟨(hr x hx).1, (hr x hx).2.trans_le F.tid⟩

theorem Frame.steady (F : Frame s s') : Steady s s' := by
  refine ⟨F.fields.1 ▸ le_rfl, fun p hp => ?_⟩
  have hq := (F.slot p).queue
  have hne : (s.proc p).curQueue ≠ .noQueue := by
    rw [← hq, hp]
    decide
  rw [hq] at hp
  exact .inr ⟨hp, (F.slot p).handle hne, (F.slot p).vruntime hp, (F.slot p).nice hp⟩

theorem Frame.refl (s : Kernel) : Frame s s := ⟨rfl, le_rfl, id, id, fun _ => .refl _⟩

theorem Frame.of_eq (h : s'.core = s.core) (hp : s'.proc = s.proc) (ht : s'.nextTid = s.nextTid)
    (hc : s'.curProc = s.curProc) : Frame s s' :=
  ⟨h, ht.ge, by rw [hc, ht]; exact id, by rw [hp, ht]; exact id, fun p => hp ▸ .refl _⟩

theorem Frame.modify (hs : SameSlot (s.proc p) (f (s.proc p)))
    (hp : (f (s.proc p)).parent ≤ (s.proc p).parent ∨ (f (s.proc p)).parent < s.nextTid) :
    Frame s (s.modify p f) := by
  refine ⟨rfl, le_rfl, id, fun h q => ?_, fun q => ?_⟩
  · by_cases hqp : q = p
    · subst hqp
      simpa using hp.elim (fun hle => hle.trans_lt (h q)) id
    · simpa [hqp] using h q
  · by_cases hqp : q = p
    · subst hqp
      simpa using hs
    · simpa [hqp] using SameSlot.refl _

/-- An update of fields that neither the queues nor `parent` depend on. -/
theorem Frame.modify_same (h : ∀ q, (f q).slot = q.slot ∧ (f q).parent = q.parent) :
    Frame s (s.modify p f) :=
  .modify (.of_eq (h _).1) (.inl (h _).2.le)

theorem Frame.trans (F : Frame s s') (F' : Frame s' s'') : Frame s s'' := by
  refine ⟨F'.core.trans F.core, F.tid.trans F'.tid, F'.cur ∘ F.cur, F'.parent ∘ F.parent,
    fun p => ?_⟩
  have h := F.slot p
  have h' := F'.slot p
  have hq : (s.proc p).curQueue ≠ .noQueue → (s'.proc p).curQueue ≠ .noQueue := by
    rw [h.queue]
    exact id
  exact ⟨h'.queue.trans h.queue, fun hn => (h'.handle (hq hn)).trans (h.handle hn),
    fun hr => (h'.vruntime (h.queue.trans hr)).trans (h.vruntime hr),
    fun hr => (h'.nice (h.queue.trans hr)).trans (h.nice hr),
    fun hn hs => h.created hn (h'.created (hq hn) hs),
    fun hn hs => h.zombie hn (h'.zombie (hq hn) hs)⟩

/-! ## Changes of queues -/

/-- A queue operation on one process keeps what is not about queues. -/
theorem Sane.requeue {t : Rbtree Nat} {u : Rbtree SleepProc} {w : Nat → List (Nat × Nat)}
    (H : Sane s) (hf : (f (s.proc p)).parent = (s.proc p).parent)
    (Q : ∃ rq sq, Queues ((s.putQueues t u w).modify p f) rq sq) :
    Sane ((s.putQueues t u w).modify p f) := by
  refine ⟨Q, H.list, fun q => ?_, H.cur⟩
  by_cases hqp : q = p
  · subst hqp
    simpa [hf] using H.parent q
  · simpa [hqp] using H.parent q

/-- A process that is not in the run queue afterwards changes no order. -/
theorem Steady.leave {q' : Proc} (hproc : s'.proc = Function.update s.proc p q')
    (hf : s'.runQueue.fresh = s.runQueue.fresh) (hq : q'.curQueue ≠ .runQueue) : Steady s s' := by
  refine ⟨hf.ge, fun q h => ?_⟩
  rw [hproc] at h ⊢
  by_cases hqp : q = p
  · subst hqp
    rw [Function.update_self] at h
    exact absurd h hq
  · right
    simpa [hqp] using h

theorem Steady.enter {q' : Proc} (hproc : s'.proc = Function.update s.proc p q')
    (hf : s.runQueue.fresh ≤ s'.runQueue.fresh) (hq : q'.queueHandle = s.runQueue.fresh) :
    Steady s s' := by
  refine ⟨hf, fun q h => ?_⟩
  rw [hproc] at h ⊢
  by_cases hqp : q = p
  · subst hqp
    left
    simp [hq]
  · right
    simpa [hqp] using h

/-- `R` holds of the changes that a step is made of: of those that no queue can tell, of a
process that leaves its queue or comes to the run queue, and of those of `proc_list`. -/
structure Closed (R : Kernel → Kernel → Prop) : Prop where
  refl : ∀ s, R s s
  trans : ∀ {s s' s''}, R s s' → R s' s'' → R s s''
  frame : ∀ {s s'}, Frame s s' → R s s'
  leave : ∀ {s s' rq sq p}, Queues s rq sq → s.removeFromQueue p = some s' → R s s'
  enter : ∀ {s p t f}, (s.proc p).curQueue = .noQueue → s.runQueue.fresh ≤ t.fresh →
    (f (s.proc p)).curQueue = .runQueue → (f (s.proc p)).queueHandle = s.runQueue.fresh →
    R s ((s.putQueues t s.sleepQueue s.waiting).modify p f)
  list : ∀ s t, R s (s.setProcList t)

theorem steady_closed : Closed Steady where
  refl := .refl
  trans := .trans
  frame := Frame.steady
  leave Q h := by
    rename_i s s' _ _ p
    obtain ⟨s1, rq', sq', h1, -, hfresh, -⟩ := Q.remove p
    obtain rfl : s1 = s' := some_inj.mp (h1.symm.trans h)
    obtain ⟨t, u, w, rfl⟩ := removeFromQueue_form h
    exact .leave rfl hfresh (by simp)
  enter _ ht _ hh := .enter rfl ht hh
  list _ _ := ⟨le_rfl, fun _ h => .inr ⟨h, rfl, rfl, rfl⟩⟩

section
variable {R : Kernel → Kernel → Prop} (C : Closed R)
include C

theorem KeepsBy.refl (s : Kernel) : KeepsBy R s s := fun H => ⟨H, C.refl s⟩

theorem KeepsBy.trans (h : KeepsBy R s s') (h' : KeepsBy R s' s'') : KeepsBy R s s'' := by
  intro H
  obtain ⟨H1, S1⟩ := h H
  obtain ⟨H2, S2⟩ := h' H1
  exact ⟨H2, C.trans S1 S2⟩

theorem Frame.keeps (F : Frame s s') : KeepsBy R s s' := fun H => ⟨F.sane H, C.frame F⟩

theorem removeFromQueue_keeps (h : s.removeFromQueue p = some s') : KeepsBy R s s' := by
  intro H
  obtain ⟨rq, sq, Q⟩ := H.queues
  obtain ⟨s1, rq', sq', h1, Q', -⟩ := Q.remove p
  obtain rfl : s1 = s' := some_inj.mp (h1.symm.trans h)
  refine ⟨?_, C.leave Q h⟩
  obtain ⟨t, u, w, rfl⟩ := removeFromQueue_form h
  exact H.requeue rfl ⟨rq', sq', Q'⟩

omit C in
theorem removeFromQueue_noQueue (h : s.removeFromQueue p = some s') :
    (s'.proc p).curQueue = .noQueue := by
  obtain ⟨t, u, w, rfl⟩ := removeFromQueue_form h
  simp

/-- The run queue gets a process that is in no queue. -/
theorem enter_keeps {g : Proc → Proc} (hg : cfg.guard = true)
    (hq : (s.proc p).curQueue = .noQueue) (hpos : 0 < p) (hlt : p < s.nextTid)
    (hfg : ∀ a, (g ((f (s.proc p)).setHandle a)).curQueue = .runQueue ∧
      (g ((f (s.proc p)).setHandle a)).queueHandle = a ∧
      (g ((f (s.proc p)).setHandle a)).vruntime = (f (s.proc p)).vruntime ∧
      (g ((f (s.proc p)).setHandle a)).nice = (f (s.proc p)).nice ∧
      (g ((f (s.proc p)).setHandle a)).status ≠ .created ∧
      (g ((f (s.proc p)).setHandle a)).status ≠ .zombie)
    (hp : ∀ a, (g ((f (s.proc p)).setHandle a)).parent = (s.proc p).parent)
    (h : (s.modify p f).insertRun cfg p = some s') : KeepsBy R s (s'.modify p g) := by
  intro H
  obtain ⟨rq, sq, Q⟩ := H.queues
  obtain ⟨t, rq', hfresh, hform, Q'⟩ := Q.enter hg hq hpos hlt hfg h
  rw [hform] at Q' ⊢
  exact ⟨H.requeue (hp _) ⟨rq', sq, Q'⟩,
    C.enter hq (hfresh ▸ le_succ _) (hfg _).1 (hfg _).2.1⟩

omit C in
/-- From the sleep queue, `add_proc_run` takes exactly the entry of the process. -/
theorem Queues.makeReady (Q : Queues s rq sq) (hg : cfg.guard = true) (hpos : 0 < p)
    (hlt : p < s.nextTid) (h : s.makeReady cfg p = some s') :
    ∃ rq' sq', Queues s' rq' sq' ∧ ∀ xs e ys, sq = xs ++ e :: ys → e.2.p = p → sq' = xs ++ ys := by
  obtain ⟨s1, h1, h⟩ := bind_eq_some_iff.mp h
  obtain ⟨s2, h2, h⟩ := bind_eq_some_iff.mp h
  cases h
  obtain ⟨s1', rq1, sq1, h1', Q1, -, hcut⟩ := Q.remove p
  obtain rfl : s1' = s1 := some_inj.mp (h1'.symm.trans h1)
  have htid : s1'.nextTid = s.nextTid := by
    obtain ⟨t, u, w, rfl⟩ := removeFromQueue_form h1
    rfl
  obtain ⟨t, rq', -, -, Q'⟩ := Q1.enter (g := (·.setStatus .ready)) hg
    (removeFromQueue_noQueue h1) hpos (htid ▸ hlt) (fun a => by simp) h2
  exact ⟨rq', sq1, Q', hcut⟩

theorem makeReady_keeps (hg : cfg.guard = true) (hpos : 0 < p) (hlt : p < s.nextTid)
    (h : s.makeReady cfg p = some s') : KeepsBy R s s' := by
  obtain ⟨s1, h1, h⟩ := bind_eq_some_iff.mp h
  obtain ⟨s2, h2, h⟩ := bind_eq_some_iff.mp h
  cases h
  have htid : s1.nextTid = s.nextTid := by
    obtain ⟨t, u, w, rfl⟩ := removeFromQueue_form h1
    rfl
  exact (removeFromQueue_keeps C h1).trans C
    (enter_keeps C (g := (·.setStatus .ready)) hg (removeFromQueue_noQueue h1) hpos
      (htid ▸ hlt) (fun a => by simp) (fun a => rfl) h2)

theorem addProcRun_keeps {i : Bool} (hg : cfg.guard = true) (hpos : 0 < p) (hlt : p < s.nextTid)
    (h : s.addProcRun cfg p i = some s') : KeepsBy R s s' := by
  unfold addProcRun at h
  split_ifs at h with h1 h2
  · have F : Frame s (s.modify p (·.setInterrupted true)) :=
      .modify_same fun _ => ⟨rfl, rfl⟩
    exact (F.keeps C).trans C (makeReady_keeps C hg hpos hlt h)
  · cases h
    exact .refl C s
  · exact makeReady_keeps C hg hpos hlt h

theorem removeProcRun_keeps (h : s.removeProcRun p = some s') : KeepsBy R s s' := by
  obtain ⟨s1, h1, h⟩ := bind_eq_some_iff.mp h
  cases h
  have hq := removeFromQueue_noQueue h1
  exact (removeFromQueue_keeps C h1).trans C
    ((Frame.modify (.of_noQueue hq hq) (.inl le_rfl)).keeps C)

/-! ## schedule -/

omit C in
theorem modify_id (s : Kernel) (p : Nat) : s.modify p (fun q => q) = s := by
  simp [Kernel.modify]

theorem switchOut_keeps {delta : Nat} {regs : Bool} (hg : cfg.guard = true)
    (h : s.switchOut cfg p delta regs = some s') : KeepsBy R s s' := by
  intro H
  have F : Frame s ((s.setFpuOut p s.fpu).logDelta delta) := .of_eq rfl rfl rfl rfl
  simp only [switchOut, logDelta_proc, setFpuOut_proc] at h
  split_ifs at h with hq
  · obtain ⟨rq, sq, Q⟩ := H.queues
    obtain ⟨-, -, hpos, hlt⟩ := Q.live p (by rw [hq]; decide)
    obtain ⟨s1, h1, h⟩ := bind_eq_some_iff.mp h
    have htid : s1.nextTid = s.nextTid := by
      obtain ⟨t, u, w, rfl⟩ := removeFromQueue_form h1
      rfl
    have K := enter_keeps C (g := fun q => q) hg (removeFromQueue_noQueue h1) hpos (htid ▸ hlt)
      (fun a => by simp) (fun a => rfl) h
    rw [modify_id] at K
    exact ((F.keeps C).trans C ((removeFromQueue_keeps C h1).trans C K)) H
  · cases h
    refine (F.trans (.modify ?_ (.inl le_rfl))).keeps C H
    exact ⟨rfl, fun _ => rfl, fun hr => absurd hr hq, fun hr => absurd hr hq, fun _ => id,
      fun _ => id⟩

omit C in
theorem toSelect_frame (s : Kernel) (now pold : Nat) : Frame s (s.toSelect now pold) :=
  .of_eq rfl rfl rfl rfl

omit C in
theorem clts_frame (s : Kernel) : Frame s s.clts := .of_eq rfl rfl rfl rfl

omit C in
theorem setOnline_frame (s : Kernel) (b : Bool) : Frame s (s.setOnline b) := .of_eq rfl rfl rfl rfl

theorem schedule_keeps {regs : Bool} (hg : cfg.guard = true) (h : s.schedule cfg regs = some s') :
    KeepsBy R s s' := by
  obtain ⟨-, rfl⟩ | ⟨-, -, rfl⟩ | ⟨-, -, -, rfl⟩ | ⟨-, -, s1, hs1, rfl⟩ := schedule_cases h
  · exact .refl C s'
  · exact ((clts_frame s).trans (toSelect_frame ..)).keeps C
  · exact (clts_frame s).keeps C
  · exact ((clts_frame s).keeps C).trans C
      ((switchOut_keeps C hg hs1).trans C ((toSelect_frame ..).keeps C))

theorem scheduleFrom_keeps {cont : Cont} (hg : cfg.guard = true)
    (h : s.scheduleFrom cfg cont = some s') : KeepsBy R s s' := by
  have F : Frame s (s.modify s.curProc (·.setCont cont)) :=
    .modify_same fun _ => ⟨rfl, rfl⟩
  exact ((F.trans (setOnline_frame ..)).keeps C).trans C (schedule_keeps C hg h)

/-- Readying a process that waits in a queue keeps `P`. -/
def ReadyKeeps (cfg : Config) (P : Kernel → Prop) : Prop := ∀ s p s' q, Sane s →
  (s.proc p).curQueue = q → q ≠ .noQueue ∧ q ≠ .runQueue →
  s.addProcRun cfg p false = some s' → P s → P s'

omit C in
/-- The loop of `timer_tick` stands at a node of the sleep queue, so that it readies
sleeping processes. -/
theorem wakeSleepers_sane {now fuel it : Nat} (hg : cfg.guard = true) (hP : ReadyKeeps cfg P)
    (h : wakeSleepers cfg now fuel s it = some s')
    (hit : ∃ rq xs ys, Queues s rq (xs ++ ys) ∧ it = first ys) (H : Sane s) (hs : P s) :
    Sane s' ∧ P s' := by
  induction fuel generalizing s it with
  | zero => cases h
  | succ n ih =>
    simp only [wakeSleepers] at h
    split_ifs at h with hc
    · obtain ⟨rq, xs, ys, Q, rfl⟩ := hit
      cases ys with
      | nil => exact absurd rfl hc.1
      | cons y ys =>
        obtain ⟨next, hnext, h⟩ := bind_eq_some_iff.mp h
        obtain ⟨s1, h1, h⟩ := bind_eq_some_iff.mp h
        have hy : y ∈ xs ++ y :: ys := by simp
        have hkey : (s.sleepQueue.node y.1).key = y.2 := Q.sleep.key hy
        rw [first] at hnext h1
        rw [succ_spec Q.sleep, some_inj] at hnext
        rw [hkey] at h1
        have hq := ((Q.sleepMem y.1 y.2.p).mp ⟨y.2.wakeupNs, hy⟩).1
        obtain ⟨-, -, hpos, hlt⟩ := Q.live y.2.p (by rw [hq]; decide)
        obtain ⟨rq', sq', Q', hcut⟩ := Q.makeReady hg hpos hlt h1
        rw [hcut xs y ys rfl rfl] at Q'
        exact ih h ⟨rq', xs, ys, Q', hnext.symm⟩ (makeReady_keeps steady_closed hg hpos hlt h1 H).1
          (hP _ _ _ _ H hq (by decide) h1 hs)
    · cases h
      exact ⟨H, hs⟩

omit C in
/-- `timer_tick` readies sleeping processes and calls `schedule`. -/
theorem timerTick_sane (hg : cfg.guard = true) (hP : ReadyKeeps cfg P)
    (h : s.timerTick cfg = some s') (H : Sane s) (hs : P s.clts.addTick) :
    ∃ s1, Sane s1 ∧ P s1 ∧ s.addTick.Quiet s1 ∧ s1.schedule cfg true = some s' := by
  obtain ⟨it, hit, h⟩ := bind_eq_some_iff.mp h
  obtain ⟨s1, h1, h⟩ := bind_eq_some_iff.mp h
  have F : Frame s s.clts.addTick := .of_eq rfl rfl rfl rfl
  have H' := F.sane H
  obtain ⟨rq, sq, Q⟩ := H'.queues
  rw [begin_spec Q.sleep, some_inj] at hit
  have hq : s.addTick.Quiet s.clts.addTick := clts_quiet s.addTick
  obtain ⟨H1, hP1, hq1⟩ := wakeSleepers_sane (P := fun s' => P s' ∧ s.addTick.Quiet s') hg
    (fun _ _ _ _ H hc hn h ⟨hs, hq⟩ => ⟨hP _ _ _ _ H hc hn h hs, hq.trans (addProcRun_quiet h)⟩)
    h1 ⟨rq, [], sq, Q, hit.symm⟩ H' ⟨hs, hq⟩
  exact ⟨s1, H1, hP1, hq1, h⟩

omit C in
theorem live_of_queue {q : QueueId} (H : Sane s) (hq : (s.proc p).curQueue = q)
    (hne : q ≠ .noQueue) :
    (s.proc p).status ≠ .created ∧ (s.proc p).status ≠ .zombie ∧ 0 < p ∧ p < s.nextTid := by
  obtain ⟨rq, sq, Q⟩ := H.queues
  exact Q.live p (by rw [hq]; exact hne)

theorem ready_keeps (hg : cfg.guard = true) : ReadyKeeps cfg (R s) := by
  intro t p t' q H hc hq h S
  obtain ⟨-, -, hpos, hlt⟩ := live_of_queue H hc hq.1
  exact C.trans S (addProcRun_keeps C hg hpos hlt h H).2

theorem timerTick_keeps (hg : cfg.guard = true) (h : s.timerTick cfg = some s') :
    KeepsBy R s s' := by
  intro H
  have F : Frame s s.clts.addTick := .of_eq rfl rfl rfl rfl
  obtain ⟨s1, H1, S1, -, h⟩ := timerTick_sane hg (ready_keeps C hg) h H (C.frame F)
  obtain ⟨H2, S2⟩ := schedule_keeps C hg h H1
  exact ⟨H2, C.trans S1 S2⟩

/-! ## Condition variables and signals -/

/-- `condvar::wait` makes a change that `R` holds of, puts the process into the waiting list,
and makes another such change. -/
theorem wait_cases (hg : cfg.guard = true) (hcur : s.curProc ≠ 0) (h : s.wait cfg cv = some s') :
    ∃ s1 s2, KeepsBy R s s1 ∧ (Sane s1 → Sane s2) ∧ KeepsBy R s2 s' ∧
      s1.curProc = s.curProc ∧ (s1.proc s.curProc).curQueue = .noQueue ∧
      s2 = (s1.modify s.curProc fun q =>
        { q with status := .waiting, curQueue := .eventQueue,
                 queueHandle := s1.freshEntry }).pushWaiting cv s.curProc := by
  obtain ⟨s1, h1, h⟩ := bind_eq_some_iff.mp h
  have K := ((setOnline_frame s false).keeps C).trans C (removeProcRun_keeps C h1)
  have hq : (s1.proc s.curProc).curQueue = .noQueue ∧ s1.curProc = s.curProc := by
    obtain ⟨t, u, w, rfl⟩ := removeProcRun_form h1
    simp
  have K' := scheduleFrom_keeps C hg h
  simp only [modify_curProc, hq.2] at K'
  refine ⟨s1, _, K, fun H1 => ?_, K', hq.2, hq.1, rfl⟩
  obtain ⟨rq, sq, Q⟩ := H1.queues
  have hcur1 : s.curProc < s1.nextTid := hq.2 ▸ H1.cur
  refine ⟨⟨rq, sq, Q.enterEvent hq.1 (Nat.pos_of_ne_zero hcur) hcur1 cv (by simp)⟩, H1.list, ?_,
    H1.cur⟩
  intro q
  by_cases hqp : q = s.curProc
  · subst hqp
    simpa using H1.parent _
  · simpa [hqp] using H1.parent q

theorem wait_keeps (hg : cfg.guard = true) (hcur : s.curProc ≠ 0)
    (hpush : ∀ s1 : Kernel, (s1.proc s.curProc).curQueue = .noQueue →
      R s1 ((s1.modify s.curProc fun q =>
        { q with status := .waiting, curQueue := .eventQueue,
                 queueHandle := s1.freshEntry }).pushWaiting cv s.curProc))
    (h : s.wait cfg cv = some s') : KeepsBy R s s' := by
  obtain ⟨s1, s2, K, hs, K', -, hq, rfl⟩ := wait_cases C hg hcur h
  exact K.trans C (KeepsBy.trans C (fun H1 => ⟨hs H1, hpush s1 hq⟩) K')

omit C in
/-- The loop of `condvar::wake` readies waiting processes. -/
theorem wakeEntries_sane {es : List (Nat × Nat)} (hg : cfg.guard = true) (hP : ReadyKeeps cfg P)
    (hnd : (es.map Prod.snd).Nodup) (hes : ∀ e ∈ es, (s.proc e.2).curQueue = .eventQueue)
    (h : wakeEntries cfg tid es s = some s') (H : Sane s) (hs : P s) : Sane s' ∧ P s' := by
  induction es generalizing s with
  | nil =>
    cases h
    exact ⟨H, hs⟩
  | cons e es ih =>
    have hq := hes e mem_cons_self
    obtain ⟨-, -, hpos, hlt⟩ := live_of_queue H hq (by decide)
    rw [map_cons, nodup_cons] at hnd
    have hes' : ∀ e ∈ es, (s.proc e.2).curQueue = .eventQueue :=
      fun e he => hes e (mem_cons_of_mem _ he)
    rw [wakeEntries] at h
    split_ifs at h with h1 h2
    · exact ⟨(addProcRun_keeps steady_closed hg hpos hlt h H).1, hP _ _ _ _ H hq (by decide) h hs⟩
    · obtain ⟨s1, hs1, h⟩ := bind_eq_some_iff.mp h
      refine ih hnd.2 (fun e' he' => ?_) h (addProcRun_keeps steady_closed hg hpos hlt hs1 H).1
        (hP _ _ _ _ H hq (by decide) hs1 hs)
      obtain ⟨hi, -, -⟩ | ⟨t, u, w, a, rfl⟩ := addProcRun_form hs1
      · cases hi
      · -- another process than the one readied
        have hne : e'.2 ≠ e.2 := fun heq => hnd.1 (heq ▸ List.mem_map_of_mem he')
        simpa [hne] using hes' e' he'
    · exact ih hnd.2 hes' h H hs

omit C in
theorem wake_sane (hg : cfg.guard = true) (hP : ReadyKeeps cfg P)
    (h : s.wake cfg cv tid = some s') (H : Sane s) (hs : P s) : Sane s' ∧ P s' := by
  obtain ⟨rq, sq, Q⟩ := H.queues
  have hmem (e : Nat × Nat) (he : e ∈ s.waiting cv) := (Q.eventMem e.1 e.2).mp ⟨cv, he⟩
  refine wakeEntries_sane hg hP ?_ (fun e he => (hmem e he).1) h H hs
  refine List.Nodup.map_on (fun e he e' he' heq => ?_) (Q.event cv)
  refine Prod.ext ?_ heq
  rw [← (hmem e he).2, ← (hmem e' he').2, heq]

theorem wake_keeps (hg : cfg.guard = true) (h : s.wake cfg cv tid = some s') :
    KeepsBy R s s' := fun H =>
  wake_sane hg (ready_keeps C hg) h H (C.refl s)

theorem tkillProc_keeps {sig : Nat} (hg : cfg.guard = true) (hpos : 0 < p) (hlt : p < s.nextTid)
    (h : s.tkillProc cfg p sig = some s') : KeepsBy R s s' := by
  obtain ⟨-, rfl⟩ | ⟨-, -, h⟩ := tkillProc_cases h
  · exact .refl C _
  · have F : Frame s (s.modify p (·.setSignal sig true)) :=
      .modify_same fun _ => ⟨rfl, rfl⟩
    exact (F.keeps C).trans C (addProcRun_keeps C hg hpos hlt h)

/-! ## The process tree -/

omit C in
theorem unlink_frame (s : Kernel) (p : Nat) : Frame s (s.unlink p) := by
  simp only [unlink]
  split_ifs
  all_goals repeat refine Frame.trans ?_ (.modify_same fun _ => ⟨rfl, rfl⟩)
  all_goals exact .refl s

omit C in
theorem delete_frame (s : Kernel) (p : Nat) : Frame s (s.delete p) :=
  (unlink_frame s p).trans (.modify_same fun _ => ⟨rfl, rfl⟩)

omit C in
theorem exitChildren_frame {cur fuel child : Nat}
    (h : exitChildren cur fuel s child = some s') : Frame s s' := by
  refine exitChildren_rule (P := Frame s) (fun s' c hs => hs.trans (delete_frame s' c))
    (fun s' c hs => hs.trans (.modify ?_ (.inl (Nat.zero_le _)))) h (.refl s)
  exact .of_eq rfl

theorem notifyParent_keeps (hg : cfg.guard = true) (h : s.notifyParent cfg p = some s') :
    KeepsBy R s s' := by
  intro H
  have hlt := H.parent p
  simp only [notifyParent] at h
  split_ifs at h with h1 h2
  · cases h
    exact KeepsBy.refl C _ H
  · exact addProcRun_keeps C hg (Nat.pos_of_ne_zero h1) hlt h H
  · exact tkillProc_keeps C hg (Nat.pos_of_ne_zero h1) hlt h H

theorem setProcList_keeps {t : Rbtree Nat}
    (ht : Sane s → ∃ pl, Holds t pl ∧ ∀ x ∈ pl, 0 < x.2 ∧ x.2 < s.nextTid) :
    KeepsBy R s (s.setProcList t) := by
  intro H
  obtain ⟨rq, sq, Q⟩ := H.queues
  exact ⟨⟨⟨rq, sq, Q.congr rfl rfl rfl rfl le_rfl fun _ => .refl _⟩, ht H, H.parent, H.cur⟩,
    C.list s t⟩

theorem eraseProcList_keeps (h : s.eraseProcList p = some s') : KeepsBy R s s' := by
  obtain ⟨a, ha, h⟩ := bind_eq_some_iff.mp h
  obtain ⟨t, ht, h⟩ := bind_eq_some_iff.mp h
  cases h
  refine setProcList_keeps C fun H => ?_
  obtain ⟨pl, hpl, hr⟩ := H.list
  obtain ⟨a', ha', ⟨rfl, -⟩ | ⟨q, hq, -⟩⟩ :=
    find_found hpl (fun q => q == p) (fun q => decide (q < p))
  all_goals obtain rfl := some_inj.mp (ha.symm.trans ha')
  · rw [erase, if_pos (.inl rfl)] at ht
    cases ht
    exact ⟨pl, hpl, hr⟩
  obtain ⟨xs, ys, rfl⟩ := append_of_mem hq
  obtain ⟨t', ht', hpl', -⟩ := erase_spec hpl
  obtain rfl := some_inj.mp (ht.symm.trans ht')
  refine ⟨xs ++ ys, hpl', fun x hx => hr x ?_⟩
  simp only [mem_append, mem_cons] at hx ⊢
  tauto

omit C in
theorem setCur_zero_frame (s : Kernel) : Frame s (s.setCur 0) :=
  ⟨rfl, le_rfl, zero_lt_of_lt, id, fun _ => .refl _⟩

theorem exit_keeps {status : Int} (hg : cfg.guard = true) (h : s.exit cfg status = some s') :
    KeepsBy R s s' := by
  obtain ⟨s1, s2, t, s3, h1, h2, h3, h4, rfl⟩ := exit_cases h
  have hq : (s2.proc s.curProc).curQueue = .noQueue := removeFromQueue_noQueue h2
  have F : Frame ((s2.setCur 0).setProcList t)
      (((s2.setCur 0).setProcList t).modify s.curProc (·.ended status)) :=
    .modify (.of_noQueue hq rfl) (.inl le_rfl)
  refine (((clts_frame s).trans (exitChildren_frame h1)).keeps C).trans C ?_
  refine (removeFromQueue_keeps C h2).trans C ?_
  refine (((setCur_zero_frame s2).keeps C).trans C (eraseProcList_keeps C h3)).trans C ?_
  refine (F.keeps C).trans C ((notifyParent_keeps C hg h4).trans C ?_)
  exact ((clts_frame s3).trans (toSelect_frame ..)).keeps C

omit C in
theorem linkChild_frame {parent : Nat} (hp : parent < s.nextTid) :
    Frame s (s.linkChild p parent) := by
  simp only [linkChild]
  have F : Frame s (s.modify p fun q => (q.setParent parent).setNext (s.proc parent).lastChild) :=
    .modify (.of_eq rfl) (.inr hp)
  split_ifs
  all_goals repeat refine Frame.trans ?_ (.modify_same fun _ => ⟨rfl, rfl⟩)
  all_goals exact F

theorem register_keeps {parent : Nat} {q : Proc} (hg : cfg.guard = true) (hpos : 0 < p)
    (hlt : p < s.nextTid) (hp : parent < s.nextTid) (hnew : (s.proc p).curQueue = .noQueue)
    (hq : q.curQueue = .noQueue) (hparent : q.parent = 0)
    (h : s.register cfg p parent q = some s') :
    KeepsBy R s s' := by
  obtain ⟨s1, h1, h⟩ := bind_eq_some_iff.mp h
  obtain ⟨r, hr, h⟩ := bind_eq_some_iff.mp h
  cases h
  have F : Frame s (s.modify p fun _ => q) :=
    .modify (.of_noQueue hnew hq) (.inr (by rw [hparent]; omega))
  have L := F.trans (linkChild_frame (s := s.modify p fun _ => q) (p := p) hp)
  refine ((L.keeps C).trans C (addProcRun_keeps C hg hpos (hlt.trans_le L.tid) h1)).trans C ?_
  refine setProcList_keeps C fun H => ?_
  obtain ⟨pl, hpl, hrange⟩ := H.list
  obtain ⟨hok, hins⟩ := Config.insert_guard hg hr
  obtain ⟨x, -, -, hins', hpl'⟩ | ⟨ys, zs, t', rfl, hins', hpl', -⟩ := insert_spec hpl hok
  · rw [hins] at hins'
    cases hins'
    exact ⟨pl, hpl', hrange⟩
  rw [hins] at hins'
  cases hins'
  have htid : s1.nextTid = s.nextTid := by
    rw [(linkChild_treeOnly ..).rest] at h1
    obtain ⟨-, -, rfl⟩ | ⟨t, u, w, a, rfl⟩ := addProcRun_form h1 <;> rfl
  refine ⟨_, hpl', fun x hx => ?_⟩
  simp only [mem_append, mem_cons] at hx hrange
  obtain hx | rfl | hx := hx
  · exact hrange x (.inl hx)
  · exact ⟨hpos, htid ▸ hlt⟩
  · exact hrange x (.inr hx)

omit C in
/-- The next process is in no queue, and the counter can go past it. -/
theorem Sane.next (H : Sane s) : (s.proc s.nextTid).curQueue = .noQueue ∧
    Frame s (s.takeTid.setFpuOut s.nextTid none) := by
  obtain ⟨rq, sq, Q⟩ := H.queues
  refine ⟨?_, rfl, le_succ _, fun h => h.trans (lt_succ_self _),
    fun h p => (h p).trans (lt_succ_self _), fun _ => .refl _⟩
  by_contra hne
  exact (Q.live _ hne).2.2.2.false

theorem clone_keeps {flags : Nat} {mem : Bool} (hg : cfg.guard = true)
    (h : s.clone cfg flags mem = some s') : KeepsBy R s s' := by
  intro H
  obtain ⟨hnew, T⟩ := H.next
  have hparent : s.clonedParent flags < s.nextTid := by
    unfold clonedParent
    split_ifs
    exacts [H.parent _, H.cur]
  simp only [clone] at h
  split_ifs at h with h1 h2 h3
  · cases h
    exact KeepsBy.refl C _ H
  · cases h
    exact T.keeps C H
  · have hpos : 0 < s.nextTid := zero_lt_of_lt H.cur
    exact ((T.keeps C).trans C (register_keeps C hg hpos (lt_succ_self _)
      (hparent.trans (lt_succ_self _)) hnew rfl rfl h)) H

/-! ## waitpid -/

omit C in
theorem reap_frame (s : Kernel) (pid : Int) (child : Nat) : Frame s (s.reap pid child) :=
  (delete_frame s child).trans (.of_eq rfl rfl rfl rfl)

theorem waitpidSleep_keeps (hg : cfg.guard = true)
    (h : s.waitpidSleep cfg pid = some s') : KeepsBy R s s' := by
  obtain ⟨s1, hs1, h⟩ := bind_eq_some_iff.mp h
  have F : Frame s (s.modify s.curProc (·.setWaitPid (if pid ≤ 0 then -1 else pid))) :=
    .modify_same fun _ => ⟨rfl, rfl⟩
  have G : Frame s1 (s1.modify s.curProc (·.setStatus .waiting)) :=
    .modify (.setStatus (by decide) (by decide)) (.inl le_rfl)
  exact (F.keeps C).trans C
    ((removeProcRun_keeps C hs1).trans C ((G.keeps C).trans C (scheduleFrom_keeps C hg h)))

theorem waitpid_keeps {ptr : Bool} {options : Int} (hg : cfg.guard = true)
    (h : s.waitpid cfg pid ptr options = some s') : KeepsBy R s s' := by
  obtain rfl | ⟨-, c, -, ⟨-, -, rfl⟩ | ⟨-, -, h⟩⟩ := waitpid_cases h
  · exact .refl C _
  · exact (reap_frame ..).keeps C
  · exact waitpidSleep_keeps C hg h

theorem waitpidWoken_keeps (h : s.waitpidWoken pid = some s') : KeepsBy R s s' := by
  obtain ⟨c, -, h⟩ := bind_eq_some_iff.mp h
  split_ifs at h with hc
  cases h
  have F : Frame s (s.modify s.curProc (·.setWaitPid 0)) :=
    .modify_same fun _ => ⟨rfl, rfl⟩
  exact (F.trans (reap_frame ..)).keeps C

theorem resume_keeps (h : s.resume = some s') : KeepsBy R s s' := by
  have F : Frame s (s.modify s.curProc (·.setInterrupted false)) :=
    .modify_same fun _ => ⟨rfl, rfl⟩
  simp only [resume] at h
  split at h
  · cases h
    exact .refl C _
  · cases h
    exact .refl C _
  · cases h
    exact F.keeps C
  · cases h
    exact F.keeps C
  · split_ifs at h with hi
    · cases h
      exact F.keeps C
    · exact (F.keeps C).trans C (waitpidWoken_keeps C h)

theorem dispatch_keeps {pold : Nat} (h : s.dispatch pold = some s') : KeepsBy R s s' := by
  have F : Frame s (s.modify s.curProc (·.setStatus .running)) :=
    .modify (.setStatus (by decide) (by decide)) (.inl le_rfl)
  have G : Frame _ (((s.modify s.curProc (·.setStatus .running)).load s.curProc
    pold).setFpuOut s.curProc none) := F.trans (.of_eq rfl rfl rfl rfl)
  exact (G.keeps C).trans C (resume_keeps C h)

omit C in
/-- The process that `schedule` selects is the first of the run queue. -/
theorem Queues.begin {a : Nat} (Q : Queues s rq sq) (ha : s.runQueue.begin = some a)
    (hsz : s.runQueue.sz ≠ 0) : ∃ rest, rq = (a, (s.runQueue.node a).key) :: rest := by
  rw [begin_spec Q.run, some_inj] at ha
  cases rq with
  | nil => exact absurd Q.run.sz hsz
  | cons x rest =>
    have hkey : (s.runQueue.node x.1).key = x.2 := Q.run.key mem_cons_self
    subst ha
    exact ⟨rest, by rw [first, hkey]⟩

omit C in
/-- It has the least `vruntime`. -/
theorem Sane.first {a : Nat} (H : Sane s) (ha : s.runQueue.begin = some a)
    (hsz : s.runQueue.sz ≠ 0) : (s.proc (s.runQueue.node a).key).curQueue = .runQueue ∧
      ∀ q, (s.proc q).curQueue = .runQueue →
        (s.proc (s.runQueue.node a).key).vruntime ≤ (s.proc q).vruntime := by
  obtain ⟨rq, sq, Q⟩ := H.queues
  obtain ⟨rest, rfl⟩ := Q.begin ha hsz
  refine ⟨((Q.runMem a _).mp mem_cons_self).1, fun q hq => ?_⟩
  obtain heq | hmem := mem_cons.mp ((Q.runMem _ q).mpr ⟨hq, rfl⟩)
  · rw [(Prod.mk.inj heq).2]
  · have hlt := rel_of_pairwise_cons Q.runSorted hmem
    rw [procOrder_lt, rank, rank, Prod.Lex.toLex_lt_toLex] at hlt
    obtain hlt | ⟨heq, -⟩ := hlt
    exacts [hlt.le, heq.le]

theorem select_keeps {now pold : Nat} (hg : cfg.guard = true)
    (h : s.select cfg now pold = some s') :
    KeepsBy R s s' := by
  intro H
  obtain ⟨a, p, ha, hp, hsz, -, -, h⟩ := select_cases h
  have hq := (H.first ha hsz).1
  rw [hp] at hq
  obtain ⟨-, -, -, hlt⟩ := live_of_queue H hq (by decide)
  have F : Frame s (s.choose p now) := ⟨rfl, le_rfl, fun _ => hlt, id, fun _ => .refl _⟩
  have G (sig : Nat) : Frame (s.choose p now) ((s.choose p now).modify p (·.setSignal sig false)) :=
    .modify_same fun _ => ⟨rfl, rfl⟩
  obtain ⟨-, h⟩ | ⟨sig, -, ⟨-, h⟩ | ⟨-, h⟩⟩ := h
  · exact ((F.keeps C).trans C (dispatch_keeps C h)) H
  · exact (((F.trans (G sig)).keeps C).trans C (exit_keeps C hg h)) H
  · exact (((F.trans (G sig)).keeps C).trans C (dispatch_keeps C h)) H

/-! ## Other system calls -/

/-- `nanosleep` makes a change that `R` holds of, puts the process into the sleep queue, and
makes another such change. -/
theorem nanosleep_cases {n : Nat} (hg : cfg.guard = true) (hcur : s.curProc ≠ 0)
    (h : s.nanosleep cfg n = some s') :
    (n < 10 ∧ s' = s) ∨ ∃ s1 s2 r, KeepsBy R s s1 ∧ (Sane s1 → Sane s2) ∧ KeepsBy R s2 s' ∧
      (s1.proc s.curProc).curQueue = .noQueue ∧ s1.curProc = s.curProc ∧
      cfg.insert sleepOrder s1.sleepQueue ⟨s.curProc, cfg.wrap (s.ns + n)⟩ = some r ∧
      s2 = (s1.putQueues s1.runQueue r.1 s1.waiting).modify s.curProc fun q =>
        { q with status := .waiting, curQueue := .sleepQueue }.setHandle r.2 := by
  unfold nanosleep at h
  split_ifs at h with hns
  · cases h
    exact .inl ⟨hns, rfl⟩
  obtain ⟨s1, h1, h⟩ := bind_eq_some_iff.mp h
  obtain ⟨r, hr, h⟩ := bind_eq_some_iff.mp h
  have K := removeProcRun_keeps C h1
  have hq : (s1.proc s.curProc).curQueue = .noQueue ∧ s1.curProc = s.curProc ∧ s1.ns = s.ns := by
    obtain ⟨t, u, w, rfl⟩ := removeProcRun_form h1
    simp [ns]
  have hr' : cfg.insert sleepOrder s1.sleepQueue ⟨s.curProc, cfg.wrap (s.ns + n)⟩ = some r := by
    rw [← hq.2.1, ← hq.2.2]
    exact hr
  have K' : KeepsBy R ((s1.putQueues s1.runQueue r.1 s1.waiting).modify s.curProc fun q =>
      { q with status := .waiting, curQueue := .sleepQueue }.setHandle r.2) s' := by
    refine KeepsBy.trans C ((Frame.of_eq ?_ ?_ ?_ ?_).keeps C) (scheduleFrom_keeps C hg h)
    all_goals simp [Kernel.modify, Kernel.core, hq.2.1]
  refine .inr ⟨s1, _, r, K, fun H1 => ?_, K', hq.1, hq.2.1, hr', rfl⟩
  obtain ⟨rq, sq, Q⟩ := H1.queues
  obtain ⟨sq', Q', -⟩ :=
    Q.enterSleep (f := fun q => { q with status := .waiting, curQueue := .sleepQueue })
    hg hq.1 (Nat.pos_of_ne_zero hcur) (hq.2.1 ▸ H1.cur) (by simp) hr'
  exact H1.requeue rfl ⟨rq, sq', Q'⟩

theorem nanosleep_keeps {n : Nat} (hg : cfg.guard = true) (hcur : s.curProc ≠ 0)
    (hsleep : ∀ (s1 : Kernel) (r : Rbtree SleepProc × Nat),
    (s1.proc s.curProc).curQueue = .noQueue →
      R s1 ((s1.putQueues s1.runQueue r.1 s1.waiting).modify s.curProc fun q =>
        { q with status := .waiting, curQueue := .sleepQueue }.setHandle r.2))
    (h : s.nanosleep cfg n = some s') : KeepsBy R s s' := by
  obtain ⟨-, rfl⟩ | ⟨s1, s2, r, K, hs, K', hq, -, -, rfl⟩ := nanosleep_cases C hg hcur h
  · exact .refl C _
  · exact K.trans C (KeepsBy.trans C (fun H1 => ⟨hs H1, hsleep s1 r hq⟩) K')

omit C in
/-- `tkill` sends the signal to the process with this `tid`, if it finds it. -/
theorem Sane.tkill {sig : Int} (H : Sane s) (h : s.tkill cfg tid sig = some s') :
    s' = s ∨ ∃ q : Nat, (q : Int) = tid ∧ 0 < q ∧ q < s.nextTid ∧
      s.tkillProc cfg q sig.toNat = some s' := by
  obtain rfl | ⟨a, ha, hne, hk⟩ := tkill_cases h
  · exact .inl rfl
  obtain ⟨pl, hpl, hr⟩ := H.list
  obtain ⟨a', ha', ⟨rfl, -⟩ | ⟨q, hq, htid⟩⟩ := find_found hpl (fun q => (q : Int) == tid)
    (fun q => decide ((q : Int) < tid))
  all_goals obtain rfl := some_inj.mp (ha.symm.trans ha')
  · exact absurd rfl hne
  · have hkey : (s.procList.node a).key = q := hpl.key hq
    rw [hkey] at hk
    exact .inr ⟨q, by simpa using htid, (hr _ hq).1, (hr _ hq).2, hk⟩

theorem tkill_keeps {sig : Int} (hg : cfg.guard = true) (h : s.tkill cfg tid sig = some s') :
    KeepsBy R s s' := by
  intro H
  obtain rfl | ⟨q, -, hpos, hlt, hk⟩ := H.tkill h
  · exact KeepsBy.refl C _ H
  · exact tkillProc_keeps C hg hpos hlt hk H

theorem fault_keeps (hg : cfg.guard = true) (hcur : s.curProc ≠ 0) (h : s.fault cfg = some s') :
    KeepsBy R s s' := by
  intro H
  obtain ⟨s1, h1, h⟩ := bind_eq_some_iff.mp h
  have F : Frame s1 (s1.logKill s.curProc) := .of_eq rfl rfl rfl rfl
  exact ((tkillProc_keeps C hg (Nat.pos_of_ne_zero hcur) H.cur h1).trans C
    (((F.trans (setCur_zero_frame _)).keeps C).trans C (schedule_keeps C hg h))) H

omit C in
theorem useFpu_frame (s : Kernel) (v : Fpu) : Frame s (s.useFpu v) := by
  have F : Frame s (s.modify s.curProc fun q => { q with fpuUsed := true }) :=
    .modify_same fun _ => ⟨rfl, rfl⟩
  unfold useFpu
  split_ifs
  · exact F.trans (.of_eq rfl rfl rfl rfl)
  · exact .of_eq rfl rfl rfl rfl

/-- The event is no call of `setnice` that moves the process. -/
def NoNice (s : Kernel) : Event → Prop
  | .setnice inc => inc = 0 ∨ inc < 0 ∧ (s.proc s.curProc).uid ≠ 0
  | _ => True

instance (s : Kernel) (e : Event) : Decidable (NoNice s e) := by
  cases e <;> unfold NoNice <;> infer_instance

theorem setnice_keeps {inc : Int} (hn : NoNice s (.setnice inc))
    (h : s.setnice cfg inc = some s') : KeepsBy R s s' := by
  simp only [setnice] at h
  split_ifs at h with h1 h2
  · cases h
    exact .refl C _
  · cases h
    exact .refl C _
  · exact (hn.elim h2 h1).elim

/-- Every step but those that put a process to sleep or make it wait. -/
theorem step_keepsBy (hg : cfg.guard = true) (hn : NoNice s e)
    (hsleep : ∀ n, e ≠ .nanosleep n) (hwait : ∀ cv, e ≠ .wait cv) (h : s.step cfg e = some s') :
    KeepsBy R s s' := by
  obtain ⟨-, -, h⟩ | ⟨cv, tid, -, -, h⟩ | ⟨now, pold, -, -, h⟩ | ⟨-, hcur, h⟩ := step_cases h
  · exact timerTick_keeps C hg h
  · exact wake_keeps C hg h
  · exact select_keeps C hg h
  · cases e with
    | tick | select | wake => cases h
    | fpu v =>
      cases h
      exact (useFpu_frame s v).keeps C
    | fault => exact fault_keeps C hg hcur h
    | clone flags mem => exact clone_keeps C hg h
    | exit status => exact exit_keeps C hg h
    | waitpid pid ptr options => exact waitpid_keeps C hg h
    | nanosleep n => exact absurd rfl (hsleep n)
    | wait cv => exact absurd rfl (hwait cv)
    | tkill tid sig => exact tkill_keeps C hg h
    | setnice inc => exact setnice_keeps C hn h

end

theorem Kernel.userStep_of_step (h : s.step cfg e = some s')
    (he : e ≠ .tick ∧ e ≠ .select ∧ ∀ cv tid, e ≠ .wake cv tid) :
    s.mode = .outside ∧ s.curProc ≠ 0 ∧ s.userStep cfg e = some s' := by
  obtain ⟨rfl, -⟩ | ⟨cv, tid, rfl, -⟩ | ⟨now, pold, rfl, -⟩ | h := step_cases h
  · exact absurd rfl he.1
  · exact absurd rfl (he.2.2 cv tid)
  · exact absurd rfl he.2.1
  · exact h

theorem step_keeps (hg : cfg.guard = true) (hn : NoNice s e)
    (h : s.step cfg e = some s') : Keeps s s' := by
  by_cases hsleep : ∃ n, e = .nanosleep n
  · obtain ⟨n, rfl⟩ := hsleep
    obtain ⟨-, hcur, h⟩ := userStep_of_step h ⟨nofun, nofun, nofun⟩
    exact nanosleep_keeps steady_closed hg hcur (fun s1 r _ => .leave rfl rfl (by simp)) h
  by_cases hwait : ∃ cv, e = .wait cv
  · obtain ⟨cv, rfl⟩ := hwait
    obtain ⟨-, hcur, h⟩ := userStep_of_step h ⟨nofun, nofun, nofun⟩
    exact wait_keeps steady_closed hg hcur (fun s1 _ => .leave rfl rfl (by simp)) h
  · exact step_keepsBy steady_closed hg hn (fun n he => hsleep ⟨n, he⟩)
      (fun cv he => hwait ⟨cv, he⟩) h

end Sysint.Process
