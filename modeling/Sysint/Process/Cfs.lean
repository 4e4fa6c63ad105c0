import Mathlib.Logic.Relation
import Sysint.Process.Charge

/-! The scheduler without its queues, as an abstract machine. A process is in the run queue with an
absolute runtime, away from it with one relative to `min_vruntime`, or gone; the system calls and
interrupts of the kernel are sequences of moves of this machine. -/
namespace Sysint.Process
open Kernel
open Function
open Proc

/-- Where a process stands with the scheduler, and its `vruntime` there. -/
inductive Standing where
  | queued (v : Nat)
  | away (v : Nat)
  | gone

structure Cfs where
  min : Nat
  /-- The time up to which processes have been charged. -/
  clock : Nat
  maxDelta : Nat
  /-- The process that runs, or 0. -/
  cur : Nat
  standing : Nat → Standing

namespace Cfs

def put (c : Cfs) (p : Nat) (x : Standing) : Cfs :=
  { c with standing := update c.standing p x }

/-- The process that runs is charged with `delta` and stops. -/
def charge (c : Cfs) (x : Standing) (delta : Nat) : Cfs :=
  { c.put c.cur x with
    clock := c.clock + delta
    maxDelta := max c.maxDelta delta
    cur := 0 }

def stop (c : Cfs) : Cfs := { c with cur := 0 }

def pass (c : Cfs) (delta : Nat) : Cfs := { c with clock := c.clock + delta }

def choose (c : Cfs) (p v : Nat) : Cfs := { c with min := v, cur := p }

/-- `wrap` is the arithmetic of the runtimes. A process comes back to the run queue only from
elsewhere. -/
inductive Move (wrap : Nat → Nat) (c : Cfs) : Cfs → Prop where
  | ready {p v : Nat} : c.standing p = .away v → Move wrap c (c.put p (.queued (wrap (v + c.min))))
  | preempt {v : Nat} (delta : Nat) : c.cur ≠ 0 → c.standing c.cur = .queued v →
      Move wrap c (c.charge (.queued (wrap (v + delta))) delta)
  | block {v : Nat} (delta : Nat) : c.cur ≠ 0 → c.standing c.cur = .queued v →
      Move wrap c (c.charge (.away (wrap ((if c.min ≤ v then v - c.min else v) + delta))) delta)
  | finish (p : Nat) : Move wrap c (c.put p .gone).stop
  | create {p : Nat} : p ≠ c.cur → Move wrap c (c.put p (.away 0))
  | choose {p v : Nat} : c.standing p = .queued v → (∀ q u, c.standing q = .queued u → v ≤ u) →
      Move wrap c (c.choose p v)
  | stop : Move wrap c c.stop
  | pass (delta : Nat) : Move wrap c (c.pass delta)

/-- The process that runs is in the run queue, and `min_vruntime` is its own. -/
def CurFirst (c : Cfs) : Prop := c.cur ≠ 0 → c.standing c.cur = .queued c.min

def Moves (wrap : Nat → Nat) : Cfs → Cfs → Prop := Relation.ReflTransGen (Move wrap)

variable {wrap : Nat → Nat} {c c' c'' : Cfs}

theorem Move.moves (h : Move wrap c c') : Moves wrap c c' := .single h

theorem Moves.trans (h : Moves wrap c c') (h' : Moves wrap c' c'') : Moves wrap c c'' :=
  Relation.ReflTransGen.trans h h'

theorem Moves.of_eq (h : Moves wrap c c') (he : c'' = c') : Moves wrap c c'' := he ▸ h

theorem CurFirst.move (F : c.CurFirst) (h : Move wrap c c') : c'.CurFirst := by
  cases h with
  | ready hp =>
    intro hc
    have hcur := F hc
    have hne : c.cur ≠ _ := fun heq => by
      rw [heq, hp] at hcur
      cases hcur
    exact (update_of_ne hne _ _).trans hcur
  | preempt => exact fun hc => absurd rfl hc
  | block => exact fun hc => absurd rfl hc
  | finish => exact fun hc => absurd rfl hc
  | create hp => exact fun hc => (update_of_ne hp.symm _ _).trans (F hc)
  | choose hp => exact fun _ => hp
  | stop => exact fun hc => absurd rfl hc
  | pass => exact F

theorem Moves.curFirst (h : Moves wrap c c') (F : c.CurFirst) : c'.CurFirst := by
  induction h with
  | refl => exact F
  | tail _ hmove ih => exact ih.move hmove

theorem Move.clock_le (h : Move wrap c c') : c.clock ≤ c'.clock := by
  cases h with
  | preempt delta => exact Nat.le_add_right _ delta
  | block delta => exact Nat.le_add_right _ delta
  | pass delta => exact Nat.le_add_right _ delta
  | _ => exact le_rfl

theorem Moves.clock_le (h : Moves wrap c c') : c.clock ≤ c'.clock := by
  induction h with
  | refl => exact le_rfl
  | tail _ hmove ih => exact ih.trans hmove.clock_le

/-- What every move keeps as long as the clock stays below a bound, moves keep. -/
theorem Moves.invariant {P : Cfs → Prop} {B : Nat} (h : Moves wrap c c')
    (hP : ∀ c c', c.CurFirst → Move wrap c c' → c'.clock ≤ B → P c → P c') (F : c.CurFirst)
    (hB : c'.clock ≤ B) (hc : P c) : P c' := by
  induction h with
  | refl => exact hc
  | tail hmoves hmove ih =>
    exact hP _ _ (Moves.curFirst hmoves F) hmove hB (ih (hmove.clock_le.trans hB))

end Cfs

/-! ## The kernel's moves -/

/-- The queue, the runtime and the end of a process. -/
def Proc.share (q : Proc) : QueueId × Nat × Status := (q.curQueue, q.vruntime, q.status)

def Proc.standing (q : Proc) : Standing :=
  if q.curQueue = .runQueue then .queued q.vruntime
  else if q.status = .zombie then .gone
  else .away q.vruntime

/-- The process that runs in user mode, or 0. -/
def Kernel.running (s : Kernel) : Nat :=
  match s.mode with
  | .outside => s.curProc
  | .select _ _ => 0

/-- The time up to which processes have been charged. -/
def Kernel.charged (s : Kernel) : Nat :=
  match s.mode with
  | .outside => s.lastSched
  | .select now _ => now

def Kernel.cfs (s : Kernel) : Cfs where
  min := s.minVruntime
  clock := s.charged
  maxDelta := s.history.maxDelta
  cur := s.running
  standing p := (s.proc p).standing

variable {cfg : Config} {s s' : Kernel} {p : Nat} {status : Int} {q q' : Proc} {e : Event}

theorem Proc.standing_queued (h : q.curQueue = .runQueue) :
    q.standing = .queued q.vruntime := if_pos h

theorem Proc.standing_away (h : q.curQueue ≠ .runQueue) (hz : q.status ≠ .zombie) :
    q.standing = .away q.vruntime := by rw [standing, if_neg h, if_neg hz]

theorem Proc.curQueue_of_queued {v : Nat} (h : q.standing = .queued v) :
    q.curQueue = .runQueue ∧ q.vruntime = v := by
  unfold standing at h
  split_ifs at h with hq hz
  exact ⟨hq, Standing.queued.inj h⟩

theorem Proc.vruntime_of_away {v : Nat} (h : q.standing = .away v) : q.vruntime = v := by
  unfold standing at h
  split_ifs at h with hq hz
  exact Standing.away.inj h

theorem Proc.standing_congr (h : q'.share = q.share) : q'.standing = q.standing := by
  simp only [share, Prod.mk.injEq] at h
  simp only [standing, h]

/-- The fields of the kernel that the abstract machine reads. -/
def Kernel.pace (s : Kernel) : Nat × Nat × Nat × Nat :=
  (s.minVruntime, s.charged, s.history.maxDelta, s.running)

theorem Kernel.cfs_congr (hpace : s'.pace = s.pace)
    (hp : ∀ p, (s'.proc p).share = (s.proc p).share) : s'.cfs = s.cfs := by
  simp only [Kernel.pace, Prod.mk.injEq] at hpace
  have hst (p : Nat) : (s'.proc p).standing = (s.proc p).standing := standing_congr (hp p)
  simp [Kernel.cfs, hpace, hst]

/-- A change of one process. -/
theorem Kernel.cfs_update {x : Standing} (hproc : s'.proc = update s.proc p q')
    (hx : q'.standing = x) (hpace : s'.pace = s.pace) : s'.cfs = s.cfs.put p x := by
  simp only [Kernel.pace, Prod.mk.injEq] at hpace
  simp only [Kernel.cfs, Cfs.put, hpace, hproc, ← hx, Cfs.mk.injEq, true_and]
  exact comp_update standing s.proc p q'

theorem Kernel.Quiet.pace (h : s.Quiet s') : s'.pace = s.pace := by
  obtain ⟨-, hcur, hmin, -, hlast, -, -, -, hmode, hh⟩ := h.fields
  simp [Kernel.pace, Kernel.charged, Kernel.running, hcur, hmin, hlast, hmode, hh]

theorem Kernel.Quiet.ns (h : s.Quiet s') : s'.ns = s.ns := by
  have hclock := congrArg (fun x => x.2.2.2) (Quiet.clock h)
  exact hclock

theorem Kernel.TreeOnly.cfs (h : s.TreeOnly s') : s'.cfs = s.cfs := by
  refine cfs_congr h.quiet.pace fun p => ?_
  have hs := congrArg share (h.flat p)
  exact hs

/-- A change of fields that do not count here. -/
theorem Kernel.modify_cfs {f : Proc → Proc} (hf : ∀ q, (f q).share = q.share) :
    (s.modify p f).cfs = s.cfs := cfs_congr rfl (modify_proc_of hf)

open Cfs (Move Moves)

/-- A process that comes back gets `min_vruntime` added once. -/
theorem addProcRun_moves {i : Bool} (hq : (s.proc p).curQueue ≠ .runQueue)
    (hz : (s.proc p).status ≠ .zombie) (h : s.addProcRun cfg p i = some s') :
    Moves cfg.wrap s.cfs s'.cfs := by
  obtain ⟨-, -, rfl⟩ | ⟨t, u, w, a, rfl⟩ := addProcRun_form h
  · exact .refl
  · have hmove : Move cfg.wrap s.cfs _ := .ready (standing_away hq hz)
    exact hmove.moves.of_eq (cfs_update rfl rfl rfl)

theorem tkillProc_moves {sig : Nat} (hq : (s.proc p).curQueue ≠ .runQueue)
    (h : s.tkillProc cfg p sig = some s') : Moves cfg.wrap s.cfs s'.cfs := by
  obtain ⟨-, rfl⟩ | ⟨-, hz, h⟩ := tkillProc_cases h
  · exact .refl
  · have hsig : (s.modify p (·.setSignal sig true)).cfs = s.cfs := modify_cfs fun _ => rfl
    rw [← hsig]
    refine addProcRun_moves ?_ ?_ h
    · simpa using hq
    · simpa using hz

/-! ## The end of a process -/

/-- The process is without parent, or its parent is not in the run queue. -/
def ParentAway (s : Kernel) (p : Nat) : Prop :=
  (s.proc p).parent = 0 ∨ (s.proc (s.proc p).parent).curQueue ≠ .runQueue

instance (s : Kernel) (p : Nat) : Decidable (ParentAway s p) := inferInstanceAs (Decidable (_ ∨ _))

theorem ParentAway.signal (h : ParentAway s p) (now sig : Nat) :
    ParentAway ((s.choose p now).modify p (·.setSignal sig false)) p := by
  have hpar (q : Nat) : (((s.choose p now).modify p (·.setSignal sig false)).proc q).parent =
      (s.proc q).parent := by
    refine modify_proc_of (g := parent) ?_ q
    exact fun _ => rfl
  have hq (q : Nat) : (((s.choose p now).modify p (·.setSignal sig false)).proc q).curQueue =
      (s.proc q).curQueue := by
    refine modify_proc_of (g := curQueue) ?_ q
    exact fun _ => rfl
  rwa [ParentAway, hpar, hq]

theorem notifyParent_moves (hq : ParentAway s p) (h : s.notifyParent cfg p = some s') :
    Moves cfg.wrap s.cfs s'.cfs := by
  obtain ⟨-, rfl⟩ | ⟨h0, hw, -, h⟩ | ⟨h0, -, h⟩ := notifyParent_cases h
  · exact .refl
  · exact addProcRun_moves (hq.resolve_left h0) (by rw [hw]; decide) h
  · exact tkillProc_moves (hq.resolve_left h0) h

section

variable (E : Kernel.Ends s s' status)
include E

theorem Kernel.Ends.fields :
    s'.curProc = 0 ∧ s'.minVruntime = s.minVruntime ∧ s'.charged = s.charged ∧ s'.ns = s.ns ∧
      s'.mode = s.mode ∧ s'.history = s.history := by
  have hown := sameOwn E.own
  have hcur := hown.curProc
  have hmin := hown.minVruntime
  have hlast := hown.lastSched
  have htick := hown.tick
  have hlen := hown.ticklen
  have hmode := hown.mode
  have hh := hown.history
  refine ⟨hcur, hmin, ?_, ?_, hmode, hh⟩
  · rw [Kernel.charged, hmode, hlast]
    rfl
  · rw [ns, htick, hlen]
    rfl

theorem Kernel.Ends.cfs :
    s'.cfs = (s.cfs.put s.curProc .gone).stop := by
  obtain ⟨hcur, hmin, hcharged, -, hmode, hh⟩ := E.fields
  have hrun : s'.running = 0 := by
    rw [Kernel.running, hcur]
    split <;> rfl
  have hstand : s'.cfs.standing = update s.cfs.standing s.curProc .gone := by
    funext p
    by_cases hp : p = s.curProc
    · subst hp
      have hs := congrArg standing E.cur
      rw [update_self]
      exact hs
    · have hs := congrArg standing (E.rest p hp)
      rw [update_of_ne hp]
      exact hs
  rw [Kernel.cfs, Cfs.mk.injEq]
  exact ⟨hmin, hcharged, by rw [hh]; rfl, hrun, hstand⟩

/-- The parent of a process that ends is the one it had, or none. -/
theorem Kernel.Ends.parentAway
    (ha : ParentAway s s.curProc) : ParentAway s' s.curProc := by
  obtain hp | hp := E.parent s.curProc
  · unfold ParentAway
    rw [hp]
    refine ha.imp id fun hq => ?_
    by_cases hpc : (s.proc s.curProc).parent = s.curProc
    · have hs := congrArg curQueue E.cur
      have hs' : (s'.proc s.curProc).curQueue = .noQueue := hs
      rw [hpc, hs']
      decide
    · have hs := congrArg curQueue (E.rest _ hpc)
      exact fun h => hq (hs.symm.trans h)
  · exact .inl hp

end

/-- `schedule` with null in `cur_proc` lets the time pass. -/
theorem toSelect_moves (hc : s.charged ≤ s.ns) :
    Moves cfg.wrap s.cfs (s.clts.toSelect s.ns 0).cfs := by
  have hmoves : Moves cfg.wrap s.cfs (s.cfs.stop.pass (s.ns - s.charged)) :=
    (Move.moves .stop).trans (Move.moves (.pass _))
  refine hmoves.of_eq ?_
  have hns : s.charged + (s.ns - s.charged) = s.ns := Nat.add_sub_of_le hc
  simp only [Kernel.cfs, Cfs.stop, Cfs.pass, hns]
  rfl

theorem exit_moves (ha : ParentAway s s.curProc) (hc : s.charged ≤ s.ns)
    (h : s.exit cfg status = some s') : Moves cfg.wrap s.cfs s'.cfs := by
  obtain ⟨s1, s2, E, h2, rfl⟩ := exit_ends h
  have hend : Move cfg.wrap s.cfs _ := .finish s.curProc
  have hnotify := notifyParent_moves (E.parentAway ha) h2
  refine ((hend.moves.of_eq E.cfs).trans hnotify).trans (toSelect_moves ?_)
  obtain ⟨-, -, hcharged, hns, -⟩ := E.fields
  have hq := notifyParent_quiet h2
  have hpace := hq.pace
  simp only [Kernel.pace, Prod.mk.injEq] at hpace
  rw [hpace.2.1, hcharged, hq.ns, hns]
  exact hc

/-! ## The steps -/

/-- `schedule` charges the process that runs with the time since `last_sched`. -/
theorem Kernel.cfs_charge {x : Standing} (hm : s.mode = .outside) (hc : s.charged ≤ s.ns)
    (hproc : s'.proc = update s.proc s.curProc q') (hx : q'.standing = x)
    (hmin : s'.minVruntime = s.minVruntime)
    (hmax : s'.history.maxDelta = max s.history.maxDelta (s.ns - s.lastSched))
    (hmode : s'.mode = .select s.ns s.curProc) : s'.cfs = s.cfs.charge x (s.ns - s.lastSched) := by
  have hlast : s.charged = s.lastSched := by rw [Kernel.charged, hm]
  have hclock : s'.charged = s.charged + (s.ns - s.lastSched) := by
    rw [Kernel.charged, hmode, hlast, Nat.add_sub_of_le (hlast ▸ hc)]
  have hcur : s.cfs.cur = s.curProc := by rw [Kernel.cfs, Kernel.running, hm]
  have hrun : s'.running = 0 := by rw [Kernel.running, hmode]
  have hstand : s'.cfs.standing = update s.cfs.standing s.cfs.cur x := by
    rw [hcur, Kernel.cfs, hproc, ← hx]
    exact comp_update standing s.proc s.curProc q'
  rw [Kernel.cfs, Cfs.mk.injEq]
  exact ⟨hmin, hclock, hmax, hrun, hstand⟩

/-- The process that runs goes back into the run queue. -/
theorem schedule_moves {regs : Bool} (F : s.cfs.CurFirst) (hc : s.charged ≤ s.ns)
    (hm : s.online = true → s.mode = .outside) (h : s.schedule cfg regs = some s') :
    Moves cfg.wrap s.cfs s'.cfs := by
  obtain ⟨-, rfl⟩ | ⟨-, -, rfl⟩ | ⟨-, -, -, rfl⟩ | ⟨ho, hne, s1, hs1, rfl⟩ := schedule_cases h
  · exact .refl
  · exact toSelect_moves hc
  · exact .refl
  · obtain ⟨t, u, w, a, rfl⟩ := switchOut_form hs1
    have hcur : s.cfs.cur = s.curProc := by rw [Kernel.cfs, Kernel.running, hm ho]
    have hfirst := F (hcur ▸ hne)
    have hmove : Move cfg.wrap s.cfs _ := .preempt (s.ns - s.lastSched) (hcur ▸ hne) hfirst
    rw [hcur] at hfirst
    obtain ⟨hq, hv⟩ := curQueue_of_queued hfirst
    refine hmove.moves.of_eq (cfs_charge (hm ho) hc rfl ?_ rfl rfl rfl)
    rw [← hv]
    exact standing_queued hq

/-- The process that runs waits. -/
theorem Kernel.Blocks.moves {cont : Cont} {queue : QueueId} {pid : Int} (F : s.cfs.CurFirst)
    (hc : s.charged ≤ s.ns) (hm : s.mode = .outside) (hne : s.curProc ≠ 0) (hq : queue ≠ .runQueue)
    (h : Blocks cfg s s' cont queue pid) : Moves cfg.wrap s.cfs s'.cfs := by
  have hown := sameOwn h.own
  have hmin := hown.minVruntime
  have hmode := hown.mode
  have hh := hown.history
  obtain ⟨a, hproc⟩ := h.proc
  have hcur : s.cfs.cur = s.curProc := by rw [Kernel.cfs, Kernel.running, hm]
  have hfirst := F (hcur ▸ hne)
  have hmove : Move cfg.wrap s.cfs _ := .block (s.ns - s.lastSched) (hcur ▸ hne) hfirst
  rw [hcur] at hfirst
  obtain ⟨-, hv⟩ := curQueue_of_queued hfirst
  refine hmove.moves.of_eq (cfs_charge hm hc hproc ?_ hmin (by rw [hh]; rfl) hmode)
  rw [standing_away hq (by simp), blocked_vruntime, unreadied_vruntime, hv]
  rfl

theorem reap_cfs (s : Kernel) (pid : Int) (c : Nat) : (s.reap pid c).cfs = s.cfs :=
  (delete_treeOnly s c).cfs

theorem resume_cfs (h : s.resume = some s') : s'.cfs = s.cfs := by
  obtain ⟨-, rfl⟩ | ⟨-, rfl⟩ | ⟨pid, c, -, -, -, -, rfl⟩ := resume_cases h
  · rfl
  · exact modify_cfs fun _ => rfl
  · rw [reap_cfs, modify_modify]
    exact modify_cfs fun _ => rfl

/-- The process chosen has the least runtime, which becomes `min_vruntime`. -/
theorem choose_move {wrap : Nat → Nat} {a : Nat} (H : Sane s) (ha : s.runQueue.begin = some a)
    (hsz : s.runQueue.sz ≠ 0) : Move wrap s.cfs
      (s.cfs.choose (s.runQueue.node a).key (s.proc (s.runQueue.node a).key).vruntime) := by
  obtain ⟨hq, hmin⟩ := H.first ha hsz
  refine .choose (standing_queued hq) fun q u hu => ?_
  obtain ⟨hr, rfl⟩ := curQueue_of_queued hu
  exact hmin q hr

theorem entered_cfs {pold : Nat} (hq : (s.proc s.curProc).curQueue = .runQueue) :
    (s.entered pold).cfs = { s.cfs with clock := s.lastSched, cur := s.curProc } := by
  rw [Kernel.cfs, Cfs.mk.injEq]
  refine ⟨rfl, rfl, rfl, rfl, funext fun p => ?_⟩
  by_cases hp : p = s.curProc
  · subst hp
    rw [entered_proc, update_self, standing_queued (by exact hq)]
    exact (standing_queued hq).symm
  · rw [entered_proc, update_of_ne hp]
    rfl

theorem select_moves {now pold : Nat} (H : Sane s) (hm : s.mode = .select now pold)
    (hc : s.charged ≤ s.ns) (ha : ∀ p ∈ s.ending .select, ParentAway s p)
    (h : s.select cfg now pold = some s') : Moves cfg.wrap s.cfs s'.cfs := by
  obtain ⟨a, p, hbegin, rfl, hsz, -, -, h⟩ := select_cases h
  have hq := (H.first hbegin hsz).1
  have hmove : Move cfg.wrap s.cfs _ := choose_move H hbegin hsz
  have hclock : s.charged = now := by rw [Kernel.charged, hm]
  have hcharged : (s.choose (s.runQueue.node a).key now).charged = s.charged := by
    simp only [Kernel.charged, choose_mode, hm]
  have hsig (sig : Nat) : ((s.choose (s.runQueue.node a).key now).modify (s.runQueue.node a).key
      (·.setSignal sig false)).cfs = (s.choose (s.runQueue.node a).key now).cfs :=
    modify_cfs fun _ => rfl
  -- the chosen process runs, with the time of the call of `schedule` in `last_sched`
  have hrun {t : Kernel} (ht : t.cfs = (s.choose (s.runQueue.node a).key now).cfs)
      (hcur : t.curProc = (s.runQueue.node a).key) (hlast : t.lastSched = now)
      (hqt : (t.proc t.curProc).curQueue = .runQueue) (hd : t.dispatch pold = some s') :
      Moves cfg.wrap s.cfs s'.cfs := by
    refine hmove.moves.of_eq ((resume_cfs (dispatch_entered hd)).trans ?_)
    rw [entered_cfs hqt, ht, hcur, hlast, ← hclock]
    rfl
  obtain ⟨-, h⟩ | ⟨sig, hfirst, ⟨hf, h⟩ | ⟨-, h⟩⟩ := h
  · exact hrun rfl rfl rfl hq h
  · have hend : s.ending .select = some (s.runQueue.node a).key := by
      simp [ending, hbegin, hfirst, hf]
    have hstop : Moves cfg.wrap s.cfs (s.choose (s.runQueue.node a).key now).cfs := by
      refine (hmove.moves.trans (Move.moves .stop)).of_eq ?_
      rw [Kernel.cfs, Cfs.mk.injEq]
      exact ⟨rfl, hcharged, rfl, by simp [Kernel.running, hm, Cfs.stop], rfl⟩
    have hexit := exit_moves ((ha _ hend).signal now sig) (hcharged.trans_le hc) h
    rw [hsig] at hexit
    exact hstop.trans hexit
  · refine hrun (hsig sig) rfl rfl ?_ h
    simpa using hq

theorem clone_moves {flags : Nat} {mem : Bool} (H : Sane s) (hm : s.mode = .outside)
    (h : s.clone cfg flags mem = some s') : Moves cfg.wrap s.cfs s'.cfs := by
  have hcur : s.nextTid ≠ s.cfs.cur := by
    rw [Kernel.cfs, Kernel.running, hm]
    exact H.cur.ne'
  obtain rfl | rfl | ⟨-, s1, r, h1, -, rfl⟩ := clone_cases h
  · exact .refl
  · exact .refl
  · have T := linkChild_treeOnly ((s.takeTid.setFpuOut s.nextTid none).modify s.nextTid fun _ =>
      s.cloned flags) s.nextTid (s.clonedParent flags)
    have hcreate : Moves cfg.wrap s.cfs
        ((s.takeTid.setFpuOut s.nextTid none).modify s.nextTid fun _ => s.cloned flags).cfs := by
      have hmove : Move cfg.wrap s.cfs _ := .create hcur
      exact hmove.moves.of_eq (cfs_update rfl rfl rfl)
    have hnew := T.flat s.nextTid
    rw [modify_proc, update_self] at hnew
    have hq := congrArg curQueue hnew
    have hst := congrArg status hnew
    simp only [flat_curQueue, flat_status] at hq hst
    have hready := addProcRun_moves (by rw [hq]; exact nofun) (by rw [hst]; exact nofun) h1
    rw [T.cfs] at hready
    exact hcreate.trans hready

/-- The events of the scheduler: no signals from outside and no `setnice`. -/
def schedEvent : Event → Bool
  | .tick | .select | .clone .. | .exit _ | .waitpid .. | .nanosleep _ | .wait _ | .wake .. => true
  | .fpu _ | .fault | .tkill _ _ | .setnice _ => false

/-- No process ends in the step while its parent is in the run queue. -/
theorem step_moves (hg : cfg.guard = true) (H : Sane s) (M : s.ModeOk)
    (F : s.cfs.CurFirst) (hc : s.charged ≤ s.ns)
    (hok : schedEvent e = true ∧ ∀ p ∈ s.ending e, ParentAway s p) (h : s.step cfg e = some s') :
    Moves cfg.wrap s.cfs s'.cfs := by
  have hadd : ReadyKeeps cfg fun t => Moves cfg.wrap s.cfs t.cfs := fun t p t' q H hp hq h hmoves =>
    hmoves.trans (addProcRun_moves (by rw [hp]; exact hq.2) (live_of_queue H hp hq.1).2.1 h)
  obtain ⟨-, hi, h⟩ | ⟨cv, tid, -, -, h⟩ | ⟨now, pold, rfl, hm, h⟩ | ⟨hm, hcur, h⟩ := step_cases h
  · obtain ⟨s1, -, hwake, hq, h⟩ := timerTick_sane hg hadd h H .refl
    have ho := hq.fields.online
    have hmode := hq.fields.mode
    have hpace := hq.pace
    simp only [Kernel.pace, Prod.mk.injEq] at hpace
    have hc1 : s1.charged ≤ s1.ns := by
      rw [hpace.2.1, hq.ns]
      exact hc.trans (ns_le_addTick s)
    refine hwake.trans (schedule_moves (hwake.curFirst F) hc1 (fun hon => ?_) h)
    obtain hout | ⟨-, hoff⟩ := interruptible_cases hi
    · exact hmode.trans hout
    · exact absurd (hon.symm.trans (ho.trans hoff)) (by decide)
  · exact (wake_sane hg hadd h H .refl).2
  · exact select_moves H hm hc hok.2 h
  · cases e with
    | tick | select | wake => cases h
    | fpu => cases hok.1
    | fault => cases hok.1
    | tkill => cases hok.1
    | setnice => cases hok.1
    | clone flags mem => exact clone_moves H hm h
    | exit status => exact exit_moves (hok.2 _ rfl) hc h
    | waitpid pid ptr options =>
      obtain rfl | ⟨-, c, -, ⟨-, -, rfl⟩ | ⟨-, -, h⟩⟩ := waitpid_cases h
      · exact .refl
      · rw [reap_cfs]
        exact .refl
      · exact (waitpidSleep_blocks hcur h).moves F hc hm hcur (by decide)
    | nanosleep n =>
      obtain rfl | h := nanosleep_blocks hcur h
      · exact .refl
      · exact h.moves F hc hm hcur (by decide)
    | wait cv => exact (wait_blocks hcur h).moves F hc hm hcur (by decide)

/-! ## Runs -/

/-- No process is charged ahead of the time. -/
theorem step_charged (M : s.ModeOk) (hc : s.charged ≤ s.ns) (h : s.step cfg e = some s') :
    s'.charged ≤ s'.ns := by
  cases step_phase M h with
  | stay _ hmode _ hlast hns =>
    rw [Kernel.charged, hmode, hlast]
    exact hc.trans hns
  | charge _ _ hmode =>
    rw [Kernel.charged, hmode]
  | fresh _ hmode =>
    rw [Kernel.charged, hmode]
  | dispatch hmode hmode' hlast hns =>
    rw [Kernel.charged, hmode] at hc
    rw [Kernel.charged, hmode', hlast, hns]
    exact hc

/-- What the moves of a run rest on. -/
structure Scheduled (s : Kernel) : Prop where
  sane : Sane s
  modeOk : s.ModeOk
  cur : s.cfs.CurFirst
  charged : s.charged ≤ s.ns

variable {w : Nat → Nat}

theorem Started.scheduled (h : Started w s) : Scheduled s := by
  refine ⟨h.sane, h.modeOk, ?_, ?_⟩
  · obtain ⟨tick, ticklen, fpu, uid, uid', t, a, a', rfl⟩ := h.form
    exact fun hc => absurd rfl hc
  · obtain ⟨tick, ticklen, fpu, uid, uid', t, a, a', rfl⟩ := h.form
    exact Nat.zero_le _

/-- Nobody has run yet. -/
theorem Started.cfs (h : Started w s) : s.cfs.min = 0 ∧
    ∀ p v, s.cfs.standing p = .queued v ∨ s.cfs.standing p = .away v → v = 0 := by
  have hv := h.procs (P := fun q => q.vruntime = 0) rfl fun _ _ _ _ => rfl
  refine ⟨?_, ?_⟩
  · obtain ⟨tick, ticklen, fpu, uid, uid', t, a, a', rfl⟩ := h.form
    rfl
  · rintro p v (hq | hq)
    · exact (curQueue_of_queued hq).2.symm.trans (hv p)
    · exact (vruntime_of_away hq).symm.trans (hv p)

/-- A step of the kernel is a sequence of moves. -/
theorem Scheduled.step (S : Scheduled s) (hq : QueueOk w s e)
    (hok : schedEvent e = true ∧ ∀ p ∈ s.ending e, ParentAway s p)
    (h : s.step (.code w) e = some s') : Scheduled s' ∧ Moves w s.cfs s'.cfs := by
  have hstep := step_below.agree hq.1 h
  have hmoves : Moves w s.cfs s'.cfs := step_moves rfl S.sane S.modeOk S.cur S.charged hok hstep
  exact ⟨⟨(hq.keeps h S.sane).1, step_modeOk S.modeOk h, hmoves.curFirst S.cur,
    step_charged S.modeOk S.charged h⟩, hmoves⟩

end Sysint.Process
