import Sysint.Rbtree.Run
import Sysint.Process.Sane

/-! Runs whose insertions all leave red-black trees: there the kernel does what it
does with the check of the insertions, so that its queues stay intact. -/
namespace Sysint.Process
open Option Nat
open Machine (Below)
open Kernel
open Machine
open Rbtree
open Proc

variable {w : Nat → Nat} {s : Kernel} {p : Nat} {e : Event}

theorem Config.insert_below {K : Type} {o : Order K} {t : Rbtree K} {k : K} :
    Below ((Config.checked w).insert o t k) ((Config.code w).insert o t k) := by
  intro r h
  exact (Config.insert_guard rfl h).2

namespace Kernel

theorem insertRun_below : Below (s.insertRun (.checked w) p) (s.insertRun (.code w) p) :=
  Config.insert_below.map _

theorem makeReady_below : Below (s.makeReady (.checked w) p) (s.makeReady (.code w) p) :=
  .bind (.refl _) fun _ => .bind insertRun_below fun _ => .refl _

theorem addProcRun_below {i : Bool} :
    Below (s.addProcRun (.checked w) p i) (s.addProcRun (.code w) p i) := by
  unfold addProcRun
  split_ifs
  exacts [makeReady_below, .refl _, makeReady_below]

theorem wakeSleepers_below {now fuel : Nat} {it : Nat} :
    Below (wakeSleepers (.checked w) now fuel s it) (wakeSleepers (.code w) now fuel s it) := by
  induction fuel generalizing s it with
  | zero => exact .refl _
  | succ n ih =>
    simp only [wakeSleepers]
    split_ifs
    · exact .bind (.refl _) fun _ => .bind addProcRun_below fun _ => ih
    · exact .refl _

theorem switchOut_below {delta : Nat} {regs : Bool} :
    Below (s.switchOut (.checked w) p delta regs) (s.switchOut (.code w) p delta regs) := by
  simp only [switchOut]
  split_ifs
  · exact .bind (.refl _) fun _ => insertRun_below
  · exact .refl _

theorem schedule_below {regs : Bool} :
    Below (s.schedule (.checked w) regs) (s.schedule (.code w) regs) := by
  simp only [schedule]
  split_ifs
  exacts [.refl _, .refl _, .refl _, switchOut_below.map _]

theorem timerTick_below : Below (s.timerTick (.checked w)) (s.timerTick (.code w)) :=
  .bind (.refl _) fun _ => .bind wakeSleepers_below fun _ => schedule_below

theorem wakeEntries_below {tid : Int} {es : List (Nat × Nat)} :
    Below (wakeEntries (.checked w) tid es s) (wakeEntries (.code w) tid es s) := by
  induction es generalizing s with
  | nil => exact .refl _
  | cons e es ih =>
    simp only [wakeEntries]
    split_ifs
    exacts [addProcRun_below, .bind addProcRun_below fun _ => ih, ih]

theorem tkillProc_below {sig : Nat} :
    Below (s.tkillProc (.checked w) p sig) (s.tkillProc (.code w) p sig) := by
  unfold tkillProc
  split_ifs
  exacts [addProcRun_below, .refl _, .refl _]

theorem notifyParent_below :
    Below (s.notifyParent (.checked w) p) (s.notifyParent (.code w) p) := by
  simp only [notifyParent]
  split_ifs
  exacts [.refl _, addProcRun_below, tkillProc_below]

theorem exit_below {status : Int} :
    Below (s.exit (.checked w) status) (s.exit (.code w) status) := by
  refine .bind (.refl _) fun _ => .bind (.refl _) fun _ => .bind (.refl _) fun _ =>
    .bind notifyParent_below fun _ => ?_
  split_ifs
  exacts [schedule_below, .refl _]

theorem clone_below {flags : Nat} {mem : Bool} :
    Below (s.clone (.checked w) flags mem) (s.clone (.code w) flags mem) := by
  simp only [clone]
  split_ifs
  · exact .refl _
  · exact .refl _
  · exact .refl _
  · exact .bind addProcRun_below fun _ => .bind Config.insert_below fun _ => .refl _

theorem waitpid_below {pid : Int} {ptr : Bool} {options : Int} :
    Below (s.waitpid (.checked w) pid ptr options) (s.waitpid (.code w) pid ptr options) := by
  unfold waitpid
  split_ifs
  · exact .refl _
  · exact .refl _
  · exact .refl _
  · refine .bind (.refl _) fun _ => ?_
    split_ifs
    exacts [.refl _, .refl _, .bind (.refl _) fun _ => schedule_below]

theorem select_below {now pold : Nat} :
    Below (s.select (.checked w) now pold) (s.select (.code w) now pold) := by
  refine .bind (.refl _) fun _ => ?_
  simp only
  split_ifs
  · exact .refl _
  · split
    · exact .refl _
    · split_ifs
      exacts [exit_below, .refl _]

theorem nanosleep_below {ns : Nat} :
    Below (s.nanosleep (.checked w) ns) (s.nanosleep (.code w) ns) := by
  unfold nanosleep
  split_ifs
  · exact .refl _
  · exact .bind (.refl _) fun _ => .bind Config.insert_below fun _ => schedule_below

theorem tkill_below {tid sig : Int} :
    Below (s.tkill (.checked w) tid sig) (s.tkill (.code w) tid sig) := by
  unfold tkill
  split_ifs
  · exact .refl _
  · refine .bind (.refl _) fun _ => ?_
    split_ifs
    exacts [.refl _, tkillProc_below]

theorem setnice_below {inc : Int} :
    Below (s.setnice (.checked w) inc) (s.setnice (.code w) inc) := by
  simp only [setnice]
  split_ifs
  exacts [.refl _, .refl _, .bind (.refl _) fun _ => insertRun_below]

theorem userStep_below : Below (s.userStep (.checked w) e) (s.userStep (.code w) e) := by
  cases e with
  | tick => exact .refl _
  | select => exact .refl _
  | wake cv tid => exact .refl _
  | fpu v => exact .refl _
  | fault => exact .bind tkillProc_below fun _ => schedule_below
  | clone flags mem => exact clone_below
  | exit status => exact exit_below
  | waitpid pid ptr options => exact waitpid_below
  | nanosleep ns => exact nanosleep_below
  | wait cv => exact .bind (.refl _) fun _ => schedule_below
  | tkill tid sig => exact tkill_below
  | setnice inc => exact setnice_below

theorem step_below : Below (s.step (.checked w) e) (s.step (.code w) e) := by
  unfold step
  split
  · split_ifs
    exacts [timerTick_below, .refl _]
  · split_ifs
    exacts [wakeEntries_below, .refl _]
  · exact select_below
  · split_ifs
    exacts [.refl _, userStep_below]
  · exact .refl _

theorem add_below {uid : Nat} : Below (s.add (.checked w) uid) (s.add (.code w) uid) :=
  insertRun_below.map _

theorem init_below {tick ticklen : Nat} {fpu : Fpu} {uid uid' : Nat} :
    Below (init (.checked w) tick ticklen fpu uid uid')
      (init (.code w) tick ticklen fpu uid uid') := by
  unfold init
  exact Below.bind (add_below (s := boot tick ticklen fpu)) fun _ =>
    .bind add_below fun _ => .refl _

end Kernel

/-! ## Runs -/

variable {s s' : Kernel} {cfg : Config}

/-- The states that `process::init` leaves. -/
def Started (w : Nat → Nat) (s : Kernel) : Prop :=
  ∃ tick ticklen fpu uid uid', Kernel.init (.code w) tick ticklen fpu uid uid' = some s

theorem Started.form (h : Started w s) : ∃ tick ticklen fpu uid uid' t a a',
    s = (((boot tick ticklen fpu).takeTid.takeTid.putQueues t .empty fun _ => []).setProcs
      (Function.update (Function.update (fun _ => .new 0 0) 1 (.loaded 1 uid fpu a)) 2
        (.loaded 2 uid' fpu a'))).setOnline true := by
  obtain ⟨tick, ticklen, fpu, uid, uid', h⟩ := h
  exact ⟨tick, ticklen, fpu, uid, uid', init_form h⟩

/-- What holds of a new process and of the processes that `init` makes holds of every
process at the start. -/
theorem Started.procs {P : Proc → Prop} (h : Started w s) (hnew : P (.new 0 0))
    (hload : ∀ p uid fpu a, P (.loaded p uid fpu a)) (p : Nat) : P (s.proc p) := by
  obtain ⟨tick, ticklen, fpu, uid, uid', t, a, a', rfl⟩ := h.form
  refine (Function.forall_update_iff _ fun _ => P).mpr ⟨hload .., fun r _ => ?_⟩ p
  exact (Function.forall_update_iff _ fun _ => P).mpr ⟨hload .., fun _ _ => hnew⟩ r

theorem Started.modeOk (h : Started w s) : s.ModeOk := by
  obtain ⟨tick, ticklen, fpu, uid, uid', t, a, a', rfl⟩ := h.form
  exact ⟨fun _ => rfl⟩

theorem boot_sane (tick ticklen : Nat) (fpu : Fpu) : Sane (boot tick ticklen fpu) := by
  refine ⟨⟨[], [], ?_⟩, ⟨[], holds_empty, nofun⟩, fun p => Nat.one_pos, Nat.one_pos⟩
  constructor
  · exact holds_empty
  · exact List.Pairwise.nil
  · simp [boot, new]
  · exact holds_empty
  · exact List.Pairwise.nil
  · simp [boot, new]
  · simp [boot]
  · simp [boot, new]
  · simp [boot]
  · simp [boot]
  · simp [boot, new]

theorem add_sane {uid : Nat} (hg : cfg.guard = true) (h : s.add cfg uid = some s') (H : Sane s) :
    Sane s' := by
  obtain ⟨hnew, -⟩ := H.next
  obtain ⟨s1, h1, rfl⟩ := map_eq_some_iff.mp h
  have T : Frame s s.takeTid := ⟨rfl, le_succ _, fun h => h.trans (lt_succ_self _),
    fun h p => (h p).trans (lt_succ_self _), fun _ => .refl _⟩
  have F : Frame s.takeTid (s.takeTid.modify s.nextTid fun _ =>
      { new s.nextTid uid with fpuBuf := s.fpu, status := .ready }) :=
    .modify (.of_noQueue hnew rfl) (.inl (Nat.zero_le _))
  rw [← modify_id (s.takeTid.modify _ _) s.nextTid] at h1
  refine (enter_keeps steady_closed hg ?_ ?_ ?_ ?_ ?_ h1 ((T.trans F).sane H)).1
  · simp [new]
  · exact zero_lt_of_lt H.cur
  · exact lt_succ_self _
  · simp
  · simp

theorem init_sane {tick ticklen : Nat} {fpu : Fpu} {uid uid' : Nat} (hg : cfg.guard = true)
    (h : Kernel.init cfg tick ticklen fpu uid uid' = some s) : Sane s := by
  obtain ⟨s1, h1, h⟩ := bind_eq_some_iff.mp h
  obtain ⟨s2, h2, h⟩ := bind_eq_some_iff.mp h
  cases h
  exact (setOnline_frame s2 true).sane (add_sane hg h2 (add_sane hg h1 (boot_sane ..)))

theorem Started.sane (h : Started w s) : Sane s := by
  obtain ⟨tick, ticklen, fpu, uid, uid', h⟩ := h
  have hsome : (Kernel.init (.checked w) tick ticklen fpu uid uid').isSome := rfl
  exact init_sane rfl (init_below.agree hsome h)

/-- The step makes no insertion that leaves a red node below a red node, and it is
no call of `setnice` that moves the process. -/
def QueueOk (w : Nat → Nat) (s : Kernel) (e : Event) : Prop :=
  (s.step (.checked w) e).isSome ∧ NoNice s e

instance (s : Kernel) (e : Event) : Decidable (QueueOk w s e) :=
  inferInstanceAs (Decidable (_ ∧ _))

theorem QueueOk.keeps (hok : QueueOk w s e) (h : s.step (.code w) e = some s') : Keeps s s' :=
  step_keeps rfl hok.2 (step_below.agree hok.1 h)

/-- Every run whose steps are `QueueOk` keeps the queues. -/
theorem reach_sane {ok : Kernel → Event → Prop} (hok : ∀ s e, ok s e → QueueOk w s e)
    (h : Reach (Started w) (step (.code w)) ok s) : Sane s := by
  refine h.invariant (fun s => Started.sane) fun s e s' H hs hstep => ?_
  exact ((hok s e hs).keeps hstep H).1

/-! ## The queues and the processes agree -/

/-- The node `a` of the queue holds the process `p`. -/
def Member (s : Kernel) (a p : Nat) : QueueId → Prop
  | .noQueue => False
  | .runQueue => ∃ xs, Inorder s.runQueue s.runQueue.root xs ∧ a ∈ xs ∧
      (s.runQueue.node a).key = p
  | .sleepQueue => ∃ xs, Inorder s.sleepQueue s.sleepQueue.root xs ∧ a ∈ xs ∧
      (s.sleepQueue.node a).key.p = p
  | .eventQueue => ∃ cv, (a, p) ∈ s.waiting cv

/-- No queue holds a node twice, and every process is in the queue that `cur_queue`
names, in the node `queue_handle`, and nowhere else. -/
structure Intact (s : Kernel) : Prop where
  runNodes : ∃ xs, Inorder s.runQueue s.runQueue.root xs ∧ xs.Nodup
  sleepNodes : ∃ xs, Inorder s.sleepQueue s.sleepQueue.root xs ∧ xs.Nodup
  entries : ∀ cv, (s.waiting cv).Nodup
  lists : ∀ cv cv' e, e ∈ s.waiting cv → e ∈ s.waiting cv' → cv = cv'
  member : ∀ p a q, Member s a p q ↔
    q ≠ .noQueue ∧ (s.proc p).curQueue = q ∧ (s.proc p).queueHandle = a

theorem member_tree {K : Type} {t : Rbtree K} {xs : List (Nat × K)} (H : Linked t xs)
    (a : Nat) (P : K → Prop) :
    (∃ ys, Inorder t t.root ys ∧ a ∈ ys ∧ P (t.node a).key) ↔ ∃ k, (a, k) ∈ xs ∧ P k := by
  constructor
  · rintro ⟨ys, hys, ha, hP⟩
    rw [hys.unique H.inorder] at ha
    obtain ⟨x, hx, rfl⟩ := List.mem_map.mp ha
    exact ⟨x.2, hx, H.key hx ▸ hP⟩
  · rintro ⟨k, hk, hP⟩
    have hkey : (t.node a).key = k := H.key hk
    exact ⟨_, H.inorder, List.mem_map_of_mem hk, hkey.symm ▸ hP⟩

theorem Sane.intact (H : Sane s) : Intact s := by
  obtain ⟨rq, sq, Q⟩ := H.queues
  refine ⟨⟨_, Q.run.inorder, Q.run.nodup⟩, ⟨_, Q.sleep.inorder, Q.sleep.nodup⟩, Q.event,
    fun cv cv' e he he' => (Q.eventUnique cv cv' e e he he' rfl).1, fun p a q => ?_⟩
  cases q with
  | noQueue => simp [Member]
  | runQueue =>
    rw [Member, member_tree Q.run.linked a (· = p)]
    simp [Q.runMem a p]
  | sleepQueue =>
    rw [Member, member_tree Q.sleep.linked a fun k => k.p = p]
    rw [← Q.sleepMem a p]
    constructor
    · rintro ⟨⟨q, w⟩, hk, rfl⟩
      exact ⟨by decide, w, hk⟩
    · rintro ⟨-, w, hk⟩
      exact ⟨⟨p, w⟩, hk, rfl⟩
  | eventQueue =>
    rw [Member, ← Q.eventMem a p]
    simp

/-- In every run without an insertion that breaks a tree and without a `setnice` that
moves a process, the queues and the processes agree, and the fields that order the
run queue do not change while a process has its node there. -/
theorem queues_agree (w : Nat → Nat) {s : Kernel}
    (h : Reach (Started w) (step (.code w)) (QueueOk w) s) :
    Intact s ∧ ∀ e s', QueueOk w s e → s.step (.code w) e = some s' →
      ∀ p a, Member s a p .runQueue → Member s' a p .runQueue →
        (s'.proc p).vruntime = (s.proc p).vruntime ∧ (s'.proc p).nice = (s.proc p).nice := by
  have H := reach_sane (fun _ _ => id) h
  refine ⟨H.intact, fun e s' hok hstep p a hm hm' => ?_⟩
  obtain ⟨H', S⟩ := hok.keeps hstep H
  obtain ⟨-, hq, rfl⟩ := (H.intact.member p a .runQueue).mp hm
  obtain ⟨-, hq', hh⟩ := (H'.intact.member p _ .runQueue).mp hm'
  obtain hnew | ⟨-, -, hv, hn⟩ := S.2 p hq'
  · -- a node of the run queue was made before
    obtain ⟨rq, sq, Q⟩ := H.queues
    have hlt := (Q.run.range ((Q.runMem _ p).mpr ⟨hq, rfl⟩)).2
    rw [hh] at hnew
    exact absurd hnew (not_le_of_gt hlt)
  · exact ⟨hv, hn⟩

/-- The arithmetic of `uint64_t`. -/
def uint64 (n : Nat) : Nat := n % 2 ^ 64

/-- The run with the given events from the start at time 0, with the timer at 250 Hz
and 5 in the FPU registers. -/
def runOf (w : Nat → Nat) (ok : Kernel → Event → Prop) [∀ s e, Decidable (ok s e)]
    (es : List Event) :
    Option Kernel :=
  (Kernel.init (.code w) 0 4000000 5 0 0).bind fun s =>
    run (guarded (step (.code w)) ok) s es

theorem runOf_reach {ok : Kernel → Event → Prop} [∀ s e, Decidable (ok s e)] {es : List Event}
    (h : runOf w ok es = some s) : Reach (Started w) (step (.code w)) ok s := by
  obtain ⟨s0, h0, h⟩ := bind_eq_some_iff.mp h
  exact Reach.runGuarded (.init ⟨0, 4000000, 5, 0, 0, h0⟩) h

section
variable {γ ι : Type} {step : Kernel × γ → ι → Option (Kernel × γ)} {init : Kernel × γ → Prop}
  {ok : Kernel × γ → ι → Prop} [∀ x i, Decidable (ok x i)]

/-- The same run of the kernel with a record. -/
def runRecorded (step : Kernel × γ → ι → Option (Kernel × γ)) (ok : Kernel × γ → ι → Prop)
    [∀ x i, Decidable (ok x i)] (g : γ) (is : List ι) : Option (Kernel × γ) :=
  (Kernel.init (.code uint64) 0 4000000 5 0 0).bind fun s =>
    run (guarded step ok) (s, g) is

theorem runRecorded_reach {g : γ} {is : List ι} {x : Kernel × γ}
    (h : runRecorded step ok g is = some x) (hinit : ∀ s, Started uint64 s → init (s, g)) :
    Reach init step ok x := by
  obtain ⟨s0, h0, h⟩ := bind_eq_some_iff.mp h
  exact Reach.runGuarded (.init (hinit s0 ⟨0, 4000000, 5, 0, 0, h0⟩)) h

end

theorem queues_agree_sample : ∃ s, Reach (Started uint64) (step (.code uint64)) (QueueOk uint64) s ∧
      [1, 2, 3].map (fun p => (s.proc p).curQueue) = [.sleepQueue, .eventQueue, .runQueue] ∧
      Intact s ∧ ∀ e s', QueueOk uint64 s e → s.step (.code uint64) e = some s' →
        ∀ p a, Member s a p .runQueue → Member s' a p .runQueue →
          (s'.proc p).vruntime = (s.proc p).vruntime ∧ (s'.proc p).nice = (s.proc p).nice := by
  have hrun : (runOf uint64 (QueueOk uint64)
    [.tick, .select, .clone 0 true, .nanosleep 100, .select,
      .wait 0, .select]).map (fun s => [1, 2, 3].map fun p => (s.proc p).curQueue) =
      some [.sleepQueue, .eventQueue, .runQueue] := by decide +kernel
  obtain ⟨s, hs, he⟩ := run_of_map hrun
  exact ⟨s, runOf_reach hs, he, queues_agree uint64 (runOf_reach hs)⟩

/-- A run queue with two nodes, the second on the right of the first. -/
theorem member_second {a b : Nat} (ha : a ≠ nil) (hb : b ≠ nil)
    (h : [s.runQueue.root, (s.runQueue.node a).l, (s.runQueue.node a).r, (s.runQueue.node b).l,
      (s.runQueue.node b).r, (s.runQueue.node b).key] = [a, nil, b, nil, nil, p]) :
    Member s b p .runQueue := by
  simp only [List.cons.injEq, and_true] at h
  obtain ⟨hroot, hal, har, hbl, hbr, hkey⟩ := h
  have hright : Inorder s.runQueue b ([] ++ b :: []) := .node hb (hbl ▸ .nil) (hbr ▸ .nil)
  have hall : Inorder s.runQueue a ([] ++ a :: [b]) := .node ha (hal ▸ .nil) (har ▸ hright)
  exact ⟨[a, b], hroot ▸ hall, by simp, hkey⟩

/-- After `setnice` the process is in the run queue with `NO_QUEUE` in `cur_queue`. -/
theorem setnice_noQueue :
    ∃ s, Reach (Started uint64) (step (.code uint64)) always s ∧ ¬ Intact s := by
  have hrun : (runOf uint64 always [.tick, .select, .setnice 1]).map (fun s =>
      ([s.runQueue.root, (s.runQueue.node 3).l, (s.runQueue.node 3).r, (s.runQueue.node 4).l,
        (s.runQueue.node 4).r, (s.runQueue.node 4).key], (s.proc 1).curQueue)) =
      some ([3, nil, 4, nil, nil, 1], .noQueue) := by decide +kernel
  obtain ⟨s, hs, he⟩ := run_of_map hrun
  obtain ⟨ht, hq⟩ := Prod.mk.inj he
  refine ⟨s, runOf_reach hs, fun H => ?_⟩
  have hm : Member s 4 1 .runQueue := member_second (by decide) (by decide) ht
  have h := ((H.member 1 4 .runQueue).mp hm).2.1
  rw [hq] at h
  cases h

end Sysint.Process
