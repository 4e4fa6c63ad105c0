import Sysint.Process.Form

/-! The ways through the functions that call others: what a caller needs to know of
a step, so that it never unfolds them. -/
namespace Sysint.Process
open Proc Option

/-- A process that waits after its call of `__schedule`. -/
@[simps]
def Proc.blocked (q : Proc) (cont : Cont) (queue : QueueId) (handle : Nat) (waitPid : Int) (v : Nat)
    (fpu : Fpu) : Proc :=
  { q with
    status := .waiting
    cont := cont
    curQueue := queue
    queueHandle := handle
    waitPid := waitPid
    vruntime := v
    fpuBuf := if q.fpuUsed then fpu else q.fpuBuf
    fpuUsed := false }

/-- A process that `init` has put into the run queue. -/
@[simps!]
def Proc.loaded (pid uid : Nat) (fpu : Fpu) (handle : Nat) : Proc :=
  { new pid uid with
    fpuBuf := fpu
    status := .ready
    curQueue := .runQueue
    queueHandle := handle }

variable {status pid : Int}

namespace Kernel

variable {cfg : Config} {s s' : Kernel} {p : Nat}

/-- The ways through the first half of `schedule`. -/
theorem schedule_cases {regs : Bool} (h : s.schedule cfg regs = some s') :
    (s.online = false ∧ s' = s) ∨ (s.online = true ∧ s.curProc = 0 ∧ s' = s.clts.toSelect s.ns 0) ∨
    (s.online = true ∧ s.curProc ≠ 0 ∧ regs = true ∧ s' = s.clts) ∨
    (s.online = true ∧ s.curProc ≠ 0 ∧ ∃ s1,
      s.clts.switchOut cfg s.curProc (s.ns - s.lastSched) regs = some s1 ∧
      s' = s1.toSelect s.ns s.curProc) := by
  simp only [schedule, clts_curProc, clts_lastSched] at h
  split_ifs at h with h0 h1 h2
  · cases h
    exact .inl ⟨by simpa using h0, rfl⟩
  · cases h
    exact .inr (.inl ⟨by simpa using h0, h1, rfl⟩)
  · cases h
    exact .inr (.inr (.inl ⟨by simpa using h0, h1, h2.2, rfl⟩))
  · obtain ⟨s1, hs1, rfl⟩ := map_eq_some_iff.mp h
    exact .inr (.inr (.inr ⟨by simpa using h0, h1, s1, hs1, rfl⟩))

/-- `__schedule` switches the current process out. -/
theorem scheduleFrom_cases {cont : Cont} (h : s.scheduleFrom cfg cont = some s')
    (hcur : s.curProc ≠ 0) :
    ∃ t u w a, s' = ((((((s.modify s.curProc (·.setCont cont)).setOnline true).clts.setFpuOut
      s.curProc s.fpu).logDelta (s.ns - s.lastSched)).putQueues t u w).modify s.curProc fun q =>
        q.switched (cfg.wrap (q.vruntime + (s.ns - s.lastSched))) a false s.fpu).toSelect s.ns
          s.curProc := by
  obtain ⟨ho, -⟩ | ⟨-, h0, -⟩ | ⟨-, -, hr, -⟩ | ⟨-, -, s1, hs1, rfl⟩ := schedule_cases h
  · cases ho
  · exact absurd h0 hcur
  · cases hr
  · obtain ⟨t, u, w, a, rfl⟩ := switchOut_form hs1
    exact ⟨t, u, w, a, rfl⟩

/-- The parts of `exit`. -/
theorem exit_cases (h : s.exit cfg status = some s') :
    ∃ s1 s2 t s3, exitChildren s.curProc (s.nextTid + 1) s.clts
      (s.proc s.curProc).lastChild = some s1 ∧
      s1.removeFromQueue s.curProc = some s2 ∧
      (s2.setCur 0).eraseProcList s.curProc = some ((s2.setCur 0).setProcList t) ∧
      (((s2.setCur 0).setProcList t).modify s.curProc (·.ended status)).notifyParent cfg
        s.curProc = some s3 ∧
      s' = s3.clts.toSelect s3.ns 0 := by
  obtain ⟨s1, h1, h⟩ := bind_eq_some_iff.mp h
  obtain ⟨s2, h2, h⟩ := bind_eq_some_iff.mp h
  obtain ⟨s3, h3, h⟩ := bind_eq_some_iff.mp h
  obtain ⟨t, rfl⟩ := eraseProcList_form h3
  obtain ⟨s4, h4, h⟩ := bind_eq_some_iff.mp h
  refine ⟨s1, s2, t, s4, h1, h2, h3, h4, ?_⟩
  have hcur : s4.curProc = 0 := (notifyParent_quiet h4).fields.curProc
  split_ifs at h with ho
  obtain ⟨hoff, -⟩ | ⟨-, -, rfl⟩ | ⟨-, hne, -⟩ | ⟨-, hne, -⟩ := schedule_cases h
  · rw [ho] at hoff
    cases hoff
  · rfl
  · exact absurd hcur hne
  · exact absurd hcur hne

theorem notifyParent_cases (h : s.notifyParent cfg p = some s') : ((s.proc p).parent = 0 ∧ s' = s) ∨
    ((s.proc p).parent ≠ 0 ∧ (s.proc (s.proc p).parent).status = .waiting ∧
      ((s.proc (s.proc p).parent).waitPid < 0 ∨
      (s.proc (s.proc p).parent).waitPid = (s.proc p).pid) ∧
      s.addProcRun cfg (s.proc p).parent false = some s') ∨
    ((s.proc p).parent ≠ 0 ∧ ¬ ((s.proc (s.proc p).parent).status = .waiting ∧
      ((s.proc (s.proc p).parent).waitPid < 0 ∨
      (s.proc (s.proc p).parent).waitPid = (s.proc p).pid)) ∧
      s.tkillProc cfg (s.proc p).parent (exitSignal (s.proc p).cloneFlags) = some s') := by
  simp only [notifyParent] at h
  split_ifs at h with h1 h2
  · cases h
    exact .inl ⟨h1, rfl⟩
  · exact .inr (.inl ⟨h1, h2.1, h2.2, h⟩)
  · exact .inr (.inr ⟨h1, h2, h⟩)

/-- The current process has ended, and its parent does not know yet. -/
structure Ends (s s' : Kernel) (status : Int) : Prop where
  own : s'.own = (s.setCur 0).own
  cur : (s'.proc s.curProc).flat = ((s.proc s.curProc).leave.ended status).flat
  rest : ∀ p, p ≠ s.curProc → (s'.proc p).flat = (s.proc p).flat
  parent : NoAdoption s s'

/-- The end of a process changes no pending signals. -/
theorem Ends.signals (E : Ends s s' status) (p : Nat) :
    (s'.proc p).signals = (s.proc p).signals := by
  by_cases hp : p = s.curProc
  · subst hp
    have hs := congrArg Proc.signals E.cur
    exact hs
  · have hs := congrArg Proc.signals (E.rest p hp)
    exact hs

theorem exit_ends (h : s.exit cfg status = some s') :
    ∃ s1 s2, Ends s s1 status ∧ s1.notifyParent cfg s.curProc = some s2 ∧
      s' = s2.clts.toSelect s2.ns 0 := by
  obtain ⟨s1, s2, t, s3, h1, h2, -, h4, rfl⟩ := exit_cases h
  refine ⟨_, s3, ?_, h4, rfl⟩
  have T := exitChildren_treeOnly h1
  obtain ⟨t', u, w, rfl⟩ := removeFromQueue_form h2
  constructor
  · have hq := T.quiet.own
    simp only [Kernel.own, Prod.mk.injEq] at hq ⊢
    simp [hq]
  · -- the end of a process does not depend on its relatives
    have hf := congrArg (fun q : Proc => (q.leave.ended status).flat) (T.flat s.curProc)
    have hf' : ((s1.proc s.curProc).leave.ended status).flat =
        ((s.proc s.curProc).leave.ended status).flat := hf
    simpa using hf'
  · intro p hp
    simpa [hp] using T.flat p
  · have hn : NoAdoption s.clts s1 := exitChildren_noAdoption h1
    have hn' : NoAdoption s s1 := hn
    refine hn'.trans fun p => .inl ?_
    by_cases hp : p = s.curProc
    · simp [hp]
    · simp [hp]

/-- The ways through `waitpid`. -/
theorem waitpid_cases {ptr : Bool} {options : Int} (h : s.waitpid cfg pid ptr options = some s') :
    s' = s ∨ ((s.proc s.curProc).waitPid = 0 ∧ ∃ c, s.findChild (s.waitTest pid) = some c ∧
      ((c ≠ 0 ∧ (s.proc c).status = .zombie ∧ s' = s.reap pid c) ∨
      ((pid ≤ 0 ∨ c ≠ 0) ∧ (c = 0 ∨ (s.proc c).status ≠ .zombie) ∧
        s.waitpidSleep cfg pid = some s'))) := by
  unfold waitpid at h
  split_ifs at h with h1 h2 h3
  · cases h
    exact .inl rfl
  · cases h
    exact .inl rfl
  · obtain ⟨c, hc, h⟩ := bind_eq_some_iff.mp h
    rw [not_not] at h2
    split_ifs at h with h4 h5
    · cases h
      exact .inl rfl
    · cases h
      exact .inr ⟨h2, c, hc, .inl ⟨h5.1, h5.2, rfl⟩⟩
    · refine .inr ⟨h2, c, hc, .inr ⟨?_, ?_, h⟩⟩
      · by_cases h0 : c = 0
        · exact .inl (le_of_not_gt fun hpos => h4 ⟨hpos, h0⟩)
        · exact .inr h0
      · by_cases h0 : c = 0
        · exact .inl h0
        · exact .inr fun hz => h5 ⟨h0, hz⟩

/-- The ways through the second half of `schedule`. -/
theorem select_cases {now pold : Nat} (h : s.select cfg now pold = some s') :
    ∃ a p, s.runQueue.begin = some a ∧ (s.runQueue.node a).key = p ∧ s.runQueue.sz ≠ 0 ∧ p ≠ 0 ∧
      (s.proc p).deleted = false ∧
      (((s.proc p).signals.firstOne = none ∧ (s.choose p now).dispatch pold = some s') ∨
      ∃ sig, (s.proc p).signals.firstOne = some sig ∧
        ((fatal sig = true ∧
          ((s.choose p now).modify p (·.setSignal sig false)).exit cfg (128 + sig) = some s') ∨
        (fatal sig = false ∧
          ((s.choose p now).modify p (·.setSignal sig false)).dispatch pold = some s'))) := by
  obtain ⟨a, ha, h⟩ := bind_eq_some_iff.mp h
  simp only at h
  split_ifs at h with hc
  simp only [not_or, Bool.not_eq_true] at hc
  refine ⟨a, _, ha, rfl, hc.1, hc.2.1, hc.2.2, ?_⟩
  split at h
  · rename_i hsig
    exact .inl ⟨hsig, h⟩
  · rename_i sig hsig
    split_ifs at h with hf
    · exact .inr ⟨sig, hsig, .inl ⟨hf, h⟩⟩
    · exact .inr ⟨sig, hsig, .inr ⟨Bool.not_eq_true _ ▸ hf, h⟩⟩

/-- The process that ends in the step: the one that calls `exit`, or the one chosen
to run that has a fatal signal pending. -/
def ending (s : Kernel) : Event → Option Nat
  | .exit _ => some s.curProc
  | .select => do
    let a ← s.runQueue.begin
    let p := (s.runQueue.node a).key
    let sig ← (s.proc p).signals.firstOne
    if fatal sig then some p else none
  | _ => none

theorem step_cases {e : Event} (h : s.step cfg e = some s') :
    (e = .tick ∧ s.interruptible = true ∧ s.timerTick cfg = some s') ∨
    (∃ cv tid, e = .wake cv tid ∧ s.interruptible = true ∧ s.wake cfg cv tid = some s') ∨
    (∃ now pold, e = .select ∧ s.mode = .select now pold ∧ s.select cfg now pold = some s') ∨
    (s.mode = .outside ∧ s.curProc ≠ 0 ∧ s.userStep cfg e = some s') := by
  unfold step at h
  split at h
  · split_ifs at h with hi
    exact .inl ⟨rfl, hi, h⟩
  · split_ifs at h with hi
    exact .inr (.inl ⟨_, _, rfl, hi, h⟩)
  · exact .inr (.inr (.inl ⟨_, _, rfl, by assumption, h⟩))
  · split_ifs at h with hc
    exact .inr (.inr (.inr ⟨by assumption, hc, h⟩))
  · cases h

/-- `timer_tick` wakes sleepers, which keeps what every `add_proc_run` keeps, and calls
`schedule`. -/
theorem timerTick_rule {P : Kernel → Prop}
    (hP : ∀ s p s', P s → s.addProcRun cfg p false = some s' → P s')
    (h : s.timerTick cfg = some s') (hs : P s.clts.addTick) :
    ∃ s1, P s1 ∧ Quiet s.addTick s1 ∧ s1.schedule cfg true = some s' := by
  obtain ⟨it, -, h⟩ := bind_eq_some_iff.mp h
  obtain ⟨s1, h1, h⟩ := bind_eq_some_iff.mp h
  have hq : Quiet s.addTick s.clts.addTick := clts_quiet s.addTick
  obtain ⟨hP1, hq1⟩ := wakeSleepers_rule (P := fun s' => P s' ∧ Quiet s.addTick s')
    (fun s p s' ⟨hs, hq⟩ h => ⟨hP s p s' hs h, hq.trans (addProcRun_quiet h)⟩) h1 ⟨hs, hq⟩
  exact ⟨s1, hP1, hq1, h⟩

theorem timerTick_cases (h : s.timerTick cfg = some s') :
    ∃ s1, Quiet s.addTick s1 ∧ s1.schedule cfg true = some s' := by
  obtain ⟨s1, -, hq, h⟩ := timerTick_rule (P := fun _ => True) (fun _ _ _ _ _ => trivial) h trivial
  exact ⟨s1, hq, h⟩

/-- The state in which the process switched to goes on. -/
@[simps! -fullyApplied]
def entered (s : Kernel) (pold : Nat) : Kernel :=
  ((s.modify s.curProc (·.setStatus .running)).load s.curProc pold).setFpuOut s.curProc none

theorem dispatch_entered {pold : Nat} (h : s.dispatch pold = some s') :
    (s.entered pold).resume = some s' := h

/-- How the process goes on that was switched to. -/
theorem resume_cases (h : s.resume = some s') :
    (((s.proc s.curProc).cont = .user ∨ (s.proc s.curProc).cont = .clone) ∧ s' = s) ∨
    (((s.proc s.curProc).cont = .nanosleep ∨ (s.proc s.curProc).cont = .wait ∨
        ∃ pid, (s.proc s.curProc).cont = .waitpid pid ∧ (s.proc s.curProc).interrupted = true) ∧
      s' = s.modify s.curProc (·.setInterrupted false)) ∨
    ∃ pid c, (s.proc s.curProc).cont = .waitpid pid ∧ (s.proc s.curProc).interrupted = false ∧
      c ≠ 0 ∧ (s.modify s.curProc (·.setInterrupted false)).findChild
        ((s.modify s.curProc (·.setInterrupted false)).wokenTest pid) = some c ∧
      s' = ((s.modify s.curProc (·.setInterrupted false)).modify s.curProc (·.setWaitPid 0)).reap
        pid c := by
  simp only [resume] at h
  split at h
  · rename_i hc
    cases h
    exact .inl ⟨.inl hc, rfl⟩
  · rename_i hc
    cases h
    exact .inl ⟨.inr hc, rfl⟩
  · rename_i hc
    cases h
    exact .inr (.inl ⟨.inl hc, rfl⟩)
  · rename_i hc
    cases h
    exact .inr (.inl ⟨.inr (.inl hc), rfl⟩)
  · rename_i pid hc
    split_ifs at h with hi
    · cases h
      exact .inr (.inl ⟨.inr (.inr ⟨pid, hc, hi⟩), rfl⟩)
    · obtain ⟨c, hfind, h⟩ := bind_eq_some_iff.mp h
      split_ifs at h with h0
      cases h
      exact .inr (.inr ⟨pid, c, hc, Bool.eq_false_iff.mpr hi, h0, hfind, rfl⟩)

/-- `clone` fails, or makes a process. -/
theorem clone_cases {flags : Nat} {mem : Bool} (h : s.clone cfg flags mem = some s') :
    s' = s ∨ s' = s.takeTid.setFpuOut s.nextTid none ∨ s.clonedParent flags ≠ 0 ∧ ∃ s1 r,
      (((s.takeTid.setFpuOut s.nextTid none).modify s.nextTid fun _ => s.cloned flags).linkChild
        s.nextTid (s.clonedParent flags)).addProcRun cfg s.nextTid false = some s1 ∧
      cfg.insert (procOrder s1.proc) s1.procList s.nextTid = some r ∧ s' = s1.setProcList r.1 := by
  simp only [clone] at h
  split_ifs at h with h1 h2 h3
  · cases h
    exact .inl rfl
  · cases h
    exact .inr (.inl rfl)
  · obtain ⟨s1, hs1, h⟩ := bind_eq_some_iff.mp h
    obtain ⟨r, hr, h⟩ := bind_eq_some_iff.mp h
    cases h
    exact .inr (.inr ⟨h3, s1, r, hs1, hr, rfl⟩)

theorem tkill_cases {tid sig : Int} (h : s.tkill cfg tid sig = some s') :
    s' = s ∨ ∃ a, s.procList.find (fun q => (q : Int) == tid) (fun q => decide ((q : Int) < tid)) =
      some a ∧ a ≠ Rbtree.nil ∧ s.tkillProc cfg (s.procList.node a).key sig.toNat = some s' := by
  unfold tkill at h
  split_ifs at h with h1
  · cases h
    exact .inl rfl
  · obtain ⟨a, ha, h⟩ := bind_eq_some_iff.mp h
    split_ifs at h with h2
    · cases h
      exact .inl rfl
    · exact .inr ⟨a, ha, h2, h⟩

theorem setnice_form {inc : Int} (h : s.setnice cfg inc = some s') :
    s' = s ∨ ∃ t u w a, s' = (s.putQueues t u w).modify s.curProc fun q =>
      { q.leave with nice := max (-20) (min 19 (q.nice + inc)), queueHandle := a } := by
  simp only [setnice] at h
  split_ifs at h with h1 h2
  · cases h
    exact .inl rfl
  · cases h
    exact .inl rfl
  · obtain ⟨s1, hs1, h⟩ := bind_eq_some_iff.mp h
    obtain ⟨t, u, w, rfl⟩ := removeFromQueue_form hs1
    obtain ⟨t', a, rfl⟩ := insertRun_form h
    refine .inr ⟨t', u, w, a, ?_⟩
    simp [modify, putQueues, leave, setHandle]

theorem fault_cases (h : s.fault cfg = some s') :
    ∃ s1, s.tkillProc cfg s.curProc sigsegv = some s1 ∧
      (s1.online = false ∧ s' = (s1.logKill s.curProc).setCur 0 ∨
        s' = ((s1.logKill s.curProc).setCur 0).clts.toSelect s1.ns 0) := by
  obtain ⟨s1, h1, h⟩ := bind_eq_some_iff.mp h
  refine ⟨s1, h1, ?_⟩
  obtain ⟨ho, rfl⟩ | ⟨-, -, rfl⟩ | ⟨-, hne, -⟩ | ⟨-, hne, -⟩ := schedule_cases h
  · exact .inl ⟨ho, rfl⟩
  · exact .inr rfl
  · exact absurd rfl hne
  · exact absurd rfl hne

theorem fault_outside (ho : s.online = true) (h : s.fault cfg = some s') :
    ∃ s1, s.tkillProc cfg s.curProc sigsegv = some s1 ∧
      s' = ((s1.logKill s.curProc).setCur 0).clts.toSelect s1.ns 0 := by
  obtain ⟨s1, h1, ⟨hoff, -⟩ | hs⟩ := fault_cases h
  · have hon := (tkillProc_quiet h1).fields.online.trans ho
    exact absurd (hon.symm.trans hoff) (by decide)
  · exact ⟨s1, h1, hs⟩

/-! ## Going to sleep -/

@[simps -fullyApplied]
def toMode (s : Kernel) (mode : Mode) : Kernel := { s with mode := mode }

/-- The current process waits, and `schedule` has charged it with the time since
its dispatch. -/
structure Blocks (cfg : Config) (s s' : Kernel) (cont : Cont) (queue : QueueId) (waitPid : Int) :
    Prop where
  proc : ∃ a, s'.proc = Function.update s.proc s.curProc
    ((s.proc s.curProc).blocked cont queue a waitPid (cfg.wrap
      (((s.proc s.curProc).unreadied s.minVruntime).vruntime + (s.ns - s.lastSched))) s.fpu)
  own : s'.own = ((((s.setOnline (s'.runQueue.sz != 0)).setFpuOut s.curProc s.fpu).logDelta
    (s.ns - s.lastSched)).toMode (.select s.ns s.curProc)).own
  list : s'.procList = s.procList

theorem nanosleep_blocks {n : Nat} (hcur : s.curProc ≠ 0) (h : s.nanosleep cfg n = some s') :
    s' = s ∨ Blocks cfg s s' .nanosleep .sleepQueue (s.proc s.curProc).waitPid := by
  unfold nanosleep at h
  split_ifs at h with hns
  · cases h
    exact .inl rfl
  obtain ⟨s1, h1, h⟩ := bind_eq_some_iff.mp h
  obtain ⟨r, -, h⟩ := bind_eq_some_iff.mp h
  obtain ⟨t, u, w, rfl⟩ := removeProcRun_form h1
  obtain ⟨t', u', w', a, rfl⟩ := scheduleFrom_cases h hcur
  refine .inr ⟨⟨r.2, ?_⟩, rfl, rfl⟩
  simp [switched, blocked, unreadied, save, setHandle, setCont, ns]

theorem wait_blocks {cv : Nat} (hcur : s.curProc ≠ 0) (h : s.wait cfg cv = some s') :
    Blocks cfg s s' .wait .eventQueue (s.proc s.curProc).waitPid := by
  obtain ⟨s1, h1, h⟩ := bind_eq_some_iff.mp h
  obtain ⟨t, u, w, rfl⟩ := removeProcRun_form h1
  obtain ⟨t', u', w', a, rfl⟩ := scheduleFrom_cases h hcur
  refine ⟨⟨s.freshEntry, ?_⟩, rfl, rfl⟩
  simp [switched, blocked, unreadied, save, setCont, ns]

theorem waitpidSleep_blocks (hcur : s.curProc ≠ 0) (h : s.waitpidSleep cfg pid = some s') :
    Blocks cfg s s' (.waitpid pid) .noQueue (if pid ≤ 0 then -1 else pid) := by
  obtain ⟨s1, h1, h⟩ := bind_eq_some_iff.mp h
  obtain ⟨t, u, w, rfl⟩ := removeProcRun_form h1
  obtain ⟨t', u', w', a, rfl⟩ := scheduleFrom_cases h hcur
  refine ⟨⟨0, ?_⟩, rfl, rfl⟩
  simp [switched, blocked, unreadied, save, setCont, setWaitPid,
    setStatus, leave, ns]

/-! ## The start -/

theorem add_form {uid : Nat} (h : s.add cfg uid = some s') :
    ∃ t a, s' = (s.takeTid.putQueues t s.sleepQueue s.waiting).modify s.nextTid fun _ =>
      .loaded s.nextTid uid s.fpu a := by
  obtain ⟨s1, h1, rfl⟩ := map_eq_some_iff.mp h
  obtain ⟨t, a, rfl⟩ := insertRun_form h1
  refine ⟨t, a, ?_⟩
  simp [modify, putQueues, loaded, setHandle]

/-- `init` leaves the processes 1 and 2. -/
theorem init_form {tick ticklen : Nat} {fpu : Fpu} {uid uid' : Nat}
    (h : init cfg tick ticklen fpu uid uid' = some s) :
    ∃ t a a', s = (((boot tick ticklen fpu).takeTid.takeTid.putQueues t .empty fun _ => []).setProcs
      (Function.update (Function.update (fun _ => .new 0 0) 1 (.loaded 1 uid fpu a)) 2
        (.loaded 2 uid' fpu a'))).setOnline true := by
  obtain ⟨s1, h1, h⟩ := bind_eq_some_iff.mp h
  obtain ⟨s2, h2, h⟩ := bind_eq_some_iff.mp h
  cases h
  obtain ⟨t, a, rfl⟩ := add_form h1
  obtain ⟨t', a', rfl⟩ := add_form h2
  exact ⟨t', a, a', rfl⟩

/-! ## Outside and inside -/

/-- A process runs with the scheduler on line. -/
structure ModeOk (s : Kernel) : Prop where
  outside : s.mode = .outside → s.online = true

theorem ModeOk.of_select (hm : s.mode ≠ .outside) : ModeOk s := ⟨fun h => absurd h hm⟩

theorem toSelect_modeOk (s : Kernel) (now pold : Nat) : ModeOk (s.toSelect now pold) :=
  .of_select (by simp)

theorem Blocks.modeOk {cont : Cont} {queue : QueueId}
    (h : Blocks cfg s s' cont queue pid) : ModeOk s' :=
  .of_select (by simp [(sameOwn h.own).mode])

/-- An interrupt comes in user mode, or while `schedule` waits off line. -/
theorem interruptible_cases (h : s.interruptible = true) :
    s.mode = .outside ∨ s.mode ≠ .outside ∧ s.online = false := by
  unfold interruptible at h
  split at h
  · rename_i hm
    exact .inl hm
  · rename_i hm
    exact .inr ⟨by simp [hm], by simpa using h⟩

theorem reap_fields (s : Kernel) (pid : Int) (c : Nat) :
    (s.reap pid c).mode = s.mode ∧ (s.reap pid c).online = s.online ∧
      (s.reap pid c).curProc = s.curProc ∧ (s.reap pid c).fpu = s.fpu ∧
      (s.reap pid c).minVruntime = s.minVruntime ∧ (s.reap pid c).nextTid = s.nextTid ∧
      (s.reap pid c).history.fpuOut = s.history.fpuOut ∧
      (s.reap pid c).history.killed = s.history.killed := by
  obtain ⟨h1, h2, h3, h4, -, -, -, h5, h6, h7⟩ := (delete_treeOnly s c).quiet.fields
  simp [reap, h1, h2, h3, h4, h5, h6, h7]

/-- The process switched to runs on in the kernel without changing these. -/
theorem resume_fields (h : s.resume = some s') :
    s'.mode = s.mode ∧ s'.online = s.online ∧ s'.curProc = s.curProc ∧ s'.fpu = s.fpu ∧
      s'.minVruntime = s.minVruntime ∧ s'.nextTid = s.nextTid ∧
      s'.history.fpuOut = s.history.fpuOut ∧ s'.history.killed = s.history.killed := by
  obtain ⟨-, rfl⟩ | ⟨-, rfl⟩ | ⟨pid, c, -, -, -, -, rfl⟩ := resume_cases h
  · simp
  · simp
  · exact reap_fields ..

theorem step_modeOk {e : Event} (M : ModeOk s) (h : s.step cfg e = some s') : ModeOk s' := by
  obtain ⟨-, hi, h⟩ | ⟨cv, tid, -, hi, h⟩ | ⟨now, pold, -, hm, h⟩ | ⟨hm, hcur, h⟩ := step_cases h
  · obtain ⟨s1, hq, h⟩ := timerTick_cases h
    have ho := hq.fields.online
    have hmode := hq.fields.mode
    obtain hout | ⟨hin, hoff⟩ := interruptible_cases hi
    · obtain ⟨hoff, rfl⟩ | ⟨-, -, rfl⟩ | ⟨hon, -, -, rfl⟩ | ⟨-, -, s2, -, rfl⟩ := schedule_cases h
      · exact ⟨fun _ => ho.trans (M.outside hout)⟩
      · exact toSelect_modeOk ..
      · exact ⟨fun _ => hon⟩
      · exact toSelect_modeOk ..
    · have hoff1 : s1.online = false := ho.trans hoff
      obtain ⟨-, rfl⟩ | ⟨hon, -⟩ | ⟨hon, -⟩ | ⟨hon, -⟩ := schedule_cases h
      · exact .of_select (hmode ▸ hin)
      all_goals exact absurd (hon.symm.trans hoff1) (by decide)
  · have ho := (wake_quiet h).fields.online
    have hmode := (wake_quiet h).fields.mode
    obtain hout | ⟨hin, hoff⟩ := interruptible_cases hi
    · exact ⟨fun _ => ho.trans (M.outside hout)⟩
    · exact .of_select (hmode ▸ hin)
  · obtain ⟨a, p, -, -, -, -, -, ⟨-, h⟩ | ⟨sig, -, ⟨-, h⟩ | ⟨-, h⟩⟩⟩ := select_cases h
    · obtain ⟨hmode, ho, -⟩ := resume_fields h
      exact ⟨fun _ => ho⟩
    · obtain ⟨s1, s2, t, s3, -, -, -, -, rfl⟩ := exit_cases h
      exact toSelect_modeOk ..
    · obtain ⟨hmode, ho, -⟩ := resume_fields h
      exact ⟨fun _ => ho⟩
  · have ho := M.outside hm
    cases e with
    | tick | select | wake => cases h
    | fpu v =>
      cases h
      unfold useFpu
      split_ifs <;> exact ⟨fun _ => ho⟩
    | fault =>
      obtain ⟨s1, -, rfl⟩ := fault_outside ho h
      exact toSelect_modeOk ..
    | clone flags mem =>
      obtain rfl | rfl | ⟨-, s1, r, h1, -, rfl⟩ := clone_cases h
      · exact M
      · exact ⟨fun _ => ho⟩
      · obtain ⟨-, -, -, ho1, -, -, -, -, hm1, -⟩ :=
          ((linkChild_treeOnly ..).quiet.trans (addProcRun_quiet h1)).fields
        exact ⟨fun _ => ho1.trans ho⟩
    | exit status =>
      obtain ⟨s1, s2, t, s3, -, -, -, -, rfl⟩ := exit_cases h
      exact toSelect_modeOk ..
    | waitpid pid ptr options =>
      obtain rfl | ⟨-, c, -, ⟨-, -, rfl⟩ | ⟨-, -, h⟩⟩ := waitpid_cases h
      · exact M
      · obtain ⟨hm1, ho1, -⟩ := reap_fields s pid c
        exact ⟨fun _ => ho1.trans ho⟩
      · exact (waitpidSleep_blocks hcur h).modeOk
    | nanosleep n =>
      obtain rfl | h := nanosleep_blocks hcur h
      · exact M
      · exact h.modeOk
    | wait cv => exact (wait_blocks hcur h).modeOk
    | tkill tid sig =>
      obtain rfl | ⟨a, -, -, h⟩ := tkill_cases h
      · exact M
      · have ho1 := (tkillProc_quiet h).fields.online
        have hm1 := (tkillProc_quiet h).fields.mode
        exact ⟨fun _ => ho1.trans ho⟩
    | setnice inc =>
      obtain rfl | ⟨t, u, w, a, rfl⟩ := setnice_form h
      · exact M
      · exact ⟨fun _ => ho⟩

end Kernel

end Sysint.Process
