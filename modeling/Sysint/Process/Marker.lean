import Sysint.Process.Checked

/-! The marker `wait_pid` of a process that waits for a child. `waitpid` sets it
before it sleeps and clears it when a child has woken it, but not when a signal has. -/
namespace Sysint.Process
open Kernel
open Machine

variable {w : Nat → Nat} {cfg : Config} {s s' : Kernel} {p : Nat} {q q' : Proc}

def Cont.isWaitpid : Cont → Bool
  | .waitpid _ => true
  | _ => false

def Cont.isSleep : Cont → Bool
  | .nanosleep | .wait => true
  | _ => false

/-- The marker, the flag `interrupted` and the status fit the place where the process
goes on. -/
structure Marked (q : Proc) : Prop where
  marker : q.waitPid ≠ 0 → q.cont.isWaitpid = true
  flag : q.interrupted = true → q.cont.isSleep = true
  waiting : q.status = .waiting → q.cont.isSleep = true ∨ q.cont.isWaitpid = true

/-- A process that runs. -/
structure Awake (q : Proc) : Prop where
  marker : q.waitPid = 0
  flag : q.interrupted = false
  waiting : q.status ≠ .waiting

theorem Awake.marked (h : Awake q) : Marked q :=
  ⟨absurd h.marker, fun hf => absurd (h.flag.symm.trans hf) (by decide),
  fun hw => absurd hw h.waiting⟩

structure MarkInv (s : Kernel) : Prop where
  proc : ∀ p, Marked (s.proc p)
  run : s.mode = .outside → Awake (s.proc s.curProc)

/-- What `Marked` and `Awake` are about. -/
def Proc.mark (q : Proc) : Int × Bool × Status × Cont :=
  (q.waitPid, q.interrupted, q.status, q.cont)

theorem Marked.congr (h : Marked q) (hq : q'.mark = q.mark) : Marked q' := by
  simp only [Proc.mark, Prod.mk.injEq] at hq
  obtain ⟨h1, h2, h3, h4⟩ := hq
  constructor
  · rw [h1, h4]
    exact h.marker
  · rw [h2, h4]
    exact h.flag
  · rw [h3, h4]
    exact h.waiting

theorem Awake.congr (h : Awake q) (hq : q'.mark = q.mark) : Awake q' := by
  simp only [Proc.mark, Prod.mk.injEq] at hq
  obtain ⟨h1, h2, h3, -⟩ := hq
  exact ⟨h1.trans h.marker, h2.trans h.flag, fun hw => h.waiting (h3.symm.trans hw)⟩

theorem MarkInv.congr (I : MarkInv s) (hm : s'.mode = s.mode) (hc : s'.curProc = s.curProc)
    (hp : ∀ p, (s'.proc p).mark = (s.proc p).mark) : MarkInv s' := by
  refine ⟨fun p => (I.proc p).congr (hp p), fun ho => ?_⟩
  rw [hc]
  exact (I.run (hm ▸ ho)).congr (hp _)

theorem Kernel.TreeOnly.mark (h : s.TreeOnly s') (p : Nat) :
    (s'.proc p).mark = (s.proc p).mark := by
  have hs := congrArg Proc.mark (h.flat p)
  exact hs

theorem MarkInv.tree (I : MarkInv s) (h : s.TreeOnly s') : MarkInv s' := by
  have hc := h.quiet.fields.curProc
  have hm := h.quiet.fields.mode
  exact I.congr hm hc h.mark

theorem marked_update (hs : ∀ p, Marked (s.proc p)) (hproc : s'.proc = Function.update s.proc p q')
    (hq : Marked q') (r : Nat) : Marked (s'.proc r) := by
  rw [hproc]
  exact (Function.forall_update_iff s.proc fun _ q => Marked q).mpr ⟨hq, fun r _ => hs r⟩ r

/-- A change of one process on the way into `schedule`. -/
theorem MarkInv.updateSelect {now pold : Nat} (I : MarkInv s)
    (hproc : s'.proc = Function.update s.proc p q') (hm : s'.mode = .select now pold)
    (hq : Marked q') : MarkInv s' := by
  refine ⟨marked_update I.proc hproc hq, fun ho => ?_⟩
  rw [hm] at ho
  cases ho

/-! ## Signals -/

/-- The process is blocked inside `waitpid`. -/
def WaitsPid (q : Proc) : Prop := q.status = .waiting ∧ q.cont.isWaitpid = true

instance (q : Proc) : Decidable (WaitsPid q) := inferInstanceAs (Decidable (_ ∧ _))

theorem addProcRun_marked {i : Bool} (hs : ∀ p, Marked (s.proc p))
    (hi : i = true → ¬ WaitsPid (s.proc p)) (h : s.addProcRun cfg p i = some s') :
    ∀ r, Marked (s'.proc r) := by
  obtain ⟨-, -, rfl⟩ | ⟨t, u, w, a, rfl⟩ := addProcRun_form h
  · exact hs
  refine marked_update hs rfl ⟨(hs p).marker, fun hf => ?_, fun hw => ?_⟩
  · simp only [putQueues_proc, Bool.or_eq_true, Bool.and_eq_true, beq_iff_eq] at hf
    obtain hf | ⟨hi', hw⟩ := hf
    · exact (hs p).flag hf
    · exact ((hs p).waiting hw).resolve_right fun hc => hi hi' ⟨hw, hc⟩
  · cases hw

theorem addProcRun_awake {i : Bool} {r : Nat} (ha : Awake (s.proc r))
    (h : s.addProcRun cfg p i = some s') : Awake (s'.proc r) := by
  by_cases hr : r = p
  · subst hr
    obtain ⟨-, -, rfl⟩ | ⟨t, u, w, a, rfl⟩ := addProcRun_form h
    · exact ha
    · constructor
      · simpa using ha.marker
      · simp [ha.flag, ha.waiting]
      · simp
  · rwa [addProcRun_other h hr]

theorem addProcRun_markInv {i : Bool} (I : MarkInv s) (hi : i = true → ¬ WaitsPid (s.proc p))
    (h : s.addProcRun cfg p i = some s') : MarkInv s' := by
  have hc := (addProcRun_quiet h).fields.curProc
  have hm := (addProcRun_quiet h).fields.mode
  refine ⟨addProcRun_marked I.proc hi h, fun ho => ?_⟩
  rw [hc]
  exact addProcRun_awake (I.run (hm ▸ ho)) h

theorem setSignal_mark (s : Kernel) (p sig : Nat) (b : Bool) (r : Nat) :
    ((s.modify p (·.setSignal sig b)).proc r).mark = (s.proc r).mark := by
  refine modify_proc_of (g := Proc.mark) ?_ r
  exact fun _ => rfl

theorem tkillProc_marked {sig : Nat} (hs : ∀ p, Marked (s.proc p))
    (hp : sig ≠ 0 → ¬ WaitsPid (s.proc p)) (h : s.tkillProc cfg p sig = some s') :
    ∀ r, Marked (s'.proc r) := by
  obtain ⟨-, rfl⟩ | ⟨h0, -, h⟩ := tkillProc_cases h
  · exact hs
  · refine addProcRun_marked (fun r => (hs r).congr (setSignal_mark ..)) (fun _ => ?_) h
    simpa [WaitsPid] using hp h0

theorem tkillProc_markInv {sig : Nat} (I : MarkInv s) (hp : sig ≠ 0 → ¬ WaitsPid (s.proc p))
    (h : s.tkillProc cfg p sig = some s') : MarkInv s' := by
  have hc := (tkillProc_quiet h).fields.curProc
  have hm := (tkillProc_quiet h).fields.mode
  refine ⟨tkillProc_marked I.proc hp h, fun ho => ?_⟩
  have hrun := I.run (hm ▸ ho)
  rw [hc]
  obtain ⟨-, rfl⟩ | ⟨-, -, h⟩ := tkillProc_cases h
  · exact hrun
  · exact addProcRun_awake (hrun.congr (setSignal_mark ..)) h

/-- The end of the process does not interrupt its parent in `waitpid`. -/
def SparesParent (s : Kernel) (p : Nat) : Prop :=
  WaitsPid (s.proc (s.proc p).parent) →
    (s.proc (s.proc p).parent).waitPid < 0 ∨ (s.proc (s.proc p).parent).waitPid = (s.proc p).pid

instance (s : Kernel) (p : Nat) : Decidable (SparesParent s p) :=
    inferInstanceAs (Decidable (_ → _))

theorem notifyParent_marked (hs : ∀ p, Marked (s.proc p))
    (hp : (s.proc p).parent ≠ 0 → SparesParent s p) (h : s.notifyParent cfg p = some s') :
    ∀ r, Marked (s'.proc r) := by
  obtain ⟨-, rfl⟩ | ⟨-, -, -, h⟩ | ⟨h0, hno, h⟩ := notifyParent_cases h
  · exact hs
  · exact addProcRun_marked hs (fun hi => by cases hi) h
  · exact tkillProc_marked hs (fun _ hw => hno ⟨hw.1, hp h0 hw⟩) h

theorem SparesParent.congr (h : SparesParent s p) (hpar : (s'.proc p).parent = (s.proc p).parent)
    (hpid : (s'.proc p).pid = (s.proc p).pid)
    (hm : (s'.proc (s.proc p).parent).mark = (s.proc (s.proc p).parent).mark) :
    SparesParent s' p := by
  simp only [Proc.mark, Prod.mk.injEq] at hm
  obtain ⟨h1, -, h3, h4⟩ := hm
  intro hw
  rw [hpar] at hw ⊢
  rw [WaitsPid, h3, h4] at hw
  rw [h1, hpid]
  exact h hw

/-- The parent knows nothing of the end yet. -/
theorem SparesParent.ends {status : Int} (hp : SparesParent s s.curProc) (E : s.Ends s' status)
    (h0 : (s'.proc s.curProc).parent ≠ 0) : SparesParent s' s.curProc := by
  have hpar := (E.parent s.curProc).resolve_right h0
  by_cases hself : (s.proc s.curProc).parent = s.curProc
  · intro hw
    rw [hpar, hself] at hw
    have hz := congrArg Proc.status E.cur
    simp only [Proc.flat_status, Proc.ended_status] at hz
    exact absurd (hz.symm.trans hw.1) (by decide)
  · have hpid := congrArg Proc.pid E.cur
    have hmark := congrArg Proc.mark (E.rest _ hself)
    exact hp.congr hpar hpid hmark

theorem exit_markInv {status : Int} (hs : ∀ p, Marked (s.proc p)) (hp : SparesParent s s.curProc)
    (h : s.exit cfg status = some s') : MarkInv s' := by
  obtain ⟨s1, s2, E, hn, rfl⟩ := exit_ends h
  have hproc (r : Nat) : Marked (s1.proc r) := by
    by_cases hr : r = s.curProc
    · subst hr
      have hm := congrArg Proc.mark E.cur
      refine Marked.congr (q := (s.proc s.curProc).leave.ended status) ?_ hm
      refine ⟨(hs _).marker, (hs _).flag, fun hw => ?_⟩
      cases hw
    · have hm := congrArg Proc.mark (E.rest r hr)
      exact (hs r).congr hm
  have hs2 := notifyParent_marked hproc (fun h0 => hp.ends E h0) hn
  refine ⟨hs2, fun ho => ?_⟩
  cases ho

/-! ## The steps -/

theorem schedule_markInv {regs : Bool} (I : MarkInv s) (hm : s.online = true → s.mode = .outside)
    (h : s.schedule cfg regs = some s') : MarkInv s' := by
  obtain ⟨-, rfl⟩ | ⟨-, -, rfl⟩ | ⟨-, -, -, rfl⟩ | ⟨ho, -, s1, hs1, rfl⟩ := schedule_cases h
  · exact I
  · exact ⟨I.proc, fun hout => by cases hout⟩
  · exact ⟨I.proc, I.run⟩
  · obtain ⟨t, u, w, a, rfl⟩ := switchOut_form hs1
    have hrun := I.run (hm ho)
    refine I.updateSelect (p := s.curProc) rfl rfl (Awake.marked ⟨hrun.marker, hrun.flag, ?_⟩)
    simp only [putQueues_proc, logDelta_proc, setFpuOut_proc, clts_proc,
      Proc.switched_status]
    split_ifs
    · decide
    · exact hrun.waiting

theorem Kernel.Blocks.markInv {cont : Cont} {queue : QueueId} {pid : Int} (I : MarkInv s)
    (hm : s.mode = .outside) (hpid : pid ≠ 0 → cont.isWaitpid = true)
    (hcont : cont.isSleep = true ∨ cont.isWaitpid = true)
    (h : Blocks cfg s s' cont queue pid) : MarkInv s' := by
  have hmode := (sameOwn h.own).mode
  obtain ⟨a, hproc⟩ := h.proc
  have hrun := I.run hm
  refine I.updateSelect hproc hmode ⟨hpid, fun hf => ?_, fun _ => hcont⟩
  exact absurd (hrun.flag.symm.trans hf) (by decide)

/-- How a process leaves the kernel: without marker, since no signal has woken it
inside `waitpid`. -/
theorem resume_markInv (hs : ∀ p, Marked (s.proc p)) (hst : (s.proc s.curProc).status = .running)
    (h : s.resume = some s') : MarkInv s' := by
  have hq := hs s.curProc
  have hno : (s.proc s.curProc).cont.isWaitpid = false → (s.proc s.curProc).waitPid = 0 := by
    intro hc
    by_contra hne
    rw [hq.marker hne] at hc
    cases hc
  have hwoken (hc : (s.proc s.curProc).cont.isWaitpid = false) :
      MarkInv (s.modify s.curProc (·.setInterrupted false)) := by
    have ha : Awake ((s.proc s.curProc).setInterrupted false) := by
      refine ⟨hno hc, rfl, ?_⟩
      simp [hst]
    refine ⟨marked_update hs rfl ha.marked, fun _ => ?_⟩
    simpa using ha
  obtain ⟨hc, rfl⟩ | ⟨hc, rfl⟩ | ⟨pid, c, hc, hi, -, -, rfl⟩ := resume_cases h
  · refine ⟨hs, fun _ => ⟨hno ?_, ?_, by simp [hst]⟩⟩
    · obtain hc | hc := hc <;> rw [hc] <;> rfl
    · by_contra hf
      have hsleep := hq.flag (Bool.not_eq_false _ ▸ hf)
      obtain hc | hc := hc <;> rw [hc] at hsleep <;> cases hsleep
  · obtain hc | hc | ⟨pid, hc, hi⟩ := hc
    · exact hwoken (by rw [hc]; rfl)
    · exact hwoken (by rw [hc]; rfl)
    · -- a signal has woken it
      have hsleep := hq.flag hi
      rw [hc] at hsleep
      cases hsleep
  · have ha : Awake (((s.proc s.curProc).setInterrupted false).setWaitPid 0) := by
      refine ⟨rfl, rfl, ?_⟩
      simp [hst]
    have I1 : MarkInv ((s.modify s.curProc (·.setInterrupted false)).modify s.curProc
        (·.setWaitPid 0)) := by
      rw [modify_modify]
      refine ⟨marked_update hs rfl ha.marked, fun _ => ?_⟩
      simpa using ha
    exact (I1.tree (delete_treeOnly _ c)).congr rfl rfl fun _ => rfl

theorem dispatch_markInv {pold : Nat} (hs : ∀ p, Marked (s.proc p))
    (h : s.dispatch pold = some s') :
    MarkInv s' := by
  have hq : Marked ((s.proc s.curProc).setStatus .running) := by
    refine ⟨(hs _).marker, (hs _).flag, fun hw => ?_⟩
    cases hw
  exact resume_markInv (marked_update hs rfl hq) (by simp) h

theorem select_markInv {now pold : Nat} (I : MarkInv s)
    (hp : ∀ p ∈ s.ending .select, SparesParent s p) (h : s.select cfg now pold = some s') :
    MarkInv s' := by
  obtain ⟨a, p, hbegin, rfl, -, -, -, h⟩ := select_cases h
  have hs : ∀ r, Marked ((s.choose (s.runQueue.node a).key now).proc r) := I.proc
  obtain ⟨-, h⟩ | ⟨sig, hsig, ⟨hf, h⟩ | ⟨-, h⟩⟩ := h
  · exact dispatch_markInv hs h
  · have hend : s.ending .select = some (s.runQueue.node a).key := by
      simp [ending, hbegin, hsig, hf]
    refine exit_markInv (fun r => (hs r).congr (setSignal_mark ..)) ?_ h
    refine (hp _ hend).congr ?_ ?_ (setSignal_mark ..)
    · simp
    · simp
  · exact dispatch_markInv (fun r => (hs r).congr (setSignal_mark ..)) h

/-! ## Runs -/

/-- The process that gets a signal by `tkill`. -/
def Event.target : Event → Option Nat
  | .tkill tid sig => if 0 < sig then some tid.toNat else none
  | _ => none

/-- The step interrupts no process inside `waitpid`. -/
def MarkOk (s : Kernel) (e : Event) : Prop :=
  (∀ r ∈ e.target, ¬ WaitsPid (s.proc r)) ∧ ∀ p ∈ s.ending e, SparesParent s p

instance (s : Kernel) (e : Event) : Decidable (MarkOk s e) := inferInstanceAs (Decidable (_ ∧ _))

theorem tkill_markInv {tid sig : Int} (I : MarkInv s)
    (ht : ∀ r ∈ (Event.tkill tid sig).target, ¬ WaitsPid (s.proc r))
    (h : s.tkill cfg tid sig = some s') : MarkInv s' := by
  obtain rfl | ⟨a, ha, hne, hk⟩ := tkill_cases h
  · exact I
  · have hkey := Rbtree.find_key ha hne
    obtain rfl : ((s.procList.node a).key : Int) = tid := by simpa using hkey
    refine tkillProc_markInv I (fun h0 => ht _ ?_) hk
    have hpos : 0 < sig := by omega
    simp [Event.target, hpos]

theorem clone_markInv {flags : Nat} {mem : Bool} (I : MarkInv s)
    (h : s.clone cfg flags mem = some s') : MarkInv s' := by
  obtain rfl | rfl | ⟨-, s1, r, h1, -, rfl⟩ := clone_cases h
  · exact I
  · exact ⟨I.proc, I.run⟩
  · have hnew : Awake (s.cloned flags) := by
      refine ⟨rfl, rfl, fun hw => ?_⟩
      cases hw
    have I1 : MarkInv ((s.takeTid.setFpuOut s.nextTid none).modify s.nextTid fun _ =>
        s.cloned flags) := by
      refine ⟨marked_update I.proc rfl hnew.marked, fun ho => ?_⟩
      have hrun := I.run ho
      by_cases hc : s.curProc = s.nextTid
      · simpa [hc] using hnew
      · simpa [hc] using hrun
    have I2 := addProcRun_markInv (I1.tree (linkChild_treeOnly ..)) (fun hi => by cases hi) h1
    exact ⟨I2.proc, I2.run⟩

theorem step_markInv {e : Event} (M : s.ModeOk) (I : MarkInv s) (hok : MarkOk s e)
    (h : s.step cfg e = some s') : MarkInv s' := by
  have hadd (s : Kernel) (p : Nat) (s' : Kernel) (I : MarkInv s)
      (h : s.addProcRun cfg p false = some s') : MarkInv s' :=
    addProcRun_markInv I (fun hi => by cases hi) h
  obtain ⟨-, hi, h⟩ | ⟨cv, tid, -, -, h⟩ | ⟨now, pold, rfl, -, h⟩ | ⟨hm, hcur, h⟩ := step_cases h
  · obtain ⟨s1, I1, hq, h⟩ := timerTick_rule hadd h ⟨I.proc, I.run⟩
    have ho := hq.fields.online
    have hmode := hq.fields.mode
    refine schedule_markInv I1 (fun hon => ?_) h
    obtain hout | ⟨-, hoff⟩ := interruptible_cases hi
    · exact hmode.trans hout
    · exact absurd (hon.symm.trans (ho.trans hoff)) (by decide)
  · exact wakeEntries_rule hadd h I
  · exact select_markInv I hok.2 h
  · cases e with
    | tick | select | wake => cases h
    | fpu v =>
      cases h
      unfold useFpu
      split_ifs
      · refine I.congr rfl rfl fun r => ?_
        by_cases hr : r = s.curProc
        · simp [hr, Proc.mark]
        · simp [hr]
      · exact ⟨I.proc, I.run⟩
    | fault =>
      obtain ⟨s1, h1, rfl⟩ := fault_outside (M.outside hm) h
      have I1 := tkillProc_markInv I (fun _ hw => (I.run hm).waiting hw.1) h1
      exact ⟨I1.proc, fun ho => by cases ho⟩
    | clone flags mem => exact clone_markInv I h
    | exit status => exact exit_markInv I.proc (hok.2 _ rfl) h
    | waitpid pid ptr options =>
      obtain rfl | ⟨-, c, -, ⟨-, -, rfl⟩ | ⟨-, -, h⟩⟩ := waitpid_cases h
      · exact I
      · exact (I.tree (delete_treeOnly s c)).congr rfl rfl fun _ => rfl
      · exact (waitpidSleep_blocks hcur h).markInv I hm (fun _ => rfl) (.inr rfl)
    | nanosleep n =>
      obtain rfl | h := nanosleep_blocks hcur h
      · exact I
      · exact h.markInv I hm (absurd (I.run hm).marker) (.inl rfl)
    | wait cv =>
      exact (wait_blocks hcur h).markInv I hm (absurd (I.run hm).marker) (.inl rfl)
    | tkill tid sig => exact tkill_markInv I hok.1 h
    | setnice inc =>
      obtain rfl | ⟨t, u, w, a, rfl⟩ := setnice_form h
      · exact I
      · refine I.congr rfl rfl fun r => ?_
        refine modify_proc_of (g := Proc.mark) ?_ r
        exact fun _ => rfl

theorem Started.markInv (h : Started w s) : MarkInv s := by
  have hawake := h.procs (P := Awake) ⟨rfl, rfl, fun hw => by cases hw⟩
    fun _ _ _ _ => ⟨rfl, rfl, fun hw => by cases hw⟩
  exact ⟨fun p => (hawake p).marked, fun _ => hawake _⟩

theorem reach_markInv (h : Reach (Started w) (step (.code w)) MarkOk s) : s.ModeOk ∧ MarkInv s := by
  refine h.invariant (I := fun s => s.ModeOk ∧ MarkInv s) (fun s hs => ⟨hs.modeOk, hs.markInv⟩) ?_
  rintro s e s' ⟨M, I⟩ hok hstep
  exact ⟨step_modeOk M hstep, step_markInv M I hok hstep⟩

/-- The process is inside `waitpid`: it was switched out there, and does not run. -/
def InWaitpid (s : Kernel) (p : Nat) : Prop :=
  (s.proc p).cont.isWaitpid = true ∧ ¬ (s.mode = .outside ∧ s.curProc = p)

/-- In every run in which no signal reaches a process blocked inside `waitpid`, only
processes inside `waitpid` have a marker. So the assertion of `waitpid` does not fail,
and `exit` wakes a parent directly only if it sleeps in `waitpid`. -/
theorem wait_pid_cleared (w : Nat → Nat) {s : Kernel}
    (h : Reach (Started w) (step (.code w)) MarkOk s) :
    (∀ p, ¬ InWaitpid s p → (s.proc p).waitPid = 0) ∧
    (s.mode = .outside → (s.proc s.curProc).waitPid = 0) ∧
    ∀ p c, 0 < (s.proc c).pid → (s.proc p).status = .waiting →
      ((s.proc p).waitPid < 0 ∨ (s.proc p).waitPid = (s.proc c).pid) → InWaitpid s p := by
  obtain ⟨-, I⟩ := reach_markInv h
  have hin (p : Nat) (hp : (s.proc p).waitPid ≠ 0) : InWaitpid s p := by
    refine ⟨(I.proc p).marker hp, ?_⟩
    rintro ⟨hout, rfl⟩
    exact hp (I.run hout).marker
  refine ⟨fun p hp => ?_, fun hout => (I.run hout).marker, fun p c hc _ hm => hin p (by omega)⟩
  by_contra hne
  exact hp (hin p hne)

/-- Process 1 waits for its child 3, which ends after its turn. -/
def waitedChildEnds : List Event :=
  [.tick, .select, .clone 0 true, .waitpid 3 true 0, .select, .tick, .tick, .tick, .select, .exit 7,
    .select]

theorem wait_pid_cleared_sample : ∃ s, Reach (Started uint64) (step (.code uint64)) MarkOk s ∧
      (s.proc 1).cont = .waitpid 3 ∧ s.curProc = 1 ∧ s.mode = .outside ∧
      (∀ p, ¬ InWaitpid s p → (s.proc p).waitPid = 0) ∧
      (s.mode = .outside → (s.proc s.curProc).waitPid = 0) ∧
      ∀ p c, 0 < (s.proc c).pid → (s.proc p).status = .waiting →
        ((s.proc p).waitPid < 0 ∨ (s.proc p).waitPid = (s.proc c).pid) → InWaitpid s p := by
  have hrun : (runOf uint64 MarkOk waitedChildEnds).map
    (fun s => ((s.proc 1).cont, s.curProc, s.mode)) =
      some (.waitpid 3, 1, .outside) := by decide +kernel
  obtain ⟨s, hs, he⟩ := run_of_map hrun
  simp only [Prod.mk.injEq] at he
  exact ⟨s, runOf_reach hs, he.1, he.2.1, he.2.2, wait_pid_cleared uint64 (runOf_reach hs)⟩

/-- Process 1 waits for its child 3, and its other child 4 ends first. -/
def otherChildEnds : List Event :=
  [.tick, .select, .clone 0 true, .clone 0 true, .waitpid 3 true 0, .select, .tick, .tick, .select,
    .tick, .tick, .select, .exit 0, .select]

/-- The signal of the other child ends the wait, and leaves the marker: the next call
of `waitpid` stops the kernel. -/
theorem wait_pid_stays : ∃ s, Reach (Started uint64) (step (.code uint64)) always s ∧
      ¬ InWaitpid s 1 ∧ (s.proc 1).waitPid = 3 ∧
      s.step (.code uint64) (.waitpid (-1) true 0) = none := by
  have hrun : (runOf uint64 always otherChildEnds).map (fun s => (s.mode, s.curProc,
      (s.proc 1).waitPid, (s.step (.code uint64) (.waitpid (-1) true 0)).isSome)) =
      some (.outside, 1, 3, false) := by decide +kernel
  obtain ⟨s, hs, he⟩ := run_of_map hrun
  simp only [Prod.mk.injEq] at he
  obtain ⟨hm, hc, hw, hstep⟩ := he
  refine ⟨s, runOf_reach hs, fun hin => hin.2 ⟨hm, hc⟩, hw, ?_⟩
  exact Option.not_isSome_iff_eq_none.mp (by rw [hstep]; decide)

end Sysint.Process
