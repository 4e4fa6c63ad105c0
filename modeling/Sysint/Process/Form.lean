import Sysint.Process.Model

/-! What the functions of the scheduler do apart from the contents of the queues:
which process they touch, and which of its fields. -/
namespace Sysint.Process
open Proc Option

/-- A process put into the run queue by `add_proc_run`. -/
@[simps]
def Proc.readied (q : Proc) (v a : Nat) : Proc :=
  { q with vruntime := v, curQueue := .runQueue, queueHandle := a, status := .ready }

/-- A process taken out of the run queue by `remove_proc_run`, when `min_vruntime`
is `v`. -/
@[simps]
def Proc.unreadied (q : Proc) (v : Nat) : Proc :=
  { q.leave with
    vruntime := if v ≤ q.vruntime then q.vruntime - v else q.vruntime
    status := .ready }

/-- A process that `schedule` switches out. -/
@[simps]
def Proc.switched (q : Proc) (v a : Nat) (regs : Bool) (fpu : Fpu) : Proc :=
  { q.save v regs fpu with
    queueHandle := if q.curQueue = .runQueue then a else q.queueHandle
    status := if q.curQueue = .runQueue then .ready else q.status }

/-- The fields of a process that are not about queues, signals or relatives. -/
def Proc.own (q : Proc) : Nat × Nat × Cont × Fpu × Bool × Int × Nat × Int × Int :=
  (q.pid, q.uid, q.cont, q.fpuBuf, q.fpuUsed, q.nice, q.cloneFlags, q.exitStatus, q.waitPid)

/-- All but the relatives. -/
@[simps]
def Proc.flat (q : Proc) : Proc :=
  { q with parent := 0, lastChild := 0, nextSibling := 0, prevSibling := 0, deleted := false }

variable {f : Proc → Proc} {P : Kernel → Prop}

namespace Kernel

/-- The fields of the kernel that are not about processes, queues or CR0.TS. -/
def own (s : Kernel) : Nat × Nat × Nat × Bool × Nat × Nat × Nat × Fpu × Mode × History :=
  (s.nextTid, s.curProc, s.minVruntime, s.online, s.lastSched, s.tick, s.ticklen, s.fpu, s.mode,
    s.history)

/-- `own` field by field. -/
structure SameOwn (s s' : Kernel) : Prop where
  nextTid : s'.nextTid = s.nextTid
  curProc : s'.curProc = s.curProc
  minVruntime : s'.minVruntime = s.minVruntime
  online : s'.online = s.online
  lastSched : s'.lastSched = s.lastSched
  tick : s'.tick = s.tick
  ticklen : s'.ticklen = s.ticklen
  fpu : s'.fpu = s.fpu
  mode : s'.mode = s.mode
  history : s'.history = s.history

variable {cfg : Config} {s s' s'' : Kernel} {p : Nat}

theorem sameOwn (h : s'.own = s.own) : SameOwn s s' := by
  simp only [own, Prod.mk.injEq] at h
  obtain ⟨h1, h2, h3, h4, h5, h6, h7, h8, h9, h10⟩ := h
  exact ⟨h1, h2, h3, h4, h5, h6, h7, h8, h9, h10⟩

theorem modify_modify (s : Kernel) (p : Nat) (f g : Proc → Proc) :
    (s.modify p f).modify p g = s.modify p fun q => g (f q) := by simp [modify]

/-- What an update of a process keeps, it keeps of every process. -/
theorem modify_proc_of {β : Type} {g : Proc → β} (hf : ∀ q, g (f q) = g q)
    (q : Nat) : g ((s.modify p f).proc q) = g (s.proc q) := by
  by_cases hqp : q = p
  · subst hqp
    simpa using hf _
  · simp [hqp]

/-! ## Relatives -/

/-- Only relatives of processes change. -/
structure TreeOnly (s s' : Kernel) : Prop where
  rest : s' = s.setProcs s'.proc
  flat : ∀ p, (s'.proc p).flat = (s.proc p).flat

theorem TreeOnly.refl (s : Kernel) : TreeOnly s s := ⟨rfl, fun _ => rfl⟩

theorem TreeOnly.trans (h : TreeOnly s s') (h' : TreeOnly s' s'') : TreeOnly s s'' := by
  refine ⟨?_, fun p => (h'.flat p).trans (h.flat p)⟩
  rw [h'.rest, h.rest]
  rfl

theorem TreeOnly.modify (hf : ∀ q, (f q).flat = q.flat) :
    TreeOnly s (s.modify p f) := ⟨rfl, modify_proc_of hf⟩

theorem unlink_treeOnly (s : Kernel) (p : Nat) : TreeOnly s (s.unlink p) := by
  simp only [unlink]
  split_ifs
  all_goals repeat refine TreeOnly.trans ?_ (.modify fun _ => rfl)
  all_goals exact .refl s

theorem delete_treeOnly (s : Kernel) (p : Nat) : TreeOnly s (s.delete p) :=
  (unlink_treeOnly s p).trans (.modify fun _ => rfl)

theorem linkChild_treeOnly (s : Kernel) (p parent : Nat) : TreeOnly s (s.linkChild p parent) := by
  simp only [linkChild]
  split_ifs
  all_goals repeat refine TreeOnly.trans ?_ (.modify fun _ => rfl)
  all_goals exact .refl s

/-- What every deletion and every cut keeps, the loop of `exit` over the children keeps. -/
theorem exitChildren_rule {cur fuel child : Nat}
    (hdel : ∀ s c, P s → P (s.delete c)) (hcut : ∀ s c, P s → P (s.modify c (·.setParent 0)))
    (h : exitChildren cur fuel s child = some s') (hs : P s) : P s' := by
  induction fuel generalizing s child with
  | zero => cases h
  | succ n ih =>
    simp only [exitChildren] at h
    split_ifs at h with h1 h2 h3
    · cases h
      exact hs
    · exact ih h (hdel s child hs)
    · exact ih h (hcut s child hs)

theorem exitChildren_treeOnly {cur fuel child : Nat} (h : exitChildren cur fuel s child = some s') :
    TreeOnly s s' := by
  refine exitChildren_rule (P := TreeOnly s) (fun s' c hs => hs.trans (delete_treeOnly ..))
    (fun s' c hs => hs.trans (.modify ?_)) h (.refl s)
  exact fun _ => rfl

/-- No process gets a new parent. -/
def NoAdoption (s s' : Kernel) : Prop :=
  ∀ p, (s'.proc p).parent = (s.proc p).parent ∨ (s'.proc p).parent = 0

theorem NoAdoption.refl (s : Kernel) : NoAdoption s s := fun _ => .inl rfl

theorem NoAdoption.trans (h : NoAdoption s s') (h' : NoAdoption s' s'') : NoAdoption s s'' := by
  intro p
  obtain hp | hp := h' p
  · rw [hp]
    exact h p
  · exact .inr hp

theorem NoAdoption.modify (hf : ∀ q, (f q).parent = q.parent ∨ (f q).parent = 0) :
    NoAdoption s (s.modify p f) := by
  intro q
  by_cases hqp : q = p
  · subst hqp
    simpa using hf _
  · simp [hqp]

theorem delete_noAdoption (s : Kernel) (p : Nat) : NoAdoption s (s.delete p) := by
  simp only [delete, unlink]
  split_ifs
  all_goals repeat refine NoAdoption.trans ?_ (.modify fun _ => .inl rfl)
  all_goals exact .refl s

/-- `exit` cuts children off, and changes no other parent. -/
theorem exitChildren_noAdoption {cur fuel child : Nat}
    (h : exitChildren cur fuel s child = some s') : NoAdoption s s' := by
  refine exitChildren_rule (P := NoAdoption s) (fun s' c hs => hs.trans (delete_noAdoption s' c))
    (fun s' c hs => hs.trans (.modify ?_)) h (.refl s)
  exact fun _ => .inr rfl

/-! ## Queues -/

theorem removeFromQueue_form (h : s.removeFromQueue p = some s') :
    ∃ t u w, s' = (s.putQueues t u w).modify p leave := by
  unfold removeFromQueue at h
  obtain ⟨r, hr, rfl⟩ := map_eq_some_iff.mp h
  split at hr
  · obtain ⟨t, -, rfl⟩ := map_eq_some_iff.mp hr
    exact ⟨t, s.sleepQueue, s.waiting, rfl⟩
  · obtain ⟨u, -, rfl⟩ := map_eq_some_iff.mp hr
    exact ⟨s.runQueue, u, s.waiting, rfl⟩
  · cases hr
    exact ⟨s.runQueue, s.sleepQueue, _, rfl⟩
  · cases hr
    exact ⟨s.runQueue, s.sleepQueue, s.waiting, rfl⟩

theorem insertRun_form (h : s.insertRun cfg p = some s') :
    ∃ t a, s' = (s.putQueues t s.sleepQueue s.waiting).modify p fun q => q.setHandle a := by
  obtain ⟨r, -, rfl⟩ := map_eq_some_iff.mp h
  exact ⟨r.1, r.2, rfl⟩

theorem makeReady_form (h : s.makeReady cfg p = some s') :
    ∃ t u w a, s' = (s.putQueues t u w).modify p fun q =>
      q.readied (cfg.wrap (q.vruntime + s.minVruntime)) a := by
  unfold makeReady at h
  obtain ⟨s1, h1, h⟩ := bind_eq_some_iff.mp h
  obtain ⟨s2, h2, h⟩ := bind_eq_some_iff.mp h
  obtain ⟨t, u, w, rfl⟩ := removeFromQueue_form h1
  obtain ⟨t', a, rfl⟩ := insertRun_form h2
  refine ⟨t', u, w, a, ?_⟩
  cases h
  simp [modify, putQueues, readied, leave, setHandle, setStatus]

theorem removeProcRun_form (h : s.removeProcRun p = some s') :
    ∃ t u w, s' = (s.putQueues t u w).modify p fun q => q.unreadied s.minVruntime := by
  unfold removeProcRun at h
  obtain ⟨s1, h1, h⟩ := bind_eq_some_iff.mp h
  obtain ⟨t, u, w, rfl⟩ := removeFromQueue_form h1
  cases h
  exact ⟨t, u, w, modify_modify ..⟩

/-- `add_proc_run` readies the process, unless it may not be interrupted; only a
waiting process notices an interruption. -/
theorem addProcRun_form {i : Bool} (h : s.addProcRun cfg p i = some s') :
    (i = true ∧ (s.proc p).status = .waitingNoInterrupt ∧ s' = s) ∨
    ∃ t u w a, s' = (s.putQueues t u w).modify p fun q =>
      { q.readied (cfg.wrap (q.vruntime + s.minVruntime)) a with
        interrupted := q.interrupted || (i && q.status == .waiting) } := by
  unfold addProcRun at h
  split_ifs at h with h1 h2
  · obtain ⟨t, u, w, a, rfl⟩ := makeReady_form h
    refine .inr ⟨t, u, w, a, ?_⟩
    simp [modify, putQueues, readied, setInterrupted, h1]
  · cases h
    simp only [Bool.and_eq_true, beq_iff_eq] at h2
    exact .inl ⟨h2.1, h2.2, rfl⟩
  · obtain ⟨t, u, w, a, rfl⟩ := makeReady_form h
    refine .inr ⟨t, u, w, a, ?_⟩
    simp [modify, readied, h1]

theorem addProcRun_other {i : Bool} {q : Nat} (h : s.addProcRun cfg p i = some s') (hq : q ≠ p) :
    s'.proc q = s.proc q := by
  obtain ⟨-, -, rfl⟩ | ⟨t, u, w, a, rfl⟩ := addProcRun_form h
  · rfl
  · simp [hq]

/-- `_tkill` does nothing for a process that has ended. -/
theorem tkillProc_cases {sig : Nat} (h : s.tkillProc cfg p sig = some s') :
    (sig = 0 ∨ (s.proc p).status = .zombie) ∧ s' = s ∨ sig ≠ 0 ∧ (s.proc p).status ≠ .zombie ∧
      (s.modify p (·.setSignal sig true)).addProcRun cfg p true = some s' := by
  unfold tkillProc at h
  split_ifs at h with h1 h2
  · exact .inr ⟨h1.1, h1.2, h⟩
  · cases h
    exact .inl ⟨by tauto, rfl⟩

theorem switchOut_form {delta : Nat} {regs : Bool} (h : s.switchOut cfg p delta regs = some s') :
    ∃ t u w a, s' = (((s.setFpuOut p s.fpu).logDelta delta).putQueues t u w).modify p fun q =>
      q.switched (cfg.wrap (q.vruntime + delta)) a regs s.fpu := by
  simp only [switchOut, logDelta_proc, setFpuOut_proc] at h
  split_ifs at h with hq
  · obtain ⟨s1, h1, h⟩ := bind_eq_some_iff.mp h
    obtain ⟨t, u, w, rfl⟩ := removeFromQueue_form h1
    obtain ⟨t', a, rfl⟩ := insertRun_form h
    refine ⟨t', u, w, a, ?_⟩
    simp [modify, putQueues, switched, save, setHandle, leave, hq]
  · cases h
    refine ⟨s.runQueue, s.sleepQueue, s.waiting, 0, ?_⟩
    simp [modify, putQueues, switched, save, hq]

/-! ## What stays the same -/

/-- Only queues, signals, relatives and CR0.TS change. -/
structure Quiet (s s' : Kernel) : Prop where
  own : s'.own = s.own
  proc : ∀ p, (s'.proc p).own = (s.proc p).own

theorem Quiet.refl (s : Kernel) : Quiet s s := ⟨rfl, fun _ => rfl⟩

theorem Quiet.trans (h : Quiet s s') (h' : Quiet s' s'') : Quiet s s'' :=
  ⟨h'.own.trans h.own, fun p => (h'.proc p).trans (h.proc p)⟩

theorem Quiet.modify (hf : ∀ q, (f q).own = q.own) : Quiet s (s.modify p f) :=
  ⟨rfl, modify_proc_of hf⟩

theorem Quiet.requeue {t : Rbtree Nat} {u : Rbtree SleepProc}
    {w : Nat → List (Nat × Nat)} (hf : ∀ q, (f q).own = q.own) :
    Quiet s ((s.putQueues t u w).modify p f) := by
  have h : Quiet s (s.putQueues t u w) := ⟨rfl, fun _ => rfl⟩
  exact h.trans (.modify hf)

section
variable (h : Quiet s s')
include h

theorem Quiet.fields : SameOwn s s' := sameOwn h.own

theorem Quiet.procFields (p : Nat) : (s'.proc p).pid = (s.proc p).pid ∧
    (s'.proc p).uid = (s.proc p).uid ∧ (s'.proc p).cont = (s.proc p).cont ∧
    (s'.proc p).fpuBuf = (s.proc p).fpuBuf ∧ (s'.proc p).fpuUsed = (s.proc p).fpuUsed ∧
    (s'.proc p).nice = (s.proc p).nice ∧ (s'.proc p).cloneFlags = (s.proc p).cloneFlags ∧
    (s'.proc p).exitStatus = (s.proc p).exitStatus ∧ (s'.proc p).waitPid = (s.proc p).waitPid := by
  simpa only [Proc.own, Prod.mk.injEq] using h.proc p

end

theorem removeFromQueue_quiet (h : s.removeFromQueue p = some s') : Quiet s s' := by
  obtain ⟨t, u, w, rfl⟩ := removeFromQueue_form h
  exact .requeue fun _ => rfl

theorem addProcRun_quiet {i : Bool} (h : s.addProcRun cfg p i = some s') : Quiet s s' := by
  obtain ⟨-, -, rfl⟩ | ⟨t, u, w, a, rfl⟩ := addProcRun_form h
  · exact .refl _
  · exact .requeue fun _ => rfl

theorem removeProcRun_quiet (h : s.removeProcRun p = some s') : Quiet s s' := by
  obtain ⟨t, u, w, rfl⟩ := removeProcRun_form h
  exact .requeue fun _ => rfl

/-- What every `add_proc_run` keeps, the loop of `timer_tick` keeps. -/
theorem wakeSleepers_rule {now fuel it : Nat}
    (hP : ∀ s p s', P s → s.addProcRun cfg p false = some s' → P s')
    (h : wakeSleepers cfg now fuel s it = some s') (hs : P s) : P s' := by
  induction fuel generalizing s it with
  | zero => cases h
  | succ n ih =>
    simp only [wakeSleepers] at h
    split_ifs at h with hc
    · obtain ⟨next, -, h⟩ := bind_eq_some_iff.mp h
      obtain ⟨s1, h1, h⟩ := bind_eq_some_iff.mp h
      exact ih h (hP _ _ _ hs h1)
    · cases h
      exact hs

/-- What every `add_proc_run` keeps, the loop of `condvar::wake` keeps. -/
theorem wakeEntries_rule {tid : Int} {es : List (Nat × Nat)}
    (hP : ∀ s p s', P s → s.addProcRun cfg p false = some s' → P s')
    (h : wakeEntries cfg tid es s = some s') (hs : P s) : P s' := by
  induction es generalizing s with
  | nil =>
    cases h
    exact hs
  | cons e es ih =>
    rw [wakeEntries] at h
    split_ifs at h with h1 h2
    · exact hP _ _ _ hs h
    · obtain ⟨s1, h1, h⟩ := bind_eq_some_iff.mp h
      exact ih h (hP _ _ _ hs h1)
    · exact ih h hs

theorem wake_quiet {cv : Nat} {tid : Int} (h : s.wake cfg cv tid = some s') : Quiet s s' :=
  wakeEntries_rule (P := Quiet s) (fun _ _ _ hq h => hq.trans (addProcRun_quiet h)) h (.refl s)

theorem tkillProc_quiet {sig : Nat} (h : s.tkillProc cfg p sig = some s') : Quiet s s' := by
  obtain ⟨-, rfl⟩ | ⟨-, -, h⟩ := tkillProc_cases h
  · exact .refl _
  · refine Quiet.trans (.modify ?_) (addProcRun_quiet h)
    exact fun _ => rfl

theorem TreeOnly.quiet (h : TreeOnly s s') : Quiet s s' := by
  refine ⟨?_, fun p => ?_⟩
  · rw [h.rest]
    rfl
  · have hown := congrArg Proc.own (h.flat p)
    exact hown

theorem notifyParent_quiet (h : s.notifyParent cfg p = some s') : Quiet s s' := by
  simp only [notifyParent] at h
  split_ifs at h with h1 h2
  · cases h
    exact .refl _
  · exact addProcRun_quiet h
  · exact tkillProc_quiet h

theorem eraseProcList_form (h : s.eraseProcList p = some s') : ∃ t, s' = s.setProcList t := by
  obtain ⟨a, -, h⟩ := bind_eq_some_iff.mp h
  obtain ⟨t, -, h⟩ := bind_eq_some_iff.mp h
  exact ⟨t, (some_inj.mp h).symm⟩

theorem setProcList_quiet (s : Kernel) (t : Rbtree Nat) : Quiet s (s.setProcList t) :=
  ⟨rfl, fun _ => rfl⟩

theorem clts_quiet (s : Kernel) : Quiet s s.clts := ⟨rfl, fun _ => rfl⟩

end Kernel

end Sysint.Process
