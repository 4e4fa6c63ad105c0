import Sysint.Process.Wait

/-! What `waitpid` returns. A child is found by one loop before the caller sleeps and by
another one after it, and is deleted with the return. -/
namespace Sysint.Process
open Kernel List
open Function
open Machine

variable {w : Nat → Nat} {cfg : Config} {s s' s'' : Kernel} {p c : Nat} {pid : Int}

/-- No call of `waitpid` returns a child, and nothing that was deleted comes back. -/
structure Unreaped (s s' : Kernel) : Prop where
  reaps : s'.history.reaps = s.history.reaps
  nextTid : s.nextTid ≤ s'.nextTid
  deleted : ∀ c < s.nextTid, (s.proc c).deleted = true → (s'.proc c).deleted = true

theorem Unreaped.refl (s : Kernel) : Unreaped s s := ⟨rfl, le_rfl, fun _ _ => id⟩

theorem Unreaped.trans (h : Unreaped s s') (h' : Unreaped s' s'') : Unreaped s s'' :=
  ⟨h'.reaps.trans h.reaps, h.nextTid.trans h'.nextTid, fun c hc hd =>
    h'.deleted c (hc.trans_le h.nextTid) (h.deleted c hc hd)⟩

theorem Unreaped.of_proc (hp : s'.proc = s.proc) (hr : s'.history.reaps = s.history.reaps)
    (ht : s'.nextTid = s.nextTid) : Unreaped s s' :=
  ⟨hr, ht.ge, fun _ _ hd => hp ▸ hd⟩

theorem Unreaped.update {q' : Proc} (hp : s'.proc = update s.proc p q')
    (hd : (s.proc p).deleted = true → q'.deleted = true)
    (hr : s'.history.reaps = s.history.reaps) (ht : s'.nextTid = s.nextTid) : Unreaped s s' := by
  refine ⟨hr, ht.ge, fun c _ hc => ?_⟩
  rw [hp]
  by_cases h : c = p
  · subst h
    rw [update_self]
    exact hd hc
  · rwa [update_of_ne h]

theorem addProcRun_unreaped {i : Bool} (h : s.addProcRun cfg p i = some s') : Unreaped s s' := by
  obtain ⟨-, -, rfl⟩ | ⟨t, u, w, a, rfl⟩ := addProcRun_form h
  · exact .refl _
  · refine .update rfl ?_ rfl rfl
    exact id

theorem tkillProc_unreaped {sig : Nat} (h : s.tkillProc cfg p sig = some s') : Unreaped s s' := by
  obtain ⟨-, rfl⟩ | ⟨-, -, h⟩ := tkillProc_cases h
  · exact .refl _
  · have U : Unreaped s (s.modify p (·.setSignal sig true)) := by
      refine .update rfl ?_ rfl rfl
      exact id
    exact U.trans (addProcRun_unreaped h)

theorem notifyParent_unreaped (h : s.notifyParent cfg p = some s') : Unreaped s s' := by
  obtain ⟨-, rfl⟩ | ⟨-, -, -, h⟩ | ⟨-, -, h⟩ := notifyParent_cases h
  · exact .refl _
  · exact addProcRun_unreaped h
  · exact tkillProc_unreaped h

theorem schedule_unreaped {regs : Bool} (h : s.schedule cfg regs = some s') : Unreaped s s' := by
  obtain ⟨-, rfl⟩ | ⟨-, -, rfl⟩ | ⟨-, -, -, rfl⟩ | ⟨-, -, s1, hs1, rfl⟩ := schedule_cases h
  · exact .refl _
  · exact .of_proc rfl rfl rfl
  · exact .of_proc rfl rfl rfl
  · obtain ⟨t, u, w, a, rfl⟩ := switchOut_form hs1
    refine .update (p := s.curProc) rfl ?_ rfl rfl
    exact id

theorem Kernel.Blocks.unreaped {cont : Cont} {queue : QueueId} {mark : Int}
    (B : Blocks cfg s s' cont queue mark) : Unreaped s s' := by
  have hown := sameOwn B.own
  obtain ⟨a, hproc⟩ := B.proc
  refine .update hproc id ?_ hown.nextTid
  rw [hown.history]
  rfl

theorem delete_unreaped (s : Kernel) (c : Nat) : Unreaped s (s.delete c) := by
  have ht := (delete_treeOnly s c).quiet.fields.nextTid
  have hh := (delete_treeOnly s c).quiet.fields.history
  refine ⟨congrArg History.reaps hh, ht.ge, fun d _ hd => ?_⟩
  rw [delete_deleted, hd, Bool.true_or]

theorem exit_unreaped {status : Int} (h : s.exit cfg status = some s') : Unreaped s s' := by
  obtain ⟨s1, s2, t, s3, h1, h2, -, h4, rfl⟩ := exit_cases h
  have U1 : Unreaped s s1 := by
    refine exitChildren_rule (P := Unreaped s) (fun s' c hs => hs.trans (delete_unreaped s' c))
      (fun s' c hs => hs.trans (.update rfl ?_ rfl rfl)) h1 (.of_proc rfl rfl rfl)
    exact id
  obtain ⟨t', u, w, rfl⟩ := removeFromQueue_form h2
  have U2 : Unreaped s1 (((((s1.putQueues t' u w).modify s.curProc Proc.leave).setCur 0).setProcList
      t).modify s.curProc (·.ended status)) := by
    have hproc : (((((s1.putQueues t' u w).modify s.curProc Proc.leave).setCur 0).setProcList
        t).modify s.curProc (·.ended status)).proc =
        update s1.proc s.curProc ((s1.proc s.curProc).leave.ended status) := by simp
    exact .update hproc id rfl rfl
  have U4 : Unreaped s3 (s3.clts.toSelect s3.ns 0) := .of_proc rfl rfl rfl
  exact (U1.trans U2).trans ((notifyParent_unreaped h4).trans U4)

theorem clone_unreaped {flags : Nat} {mem : Bool} (h : s.clone cfg flags mem = some s') :
    Unreaped s s' := by
  have U0 : Unreaped s (s.takeTid.setFpuOut s.nextTid none) :=
    ⟨rfl, Nat.le_succ _, fun _ _ => id⟩
  obtain rfl | rfl | ⟨-, s1, r, h1, -, rfl⟩ := clone_cases h
  · exact .refl _
  · exact U0
  · have T := linkChild_treeOnly ((s.takeTid.setFpuOut s.nextTid none).modify s.nextTid fun _ =>
      s.cloned flags) s.nextTid (s.clonedParent flags)
    have ht := T.quiet.fields.nextTid
    have hh := T.quiet.fields.history
    have U1 : Unreaped s (((s.takeTid.setFpuOut s.nextTid none).modify s.nextTid fun _ =>
        s.cloned flags).linkChild s.nextTid (s.clonedParent flags)) := by
      have hr := congrArg History.reaps hh
      refine ⟨hr, ht.symm ▸ Nat.le_succ _, fun c hc hd => ?_⟩
      rw [linkChild_deleted]
      simpa [hc.ne] using hd
    have U2 : Unreaped s1 (s1.setProcList r.1) := .of_proc rfl rfl rfl
    exact U1.trans ((addProcRun_unreaped h1).trans U2)

theorem fault_unreaped (h : s.fault cfg = some s') : Unreaped s s' := by
  obtain ⟨s1, h1, ⟨-, rfl⟩ | rfl⟩ := fault_cases h
  · exact (tkillProc_unreaped h1).trans (.of_proc rfl rfl rfl)
  · exact (tkillProc_unreaped h1).trans (.of_proc rfl rfl rfl)

/-! ## The step that returns a child -/

/-- The step returns from `waitpid` with a child that has ended, and deletes it. -/
structure Returns (s s' : Kernel) (r : Reap) : Prop where
  logged : s'.history.reaps = r :: s.history.reaps
  caller : s'.mode = .outside ∧ s'.curProc = r.caller
  child : Matches s r.caller r.pid r.child
  result : r.result = (s.proc r.child).pid
  status : r.status = (s.proc r.child).exitStatus
  only : ∀ q, (s'.proc q).deleted = ((s.proc q).deleted || decide (q = r.child))
  nextTid : s'.nextTid = s.nextTid

theorem reap_returns (hm : s.mode = .outside) (hc : Matches s s.curProc pid c) :
    Returns s (s.reap pid c) ⟨s.curProc, pid, c, (s.proc c).pid, (s.proc c).exitStatus⟩ := by
  have ht := (delete_treeOnly s c).quiet.fields.nextTid
  have hh := (delete_treeOnly s c).quiet.fields.history
  obtain ⟨hm', -, hc', -⟩ := reap_fields s pid c
  refine ⟨?_, ⟨hm'.trans hm, hc'⟩, hc, rfl, rfl, delete_deleted s c, ht⟩
  simp [reap, hh]

theorem Returns.of_kin {r : Reap} (R : Returns s' s'' r) (hk : SameKin s s')
    (hq : ∀ q, (s'.proc q).pid = (s.proc q).pid ∧ (s'.proc q).exitStatus = (s.proc q).exitStatus)
    (hr : s'.history.reaps = s.history.reaps) (ht : s'.nextTid = s.nextTid) : Returns s s'' r where
  logged := hr ▸ R.logged
  caller := R.caller
  child := (Matches.congr hk fun q => (hq q).1).mp R.child
  result := R.result.trans (hq _).1
  status := R.status.trans (hq _).2
  only q := by rw [R.only, (hk.fields q).2.2.2.2.1]
  nextTid := R.nextTid.trans ht

/-- The process that is dispatched may return from `waitpid`. -/
theorem dispatch_reaps {pold : Nat} (hl : s.living s.curProc = true)
    (h : s.dispatch pold = some s') : Unreaped s s' ∨ ∃ pid c,
      (s.proc s.curProc).cont = .waitpid pid ∧ (s.proc s.curProc).interrupted = false ∧ c ≠ 0 ∧
      s.findChild (s.wokenTest pid) = some c ∧
      (Matches s s.curProc pid c → ∃ r : Reap, r.pid = pid ∧ Returns s s' r) := by
  have hk1 : SameKin (s.entered pold)
    ((s.entered pold).modify s.curProc (·.setInterrupted false)) :=
    .modify fun _ => rfl
  have hk2 : SameKin ((s.entered pold).modify s.curProc (·.setInterrupted false))
      (((s.entered pold).modify s.curProc (·.setInterrupted false)).modify s.curProc
        (·.setWaitPid 0)) := .modify fun _ => rfl
  have hk := (entered_kin pold hl).trans hk1
  obtain ⟨-, rfl⟩ | ⟨-, rfl⟩ | ⟨pid, c, hcont, hi, hc, hfind, rfl⟩ :=
    resume_cases (dispatch_entered h)
  · left
    refine .update (p := s.curProc) rfl ?_ rfl rfl
    exact id
  · left
    have hproc : ((s.entered pold).modify s.curProc (·.setInterrupted false)).proc =
        update s.proc s.curProc (((s.proc s.curProc).setStatus .running).setInterrupted
          false) := by simp
    exact .update hproc id rfl rfl
  · right
    simp only [entered_curProc, entered_proc, update_self,
      Proc.setStatus_cont, Proc.setStatus_interrupted] at hcont hi
    have hpid (q : Nat) :
      (((s.entered pold).modify s.curProc (·.setInterrupted false)).proc q).pid =
        (s.proc q).pid := by
      by_cases hq : q = s.curProc <;> simp [hq]
    have hq (q : Nat) : ((((s.entered pold).modify s.curProc (·.setInterrupted false)).modify
      s.curProc
        (·.setWaitPid 0)).proc q).pid = (s.proc q).pid ∧
        ((((s.entered pold).modify s.curProc (·.setInterrupted false)).modify s.curProc
        (·.setWaitPid 0)).proc q).exitStatus = (s.proc q).exitStatus := by
      by_cases hq : q = s.curProc <;> simp [hq]
    refine ⟨pid, c, hcont, hi, hc, ?_, fun hm => ?_⟩
    · rw [← findChild_congr _ hk rfl rfl, ← wokenTest_congr hk hpid]
      exact hfind
    · have hm' := (Matches.congr (hk.trans hk2) fun q => (hq q).1).mpr hm
      exact ⟨_, rfl, (reap_returns rfl hm').of_kin (hk.trans hk2) hq rfl rfl⟩

/-! ## What the last loop finds -/

/-- No other child of `p` has this pid, and no child younger than `c` has ended. -/
def FoundFirst (s : Kernel) (p : Nat) (pid : Int) (c : Nat) : Prop :=
  ∀ d < s.nextTid, (ChildWith s p pid d → d = c) ∧
    (c < d ∧ (s.proc d).parent = p ∧ (s.proc d).deleted = false → s.living d = true)

instance : Decidable (FoundFirst s p pid c) := inferInstanceAs (Decidable (∀ d < s.nextTid, _ ∧ _))

/-- When a process goes on inside `waitpid(pid)`, no page fault has killed it, and if it
asks for one child, the others do not come first. -/
def ReturnOk (s : Kernel) : Event → Prop
  | .select => ∀ x ∈ s.resumed, s.history.killed x.1 = false ∧
      (0 < x.2 → ∀ c < s.nextTid, ChildWith s x.1 x.2 c → FoundFirst s x.1 x.2 c)
  | _ => True

instance (s : Kernel) (e : Event) : Decidable (ReturnOk s e) :=
  match e with
  | .select => inferInstanceAs (Decidable (∀ x ∈ s.resumed, _ ∧ (_ → ∀ c < s.nextTid, _ → _)))
  | .tick | .fpu _ | .fault | .clone _ _ | .exit _ | .waitpid _ _ _ | .nanosleep _ | .wait _
  | .wake _ _ | .tkill _ _ | .setnice _ => .isTrue trivial

/-- A process that goes on inside `waitpid` was woken by a child. -/
theorem WaitInv.resumed {a : Nat} (I : WaitInv s) (H : Sane s) (hm : s.mode ≠ .outside)
    (hbegin : s.runQueue.begin = some a) (hsz : s.runQueue.sz ≠ 0)
    (hcont : (s.proc (s.runQueue.node a).key).cont = .waitpid pid)
    (hi : (s.proc (s.runQueue.node a).key).interrupted = false)
    (hk : s.history.killed (s.runQueue.node a).key = false) :
    ∃ c, Matches s (s.runQueue.node a).key pid c := by
  have hq := (H.first hbegin hsz).1
  obtain ⟨-, hz, hpos, -⟩ := live_of_queue H hq (by decide)
  refine I.woken _ pid ⟨hpos.ne', hcont, hi, hk, fun hst => ?_, living_of_ne hz, fun h => hm h.1⟩
  have hno := (I.blocked _ pid ⟨hpos.ne', hst, hcont⟩).1
  rw [hq] at hno
  cases hno

theorem wokenTest_of_ended (hz : s.living c = false) : s.wokenTest pid c = true := by
  simp only [living] at hz
  simp [wokenTest, hz]

theorem wokenTest_living (hz : s.living c = true) (h : s.wokenTest pid c = true) :
    0 < pid ∧ (s.proc c).pid = pid := by
  have hst : ((s.proc c).status != .zombie) = true := hz
  simp only [wokenTest, hst, Bool.and_true, Bool.not_eq_true', Bool.or_eq_false_iff,
    decide_eq_false_iff_not, not_lt, bne_eq_false_iff_eq] at h
  exact ⟨by omega, h.2⟩

/-- The youngest child with the test is found. -/
theorem Family.find_le {test : Nat → Bool} {kids : Nat → List Nat} {d : Nat} (F : Family s kids)
    (hf : (kids p).find? test = some d) (hc : c ∈ kids p) (ht : test c = true) : c ≤ d := by
  obtain ⟨-, xs, ys, hk, hno⟩ := List.find?_eq_some_iff_append.mp hf
  have hsort := F.sorted p
  rw [hk] at hc hsort
  obtain hc | hc := mem_append.mp hc
  · have hct := hno c hc
    simp [ht] at hct
  · obtain rfl | hc := mem_cons.mp hc
    · exact le_rfl
    · have hgt := (pairwise_cons.mp (pairwise_append.mp hsort).2.1).1 c hc
      exact hgt.le

/-- The child that was found is the one that the caller asked for. -/
theorem WaitInv.found {a : Nat} (I : WaitInv s) (H : Sane s) (T : TreeInv s)
    (hm : s.mode ≠ .outside)
    (hbegin : s.runQueue.begin = some a) (hsz : s.runQueue.sz ≠ 0)
    (hres : s.resumed = some ((s.runQueue.node a).key, pid)) (hok : ReturnOk s .select)
    (hcont : (s.proc (s.runQueue.node a).key).cont = .waitpid pid)
    (hi : (s.proc (s.runQueue.node a).key).interrupted = false) (hc : c ≠ 0)
    (hfind : s.findSibling (s.wokenTest pid) (s.nextTid + 1)
      (s.proc (s.runQueue.node a).key).lastChild = some c) :
    Matches s (s.runQueue.node a).key pid c := by
  obtain ⟨kids, F⟩ := T.family
  obtain ⟨-, hz, hpos, -⟩ := live_of_queue H (H.first hbegin hsz).1 (by decide)
  obtain ⟨hkill, hfirst⟩ := hok _ hres
  obtain ⟨hmem, hf⟩ := F.find hc hfind
  obtain ⟨-, hlt, hdel, hpar⟩ := F.child _ c hmem
  rw [if_pos (living_of_ne hz)] at hpar
  have htest := List.find?_some hf
  by_cases hpid : pid ≤ 0
  · refine ⟨hpar, hdel, ?_, .inl hpid⟩
    by_contra hl
    have h0 := (wokenTest_living (Bool.not_eq_false _ ▸ hl) htest).1
    omega
  -- the child that has woken the process is not younger than the one found
  obtain ⟨d, hd⟩ := I.resumed H hm hbegin hsz hcont hi hkill
  have hdmem := F.parent d hd.undeleted (hd.child.symm ▸ hpos.ne')
  rw [hd.child] at hdmem
  have hdlt := (F.child _ d hdmem).2.1
  have hdpid := hd.request.resolve_left hpid
  have hfirst := hfirst (lt_of_not_ge hpid) d hdlt ⟨hd.child, hd.undeleted, hdpid⟩ c hlt
  have hle := F.find_le hf hdmem (wokenTest_of_ended hd.ended)
  obtain rfl | hlt' := hle.eq_or_lt
  · exact hd
  · have hl := hfirst.2 ⟨hlt', hpar, hdel⟩
    have heq := hfirst.1 ⟨hpar, hdel, (wokenTest_living hl htest).2⟩
    exact absurd heq hlt'.ne'

/-- The state `X` in which the process is dispatched differs from the state before in what
no child depends on. -/
theorem dispatch_returns {a now pold : Nat} {X : Kernel} (H : Sane s) (T : TreeInv s)
    (I : WaitInv s) (hm : s.mode ≠ .outside) (hok : ReturnOk s .select)
    (hbegin : s.runQueue.begin = some a) (hsz : s.runQueue.sz ≠ 0)
    (hend : s.ending .select = none) (hk : SameKin s X)
    (hX : X.own = (s.choose (s.runQueue.node a).key now).own)
    (hq : ∀ q, (X.proc q).own = (s.proc q).own ∧ (X.proc q).interrupted = (s.proc q).interrupted)
    (h : X.dispatch pold = some s') : Unreaped s s' ∨ ∃ r, Returns s s' r := by
  obtain ⟨-, hz, -, -⟩ := live_of_queue H (H.first hbegin hsz).1 (by decide)
  have hl : s.living (s.runQueue.node a).key = true := living_of_ne hz
  have hX := sameOwn hX
  have ht := hX.nextTid
  have hcur := hX.curProc
  have hr : X.history.reaps = s.history.reaps := congrArg History.reaps hX.history
  have hown (q : Nat) := (hq q).1
  simp only [Proc.own, Prod.mk.injEq] at hown
  have hlX : X.living X.curProc = true := by
    rw [hcur, (hk.fields _).2.2.2.2.2]
    exact hl
  have hpid (q : Nat) : (X.proc q).pid = (s.proc q).pid := (hown q).1
  have hcur' : X.curProc = (s.runQueue.node a).key := hcur
  obtain U | ⟨pid, c, hcont, hi, hc, hfind, hret⟩ := dispatch_reaps hlX h
  · refine .inl (Unreaped.trans ⟨hr, ht.ge, fun c _ hd => ?_⟩ U)
    rw [(hk.fields c).2.2.2.2.1]
    exact hd
  rw [hcur'] at hcont hi hret
  rw [(hown _).2.2.1] at hcont
  rw [(hq _).2] at hi
  have hres : s.resumed = some ((s.runQueue.node a).key, pid) := by
    simp [resumed, hbegin, hcont, hi, hend]
  have hn : X.nextTid = s.nextTid := ht
  rw [findChild, wokenTest_congr hk hpid, hcur', hn, (hk.fields _).2.1,
    findSibling_congr hk] at hfind
  have hmatch := I.found H T hm hbegin hsz hres hok hcont hi hc hfind
  obtain ⟨r, -, R⟩ := hret ((Matches.congr hk hpid).mpr hmatch)
  exact .inr ⟨r, R.of_kin hk (fun q => ⟨hpid q, (hown q).2.2.2.2.2.2.2.1⟩) hr ht⟩

/-- The call returns the right child, or none. -/
theorem select_reaps {now pold : Nat} (H : Sane s) (T : TreeInv s) (I : WaitInv s)
    (hm : s.mode = .select now pold) (hok : ReturnOk s .select)
    (h : s.select cfg now pold = some s') : Unreaped s s' ∨ ∃ r, Returns s s' r := by
  obtain ⟨a, p, hbegin, rfl, hsz, -, -, h⟩ := select_cases h
  have hne : s.mode ≠ .outside := by simp [hm]
  have hsig (sig : Nat) : SameKin s ((s.choose (s.runQueue.node a).key now).modify
      (s.runQueue.node a).key (·.setSignal sig false)) := .update rfl rfl
  obtain ⟨hsig0, h⟩ | ⟨sig, hsig1, ⟨-, h⟩ | ⟨hf, h⟩⟩ := h
  · have hend : s.ending .select = none := by simp [ending, hbegin, hsig0]
    have hk : SameKin s (s.choose (s.runQueue.node a).key now) := .refl s
    exact dispatch_returns H T I hne hok hbegin hsz hend hk rfl (fun _ => ⟨rfl, rfl⟩) h
  · refine .inl (Unreaped.trans ?_ (exit_unreaped h))
    refine .update (p := (s.runQueue.node a).key) rfl ?_ rfl rfl
    exact id
  · have hend : s.ending .select = none := by simp [ending, hbegin, hsig1, hf]
    refine dispatch_returns H T I hne hok hbegin hsz hend (hsig sig) rfl (fun q => ?_) h
    by_cases hq : q = (s.runQueue.node a).key <;> simp [hq, Proc.own]

theorem step_reaps {e : Event} (H : Sane s) (T : TreeInv s) (I : WaitInv s) (hok : ReturnOk s e)
    (h : s.step cfg e = some s') : Unreaped s s' ∨ ∃ r, Returns s s' r := by
  have hadd (s0 s : Kernel) (p : Nat) (s' : Kernel) (hs : Unreaped s0 s)
      (h : s.addProcRun cfg p false = some s') : Unreaped s0 s' := hs.trans (addProcRun_unreaped h)
  obtain ⟨-, -, h⟩ | ⟨cv, tid, -, -, h⟩ | ⟨now, pold, rfl, hm, h⟩ | ⟨hm, hcur, h⟩ := step_cases h
  · obtain ⟨s1, hs1, -, h⟩ := timerTick_rule (P := Unreaped s) (hadd s) h (.of_proc rfl rfl rfl)
    exact .inl (hs1.trans (schedule_unreaped h))
  · exact .inl (wakeEntries_rule (P := Unreaped s) (hadd s) h (.refl s))
  · exact select_reaps H T I hm hok h
  · have hl := T.run hm hcur
    obtain ⟨kids, F⟩ := T.family
    cases e with
    | tick | select | wake => cases h
    | fpu v =>
      cases h
      left
      unfold useFpu
      split_ifs
      · refine .update (p := s.curProc) rfl ?_ rfl rfl
        exact id
      · exact .of_proc rfl rfl rfl
    | fault => exact .inl (fault_unreaped h)
    | clone flags mem => exact .inl (clone_unreaped h)
    | exit status => exact .inl (exit_unreaped h)
    | waitpid pid ptr options =>
      obtain rfl | ⟨-, c, hfind, ⟨hc, hz, rfl⟩ | ⟨-, -, h⟩⟩ := waitpid_cases h
      · exact .inl (.refl _)
      · obtain ⟨hmem, hf⟩ := F.find hc hfind
        obtain ⟨-, -, hdel, hpar⟩ := F.child _ c hmem
        rw [if_pos hl] at hpar
        refine .inr ⟨_, reap_returns hm ⟨hpar, hdel, by simp [living, hz], ?_⟩⟩
        have htest := List.find?_some hf
        by_cases hpid : pid ≤ 0
        · exact .inl hpid
        · simp only [waitTest, if_neg hpid, beq_iff_eq] at htest
          exact .inr htest
      · exact .inl (waitpidSleep_blocks hcur h).unreaped
    | nanosleep n =>
      obtain rfl | B := nanosleep_blocks hcur h
      · exact .inl (.refl _)
      · exact .inl B.unreaped
    | wait cv => exact .inl (wait_blocks hcur h).unreaped
    | tkill tid sig =>
      obtain rfl | ⟨a, -, -, h⟩ := tkill_cases h
      · exact .inl (.refl _)
      · exact .inl (tkillProc_unreaped h)
    | setnice inc =>
      obtain rfl | ⟨t, u, w, a, rfl⟩ := setnice_form h
      · exact .inl (.refl _)
      · refine .inl (.update (p := s.curProc) rfl ?_ rfl rfl)
        exact id

/-! ## Runs -/

theorem resumed_cases (h : s.resumed = some (p, pid)) :
    ∃ a, s.runQueue.begin = some a ∧ (s.runQueue.node a).key = p ∧
      (s.proc p).cont = .waitpid pid ∧ (s.proc p).interrupted = false := by
  obtain ⟨a, ha, h⟩ := Option.bind_eq_some_iff.mp h
  simp only at h
  split at h
  · rename_i pid' hcont
    split_ifs at h with hi
    cases h
    simp only [Bool.or_eq_true, not_or, Bool.not_eq_true] at hi
    exact ⟨a, ha, rfl, hcont, hi.2⟩
  · cases h

/-- With the condition on the returns, `waitpid` deletes no living child. -/
theorem ReturnOk.reapOk {e : Event} (hok : ReturnOk s e) (H : Sane s) (T : TreeInv s)
    (I : WaitInv s)
    (h : s.step cfg e = some s') : ReapOk s e := by
  obtain ⟨kids, F⟩ := T.family
  cases e with
  | select =>
    rintro ⟨p, pid⟩ hres hpos c hc hpar hpid
    obtain ⟨a, ha, rfl, hcont, hi⟩ := resumed_cases hres
    obtain ⟨hkill, hfirst⟩ := hok _ hres
    obtain ⟨he, -⟩ | ⟨cv, tid, he, -⟩ | ⟨now, pold, -, hm, h⟩ | ⟨-, -, h⟩ := step_cases h
    · cases he
    · cases he
    · obtain ⟨a', p', ha', -, hsz, -⟩ := select_cases h
      obtain ⟨d, hd⟩ := I.resumed H (by simp [hm]) ha hsz hcont hi hkill
      have hdpid := hd.request.resolve_left (not_le_of_gt hpos)
      have hdlt : d < s.nextTid := by
        by_contra hlt
        have hl := (F.fresh d (le_of_not_gt hlt)).2.2.2
        rw [hd.ended] at hl
        cases hl
      cases hdel : (s.proc c).deleted with
      | true => exact F.deleted c hdel
      | false =>
        have hcd := (hfirst hpos d hdlt ⟨hd.child, hd.undeleted, hdpid⟩ c hc).1 ⟨hpar, hdel, hpid⟩
        exact hcd ▸ hd.ended
    · cases h
  | _ => trivial

/-- The queues stay intact, and a process goes on inside `waitpid` as above. -/
def ReapsOk (w : Nat → Nat) (s : Kernel) (e : Event) : Prop := QueueOk w s e ∧ ReturnOk s e

instance (s : Kernel) (e : Event) : Decidable (ReapsOk w s e) := inferInstanceAs (Decidable (_ ∧ _))

/-- The children returned so far are deleted, and all different. -/
structure Returned (s : Kernel) : Prop where
  deleted : ∀ r ∈ s.history.reaps, r.child < s.nextTid ∧ (s.proc r.child).deleted = true
  nodup : (s.history.reaps.map Reap.child).Nodup

theorem Returned.step (R : Returned s) (T : TreeInv s) (h : Unreaped s s' ∨ ∃ r, Returns s s' r) :
    Returned s' := by
  obtain U | ⟨r, hr⟩ := h
  · refine ⟨fun r hr => ?_, U.reaps ▸ R.nodup⟩
    obtain ⟨hlt, hd⟩ := R.deleted r (U.reaps ▸ hr)
    exact ⟨hlt.trans_le U.nextTid, U.deleted _ hlt hd⟩
  obtain ⟨kids, F⟩ := T.family
  have hlt : r.child < s.nextTid := by
    by_contra hlt
    have hl := (F.fresh r.child (le_of_not_gt hlt)).2.2.2
    rw [hr.child.ended] at hl
    cases hl
  refine ⟨fun r' hr' => ?_, ?_⟩
  · rw [hr.logged] at hr'
    rw [hr.nextTid, hr.only]
    obtain rfl | hr' := mem_cons.mp hr'
    · exact ⟨hlt, by simp⟩
    · obtain ⟨hlt', hd⟩ := R.deleted r' hr'
      exact ⟨hlt', by simp [hd]⟩
  rw [hr.logged, map_cons, nodup_cons]
  refine ⟨fun hmem => ?_, R.nodup⟩
  obtain ⟨r', hr', heq⟩ := mem_map.mp hmem
  have hd := (R.deleted r' hr').2
  rw [heq, hr.child.undeleted] at hd
  cases hd

theorem Started.returned (h : Started w s) : Returned s := by
  obtain ⟨tick, ticklen, fpu, uid, uid', t, a, a', rfl⟩ := h.form
  refine ⟨fun r hr => ?_, nodup_nil⟩
  cases hr

theorem reach_returned (h : Reach (Started w) (step (.code w)) (ReapsOk w) s) :
    Sane s ∧ s.ModeOk ∧ TreeInv s ∧ WaitInv s ∧ Returned s := by
  refine h.invariant (I := fun s => Sane s ∧ s.ModeOk ∧ TreeInv s ∧ WaitInv s ∧ Returned s)
    (fun s hs => ⟨hs.sane, hs.modeOk, hs.tree, hs.waitInv.1, hs.returned⟩) ?_
  rintro s e s' ⟨H, M, T, I, R⟩ ⟨hq, hok⟩ hstep
  have hstep' := step_below.agree hq.1 hstep
  exact ⟨(hq.keeps hstep H).1, step_modeOk M hstep,
    step_tree rfl H M T (hok.reapOk H T I hstep) hstep', (step_wait rfl H M T I hstep').1,
    R.step T (step_reaps H T I hok hstep)⟩

/-- In every run in which a process goes on inside `waitpid(pid)` only without a younger
child that has ended, and not after a page fault, `waitpid` returns a child of the caller
that has ended, the one with the pid if it asks for one, with its status; it deletes this
child and no other, and never returns it again. -/
theorem waitpid_returns_child (w : Nat → Nat) {s : Kernel}
    (h : Reach (Started w) (step (.code w)) (ReapsOk w) s) :
    (s.history.reaps.map Reap.child).Nodup ∧
    ∀ e s' r, ReapsOk w s e → s.step (.code w) e = some s' →
      s'.history.reaps = r :: s.history.reaps →
        s'.curProc = r.caller ∧ (s.proc r.child).parent = r.caller ∧
        (s.proc r.child).deleted = false ∧ (s.proc r.child).status = .zombie ∧
        r.result = (s.proc r.child).pid ∧ (0 < r.pid → r.result = r.pid) ∧
        r.status = (s.proc r.child).exitStatus ∧
        ∀ q, (s'.proc q).deleted = ((s.proc q).deleted || decide (q = r.child)) := by
  obtain ⟨H, -, T, I, R⟩ := reach_returned h
  refine ⟨R.nodup, fun e s' r hok hstep hlog => ?_⟩
  obtain U | ⟨r', hr⟩ := step_reaps H T I hok.2 hstep
  · rw [U.reaps] at hlog
    exact absurd hlog.symm (cons_ne_self r _)
  obtain rfl : r' = r := (List.cons.inj (hr.logged.symm.trans hlog)).1
  have hz : (s.proc r'.child).status = .zombie := by
    have hl := hr.child.ended
    simpa [living] using hl
  refine ⟨hr.caller.2, hr.child.child, hr.child.undeleted, hz, hr.result, fun hpos => ?_, hr.status,
    hr.only⟩
  rw [hr.result]
  exact hr.child.request.resolve_left (not_le_of_gt hpos)

def Reap.values (r : Reap) : List Int := [r.caller, r.pid, r.child, r.result, r.status]

/-- Process 1 waits for its child 3 of the children 3 and 4, and 3 ends. -/
def olderChildEnds : List Event :=
  [.tick, .select, .clone 0 true, .clone 0 true, .waitpid 3 true 0, .select, .tick, .tick, .select,
    .exit 7]

theorem waitpid_returns_child_sample :
    ∃ s s' r, Reach (Started uint64) (step (.code uint64)) (ReapsOk uint64) s ∧
      ReapsOk uint64 s .select ∧ s.step (.code uint64) .select = some s' ∧
      s'.history.reaps = r :: s.history.reaps ∧ r.values = [1, 3, 3, 3, 7] ∧
      (s.history.reaps.map Reap.child).Nodup ∧ s'.curProc = r.caller ∧
      (s.proc r.child).parent = r.caller ∧ (s.proc r.child).deleted = false ∧
      (s.proc r.child).status = .zombie ∧ r.result = (s.proc r.child).pid ∧
      (0 < r.pid → r.result = r.pid) ∧ r.status = (s.proc r.child).exitStatus ∧
      ∀ q, (s'.proc q).deleted = ((s.proc q).deleted || decide (q = r.child)) := by
  have hrun : (runOf uint64 (ReapsOk uint64) olderChildEnds).map (fun s =>
      (s.history.reaps.map Reap.values, decide (ReapsOk uint64 s .select),
        (s.step (.code uint64) .select).map fun s' => s'.history.reaps.map Reap.values)) =
      some ([], true, some [[1, 3, 3, 3, 7]]) := by decide +kernel
  obtain ⟨s, hs, he⟩ := run_of_map hrun
  simp only [Prod.mk.injEq, map_eq_nil_iff, decide_eq_true_eq] at he
  obtain ⟨hnil, hok, hstep⟩ := he
  obtain ⟨s', hs', he'⟩ := Option.map_eq_some_iff.mp hstep
  obtain ⟨r, hr, hv⟩ := map_eq_singleton_iff.mp he'
  have hlog : s'.history.reaps = r :: s.history.reaps := by rw [hr, hnil]
  obtain ⟨hnd, hret⟩ := waitpid_returns_child uint64 (runOf_reach hs)
  exact ⟨s, s', r, runOf_reach hs, hok, hs', hlog, hv, hnd, hret _ s' r hok hs' hlog⟩

/-- The child 4 ends. Then process 1 waits for its child 3, and 3 ends. -/
def youngerChildFirst : List Event :=
  [.tick, .select, .clone 0 true, .clone 0 true, .tick, .tick, .select, .tick, .tick, .select,
    .tick, .tick, .select, .exit 7, .select, .waitpid 3 true 0, .select, .tick, .tick, .tick,
      .select,
    .exit 9, .select]

/-- The last loop stops at the younger child, which has ended too: `waitpid(3)` returns 4. -/
theorem waitpid_returns_other : ∃ s r, Reach (Started uint64) (step (.code uint64)) always s ∧
      s.history.reaps = [r] ∧ r.pid = 3 ∧ r.child = 4 ∧ r.result = 4 ∧ r.status = 7 ∧
      (s.proc 4).deleted = true ∧ (s.proc 3).status = .zombie ∧ (s.proc 3).deleted = false := by
  have hrun : (runOf uint64 always youngerChildFirst).map (fun s =>
      (s.history.reaps.map Reap.values, (s.proc 4).deleted, (s.proc 3).status,
      (s.proc 3).deleted)) =
      some ([[1, 3, 4, 4, 7]], true, .zombie, false) := by decide +kernel
  obtain ⟨s, hs, he⟩ := run_of_map hrun
  obtain ⟨hreaps, he⟩ := Prod.mk.inj he
  simp only [Prod.mk.injEq] at he
  obtain ⟨r, hr, hv⟩ := map_eq_singleton_iff.mp hreaps
  simp only [Reap.values, List.cons.injEq, and_true] at hv
  obtain ⟨-, h2, h3, h4, h5⟩ := hv
  exact ⟨s, r, runOf_reach hs, hr, h2, by omega, by omega, h5, he⟩

end Sysint.Process
