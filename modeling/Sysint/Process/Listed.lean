import Sysint.Process.Family

/-! `proc_list`, in which `tkill` finds a process by its tid. A new process is inserted in
the order of the run queue, so the list is in the order of the tids only if it goes to the
end. -/
namespace Sysint.Process
open Option
open List hiding nil
open Rbtree (Holds natOrder natOrder_total)
open Kernel
open Function
open Machine
open Rbtree
open Proc

variable {w : Nat → Nat} {cfg : Config} {s s' : Kernel} {p c flags : Nat}

/-- If a process has been made, and has not ended. -/
def Proc.phase (q : Proc) : Option Bool :=
  match q.status with
  | .created => none
  | .zombie => some false
  | .ready | .running | .waiting | .waitingNoInterrupt => some true

theorem phase_eq_true {q : Proc} : q.phase = some true ↔ q.status ≠ .created ∧
    q.status ≠ .zombie := by
  unfold Proc.phase
  cases q.status <;> simp

theorem phase_eq_none {q : Proc} : q.phase = none ↔ q.status = .created := by
  unfold Proc.phase
  cases q.status <;> simp

/-- Processes and their number in `proc_list`: `init` has not inserted the first two. -/
structure ListInv (s : Kernel) : Prop where
  list : ∃ pl, Holds s.procList pl ∧ natOrder.Sorted pl ∧
    ∀ p, p ∈ pl.map Prod.snd ↔ 3 ≤ p ∧ (s.proc p).phase = some true
  fresh : ∀ p, s.nextTid ≤ p → (s.proc p).phase = none
  parent : ∀ c, (s.proc c).parent ≠ 0 → (s.proc (s.proc c).parent).phase ≠ none
  run : s.mode = .outside → s.curProc ≠ 0 → (s.proc s.curProc).phase = some true
  first : 3 ≤ s.nextTid

/-- A step in which no process is made or ends. -/
structure SamePhase (s s' : Kernel) : Prop where
  phase : ∀ p, (s'.proc p).phase = (s.proc p).phase
  parent : NoAdoption s s'
  list : s'.procList = s.procList
  nextTid : s'.nextTid = s.nextTid

theorem SamePhase.listInv (h : SamePhase s s') (I : ListInv s)
    (hrun : s'.mode = .outside → s'.curProc ≠ 0 → (s.proc s'.curProc).phase = some true) :
    ListInv s' := by
  obtain ⟨pl, hpl, hs, hmem⟩ := I.list
  refine ⟨⟨pl, h.list ▸ hpl, hs, fun p => ?_⟩, fun p hp => ?_, fun c hc => ?_, fun hm h0 => ?_,
    h.nextTid ▸ I.first⟩
  · rw [h.phase]
    exact hmem p
  · rw [h.phase]
    exact I.fresh p (h.nextTid ▸ hp)
  · have hpar := (h.parent c).resolve_right hc
    rw [hpar] at hc ⊢
    rw [h.phase]
    exact I.parent c hc
  · rw [h.phase]
    exact hrun hm h0

theorem SamePhase.update {q' : Proc} (hproc : s'.proc = update s.proc p q')
    (hq : q'.phase = (s.proc p).phase) (hp : q'.parent = (s.proc p).parent)
    (hl : s'.procList = s.procList) (ht : s'.nextTid = s.nextTid) : SamePhase s s' := by
  refine ⟨fun r => ?_, fun r => .inl ?_, hl, ht⟩
  all_goals
    rw [hproc]
    by_cases hr : r = p
    · simp [hr, hq, hp]
    · simp [hr]

section

variable (I : ListInv s)
include I

/-- A change of one process that neither makes nor ends it. -/
theorem ListInv.update {q' : Proc} (hproc : s'.proc = update s.proc p q')
    (hq : q'.phase = (s.proc p).phase) (hp : q'.parent = (s.proc p).parent)
    (hl : s'.procList = s.procList) (ht : s'.nextTid = s.nextTid)
    (hrun : s'.mode = .outside → s'.curProc ≠ 0 → (s.proc s'.curProc).phase = some true) :
    ListInv s' :=
  SamePhase.listInv (.update hproc hq hp hl ht) I hrun

/-! ## The parts of the steps -/

theorem addProcRun_list {i : Bool} (hp : (s.proc p).phase = some true)
    (h : s.addProcRun cfg p i = some s') : ListInv s' := by
  obtain ⟨-, -, rfl⟩ | ⟨t, u, w, a, rfl⟩ := addProcRun_form h
  · exact I
  · refine I.update rfl ?_ rfl rfl rfl I.run
    exact hp.symm

theorem setSignal_list (sig : Nat) (b : Bool) :
    ListInv (s.modify p (·.setSignal sig b)) := by
  refine I.update rfl ?_ ?_ rfl rfl I.run
  · rfl
  · rfl

theorem tkillProc_list {sig : Nat} (hp : (s.proc p).phase ≠ none)
    (h : s.tkillProc cfg p sig = some s') : ListInv s' := by
  obtain ⟨-, rfl⟩ | ⟨-, hz, h⟩ := tkillProc_cases h
  · exact I
  · refine addProcRun_list (setSignal_list I sig true) (phase_eq_true.mpr ⟨?_, ?_⟩) h
    · simpa [phase_eq_none] using hp
    · simpa using hz

theorem notifyParent_list (h : s.notifyParent cfg p = some s') : ListInv s' := by
  obtain ⟨-, rfl⟩ | ⟨-, hst, -, h⟩ | ⟨h0, -, h⟩ := notifyParent_cases h
  · exact I
  · exact addProcRun_list I (phase_eq_true.mpr (by simp [hst])) h
  · exact tkillProc_list I (I.parent p h0) h

end

theorem schedule_list {regs : Bool} (H : Sane s) (I : ListInv s)
    (h : s.schedule cfg regs = some s') : ListInv s' := by
  obtain ⟨-, rfl⟩ | ⟨-, -, rfl⟩ | ⟨-, -, -, rfl⟩ | ⟨-, -, s1, hs1, rfl⟩ := schedule_cases h
  · exact I
  · have S : SamePhase s (s.clts.toSelect s.ns 0) := ⟨fun _ => rfl, .refl s, rfl, rfl⟩
    exact S.listInv I fun hm => nomatch hm
  · have S : SamePhase s s.clts := ⟨fun _ => rfl, .refl s, rfl, rfl⟩
    exact S.listInv I I.run
  · obtain ⟨t, u, w, a, rfl⟩ := switchOut_form hs1
    refine I.update (p := s.curProc) rfl ?_ rfl rfl rfl fun hm => nomatch hm
    by_cases hq : (s.proc s.curProc).curQueue = .runQueue
    · have hl := live_of_queue H hq (by decide)
      rw [phase_eq_true.mpr ⟨hl.1, hl.2.1⟩, phase_eq_true]
      simp [hq]
    · unfold Proc.phase
      simp [hq]

theorem Kernel.Blocks.listInv {cont : Cont} {queue : QueueId} {mark : Int} (I : ListInv s)
    (hm : s.mode = .outside) (h0 : s.curProc ≠ 0) (B : Blocks cfg s s' cont queue mark) :
    ListInv s' := by
  have hown := sameOwn B.own
  have ht := hown.nextTid
  have hmode := hown.mode
  obtain ⟨a, hproc⟩ := B.proc
  refine I.update hproc ?_ rfl B.list ht fun ho => ?_
  · exact (I.run hm h0).symm
  · rw [hmode] at ho
    cases ho

/-- A step that changes the tree only. -/
theorem Kernel.TreeOnly.samePhase (T : s.TreeOnly s') (hn : NoAdoption s s') : SamePhase s s' := by
  refine ⟨fun p => ?_, hn, ?_, T.quiet.fields.nextTid⟩
  · have h := congrArg Proc.phase (T.flat p)
    exact h
  · rw [T.rest]
    rfl

/-! ## exit -/

theorem mem_snd_cut {xs ys : List (Nat × Nat)} {x : Nat × Nat} (h : natOrder.Sorted (xs ++ x :: ys))
    (p : Nat) : p ∈ (xs ++ ys).map Prod.snd ↔ p ∈ (xs ++ x :: ys).map Prod.snd ∧ p ≠ x.2 := by
  have hnd : ((xs ++ x :: ys).map Prod.snd).Nodup := by
    refine List.Pairwise.map _ (fun a b hab => ?_) h
    exact (of_decide_eq_true hab).ne
  rw [map_append, map_cons] at hnd
  rw [map_append, map_append, map_cons]
  exact mem_cut hnd p

/-- The process that ends leaves the list. -/
theorem eraseProcList_list {pl : List (Nat × Nat)} (hpl : Holds s.procList pl)
    (hs : natOrder.Sorted pl) (h : s.eraseProcList p = some s') :
    ∃ pl', Holds s'.procList pl' ∧ natOrder.Sorted pl' ∧
      ∀ q, q ∈ pl'.map Prod.snd ↔ q ∈ pl.map Prod.snd ∧ q ≠ p := by
  obtain ⟨a, ha, h⟩ := bind_eq_some_iff.mp h
  obtain ⟨t, ht, h⟩ := bind_eq_some_iff.mp h
  cases h
  obtain ⟨x, hx, hfound⟩ := find_sorted (k := p)
    (natOrder_total.mono (Set.subset_univ _)) hpl hs
  obtain rfl := some_inj.mp (ha.symm.trans hx)
  obtain ⟨rfl, hno⟩ | hmem := hfound
  · rw [erase, if_pos (.inl rfl)] at ht
    cases ht
    refine ⟨pl, hpl, hs, fun q => ⟨fun hq => ⟨hq, ?_⟩, And.left⟩⟩
    rintro rfl
    exact hno hq
  · obtain ⟨xs, ys, rfl⟩ := append_of_mem hmem
    obtain ⟨t', ht', hpl', -⟩ := erase_spec hpl
    obtain rfl := some_inj.mp (ht.symm.trans ht')
    refine ⟨xs ++ ys, hpl', ?_, mem_snd_cut hs⟩
    exact hs.sublist ((List.Sublist.refl xs).append (sublist_cons_self _ _))

theorem exit_list {status : Int} (I : ListInv s) (hcur : (s.proc s.curProc).phase = some true)
    (h : s.exit cfg status = some s') : ListInv s' := by
  obtain ⟨s1, s2, t, s3, h1, h2, h3, h4, rfl⟩ := exit_cases h
  have S1 : SamePhase s.clts s1 :=
    (exitChildren_treeOnly h1).samePhase (exitChildren_noAdoption h1)
  obtain ⟨t', u, w, rfl⟩ := removeFromQueue_form h2
  obtain ⟨pl, hpl, hs, hmem⟩ := I.list
  have hpl1 : Holds s1.procList pl := S1.list ▸ hpl
  obtain ⟨pl', hpl', hs', hmem'⟩ := eraseProcList_list (s := ((s1.putQueues t' u w).modify s.curProc
    leave).setCur 0) hpl1 hs h3
  have hphase (p : Nat) (hp : p ≠ s.curProc) : ((((((s1.putQueues t' u w).modify s.curProc
      leave).setCur 0).setProcList t).modify s.curProc (·.ended status)).proc p).phase =
      (s.proc p).phase := by
    simpa [hp] using S1.phase p
  have hself : ((((((s1.putQueues t' u w).modify s.curProc leave).setCur 0).setProcList
      t).modify s.curProc (·.ended status)).proc s.curProc).phase = some false := by
    simp [Proc.phase]
  have I3 : ListInv (((((s1.putQueues t' u w).modify s.curProc leave).setCur 0).setProcList
      t).modify s.curProc (·.ended status)) := by
    refine ⟨⟨pl', hpl', hs', fun p => ?_⟩, fun p hp => ?_, fun c hc => ?_,
      fun _ h0 => absurd rfl h0,
      S1.nextTid ▸ I.first⟩
    · rw [hmem', hmem]
      by_cases hp : p = s.curProc
      · rw [hp, hself]
        simp
      · rw [hphase p hp]
        exact and_iff_left hp
    · have hp' : s.nextTid ≤ p := S1.nextTid ▸ hp
      have hne : p ≠ s.curProc := by
        rintro rfl
        exact absurd ((I.fresh _ hp').symm.trans hcur) (by decide)
      rw [hphase p hne]
      exact I.fresh p hp'
    · have hpar : ((((((s1.putQueues t' u w).modify s.curProc leave).setCur 0).setProcList
          t).modify s.curProc (·.ended status)).proc c).parent = (s1.proc c).parent := by
        by_cases hcc : c = s.curProc <;> simp [hcc]
      rw [hpar] at hc ⊢
      have hpar1 : (s1.proc c).parent = (s.proc c).parent := (S1.parent c).resolve_right hc
      rw [hpar1] at hc ⊢
      by_cases hp : (s.proc c).parent = s.curProc
      · rw [hp, hself]
        simp
      · rw [hphase _ hp]
        exact I.parent c hc
  have I4 := notifyParent_list I3 h4
  have S4 : SamePhase s3 (s3.clts.toSelect s3.ns 0) := ⟨fun _ => rfl, .refl s3, rfl, rfl⟩
  exact S4.listInv I4 fun hm => nomatch hm

/-! ## Going on -/

theorem reap_samePhase (s : Kernel) (pid : Int) (c : Nat) : SamePhase s (s.reap pid c) := by
  have S := (delete_treeOnly s c).samePhase (delete_noAdoption s c)
  exact ⟨S.phase, S.parent, S.list, S.nextTid⟩

theorem resume_list (I : ListInv s) (hm : s.mode = .outside) (h0 : s.curProc ≠ 0)
    (h : s.resume = some s') : ListInv s' := by
  have hrun := I.run hm h0
  have I1 : ListInv (s.modify s.curProc (·.setInterrupted false)) := by
    refine I.update rfl ?_ ?_ rfl rfl fun _ _ => hrun
    · rfl
    · rfl
  obtain ⟨-, rfl⟩ | ⟨-, rfl⟩ | ⟨pid, c, -, -, -, -, rfl⟩ := resume_cases h
  · exact I
  · exact I1
  · have I2 : ListInv ((s.modify s.curProc (·.setInterrupted false)).modify s.curProc
        (·.setWaitPid 0)) := by
      refine I1.update rfl ?_ ?_ rfl rfl fun _ _ => I1.run hm h0
      · rfl
      · rfl
    refine (reap_samePhase _ pid c).listInv I2 fun _ _ => ?_
    rw [(reap_fields _ pid c).2.2.1]
    exact I2.run hm h0

theorem dispatch_list {pold : Nat} (I : ListInv s) (h0 : s.curProc ≠ 0)
    (hcur : (s.proc s.curProc).phase = some true) (h : s.dispatch pold = some s') : ListInv s' := by
  have I1 : ListInv (s.entered pold) := by
    refine I.update rfl ?_ ?_ rfl rfl fun _ _ => hcur
    · exact hcur.symm
    · rfl
  exact resume_list I1 rfl h0 (dispatch_entered h)

theorem select_list {now pold : Nat} (H : Sane s) (I : ListInv s) (hm : s.mode ≠ .outside)
    (h : s.select cfg now pold = some s') : ListInv s' := by
  obtain ⟨a, p, hbegin, rfl, hsz, hp0, -, h⟩ := select_cases h
  have hl := live_of_queue H (H.first hbegin hsz).1 (by decide)
  have hphase : (s.proc (s.runQueue.node a).key).phase = some true :=
    phase_eq_true.mpr ⟨hl.1, hl.2.1⟩
  have I0 : ListInv (s.choose (s.runQueue.node a).key now) := by
    have S : SamePhase s (s.choose (s.runQueue.node a).key now) := ⟨fun _ => rfl, .refl s, rfl, rfl⟩
    exact S.listInv I fun ho => absurd ho hm
  have hphase1 (sig : Nat) : (((s.choose (s.runQueue.node a).key now).modify (s.runQueue.node a).key
      (·.setSignal sig false)).proc (s.runQueue.node a).key).phase = some true := by
    rw [← hphase]
    simp [Proc.phase]
  obtain ⟨-, h⟩ | ⟨sig, -, ⟨-, h⟩ | ⟨-, h⟩⟩ := h
  · exact dispatch_list I0 hp0 hphase h
  · exact exit_list (setSignal_list I0 sig false) (hphase1 sig) h
  · exact dispatch_list (setSignal_list I0 sig false) hp0 (hphase1 sig) h

/-! ## clone -/

/-- A new process does not compare less than a process made by `clone` that has not ended:
it starts with `min_vruntime` and the nice value of its maker. -/
def CloneOk (w : Nat → Nat) (s : Kernel) : Event → Prop
  | .clone _ mem => mem = true → ∀ q < s.nextTid, 3 ≤ q → (s.proc q).phase = some true →
      (s.proc q).vruntime < w s.minVruntime ∨
        ((s.proc q).vruntime = w s.minVruntime ∧ (s.proc q).nice ≤ (s.proc s.curProc).nice)
  | _ => True

instance (s : Kernel) (e : Event) : Decidable (CloneOk w s e) :=
  match e with
  | .clone _ mem => inferInstanceAs
    (Decidable (mem = true → ∀ q < s.nextTid, 3 ≤ q → _ → _ ∨ _ ∧ _))
  | .tick | .select | .fpu _ | .fault | .exit _ | .waitpid _ _ _ | .nanosleep _ | .wait _
  | .wake _ _ | .tkill _ _ | .setnice _ => .isTrue trivial

/-- The new process before its insertion into `proc_list`. -/
structure Registered (cfg : Config) (s s' : Kernel) (flags : Nat) : Prop where
  kernel : s'.nextTid = s.nextTid + 1 ∧ s'.mode = s.mode ∧ s'.curProc = s.curProc
  list : s'.procList = s.procList
  new : (s'.proc s.nextTid).vruntime = cfg.wrap s.minVruntime ∧
    (s'.proc s.nextTid).nice = (s.proc s.curProc).nice ∧ (s'.proc s.nextTid).phase = some true ∧
    (s'.proc s.nextTid).parent = s.clonedParent flags
  rest : ∀ q, q ≠ s.nextTid → (s'.proc q).flat = (s.proc q).flat ∧
    (s'.proc q).parent = (s.proc q).parent

theorem registered (h : (((s.takeTid.setFpuOut s.nextTid none).modify s.nextTid fun _ =>
      s.cloned flags).linkChild s.nextTid (s.clonedParent flags)).addProcRun cfg s.nextTid false =
        some s') : Registered cfg s s' flags := by
  have T := linkChild_treeOnly ((s.takeTid.setFpuOut s.nextTid none).modify s.nextTid fun _ =>
    s.cloned flags) s.nextTid (s.clonedParent flags)
  have hpar := linkChild_parent ((s.takeTid.setFpuOut s.nextTid none).modify s.nextTid fun _ =>
    s.cloned flags) s.nextTid (s.clonedParent flags)
  obtain ⟨hi, -⟩ | ⟨t, u, w, a, rfl⟩ := addProcRun_form h
  · cases hi
  obtain ⟨ht, hc, hmin, -, -, -, -, -, hm, -⟩ := T.quiet.fields
  refine ⟨⟨ht, hm, hc⟩, ?_, ⟨?_, ?_, ?_, ?_⟩, fun q hq => ⟨?_, ?_⟩⟩
  · have hl := congrArg procList T.rest
    exact hl
  · have hv := congrArg vruntime (T.flat s.nextTid)
    simp only [modify_proc, update_self, flat_vruntime, cloned_vruntime]
      at hv
    simp [hv, hmin, new]
  · have hn := congrArg nice (T.flat s.nextTid)
    simp only [modify_proc, update_self, flat_nice, cloned_nice] at hn
    simp [hn]
  · simp [Proc.phase]
  · simp [hpar]
  · have hf := T.flat q
    simpa [hq] using hf
  · simp [hq, hpar]

theorem Registered.phase (R : Registered cfg s s' flags) (q : Nat) (hq : q ≠ s.nextTid) :
    (s'.proc q).phase = (s.proc q).phase := by
  have h := congrArg Proc.phase (R.rest q hq).1
  exact h

/-- The new process goes to the end of the list. -/
theorem Registered.insert {pl : List (Nat × Nat)} {r : Rbtree Nat × Nat}
    (R : Registered cfg s s' flags) (hg : cfg.guard = true) (I : ListInv s)
    (hok : CloneOk cfg.wrap s (.clone flags true)) (hpl : Holds s.procList pl)
    (hmem : ∀ p, p ∈ pl.map Prod.snd ↔ 3 ≤ p ∧ (s.proc p).phase = some true)
    (h : cfg.insert (procOrder s'.proc) s'.procList s.nextTid = some r) :
    ∃ a, Holds r.1 (pl ++ [(a, s.nextTid)]) := by
  rw [R.list] at h
  obtain ⟨hins, h⟩ := Config.insert_guard hg h
  have hlast (x : Nat × Nat) (hx : x ∈ pl) : (procOrder s'.proc).eq s.nextTid x.2 = false ∧
      (procOrder s'.proc).lt s.nextTid x.2 = false := by
    obtain ⟨h3, hph⟩ := (hmem x.2).mp (List.mem_map_of_mem hx)
    have hlt : x.2 < s.nextTid := by
      by_contra hge
      exact absurd ((I.fresh x.2 (le_of_not_gt hge)).symm.trans hph) (by decide)
    obtain ⟨hv, hn, -⟩ := R.new
    have hf := (R.rest x.2 hlt.ne).1
    have hvx := congrArg vruntime hf
    have hnx := congrArg nice hf
    simp only [flat_vruntime, flat_nice] at hvx hnx
    have hle := hok rfl x.2 hlt h3 hph
    refine ⟨by simp [procOrder, hlt.ne'], ?_⟩
    simp only [procOrder, hv, hn, hvx, hnx]
    split_ifs <;> simp only [decide_eq_false_iff_not] <;> omega
  obtain ⟨t', ht', hpl'⟩ := insert_last hpl hins hlast
  rw [h] at ht'
  cases ht'
  exact ⟨_, hpl'⟩

theorem clone_list {mem : Bool} (hg : cfg.guard = true) (I : ListInv s)
    (hm : s.mode = .outside) (h0 : s.curProc ≠ 0) (hok : CloneOk cfg.wrap s (.clone flags mem))
    (h : s.clone cfg flags mem = some s') : ListInv s' := by
  have hcur := I.run hm h0
  have I0 : ListInv (s.takeTid.setFpuOut s.nextTid none) :=
    ⟨I.list, fun p hp => I.fresh p ((Nat.le_succ _).trans hp), I.parent, I.run,
      I.first.trans (Nat.le_succ _)⟩
  cases mem with
  | false =>
    simp only [clone] at h
    split_ifs at h
    · cases h
      exact I
    · cases h
      exact I0
  | true =>
    obtain rfl | rfl | ⟨hp0, s1, r, h1, hr, rfl⟩ := clone_cases h
    · exact I
    · exact I0
    · have R := registered h1
      obtain ⟨pl, hpl, hs, hmem⟩ := I.list
      obtain ⟨a, hpl'⟩ := R.insert hg I hok hpl hmem hr
      have hfresh (p : Nat) (hp : (s.proc p).phase = some true) : p < s.nextTid := by
        by_contra hge
        exact absurd ((I.fresh p (le_of_not_gt hge)).symm.trans hp) (by decide)
      obtain ⟨-, -, hnew, hpar⟩ := R.new
      obtain ⟨ht, hmode, hc⟩ := R.kernel
      have hparent : (s.proc (s.clonedParent flags)).phase ≠ none := by
        unfold clonedParent at hp0 ⊢
        split_ifs at hp0 ⊢
        · exact I.parent _ hp0
        · simp [hcur]
      have hphase (p : Nat) (hp : p ≠ s.nextTid) : (s1.proc p).phase = (s.proc p).phase :=
        R.phase p hp
      refine ⟨⟨_, hpl', ?_, fun p => ?_⟩, fun p hp => ?_, fun c hcp => ?_, fun _ _ => ?_, ?_⟩
      · refine pairwise_append.mpr ⟨hs, pairwise_singleton _ _, fun x hx y hy => ?_⟩
        obtain rfl := mem_singleton.mp hy
        exact decide_eq_true (hfresh x.2 ((hmem x.2).mp (List.mem_map_of_mem hx)).2)
      · by_cases hp : p = s.nextTid
        · subst hp
          simp only [map_append, map_cons, map_nil, mem_append,
            mem_singleton, or_true, true_iff]
          exact ⟨I.first, hnew⟩
        · simp only [map_append, map_cons, map_nil, mem_append,
            mem_singleton, hp, or_false]
          rw [hmem, setProcList_proc, hphase p hp]
      · have hp' : s.nextTid + 1 ≤ p := ht ▸ hp
        rw [setProcList_proc, hphase p (by omega)]
        exact I.fresh p (by omega)
      · simp only [setProcList_proc] at hcp ⊢
        by_cases hcn : c = s.nextTid
        · rw [hcn, hpar]
          by_cases hpn : s.clonedParent flags = s.nextTid
          · simp [hpn, hnew]
          · rw [hphase _ hpn]
            exact hparent
        · rw [(R.rest c hcn).2] at hcp ⊢
          by_cases hpn : (s.proc c).parent = s.nextTid
          · simp [hpn, hnew]
          · rw [hphase _ hpn]
            exact I.parent c hcp
      · have hcn : s.curProc ≠ s.nextTid := (hfresh _ hcur).ne
        rw [setProcList_proc, setProcList_curProc, hc, hphase _ hcn]
        exact hcur
      · rw [setProcList_nextTid, ht]
        exact I.first.trans (Nat.le_succ _)

/-! ## Runs -/

/-- The search of `tkill` finds the process with the tid if it is alive. -/
theorem ListInv.find (I : ListInv s) (tid : Int) :
    ∃ a, s.procList.find (fun q => (q : Int) == tid) (fun q => decide ((q : Int) < tid)) = some a ∧
      ((∃ p : Nat, p = tid ∧ 3 ≤ p ∧ (s.proc p).phase = some true ∧ a ≠ nil ∧
        (s.procList.node a).key = p) ∨
      (a = nil ∧ ∀ p : Nat, p = tid → 3 ≤ p → (s.proc p).phase ≠ some true)) := by
  obtain ⟨pl, hpl, hs, hmem⟩ := I.list
  by_cases htid : 0 ≤ tid
  · obtain ⟨k, rfl⟩ := Int.eq_ofNat_of_zero_le htid
    have heq : (fun q : Nat => (q : Int) == (k : Int)) = fun q => natOrder.eq q k := by
      funext q
      rw [Bool.eq_iff_iff, beq_iff_eq, natOrder, beq_iff_eq]
      exact Int.ofNat_inj
    have hlt : (fun q : Nat => decide ((q : Int) < (k : Int))) = fun q => natOrder.lt q k := by
      funext q
      rw [natOrder]
      exact decide_eq_decide.mpr Int.ofNat_lt
    rw [heq, hlt]
    obtain ⟨a, ha, hfound⟩ := find_sorted (k := k) (natOrder_total.mono (Set.subset_univ _)) hpl hs
    refine ⟨a, ha, ?_⟩
    obtain ⟨rfl, hno⟩ | hin := hfound
    · refine .inr ⟨rfl, fun p hp h3 hph => hno ?_⟩
      obtain rfl : p = k := Int.ofNat_inj.mp hp
      exact (hmem p).mpr ⟨h3, hph⟩
    · obtain ⟨h3, hph⟩ := (hmem k).mp (List.mem_map_of_mem hin)
      have hkey : (s.procList.node a).key = k := hpl.key hin
      have hrange : nil < a := (hpl.range hin).1
      exact .inl ⟨k, rfl, h3, hph, hrange.ne', hkey⟩
  · obtain ⟨a, ha, ⟨rfl, -⟩ | ⟨q, -, hq⟩⟩ :=
      find_found hpl (fun q => (q : Int) == tid) (fun q => decide ((q : Int) < tid))
    · exact ⟨_, ha, .inr ⟨rfl, fun p hp => by omega⟩⟩
    · simp only [beq_iff_eq] at hq
      omega

theorem tkill_list {tid sig : Int} (I : ListInv s) (h : s.tkill cfg tid sig = some s') :
    ListInv s' := by
  obtain rfl | ⟨a, ha, hne, hk⟩ := tkill_cases h
  · exact I
  · obtain ⟨a', ha', ⟨p, -, -, hph, -, hkey⟩ | ⟨hnil, -⟩⟩ := I.find tid
    all_goals obtain rfl := some_inj.mp (ha.symm.trans ha')
    · refine tkillProc_list I ?_ hk
      simp [hkey, hph]
    · exact absurd hnil hne

theorem step_list {e : Event} (hg : cfg.guard = true) (H : Sane s) (M : s.ModeOk) (I : ListInv s)
    (hok : CloneOk cfg.wrap s e) (h : s.step cfg e = some s') : ListInv s' := by
  have hadd : ReadyKeeps cfg ListInv := by
    intro s p s' q H hc hq h I
    have hl := live_of_queue H hc hq.1
    exact addProcRun_list I (phase_eq_true.mpr ⟨hl.1, hl.2.1⟩) h
  obtain ⟨-, -, h⟩ | ⟨cv, tid, -, -, h⟩ | ⟨now, pold, rfl, hm, h⟩ | ⟨hm, hcur, h⟩ := step_cases h
  · have S : SamePhase s s.clts.addTick := ⟨fun _ => rfl, .refl s, rfl, rfl⟩
    obtain ⟨s1, H1, I1, -, h⟩ := timerTick_sane hg hadd h H
      (S.listInv I I.run)
    exact schedule_list H1 I1 h
  · exact (wake_sane hg hadd h H I).2
  · exact select_list H I (by simp [hm]) h
  · have hph := I.run hm hcur
    cases e with
    | tick | select | wake => cases h
    | fpu v =>
      cases h
      unfold useFpu
      split_ifs
      · refine I.update (p := s.curProc) rfl ?_ ?_ rfl rfl I.run
        · rfl
        · rfl
      · have S : SamePhase s (s.setFpu v) := ⟨fun _ => rfl, .refl s, rfl, rfl⟩
        exact S.listInv I I.run
    | fault =>
      obtain ⟨s1, h1, rfl⟩ := fault_outside (M.outside hm) h
      have I1 := tkillProc_list I (by simp [hph]) h1
      have S : SamePhase s1 (((s1.logKill s.curProc).setCur 0).clts.toSelect s1.ns 0) :=
        ⟨fun _ => rfl, .refl s1, rfl, rfl⟩
      exact S.listInv I1 fun hm => nomatch hm
    | clone flags mem => exact clone_list hg I hm hcur hok h
    | exit status => exact exit_list I hph h
    | waitpid pid ptr options =>
      obtain rfl | ⟨-, c, -, ⟨-, -, rfl⟩ | ⟨-, -, h⟩⟩ := waitpid_cases h
      · exact I
      · refine (reap_samePhase s pid c).listInv I fun _ _ => ?_
        rw [(reap_fields s pid c).2.2.1]
        exact hph
      · exact (waitpidSleep_blocks hcur h).listInv I hm hcur
    | nanosleep n =>
      obtain rfl | B := nanosleep_blocks hcur h
      · exact I
      · exact B.listInv I hm hcur
    | wait cv => exact (wait_blocks hcur h).listInv I hm hcur
    | tkill tid sig => exact tkill_list I h
    | setnice inc =>
      obtain rfl | ⟨t, u, w, a, rfl⟩ := setnice_form h
      · exact I
      · refine I.update (p := s.curProc) rfl ?_ ?_ rfl rfl I.run
        · rfl
        · rfl

theorem Started.listInv (h : Started w s) : ListInv s := by
  have hpar := h.procs (P := fun q => q.parent = 0) rfl fun _ _ _ _ => rfl
  obtain ⟨tick, ticklen, fpu, uid, uid', t, a, a', rfl⟩ := h.form
  have hnew (p : Nat) (hp : 3 ≤ p) : ((((((boot tick ticklen fpu).takeTid.takeTid.putQueues t
      .empty fun _ => []).setProcs (update (update (fun _ => new 0 0) 1
        (.loaded 1 uid fpu a)) 2 (.loaded 2 uid' fpu a'))).setOnline true)).proc
        p).phase = none := by
    have h1 : p ≠ 1 := by omega
    have h2 : p ≠ 2 := by omega
    simp [h1, h2, Proc.phase, new]
  refine ⟨⟨[], holds_empty, .nil, fun p => ?_⟩, hnew, fun c hc => absurd (hpar c) hc,
    fun _ h0 => absurd rfl h0, le_rfl⟩
  simp only [map_nil, not_mem_nil, false_iff, not_and]
  intro hp
  rw [hnew p hp]
  decide

/-- The queues stay intact, and every new process goes to the end of `proc_list`. -/
def ListOk (w : Nat → Nat) (s : Kernel) (e : Event) : Prop := QueueOk w s e ∧ CloneOk w s e

instance (s : Kernel) (e : Event) : Decidable (ListOk w s e) := inferInstanceAs (Decidable (_ ∧ _))

theorem ListOk.keeps {e : Event} (hok : ListOk w s e) (hstep : s.step (.code w) e = some s')
    (h : Sane s ∧ s.ModeOk ∧ ListInv s) : Sane s' ∧ s'.ModeOk ∧ ListInv s' := by
  obtain ⟨hq, hclone⟩ := hok
  obtain ⟨H, M, I⟩ := h
  have hstep' := step_below.agree hq.1 hstep
  have hclone' : CloneOk (Config.checked w).wrap s e := hclone
  exact ⟨(hq.keeps hstep H).1, step_modeOk M hstep, step_list rfl H M I hclone' hstep'⟩

theorem reach_list (h : Reach (Started w) (step (.code w)) (ListOk w) s) :
    Sane s ∧ s.ModeOk ∧ ListInv s := by
  refine h.invariant (I := fun s => Sane s ∧ s.ModeOk ∧ ListInv s)
    (fun s hs => ⟨hs.sane, hs.modeOk, hs.listInv⟩) fun s e s' hs hok hstep => ?_
  exact hok.keeps hstep hs

/-- In every run in which no new process compares less than one on the list, `tkill` finds
the processes made by `clone` that have not ended, and no others. -/
theorem tkill_finds_alive (w : Nat → Nat) {s : Kernel}
    (h : Reach (Started w) (step (.code w)) (ListOk w) s) (tid : Int) (htid : tid ≠ 1 ∧ tid ≠ 2) :
    ∃ a, s.procList.find (fun q => (q : Int) == tid) (fun q => decide ((q : Int) < tid)) = some a ∧
      ((∃ p : Nat, p = tid ∧ p ≠ 0 ∧ (s.proc p).status ≠ .created ∧ (s.proc p).status ≠ .zombie ∧
        a ≠ nil ∧ (s.procList.node a).key = p) ∨
      (a = nil ∧ ∀ p : Nat, p = tid → p ≠ 0 →
        (s.proc p).status = .created ∨ (s.proc p).status = .zombie)) := by
  obtain ⟨a, ha, hfound⟩ := (reach_list h).2.2.find tid
  refine ⟨a, ha, ?_⟩
  obtain ⟨p, hp, h3, hph, hne, hkey⟩ | ⟨hnil, hno⟩ := hfound
  · obtain ⟨hc, hz⟩ := phase_eq_true.mp hph
    exact .inl ⟨p, hp, by omega, hc, hz, hne, hkey⟩
  · refine .inr ⟨hnil, fun p hp h0 => ?_⟩
    have hph := hno p hp (by omega)
    rw [ne_eq, phase_eq_true] at hph
    tauto

/-- Process 1 makes 3 and 4, and 3 ends. -/
def oneOfTwoEnds : List Event :=
  [.tick, .select, .clone 0 true, .clone 0 true, .tick, .tick, .select, .tick, .tick, .select,
  .exit 0]

theorem tkill_finds_alive_sample :
    ∃ s, Reach (Started uint64) (step (.code uint64)) (ListOk uint64) s ∧
      (s.proc 3).status = .zombie ∧ (s.proc 4).status = .ready ∧
      ∃ a, s.procList.find (fun q => (q : Int) == 4) (fun q => decide ((q : Int) < 4)) = some a ∧
        ((∃ p : Nat, (p : Int) = 4 ∧ p ≠ 0 ∧ (s.proc p).status ≠ .created ∧
          (s.proc p).status ≠ .zombie ∧ a ≠ nil ∧ (s.procList.node a).key = p) ∨
        (a = nil ∧ ∀ p : Nat, (p : Int) = 4 → p ≠ 0 →
          (s.proc p).status = .created ∨ (s.proc p).status = .zombie)) := by
  have hrun : (runOf uint64 (ListOk uint64) oneOfTwoEnds).map (fun s =>
      ((s.proc 3).status, (s.proc 4).status)) = some (.zombie, .ready) := by decide +kernel
  obtain ⟨s, hs, he⟩ := run_of_map hrun
  obtain ⟨h3, h4⟩ := Prod.mk.inj he
  exact ⟨s, runOf_reach hs, h3, h4, tkill_finds_alive uint64 (runOf_reach hs) 4 (by decide)⟩

/-- Process 1 makes 3 and 4, and 4 makes 5 after 3 had its turn. -/
def cloneAfterTurn : List Event :=
  [.tick, .select, .clone 0 true, .clone 0 true, .tick, .tick, .select, .tick, .tick, .select,
    .tick, .tick, .select, .clone 0 true]

/-- `init` does not insert its processes, and 5 has less vruntime than 3 and is inserted
on its left: `tkill` finds neither 1 nor 5. -/
theorem tkill_misses : ∃ s, Reach (Started uint64) (step (.code uint64)) always s ∧
      (s.proc 1).status = .ready ∧ (s.proc 5).status = .ready ∧
      ∀ tid ∈ [(1 : Int), 5], s.procList.find (fun q => (q : Int) == tid)
        (fun q => decide ((q : Int) < tid)) = some nil := by
  have hrun : (runOf uint64 always cloneAfterTurn).map (fun s => ((s.proc 1).status,
      (s.proc 5).status, [(1 : Int), 5].map fun tid => s.procList.find (fun q => (q : Int) == tid)
        (fun q => decide ((q : Int) < tid)))) =
      some (.ready, .ready, [some nil, some nil]) := by decide +kernel
  obtain ⟨s, hs, he⟩ := run_of_map hrun
  simp only [Prod.mk.injEq, map_cons, map_nil, List.cons.injEq, and_true] at he
  obtain ⟨h1, h5, hf1, hf5⟩ := he
  refine ⟨s, runOf_reach hs, h1, h5, fun tid ht => ?_⟩
  obtain rfl | rfl : tid = 1 ∨ tid = 5 := by simpa using ht
  · exact hf1
  · exact hf5

end Sysint.Process
