import Sysint.Process.Family

/-! The process tree over runs. Every process that is not deleted is on the list of its
parent, and a process is deleted only after it has exited. -/
namespace Sysint.Process
open List
open Bool hiding or_false
open Dlink (Links Chain)
open Kernel
open Function
open Machine

variable {w : Nat → Nat} {cfg : Config} {s s' s'' : Kernel} {p c : Nat} {kids : Nat → List Nat}
  {test : Nat → Bool} {pid : Int}

/-- What the tree depends on. -/
def Proc.kin (q : Proc) : Nat × Nat × Nat × Nat × Bool × Bool :=
  (q.parent, q.lastChild, q.nextSibling, q.prevSibling, q.deleted, q.status != .zombie)

/-- The processes are related in the same way, and the same ones have exited. -/
def SameKin (s s' : Kernel) : Prop := ∀ p, (s'.proc p).kin = (s.proc p).kin

theorem SameKin.refl (s : Kernel) : SameKin s s := fun _ => rfl

theorem SameKin.trans (h : SameKin s s') (h' : SameKin s' s'') : SameKin s s'' :=
  fun p => (h' p).trans (h p)

theorem SameKin.modify {f : Proc → Proc} (hf : ∀ q, (f q).kin = q.kin) : SameKin s (s.modify p f) :=
  modify_proc_of hf

/-- A change of one process. -/
theorem SameKin.update {q' : Proc} (hproc : s'.proc = update s.proc p q')
    (hq : q'.kin = (s.proc p).kin) : SameKin s s' := by
  intro r
  rw [hproc]
  by_cases hr : r = p
  · rw [hr, update_self, hq]
  · rw [update_of_ne hr]

theorem SameKin.fields (h : SameKin s s') (p : Nat) :
    (s'.proc p).parent = (s.proc p).parent ∧ (s'.proc p).lastChild = (s.proc p).lastChild ∧
      (s'.proc p).nextSibling = (s.proc p).nextSibling ∧
      (s'.proc p).prevSibling = (s.proc p).prevSibling ∧ (s'.proc p).deleted = (s.proc p).deleted ∧
      s'.living p = s.living p := by
  have hp := h p
  simpa only [living, Proc.kin, Prod.mk.injEq] using hp

/-- `kids` are the lists of all processes. A process that has exited keeps the list of
those it has cut off. -/
structure Family (s : Kernel) (kids : Nat → List Nat) : Prop where
  lists : Lists s kids
  /-- The youngest is the first. -/
  sorted : ∀ p, (kids p).Pairwise (· > ·)
  child : ∀ p c, c ∈ kids p → p < c ∧ c < s.nextTid ∧ (s.proc c).deleted = false ∧
    (s.proc c).parent = if s.living p then p else 0
  parent : ∀ c, (s.proc c).deleted = false → (s.proc c).parent ≠ 0 → c ∈ kids (s.proc c).parent
  deleted : ∀ p, (s.proc p).deleted = true → s.living p = false
  fresh : ∀ p, s.nextTid ≤ p → kids p = [] ∧ (s.proc p).parent = 0 ∧ (s.proc p).deleted = false ∧
    s.living p = true

section

variable (F : Family s kids)
include F

theorem Family.congr (hk : SameKin s s') (ht : s'.nextTid = s.nextTid) :
    Family s' kids := by
  have hliving (p : Nat) : s'.living p = s.living p := (hk.fields p).2.2.2.2.2
  refine ⟨F.lists.congr ?_ fun p => (hk.fields p).2.1, F.sorted, fun p c hc => ?_,
    fun c hd hp => ?_,
    fun p hd => ?_, fun p hp => ?_⟩
  · exact congrArg₂ Links.mk (funext fun p => (hk.fields p).2.2.2.1)
      (funext fun p => (hk.fields p).2.2.1)
  · obtain ⟨h1, -, -, -, h2, -⟩ := hk.fields c
    rw [ht, h1, h2, hliving]
    exact F.child p c hc
  · obtain ⟨h1, -, -, -, h2, -⟩ := hk.fields c
    rw [h1] at hp ⊢
    exact F.parent c (h2 ▸ hd) hp
  · obtain ⟨-, -, -, -, h2, -⟩ := hk.fields p
    rw [hliving]
    exact F.deleted p (h2 ▸ hd)
  · obtain ⟨h1, -, -, -, h2, -⟩ := hk.fields p
    rw [h1, h2, hliving]
    exact F.fresh p (ht ▸ hp)

theorem Family.pos (hc : c ∈ kids p) : 0 < c :=
  Nat.zero_lt_of_lt (F.child p c hc).1

/-- The parent of a process has not exited. -/
theorem Family.parent_living (hd : (s.proc c).deleted = false)
    (hp : (s.proc c).parent ≠ 0) : s.living (s.proc c).parent = true := by
  have h := (F.child _ c (F.parent c hd hp)).2.2.2
  by_contra hl
  rw [if_neg hl] at h
  exact hp h

theorem Family.undeleted (hp : s.living p = true) :
    (s.proc p).deleted = false := by
  by_contra hd
  rw [F.deleted p (not_eq_false _ ▸ hd)] at hp
  cases hp

/-- A list is shorter than the number of processes. -/
theorem Family.length (p : Nat) : (kids p).length < s.nextTid + 1 := by
  have hsub : kids p ⊆ List.range s.nextTid := fun c hc =>
    mem_range.mpr (F.child p c hc).2.1
  have hle := ((F.lists.nodup p).subperm hsub).length_le
  rw [length_range] at hle
  omega

end

/-- Taking `c` out of the list that it is on. -/
def without (kids : Nat → List Nat) (p c : Nat) : Nat → List Nat :=
  update kids p ((kids p).erase c)

section

variable (F : Family s kids)
include F

theorem mem_without (hc : c ∈ kids p) {q d : Nat} :
    d ∈ without kids p c q ↔ d ∈ kids q ∧ d ≠ c := by
  unfold without
  by_cases hq : q = p
  · subst hq
    rw [update_self, (F.lists.nodup q).mem_erase_iff]
    exact and_comm
  · rw [update_of_ne hq]
    refine ⟨fun hd => ⟨hd, ?_⟩, And.left⟩
    rintro rfl
    exact hq (F.lists.unique q p d hd hc)

/-- A child that has exited is deleted. -/
theorem Family.delete (hc : c ∈ kids p) (hp : p ≠ 0) (hl : s.living p = true)
    (hz : s.living c = false) : Family (s.delete c) (without kids p c) := by
  obtain ⟨xs, ys, hk⟩ := append_of_mem hc
  have hnd := F.lists.nodup p
  rw [hk] at hnd
  have herase : (kids p).erase c = xs ++ ys := by
    have hcx : c ∉ xs := fun h => (nodup_append.mp hnd).2.2 c h c mem_cons_self rfl
    rw [hk, erase_append_right _ hcx, erase_cons_head]
  have hpar : (s.proc c).parent = p := by
    rw [(F.child p c hc).2.2.2, if_pos hl]
  have T := delete_treeOnly s c
  have hliving := T.living
  have ht : (s.delete c).nextTid = s.nextTid := T.quiet.fields.nextTid
  have hdel (q : Nat) (hq : q ≠ c) : ((s.delete c).proc q).deleted = (s.proc q).deleted := by
    simp [delete_deleted, hq]
  refine ⟨?_, fun q => ?_, fun q d hd => ?_, fun d hd hdp => ?_, fun q hd => ?_, fun q hq => ?_⟩
  · rw [without, herase]
    exact F.lists.delete hk hp hpar
  · refine (F.sorted q).sublist ?_
    unfold without
    by_cases hq : q = p
    · subst hq
      rw [update_self]
      exact erase_sublist
    · rw [update_of_ne hq]
  · obtain ⟨hd, hne⟩ := (mem_without F hc).mp hd
    rw [ht, hliving, hdel d hne, delete_parent]
    exact F.child q d hd
  · have hne : d ≠ c := by
      rintro rfl
      simp [delete_deleted] at hd
    rw [hdel d hne] at hd
    rw [delete_parent] at hdp ⊢
    exact (mem_without F hc).mpr ⟨F.parent d hd hdp, hne⟩
  · rw [hliving]
    by_cases hqc : q = c
    · exact hqc ▸ hz
    · exact F.deleted q (hdel q hqc ▸ hd)
  · rw [ht] at hq
    obtain ⟨h1, h2, h3, h4⟩ := F.fresh q hq
    have hqc : q ≠ c := ne_of_gt ((F.child p c hc).2.1.trans_le hq)
    rw [delete_parent, hdel q hqc, hliving]
    refine ⟨?_, h2, h3, h4⟩
    rw [eq_nil_iff_forall_not_mem]
    intro d hd
    have hd' := ((mem_without F hc).mp hd).1
    rw [h1] at hd'
    cases hd'

/-! ## clone -/

/-- A process without parent becomes the first on the list of `parent`. -/
theorem Family.link {parent : Nat} (hnew : ∀ q, ∀ d ∈ kids q, d < p)
    (hlt : parent < p) (hp : p < s.nextTid) (hd : (s.proc p).deleted = false)
    (hl : s.living parent = true) :
    Family (s.linkChild p parent) (update kids parent (p :: kids parent)) := by
  have hliving := (linkChild_treeOnly s p parent).living
  have ht : (s.linkChild p parent).nextTid = s.nextTid :=
    (linkChild_treeOnly s p parent).quiet.fields.nextTid
  have hmono (q : Nat) : kids q ⊆ update kids parent (p :: kids parent) q := by
    by_cases hq : q = parent
    · subst hq
      rw [update_self]
      exact subset_cons_self _ _
    · rw [update_of_ne hq]
      exact List.Subset.refl _
  refine ⟨F.lists.link (Nat.ne_zero_of_lt hlt) fun q hq => (hnew q p hq).false, fun q => ?_,
    fun q d hmem => ?_, fun d hdd hpar => ?_, fun q hq => ?_, fun q hq => ?_⟩
  · by_cases hq : q = parent
    · subst hq
      rw [update_self]
      exact pairwise_cons.mpr ⟨hnew q, F.sorted q⟩
    · rw [update_of_ne hq]
      exact F.sorted q
  · rw [ht, hliving, linkChild_deleted, linkChild_parent]
    have hold (hmem : d ∈ kids q) : d ≠ p := (hnew q d hmem).ne
    by_cases hq : q = parent
    · subst hq
      rw [update_self] at hmem
      obtain rfl | hmem := List.mem_cons.mp hmem
      · rw [if_pos rfl, if_pos hl]
        exact ⟨hlt, hp, hd, rfl⟩
      · rw [if_neg (hold hmem)]
        exact F.child q d hmem
    · rw [update_of_ne hq] at hmem
      rw [if_neg (hold hmem)]
      exact F.child q d hmem
  · rw [linkChild_deleted] at hdd
    rw [linkChild_parent] at hpar ⊢
    by_cases hdp : d = p
    · rw [if_pos hdp, hdp, update_self]
      exact mem_cons_self
    · rw [if_neg hdp] at hpar ⊢
      exact hmono _ (F.parent d hdd hpar)
  · rw [linkChild_deleted] at hq
    rw [hliving]
    exact F.deleted q hq
  · rw [ht] at hq
    have hqp : q ≠ parent := by omega
    have hqn : q ≠ p := by omega
    rw [update_of_ne hqp, linkChild_parent, if_neg hqn, linkChild_deleted, hliving]
    exact F.fresh q hq

theorem Family.takeTid : Family (s.takeTid.setFpuOut s.nextTid none) kids := by
  refine ⟨F.lists.congr rfl fun _ => rfl, F.sorted, fun p c hc => ?_, F.parent, F.deleted,
    fun p hp => ?_⟩
  · obtain ⟨h1, h2, h3⟩ := F.child p c hc
    exact ⟨h1, h2.trans (Nat.lt_succ_self _), h3⟩
  · exact F.fresh p ((Nat.le_succ _).trans hp)

/-- The process that `clone` makes is on the list of its parent. -/
theorem Family.cloned {parent : Nat} (flags : Nat) (hlt : parent < s.nextTid)
    (hl : s.living parent = true) :
    Family (((s.takeTid.setFpuOut s.nextTid none).modify s.nextTid fun _ =>
      s.cloned flags).linkChild
      s.nextTid parent) (update kids parent (s.nextTid :: kids parent)) := by
  obtain ⟨hkids, hpar, hdel, hliv⟩ := F.fresh s.nextTid le_rfl
  have hnew (q d : Nat) (hd : d ∈ kids q) : d < s.nextTid := (F.child q d hd).2.1
  have hlast := F.lists.chain s.nextTid
  rw [hkids] at hlast
  have hlinks := F.lists.lone s.nextTid fun q hq => (hnew q _ hq).false
  have hkin : SameKin (s.takeTid.setFpuOut s.nextTid none)
      ((s.takeTid.setFpuOut s.nextTid none).modify s.nextTid fun _ => s.cloned flags) := by
    refine .update rfl ?_
    simp only [Proc.kin, Prod.mk.injEq]
    exact ⟨hpar.symm, Eq.symm hlast, hlinks.1.symm, hlinks.2.symm, hdel.symm, Eq.symm hliv⟩
  have F1 := F.takeTid.congr hkin rfl
  refine F1.link hnew hlt (Nat.lt_succ_self _) ?_ ?_
  · exact (hkin.fields _).2.2.2.2.1.trans hdel
  · exact (hkin.fields _).2.2.2.2.2.trans hl

/-! ## exit -/

/-- After its end, a process has on its list those it has cut off. -/
theorem Family.exit {cur : Nat} (status : Int) (h0 : cur ≠ 0)
    (hcur : cur < s.nextTid) (hl : s.living cur = true) :
    ∃ s1, exitChildren cur (s.nextTid + 1) s (s.proc cur).lastChild = some s1 ∧
      Family (s1.modify cur (·.ended status))
        (update kids cur ((kids cur).filter s.living)) := by
  have hpar (c : Nat) (hc : c ∈ kids cur) : (s.proc c).parent = cur := by
    rw [(F.child cur c hc).2.2.2, if_pos hl]
  have hk : kids cur = [] ++ kids cur := rfl
  obtain ⟨s1, h1, L, hq⟩ := exitChildren_spec F.lists hk hpar h0 (F.length cur)
  rw [← (F.lists.chain cur).first] at h1
  have T := exitChildren_treeOnly h1
  have ht : s1.nextTid = s.nextTid := T.quiet.fields.nextTid
  have hliving (q : Nat) (hne : q ≠ cur) :
      (s1.modify cur (·.ended status)).living q = s.living q := by
    rw [← T.living]
    simp [living, hne]
  have hdead : (s1.modify cur (·.ended status)).living cur = false := by simp [living]
  have hp (q : Nat) : ((s1.modify cur (·.ended status)).proc q).parent =
      if q ∈ kids cur ∧ s.living q = true then 0 else (s.proc q).parent := by
    rw [← (hq q).1]
    refine modify_proc_of (g := Proc.parent) ?_ q
    exact fun _ => rfl
  have hd (q : Nat) : ((s1.modify cur (·.ended status)).proc q).deleted =
      ((s.proc q).deleted || decide (q ∈ kids cur ∧ s.living q = false)) := by
    rw [← (hq q).2]
    refine modify_proc_of (g := Proc.deleted) ?_ q
    exact fun _ => rfl
  refine ⟨s1, h1, L.modify fun _ => ⟨rfl, rfl, rfl⟩, fun p => ?_, fun p c hc => ?_,
    fun c hdel hpar => ?_, fun p hdel => ?_, fun p hlt => ?_⟩
  · by_cases hpc : p = cur
    · subst hpc
      rw [update_self]
      exact (F.sorted p).filter _
    · rw [update_of_ne hpc]
      exact F.sorted p
  · rw [hp, hd]
    by_cases hpc : p = cur
    · subst hpc
      rw [update_self, mem_filter] at hc
      obtain ⟨h2, h3, h4, -⟩ := F.child p c hc.1
      simp [hc.1, hc.2, hdead, h2, h4, ht, h3]
    · rw [update_of_ne hpc] at hc
      have hcc : c ∉ kids cur := fun h => hpc (F.lists.unique p cur c hc h)
      obtain ⟨h2, h3, h4, h5⟩ := F.child p c hc
      simp [hcc, hliving p hpc, h2, h4, h5, ht, h3]
  · rw [hp] at hpar ⊢
    rw [hd, or_eq_false_iff, decide_eq_false_iff_not] at hdel
    have hlive : ¬ (c ∈ kids cur ∧ s.living c = true) := fun h => hpar (if_pos h)
    rw [if_neg hlive] at hpar ⊢
    have hc := F.parent c hdel.1 hpar
    have hne : (s.proc c).parent ≠ cur := by
      intro heq
      rw [heq] at hc
      cases hlc : s.living c with
      | true => exact hlive ⟨hc, hlc⟩
      | false => exact hdel.2 ⟨hc, hlc⟩
    rwa [update_of_ne hne]
  · rw [hd, or_eq_true, decide_eq_true_eq] at hdel
    by_cases hpc : p = cur
    · rw [hpc, hdead]
    · rw [hliving p hpc]
      exact hdel.elim (F.deleted p) And.right
  · have hlt' : s.nextTid ≤ p := ht ▸ hlt
    obtain ⟨h2, h3, h4, h5⟩ := F.fresh p hlt'
    have hpc : p ≠ cur := by omega
    have hpk : p ∉ kids cur := fun h => absurd (F.child cur p h).2.1 (not_lt_of_ge hlt')
    rw [update_of_ne hpc, hp, hd, hliving p hpc]
    simp [hpk, h2, h3, h4, h5]

end

/-! ## Changes that leave the tree alone -/

theorem addProcRun_kin {i : Bool} (hl : s.living p = true) (h : s.addProcRun cfg p i = some s') :
    SameKin s s' := by
  obtain ⟨-, -, rfl⟩ | ⟨t, u, w, a, rfl⟩ := addProcRun_form h
  · exact .refl _
  · refine .update rfl ?_
    simp only [Proc.kin, Prod.mk.injEq]
    exact ⟨rfl, rfl, rfl, rfl, rfl, hl.symm⟩

theorem living_of_ne (h : (s.proc p).status ≠ .zombie) : s.living p = true := by
  simpa [living] using h

theorem tkillProc_kin {sig : Nat} (h : s.tkillProc cfg p sig = some s') : SameKin s s' := by
  obtain ⟨-, rfl⟩ | ⟨-, hz, h⟩ := tkillProc_cases h
  · exact .refl _
  · refine SameKin.trans (.modify ?_) (addProcRun_kin ?_ h)
    · exact fun _ => rfl
    · exact living_of_ne (by simpa using hz)

theorem notifyParent_kin (h : s.notifyParent cfg p = some s') : SameKin s s' := by
  obtain ⟨-, rfl⟩ | ⟨-, hst, -, h⟩ | ⟨-, -, h⟩ := notifyParent_cases h
  · exact .refl _
  · exact addProcRun_kin (living_of_ne (by rw [hst]; decide)) h
  · exact tkillProc_kin h

theorem schedule_kin {regs : Bool} (H : Sane s) (h : s.schedule cfg regs = some s') :
    SameKin s s' := by
  obtain ⟨-, rfl⟩ | ⟨-, -, rfl⟩ | ⟨-, -, -, rfl⟩ | ⟨-, -, s1, hs1, rfl⟩ := schedule_cases h
  · exact .refl _
  · exact .refl s
  · exact .refl s
  · obtain ⟨t, u, w, a, rfl⟩ := switchOut_form hs1
    refine .update (p := s.curProc) (s := s) rfl ?_
    simp only [Proc.kin, Prod.mk.injEq]
    refine ⟨rfl, rfl, rfl, rfl, rfl, ?_⟩
    simp only [putQueues_proc, logDelta_proc, setFpuOut_proc, clts_proc,
      Proc.switched_status]
    split_ifs with hq
    · have hl := living_of_ne (live_of_queue H hq (by decide)).2.1
      exact hl.symm
    · rfl

theorem Kernel.Blocks.kin {cont : Cont} {queue : QueueId}
    (hl : s.living s.curProc = true) (h : Blocks cfg s s' cont queue pid) : SameKin s s' := by
  obtain ⟨a, hproc⟩ := h.proc
  refine .update hproc ?_
  simp only [Proc.kin, Prod.mk.injEq]
  exact ⟨rfl, rfl, rfl, rfl, rfl, hl.symm⟩

/-! ## The steps -/

/-- The process that runs has not exited. -/
structure TreeInv (s : Kernel) : Prop where
  family : ∃ kids, Family s kids
  run : s.mode = .outside → s.curProc ≠ 0 → s.living s.curProc = true

theorem TreeInv.congr (I : TreeInv s) (hk : SameKin s s') (ht : s'.nextTid = s.nextTid)
    (hm : s'.mode = s.mode) (hc : s'.curProc = s.curProc) : TreeInv s' := by
  obtain ⟨kids, F⟩ := I.family
  refine ⟨⟨kids, F.congr hk ht⟩, fun ho h0 => ?_⟩
  rw [hc, (hk.fields _).2.2.2.2.2]
  exact I.run (hm ▸ ho) (hc ▸ h0)

theorem TreeInv.quiet (I : TreeInv s) (hk : SameKin s s') (hq : s.Quiet s') : TreeInv s' := by
  obtain ⟨ht, hc, -, -, -, -, -, -, hm, -⟩ := hq.fields
  exact I.congr hk ht hm hc

/-- On the way into `schedule` no process runs. -/
theorem TreeInv.toSelect {now pold : Nat} (hF : ∃ kids, Family s kids) (hk : SameKin s s')
    (ht : s'.nextTid = s.nextTid) (hm : s'.mode = .select now pold) : TreeInv s' := by
  obtain ⟨kids, F⟩ := hF
  refine ⟨⟨kids, F.congr hk ht⟩, fun ho => ?_⟩
  rw [hm] at ho
  cases ho

theorem schedule_tree {regs : Bool} (H : Sane s) (I : TreeInv s)
    (h : s.schedule cfg regs = some s') :
    TreeInv s' := by
  have hk := schedule_kin H h
  obtain ⟨-, rfl⟩ | ⟨-, -, rfl⟩ | ⟨-, -, -, rfl⟩ | ⟨-, -, s1, hs1, rfl⟩ := schedule_cases h
  · exact I
  · exact .toSelect I.family hk rfl rfl
  · exact I.congr hk rfl rfl rfl
  · obtain ⟨t, u, w, a, rfl⟩ := switchOut_form hs1
    exact .toSelect I.family hk rfl rfl

theorem Kernel.Blocks.tree {cont : Cont} {queue : QueueId} (I : TreeInv s)
    (hm : s.mode = .outside) (hcur : s.curProc ≠ 0) (h : Blocks cfg s s' cont queue pid) :
    TreeInv s' := by
  have hown := sameOwn h.own
  have ht := hown.nextTid
  have hmode := hown.mode
  exact .toSelect I.family (h.kin (I.run hm hcur)) ht hmode

theorem exit_tree {status : Int} (hF : ∃ kids, Family s kids) (hcur : s.curProc ≠ 0)
    (hlt : s.curProc < s.nextTid) (hl : s.living s.curProc = true)
    (h : s.exit cfg status = some s') : TreeInv s' := by
  obtain ⟨kids, F⟩ := hF
  obtain ⟨s1, s2, t, s3, h1, h2, -, h4, rfl⟩ := exit_cases h
  have F0 : Family s.clts kids := F.congr (.refl s) rfl
  obtain ⟨s1', h1', F1⟩ := F0.exit status hcur hlt hl
  obtain rfl := Option.some_inj.mp (h1.symm.trans h1')
  obtain ⟨t', u, w, rfl⟩ := removeFromQueue_form h2
  have hk : SameKin (s1.modify s.curProc (·.ended status))
    (((((s1.putQueues t' u w).modify s.curProc
      Proc.leave).setCur 0).setProcList t).modify s.curProc (·.ended status)) := by
    intro r
    by_cases hr : r = s.curProc
    · simp [hr, Proc.kin]
    · simp [hr]
  have ht : s3.nextTid = s1.nextTid := (notifyParent_quiet h4).fields.nextTid
  have hk3 := hk.trans (notifyParent_kin h4)
  have hk4 : SameKin s3 (s3.clts.toSelect s3.ns 0) := .refl s3
  exact .toSelect ⟨_, F1⟩ (hk3.trans hk4) ht rfl

/-- `exit` leaves the relatives of a process alone that is not a child. -/
theorem exit_other {status : Int} (h : s.exit cfg status = some s')
    (hc : (s.proc c).parent ≠ s.curProc) :
    (s'.proc c).parent = (s.proc c).parent ∧ (s'.proc c).deleted = (s.proc c).deleted := by
  obtain ⟨s1, s2, t, s3, h1, h2, -, h4, rfl⟩ := exit_cases h
  obtain ⟨hp1, hd1⟩ := exitChildren_other h1 hc
  obtain ⟨t', u, w, rfl⟩ := removeFromQueue_form h2
  obtain ⟨hp3, -, -, -, hd3, -⟩ := (notifyParent_kin h4).fields c
  refine ⟨hp3.trans (Eq.trans ?_ hp1), hd3.trans (Eq.trans ?_ hd1)⟩
  all_goals by_cases hcur : c = s.curProc <;> simp [hcur]

theorem Family.reap (F : Family s kids) (hc : c ∈ kids p) (hp : p ≠ 0)
    (hl : s.living p = true) (hz : s.living c = false) : Family (s.reap pid c) (without kids p c) :=
  (F.delete hc hp hl hz).congr (.refl _) rfl

/-- The child that a loop finds is on the list. -/
theorem Family.find (F : Family s kids) (hc : c ≠ 0)
    (h : s.findSibling test (s.nextTid + 1) (s.proc p).lastChild = some c) :
    c ∈ kids p ∧ (kids p).find? test = some c := by
  rw [findSibling_spec (F.lists.chain p) (F.length p), Option.some_inj] at h
  cases hf : (kids p).find? test with
  | none =>
    rw [hf] at h
    exact absurd h.symm hc
  | some d =>
    rw [hf] at h
    obtain rfl : d = c := h
    exact ⟨mem_of_find?_eq_some hf, rfl⟩

theorem reap_tree (I : TreeInv s) (hcur : s.curProc ≠ 0)
    (hl : s.living s.curProc = true) (hfind : s.findChild test = some c)
    (hc : c ≠ 0) (hz : s.living c = false) : TreeInv (s.reap pid c) := by
  obtain ⟨kids, F⟩ := I.family
  have hmem := (F.find hc hfind).1
  refine ⟨⟨_, F.reap hmem hcur hl hz⟩, fun _ _ => ?_⟩
  have hliv : (s.reap pid c).living = s.living := (delete_treeOnly s c).living
  rw [(reap_fields s pid c).2.2.1, hliv]
  exact hl

/-! ## Runs -/

/-- The process that runs next, and the argument of its `waitpid`, if it goes on there: no
signal ends it or has interrupted it. -/
def Kernel.resumed (s : Kernel) : Option (Nat × Int) := do
  let a ← s.runQueue.begin
  let p := (s.runQueue.node a).key
  match (s.proc p).cont with
  | .waitpid pid =>
    if (s.ending .select).isSome || (s.proc p).interrupted then none else some (p, pid)
  | _ => none

/-- When a process goes on inside `waitpid(pid)`, all its children with that `pid` have
exited. -/
def ReapOk (s : Kernel) : Event → Prop
  | .select => ∀ x ∈ s.resumed, 0 < x.2 → ∀ c < s.nextTid, (s.proc c).parent = x.1 →
      (s.proc c).pid = x.2 → s.living c = false
  | _ => True

instance (s : Kernel) (e : Event) : Decidable (ReapOk s e) :=
  match e with
  | .select => inferInstanceAs (Decidable (∀ x ∈ s.resumed, _ → ∀ c < s.nextTid, _ → _ → _))
  | .tick | .fpu _ | .fault | .clone _ _ | .exit _ | .waitpid _ _ _ | .nanosleep _ | .wait _
  | .wake _ _ | .tkill _ _ | .setnice _ => .isTrue trivial

theorem wokenTest_congr (hk : SameKin s s') (hpid : ∀ p, (s'.proc p).pid = (s.proc p).pid)
    (pid : Int) : s'.wokenTest pid = s.wokenTest pid := by
  funext c
  have hl : ((s'.proc c).status != .zombie) = ((s.proc c).status != .zombie) :=
    (hk.fields c).2.2.2.2.2
  rw [wokenTest, wokenTest, hpid, hl]

theorem findSibling_congr {fuel x : Nat} (hk : SameKin s s') :
    s'.findSibling test fuel x = s.findSibling test fuel x := by
  induction fuel generalizing x with
  | zero => rfl
  | succ n ih => rw [findSibling, findSibling, (hk.fields x).2.2.1, ih]

theorem findChild_congr (test : Nat → Bool) (hk : SameKin s s') (ht : s'.nextTid = s.nextTid)
    (hc : s'.curProc = s.curProc) : s'.findChild test = s.findChild test := by
  rw [findChild, findChild, ht, hc, (hk.fields _).2.1, findSibling_congr hk]

/-- If the current process goes on in `waitpid`, the child that it finds has exited. -/
def FindsZombie (s : Kernel) : Prop :=
  ∀ pid c, (s.proc s.curProc).cont = .waitpid pid → (s.proc s.curProc).interrupted = false →
    s.findChild (s.wokenTest pid) = some c → c ≠ 0 → s.living c = false

theorem FindsZombie.congr (h : FindsZombie s) (hk : SameKin s s') (ht : s'.nextTid = s.nextTid)
    (hc : s'.curProc = s.curProc) (hpid : ∀ p, (s'.proc p).pid = (s.proc p).pid)
    (hcont : (s'.proc s.curProc).cont = (s.proc s.curProc).cont)
    (hi : (s'.proc s.curProc).interrupted = (s.proc s.curProc).interrupted) : FindsZombie s' := by
  intro pid c
  rw [hc, hcont, hi, wokenTest_congr hk hpid, findChild_congr _ hk ht hc, (hk.fields c).2.2.2.2.2]
  exact h pid c

theorem resume_tree (I : TreeInv s) (hcur : s.curProc ≠ 0) (hl : s.living s.curProc = true)
    (hz : FindsZombie s) (h : s.resume = some s') : TreeInv s' := by
  have hk : SameKin s (s.modify s.curProc (·.setInterrupted false)) := .modify fun _ => rfl
  have I1 : TreeInv (s.modify s.curProc (·.setInterrupted false)) := I.congr hk rfl rfl rfl
  obtain ⟨-, rfl⟩ | ⟨-, rfl⟩ | ⟨pid, c, hcont, hi, hc, hfind, rfl⟩ := resume_cases h
  · exact I
  · exact I1
  · have hk' : SameKin (s.modify s.curProc (·.setInterrupted false))
        ((s.modify s.curProc (·.setInterrupted false)).modify s.curProc (·.setWaitPid 0)) :=
      .modify fun _ => rfl
    have hpid (q : Nat) : ((s.modify s.curProc (·.setInterrupted false)).proc q).pid =
        (s.proc q).pid := by
      refine modify_proc_of (g := Proc.pid) ?_ q
      exact fun _ => rfl
    rw [wokenTest_congr hk hpid, findChild_congr _ hk rfl rfl] at hfind
    have hlive (q : Nat) := ((hk.trans hk').fields q).2.2.2.2.2
    have hfind' := (findChild_congr (s.wokenTest pid) (hk.trans hk') rfl rfl).trans hfind
    exact reap_tree (I1.congr hk' rfl rfl rfl) hcur ((hlive _).trans hl) hfind' hc
      ((hlive c).trans (hz pid c hcont hi hfind hc))

theorem entered_kin (pold : Nat) (hl : s.living s.curProc = true) : SameKin s (s.entered pold) := by
  refine .update rfl ?_
  simp only [Proc.kin, Prod.mk.injEq]
  exact ⟨rfl, rfl, rfl, rfl, rfl, hl.symm⟩

/-- The process that is dispatched has the same relatives, and may reap a child. -/
theorem dispatch_tree {pold : Nat} (hF : ∃ kids, Family s kids) (hcur : s.curProc ≠ 0)
    (hl : s.living s.curProc = true) (hz : FindsZombie s) (h : s.dispatch pold = some s') :
    TreeInv s' := by
  have hk := entered_kin pold hl
  have hlive (q : Nat) := (hk.fields q).2.2.2.2.2
  obtain ⟨kids, F⟩ := hF
  refine resume_tree ⟨⟨kids, F.congr hk rfl⟩, fun _ _ => (hlive _).trans hl⟩ hcur
    ((hlive _).trans hl) (hz.congr hk rfl rfl (fun q => ?_) ?_ ?_) h
  · by_cases hq : q = s.curProc <;> simp [hq]
  · simp
  · simp

theorem select_tree {now pold : Nat} (H : Sane s) (I : TreeInv s) (hok : ReapOk s .select)
    (h : s.select cfg now pold = some s') : TreeInv s' := by
  obtain ⟨a, p, hbegin, rfl, hsz, hp0, -, h⟩ := select_cases h
  obtain ⟨-, hz, -, hlt⟩ := live_of_queue H (H.first hbegin hsz).1 (by decide)
  obtain ⟨kids, F⟩ := I.family
  have hF : Family (s.choose (s.runQueue.node a).key now) kids := F.congr (.refl s) rfl
  have hl : s.living (s.runQueue.node a).key = true := living_of_ne hz
  have hfz (hend : s.ending .select = none) :
    FindsZombie (s.choose (s.runQueue.node a).key now) := by
    intro pid c hcont hi hfind hc
    have hcont' : (s.proc (s.runQueue.node a).key).cont = .waitpid pid := hcont
    have hi' : (s.proc (s.runQueue.node a).key).interrupted = false := hi
    have hres : s.resumed = some ((s.runQueue.node a).key, pid) := by
      simp [resumed, hbegin, hcont', hi', hend]
    obtain ⟨hmem, hf⟩ := hF.find hc hfind
    obtain ⟨-, hlt', -, hpar⟩ := F.child (s.runQueue.node a).key c hmem
    rw [if_pos hl] at hpar
    -- without a match of `pid`, the loop stops only at a child that has exited
    by_contra hlive
    have htest := List.find?_some hf
    have hpid : 0 < pid ∧ (s.proc c).pid = pid := by
      have hst : ((s.proc c).status != .zombie) = true := by simpa [living] using hlive
      simp only [wokenTest, choose_proc, hst, Bool.and_true, not_eq_true',
        or_eq_false_iff, decide_eq_false_iff_not, not_lt, bne_eq_false_iff_eq] at htest
      exact ⟨by omega, htest.2⟩
    exact hlive (hok _ hres hpid.1 c hlt' hpar hpid.2)
  have hsig (sig : Nat) : SameKin (s.choose (s.runQueue.node a).key now)
      ((s.choose (s.runQueue.node a).key now).modify (s.runQueue.node a).key
        (·.setSignal sig false)) := .modify fun _ => rfl
  obtain ⟨hsig0, h⟩ | ⟨sig, hsig1, ⟨-, h⟩ | ⟨hf, h⟩⟩ := h
  · exact dispatch_tree ⟨kids, hF⟩ hp0 hl (hfz (by simp [ending, hbegin, hsig0])) h
  · exact exit_tree ⟨kids, hF.congr (hsig sig) rfl⟩ hp0 hlt
      (((hsig sig).fields _).2.2.2.2.2.trans hl) h
  · have hend : s.ending .select = none := by simp [ending, hbegin, hsig1, hf]
    refine dispatch_tree ⟨kids, hF.congr (hsig sig) rfl⟩ hp0
      (((hsig sig).fields _).2.2.2.2.2.trans hl)
      ((hfz hend).congr (hsig sig) rfl rfl (fun q => ?_) ?_ ?_) h
    · refine modify_proc_of (g := Proc.pid) ?_ q
      exact fun _ => rfl
    · simp
    · simp

theorem clone_tree {flags : Nat} {mem : Bool} (H : Sane s) (I : TreeInv s) (hm : s.mode = .outside)
    (hcur : s.curProc ≠ 0) (h : s.clone cfg flags mem = some s') : TreeInv s' := by
  obtain ⟨kids, F⟩ := I.family
  have hl := I.run hm hcur
  obtain rfl | rfl | ⟨hp0, s1, r, h1, -, rfl⟩ := clone_cases h
  · exact I
  · exact ⟨⟨kids, F.takeTid⟩, I.run⟩
  · have hpar : s.clonedParent flags < s.nextTid ∧ s.living (s.clonedParent flags) = true := by
      unfold clonedParent at hp0 ⊢
      split_ifs at hp0 ⊢ with hf
      · exact ⟨H.parent _, F.parent_living (F.undeleted hl) hp0⟩
      · exact ⟨H.cur, hl⟩
    have F1 := F.cloned flags hpar.1 hpar.2
    have T := linkChild_treeOnly ((s.takeTid.setFpuOut s.nextTid none).modify s.nextTid fun _ =>
      s.cloned flags) s.nextTid (s.clonedParent flags)
    have hnew := congrFun T.living s.nextTid
    have hold := congrFun T.living s.curProc
    have hne : s.curProc ≠ s.nextTid := H.cur.ne
    simp only [living, modify_proc, update_self, cloned_status,
      Proc.new] at hnew
    simp only [living, modify_proc, update_of_ne hne,
      setFpuOut_proc, takeTid_proc] at hold
    have I1 : TreeInv (((s.takeTid.setFpuOut s.nextTid none).modify s.nextTid fun _ =>
        s.cloned flags).linkChild s.nextTid (s.clonedParent flags)) := by
      refine ⟨⟨_, F1⟩, fun _ _ => ?_⟩
      rw [T.quiet.fields.curProc]
      exact hold.trans hl
    have I2 := I1.quiet (addProcRun_kin hnew h1) (addProcRun_quiet h1)
    exact I2.congr (.refl s1) rfl rfl rfl

theorem step_tree {e : Event} (hg : cfg.guard = true) (H : Sane s) (M : s.ModeOk) (I : TreeInv s)
    (hok : ReapOk s e) (h : s.step cfg e = some s') : TreeInv s' := by
  have hadd : ReadyKeeps cfg TreeInv := fun s p s' q H hc hq h I =>
    I.quiet (addProcRun_kin (living_of_ne (live_of_queue H hc hq.1).2.1) h) (addProcRun_quiet h)
  obtain ⟨-, -, h⟩ | ⟨cv, tid, -, -, h⟩ | ⟨now, pold, rfl, -, h⟩ | ⟨hm, hcur, h⟩ := step_cases h
  · have I0 : TreeInv s.clts.addTick := I.congr (.refl s) rfl rfl rfl
    obtain ⟨s1, H1, I1, -, h⟩ := timerTick_sane hg hadd h H I0
    exact schedule_tree H1 I1 h
  · exact (wake_sane hg hadd h H I).2
  · exact select_tree H I hok h
  · have hl := I.run hm hcur
    cases e with
    | tick | select | wake => cases h
    | fpu v =>
      cases h
      unfold useFpu
      split_ifs
      · refine I.congr (fun q => ?_) rfl rfl rfl
        by_cases hq : q = s.curProc
        · simp [hq, Proc.kin]
        · simp [hq]
      · exact I.congr (.refl s) rfl rfl rfl
    | fault =>
      obtain ⟨s1, h1, rfl⟩ := fault_outside (M.outside hm) h
      have I1 := I.quiet (tkillProc_kin h1) (tkillProc_quiet h1)
      exact .toSelect I1.family (.refl s1) rfl rfl
    | clone flags mem => exact clone_tree H I hm hcur h
    | exit status => exact exit_tree I.family hcur H.cur hl h
    | waitpid pid ptr options =>
      obtain rfl | ⟨-, c, hfind, ⟨hc, hz, rfl⟩ | ⟨-, -, h⟩⟩ := waitpid_cases h
      · exact I
      · exact reap_tree I hcur hl hfind hc (by simp [living, hz])
      · exact (waitpidSleep_blocks hcur h).tree I hm hcur
    | nanosleep n =>
      obtain rfl | h := nanosleep_blocks hcur h
      · exact I
      · exact h.tree I hm hcur
    | wait cv => exact (wait_blocks hcur h).tree I hm hcur
    | tkill tid sig =>
      obtain rfl | ⟨a, -, -, h⟩ := tkill_cases h
      · exact I
      · exact I.quiet (tkillProc_kin h) (tkillProc_quiet h)
    | setnice inc =>
      obtain rfl | ⟨t, u, w, a, rfl⟩ := setnice_form h
      · exact I
      · exact I.congr (.update rfl rfl) rfl rfl rfl

theorem Started.tree (h : Started w s) : TreeInv s := by
  have hkin := h.procs (P := fun q => q.kin = (0, 0, 0, 0, false, true)) rfl fun _ _ _ _ => rfl
  have hp (p : Nat) : (s.proc p).parent = 0 ∧ (s.proc p).lastChild = 0 ∧
      (s.proc p).nextSibling = 0 ∧ (s.proc p).prevSibling = 0 ∧ (s.proc p).deleted = false ∧
      s.living p = true := by
    simpa only [living, Proc.kin, Prod.mk.injEq] using hkin p
  have hF : Family s fun _ => [] := by
    constructor
    · exact ⟨fun p => (hp p).2.1, fun _ => .nil, fun _ _ _ hc => absurd hc (by simp),
        fun c _ => ⟨(hp c).2.2.1, (hp c).2.2.2.1⟩⟩
    · exact fun p => .nil
    · intro p c hc
      cases hc
    · exact fun c _ h0 => absurd (hp c).1 h0
    · intro p hd
      rw [(hp p).2.2.2.2.1] at hd
      cases hd
    · exact fun p _ => ⟨rfl, (hp p).1, (hp p).2.2.2.2⟩
  exact ⟨⟨_, hF⟩, fun _ _ => (hp _).2.2.2.2.2⟩

/-- The queues stay intact, and `waitpid` does not delete a living child. -/
def TreeOk (w : Nat → Nat) (s : Kernel) (e : Event) : Prop := QueueOk w s e ∧ ReapOk s e

instance (s : Kernel) (e : Event) : Decidable (TreeOk w s e) := inferInstanceAs (Decidable (_ ∧ _))

theorem reach_tree {ok : Kernel → Event → Prop} (hok : ∀ s e, ok s e → TreeOk w s e)
    (h : Reach (Started w) (step (.code w)) ok s) : Sane s ∧ s.ModeOk ∧ TreeInv s := by
  refine h.invariant (I := fun s => Sane s ∧ s.ModeOk ∧ TreeInv s)
    (fun s hs => ⟨hs.sane, hs.modeOk, hs.tree⟩) ?_
  rintro s e s' ⟨H, M, I⟩ hs hstep
  obtain ⟨hq, hr⟩ := hok s e hs
  have hstep' := step_below.agree hq.1 hstep
  exact ⟨(hq.keeps hstep H).1, step_modeOk M hstep, step_tree rfl H M I hr hstep'⟩

/-- `xs` is the null-terminated list from `last_child` along `next_sibling`, and
`prev_sibling` leads back along it. -/
def ChildList (s : Kernel) (p : Nat) (xs : List Nat) : Prop :=
  Chain s.links 0 0 (s.proc p).lastChild xs

/-- The processes and their links form a tree. -/
structure IsTree (s : Kernel) : Prop where
  listed : ∀ c, (s.proc c).deleted = false → (s.proc c).parent ≠ 0 →
    (s.proc (s.proc c).parent).status ≠ .zombie ∧
      ∃ xs, ChildList s (s.proc c).parent xs ∧ xs.count c = 1
  children : ∀ p, (s.proc p).status ≠ .zombie →
    ∃ xs, ChildList s p xs ∧ ∀ c ∈ xs, (s.proc c).parent = p
  assertion : ∀ p, 0 < p → p < s.nextTid → (s.proc p).status ≠ .zombie →
    (exitChildren p (s.nextTid + 1) s.clts (s.proc p).lastChild).isSome
  undeleted : ∀ p, (s.proc p).deleted = false →
    ∀ q ∈ [(s.proc p).parent, (s.proc p).lastChild, (s.proc p).nextSibling, (s.proc p).prevSibling],
      q ≠ 0 → (s.proc q).deleted = false

theorem Family.sibling_undeleted (F : Family s kids) (p : Nat) :
    ((s.proc p).nextSibling ≠ 0 → (s.proc (s.proc p).nextSibling).deleted = false) ∧
      ((s.proc p).prevSibling ≠ 0 → (s.proc (s.proc p).prevSibling).deleted = false) := by
  by_cases hp : ∃ q, p ∈ kids q
  · obtain ⟨q, hp⟩ := hp
    obtain ⟨xs, ys, hk⟩ := append_of_mem hp
    have hchain := F.lists.chain q
    rw [hk] at hchain
    obtain ⟨hprev, hnext⟩ := hchain.neighbours
    have hmem (d : Nat) (hd : d ∈ xs ∨ d ∈ ys) : (s.proc d).deleted = false := by
      refine (F.child q d ?_).2.2.1
      rw [hk]
      simp only [mem_append, List.mem_cons]
      tauto
    exact ⟨fun h0 => hmem _ (.inr (hnext.resolve_left h0)),
      fun h0 => hmem _ (.inl (hprev.resolve_left h0))⟩
  · obtain ⟨hn, hpr⟩ := F.lists.lone p (not_exists.mp hp)
    exact ⟨fun h0 => absurd hn h0, fun h0 => absurd hpr h0⟩

theorem Family.isTree (F : Family s kids) : IsTree s := by
  constructor
  · intro c hd hp
    have hl := F.parent_living hd hp
    refine ⟨fun hz => ?_, kids _, F.lists.chain _, ?_⟩
    · simp [living, hz] at hl
    · exact count_eq_one_of_mem (F.lists.nodup _) (F.parent c hd hp)
  · intro p hz
    refine ⟨kids p, F.lists.chain p, fun c hc => ?_⟩
    rw [(F.child p c hc).2.2.2, if_pos (living_of_ne hz)]
  · intro p h0 hlt hz
    have F0 : Family s.clts kids := F.congr (.refl s) rfl
    obtain ⟨s1, h1, -⟩ := F0.exit 0 h0.ne' hlt (living_of_ne hz)
    exact Option.isSome_iff_exists.mpr ⟨s1, h1⟩
  · intro p hd q hq h0
    obtain ⟨hnext, hprev⟩ := F.sibling_undeleted p
    simp only [List.mem_cons, List.not_mem_nil, or_false] at hq
    obtain rfl | rfl | rfl | rfl := hq
    · exact F.undeleted (F.parent_living hd h0)
    · exact (F.child p _ ((F.lists.chain p).first_mem h0)).2.2.1
    · exact hnext h0
    · exact hprev h0

/-- In every run in which a process goes on inside `waitpid(pid)` only when all its
children with that `pid` have exited, the processes form a tree. -/
theorem processes_tree (w : Nat → Nat) {s : Kernel}
    (h : Reach (Started w) (step (.code w)) (TreeOk w) s) : IsTree s := by
  obtain ⟨-, -, I⟩ := reach_tree (fun _ _ => id) h
  obtain ⟨kids, F⟩ := I.family
  exact F.isTree

/-- Process 1 has the children 3 and 4 and waits for 3, which makes its sibling 5 and ends. -/
def childReaped : List Event :=
  [.tick, .select, .clone 0 true, .clone 0 true, .waitpid 3 true 0, .select, .tick, .tick, .select,
    .clone cloneParent true, .exit 7, .select]

theorem processes_tree_sample :
    ∃ s, Reach (Started uint64) (step (.code uint64)) (TreeOk uint64) s ∧
      [3, 4, 5].map (fun p => ((s.proc p).parent, (s.proc p).deleted)) =
        [(1, true), (1, false), (1, false)] ∧ IsTree s := by
  have hrun : (runOf uint64 (TreeOk uint64) childReaped).map (fun s =>
      [3, 4, 5].map fun p => ((s.proc p).parent, (s.proc p).deleted)) =
      some [(1, true), (1, false), (1, false)] := by decide +kernel
  obtain ⟨s, hs, he⟩ := run_of_map hrun
  exact ⟨s, runOf_reach hs, he, processes_tree uint64 (runOf_reach hs)⟩

/-- Process 1 has the threads 3 and 4 and waits for its own pid. Then 4 makes the child 5,
and 3 ends. -/
def threadEnds : List Event :=
  [.tick, .select, .clone cloneThread true, .clone cloneThread true, .waitpid 1 true 0, .select,
    .tick, .tick, .select, .tick, .tick, .select, .clone 0 true, .tick, .tick, .select,
    .tick, .tick, .select, .tick, .tick, .select, .exit 0, .select]

/-- The last loop of `waitpid` takes the first child with the pid. It deletes the thread 4,
which is running, and its child 5 keeps the pointer to it. -/
theorem living_thread_deleted : ∃ s, Reach (Started uint64) (step (.code uint64)) always s ∧
      (s.proc 4).deleted = true ∧ (s.proc 4).status = .ready ∧ (s.proc 5).deleted = false ∧
      (s.proc 5).parent = 4 ∧ ¬ IsTree s := by
  have hrun : (runOf uint64 always threadEnds).map (fun s => ((s.proc 4).deleted,
      (s.proc 4).status, (s.proc 5).deleted, (s.proc 5).parent)) = some
      (true, .ready, false, 4) := by
    decide +kernel
  obtain ⟨s, hs, he⟩ := run_of_map hrun
  simp only [Prod.mk.injEq] at he
  obtain ⟨hd, hst, hd5, hp5⟩ := he
  refine ⟨s, runOf_reach hs, hd, hst, hd5, hp5, fun T => ?_⟩
  have h := T.undeleted 5 hd5 4 (by simp [hp5]) (by decide)
  rw [hd] at h
  cases h

end Sysint.Process
