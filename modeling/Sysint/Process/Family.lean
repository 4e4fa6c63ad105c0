import Sysint.Lib.Chain
import Sysint.Process.Checked

/-! The process tree: `last_child` of a process and the sibling links of its children
form a list. `exit` cuts live children off and deletes the others; the children of a
process that has exited stay linked with each other. -/
namespace Sysint.Process
open List
open Dlink (Links Chain)
open Kernel
open Function
open Proc

variable {w : Nat → Nat} {cfg : Config} {s s' s'' : Kernel} {p c : Nat} {kids : Nat → List Nat}
  {xs ys : List Nat}

def Kernel.links (s : Kernel) : Links Nat where
  prev p := (s.proc p).prevSibling
  next p := (s.proc p).nextSibling

/-! ## The links -/

section
variable (s : Kernel) (r : Nat) (f : Proc → Proc) (q : Nat)

theorem modify_field {β : Type} (g : Proc → β) :
    g ((s.modify r f).proc q) = if q = r then g (f (s.proc r)) else g (s.proc q) := by
  by_cases hq : q = r
  · subst hq
    simp
  · simp [hq]

theorem modify_next : ((s.modify r f).proc q).nextSibling =
    if q = r then (f (s.proc r)).nextSibling else (s.proc q).nextSibling := modify_field s r f q _

theorem modify_prev : ((s.modify r f).proc q).prevSibling =
    if q = r then (f (s.proc r)).prevSibling else (s.proc q).prevSibling := modify_field s r f q _

theorem modify_last : ((s.modify r f).proc q).lastChild =
    if q = r then (f (s.proc r)).lastChild else (s.proc q).lastChild := modify_field s r f q _

theorem modify_parent : ((s.modify r f).proc q).parent =
    if q = r then (f (s.proc r)).parent else (s.proc q).parent := modify_field s r f q _

theorem modify_deleted : ((s.modify r f).proc q).deleted =
    if q = r then (f (s.proc r)).deleted else (s.proc q).deleted := modify_field s r f q _

end

theorem unlink_next (s : Kernel) (p q : Nat) :
    ((s.unlink p).proc q).nextSibling = (s.links.unlink 0 p).next q := by
  simp only [unlink, links, Links.unlink, modify_next, setPrev_nextSibling,
    setNext_nextSibling]
  split_ifs <;> grind [modify_next, setPrev_nextSibling, setNext_nextSibling,
    setLast_nextSibling]

theorem unlink_prev (s : Kernel) (p q : Nat) :
    ((s.unlink p).proc q).prevSibling = (s.links.unlink 0 p).prev q := by
  simp only [unlink, links, Links.unlink, modify_prev, setPrev_prevSibling]
  split_ifs <;> grind [modify_prev, setPrev_prevSibling, setNext_prevSibling,
    setLast_prevSibling]

theorem unlink_links (s : Kernel) (p : Nat) : (s.unlink p).links = s.links.unlink 0 p :=
  congrArg₂ Links.mk (funext (unlink_prev s p)) (funext (unlink_next s p))

theorem unlink_last (s : Kernel) (p q : Nat) : ((s.unlink p).proc q).lastChild =
      if (s.proc p).prevSibling = 0 ∧ q = (s.proc p).parent ∧ q ≠ 0 ∧ (s.proc q).lastChild = p then
        (s.proc p).nextSibling else (s.proc q).lastChild := by
  simp only [unlink, modify_last, setPrev_lastChild, setNext_lastChild]
  split_ifs <;> grind [modify_last, setPrev_lastChild, setNext_lastChild,
    setLast_lastChild]

theorem unlink_parent (s : Kernel) (p q : Nat) :
    ((s.unlink p).proc q).parent = (s.proc q).parent := by
  simp only [unlink, modify_parent, setPrev_parent, setNext_parent]
  split_ifs <;> grind [modify_parent, setPrev_parent, setNext_parent, setLast_parent]

theorem unlink_deleted (s : Kernel) (p q : Nat) :
    ((s.unlink p).proc q).deleted = (s.proc q).deleted := by
  simp only [unlink, modify_deleted, setPrev_deleted, setNext_deleted]
  split_ifs <;> grind [modify_deleted, setPrev_deleted, setNext_deleted,
    setLast_deleted]

theorem linkChild_next (s : Kernel) (p parent q : Nat) :
    ((s.linkChild p parent).proc q).nextSibling =
      (s.links.push 0 p (s.proc parent).lastChild).next q := by
  simp only [linkChild, links, Links.push, modify_next, setLast_nextSibling]
  split_ifs <;> grind [modify_next, setPrev_nextSibling, setNext_nextSibling]

theorem linkChild_prev (s : Kernel) (p parent q : Nat) :
    ((s.linkChild p parent).proc q).prevSibling =
      (s.links.push 0 p (s.proc parent).lastChild).prev q := by
  simp only [linkChild, links, Links.push, modify_prev, setLast_prevSibling]
  split_ifs <;> grind [modify_prev, setPrev_prevSibling, setNext_prevSibling,
    setParent_prevSibling]

theorem linkChild_links (s : Kernel) (p parent : Nat) :
    (s.linkChild p parent).links = s.links.push 0 p (s.proc parent).lastChild :=
  congrArg₂ Links.mk (funext (linkChild_prev s p parent)) (funext (linkChild_next s p parent))

theorem linkChild_last (s : Kernel) (p parent q : Nat) :
    ((s.linkChild p parent).proc q).lastChild = if q = parent then p else (s.proc q).lastChild := by
  simp only [linkChild, modify_last, setLast_lastChild]
  split_ifs <;> grind [modify_last, setPrev_lastChild, setNext_lastChild,
    setParent_lastChild]

theorem linkChild_parent (s : Kernel) (p parent q : Nat) :
    ((s.linkChild p parent).proc q).parent = if q = p then parent else (s.proc q).parent := by
  simp only [linkChild, modify_parent, setLast_parent]
  split_ifs <;> grind [modify_parent, setPrev_parent, setNext_parent,
    setParent_parent]

theorem linkChild_deleted (s : Kernel) (p parent q : Nat) :
    ((s.linkChild p parent).proc q).deleted = (s.proc q).deleted := by
  simp only [linkChild, modify_deleted, setLast_deleted]
  split_ifs <;> grind [modify_deleted, setPrev_deleted, setNext_deleted,
    setParent_deleted]

/-- `kids p` are the processes on the list of `p`, and no process is on two lists. -/
structure Lists (s : Kernel) (kids : Nat → List Nat) : Prop where
  chain : ∀ p, Chain s.links 0 0 (s.proc p).lastChild (kids p)
  nodup : ∀ p, (kids p).Nodup
  unique : ∀ p q c, c ∈ kids p → c ∈ kids q → p = q
  lone : ∀ c, (∀ p, c ∉ kids p) → (s.proc c).nextSibling = 0 ∧ (s.proc c).prevSibling = 0

section

variable (L : Lists s kids)
include L

theorem Lists.congr (hl : s'.links = s.links)
    (hc : ∀ p, (s'.proc p).lastChild = (s.proc p).lastChild) : Lists s' kids := by
  refine ⟨fun p => ?_, L.nodup, L.unique, fun c h => ?_⟩
  · rw [hl, hc]
    exact L.chain p
  · have hn := congrFun (congrArg Links.next hl) c
    have hp := congrFun (congrArg Links.prev hl) c
    exact ⟨hn.trans (L.lone c h).1, hp.trans (L.lone c h).2⟩

theorem Lists.nodup_zero (p : Nat) : (0 :: kids p).Nodup :=
  nodup_cons.mpr ⟨fun h => (L.chain p).ne_null h rfl, L.nodup p⟩

theorem Lists.unlink (hk : kids p = xs ++ c :: ys) (hp : p ≠ 0)
    (hpar : (s.proc c).parent = p) : Lists (s.unlink c) (update kids p (xs ++ ys)) := by
  have hchain := L.chain p
  have hnd := L.nodup_zero p
  rw [hk] at hchain hnd
  obtain ⟨hprev, hnext⟩ := hchain.neighbours
  have hsub : (xs ++ ys).Sublist (kids p) := by
    rw [hk]
    exact (sublist_cons_self c ys).append_left xs
  have hmem (q d : Nat) (hd : d ∈ update kids p (xs ++ ys) q) : d ∈ kids q := by
    by_cases hq : q = p
    · subst hq
      rw [update_self] at hd
      exact hsub.subset hd
    · rwa [update_of_ne hq] at hd
  refine ⟨fun q => ?_, fun q => ?_, fun q r d hq hr => ?_, fun d hd => ?_⟩
  · rw [unlink_links, unlink_last]
    by_cases hq : q = p
    · subst hq
      rw [update_self]
      have h := hchain.unlink hnd
      have hhead : (if xs = [] then s.links.next c else (s.proc q).lastChild) =
          if (s.proc c).prevSibling = 0 ∧ q = (s.proc c).parent ∧ q ≠ 0 ∧
            (s.proc q).lastChild = c then
            (s.proc c).nextSibling else (s.proc q).lastChild := by
        have hiff : (s.proc c).prevSibling = 0 ∧ q = (s.proc c).parent ∧ q ≠ 0 ∧
            (s.proc q).lastChild = c ↔ xs = [] := by
          constructor
          · rintro ⟨-, -, -, hlast⟩
            cases xs with
            | nil => rfl
            | cons x xs =>
              obtain rfl : c = x := hlast.symm.trans hchain.1
              simp at hnd
          · rintro rfl
            exact ⟨hchain.2.2.1, hpar.symm, hp, hchain.1⟩
        simp only [hiff]
        rfl
      rwa [hhead] at h
    · rw [update_of_ne hq, if_neg fun h => hq (h.2.1.trans hpar)]
      refine hchain.unlink_other (L.chain q) fun z hz hz' => hq ?_
      exact L.unique q p z hz (hk ▸ hz')
  · by_cases hq : q = p
    · subst hq
      rw [update_self]
      exact (L.nodup q).sublist hsub
    · rw [update_of_ne hq]
      exact L.nodup q
  · exact L.unique q r d (hmem q d hq) (hmem r d hr)
  · rw [unlink_next, unlink_prev]
    by_cases hdc : d = c
    · simp [Links.unlink, hdc]
    have hd' (q : Nat) : d ∉ kids q := by
      intro hmem'
      have hnot := hd q
      by_cases hq : q = p
      · subst hq
        rw [update_self] at hnot
        rw [hk] at hmem'
        simp only [mem_append, mem_cons] at hmem' hnot
        tauto
      · rw [update_of_ne hq] at hnot
        exact hnot hmem'
    have hdp := hd' p
    rw [hk] at hdp
    simp only [mem_append, mem_cons, not_or] at hdp
    have hp' : ¬ (d = s.links.prev c ∧ d ≠ 0) := by
      rintro ⟨rfl, h0⟩
      exact hprev.elim h0 hdp.1
    have hn' : ¬ (d = s.links.next c ∧ d ≠ 0) := by
      rintro ⟨rfl, h0⟩
      exact hnext.elim h0 hdp.2.2
    simp only [Links.unlink, if_neg hdc, if_neg hp', if_neg hn']
    exact L.lone d hd'

theorem Lists.link {parent : Nat} (hp : p ≠ 0) (hnew : ∀ q, p ∉ kids q) :
    Lists (s.linkChild p parent) (update kids parent (p :: kids parent)) := by
  have hnd : (p :: kids parent).Nodup := nodup_cons.mpr ⟨hnew parent, L.nodup parent⟩
  have hmem (q d : Nat) (hd : d ∈ update kids parent (p :: kids parent) q) :
      d = p ∧ q = parent ∨ d ∈ kids q := by
    by_cases hq : q = parent
    · subst hq
      rw [update_self] at hd
      exact (mem_cons.mp hd).imp (fun h => ⟨h, rfl⟩) id
    · rw [update_of_ne hq] at hd
      exact .inr hd
  refine ⟨fun q => ?_, fun q => ?_, fun q r d hq hr => ?_, fun d hd => ?_⟩
  · rw [linkChild_links, linkChild_last]
    by_cases hq : q = parent
    · subst hq
      rw [update_self, if_pos rfl]
      exact (L.chain q).push hp (L.lone p hnew).2 hnd
    · rw [update_of_ne hq, if_neg hq]
      exact (L.chain parent).push_other (L.chain q) (hnew q) fun z hz hz' =>
        hq (L.unique q parent z hz hz')
  · by_cases hq : q = parent
    · subst hq
      rwa [update_self]
    · rw [update_of_ne hq]
      exact L.nodup q
  · obtain ⟨rfl, rfl⟩ | hq' := hmem q d hq
    · obtain ⟨-, rfl⟩ | hr' := hmem r d hr
      · rfl
      · exact absurd hr' (hnew r)
    · obtain ⟨rfl, rfl⟩ | hr' := hmem r d hr
      · exact absurd hq' (hnew q)
      · exact L.unique q r d hq' hr'
  · have hdp : d ≠ p := by
      rintro rfl
      have h := hd parent
      rw [update_self] at h
      exact h mem_cons_self
    have hd' (q : Nat) : d ∉ kids q := by
      intro hmem'
      have h := hd q
      by_cases hq : q = parent
      · subst hq
        rw [update_self] at h
        exact h (mem_cons_of_mem _ hmem')
      · rw [update_of_ne hq] at h
        exact h hmem'
    have hlast : ¬ (d = (s.proc parent).lastChild ∧ (s.proc parent).lastChild ≠ 0) := by
      rintro ⟨rfl, h0⟩
      exact hd' parent ((L.chain parent).first_mem h0)
    rw [linkChild_next, linkChild_prev]
    simp only [Links.push, if_neg hdp, if_neg hlast]
    exact L.lone d hd'

end

/-! ## The loops -/

/-- The loops along the siblings find the first one with the test. -/
theorem findSibling_spec {test : Nat → Bool} {fuel a x : Nat} (h : Chain s.links 0 a x xs)
    (hf : xs.length < fuel) : s.findSibling test fuel x = some ((xs.find? test).getD 0) := by
  induction fuel generalizing a x xs with
  | zero => omega
  | succ n ih =>
    cases xs with
    | nil =>
      rw [findSibling, if_pos (.inl h)]
      exact congrArg some h
    | cons y ys =>
      obtain ⟨rfl, hne, -, h⟩ := h
      rw [findSibling, List.find?_cons]
      cases ht : test x with
      | true => simp
      | false =>
        rw [if_neg (by simp [hne])]
        exact ih h (by simpa using hf)

/-- The children that `exit` cuts off. -/
def Kernel.living (s : Kernel) (c : Nat) : Bool := (s.proc c).status != .zombie

theorem Kernel.TreeOnly.living (h : s.TreeOnly s') : s'.living = s.living := by
  funext c
  have hst := congrArg status (h.flat c)
  simp only [flat_status] at hst
  simp [Kernel.living, hst]

theorem Lists.modify {f : Proc → Proc} (L : Lists s kids)
    (hf : ∀ q, (f q).prevSibling = q.prevSibling ∧ (f q).nextSibling = q.nextSibling ∧
      (f q).lastChild = q.lastChild) : Lists (s.modify p f) kids :=
  L.congr (congrArg₂ Links.mk (funext (modify_proc_of fun q => (hf q).1))
    (funext (modify_proc_of fun q => (hf q).2.1))) (modify_proc_of fun q => (hf q).2.2)

theorem Lists.delete (L : Lists s kids) (hk : kids p = xs ++ c :: ys) (hp : p ≠ 0)
    (hpar : (s.proc c).parent = p) : Lists (s.delete c) (update kids p (xs ++ ys)) :=
  (L.unlink hk hp hpar).modify fun _ => ⟨rfl, rfl, rfl⟩

theorem delete_parent (s : Kernel) (c q : Nat) :
    ((s.delete c).proc q).parent = (s.proc q).parent := by
  rw [← unlink_parent s c q]
  refine modify_proc_of (g := parent) ?_ q
  exact fun _ => rfl

theorem delete_deleted (s : Kernel) (c q : Nat) :
    ((s.delete c).proc q).deleted = ((s.proc q).deleted || decide (q = c)) := by
  rw [delete, modify_field _ _ _ _ deleted, unlink_deleted]
  by_cases hq : q = c <;> simp [hq]

/-- The loop of `exit` leaves the processes alone that are not children. -/
theorem exitChildren_other {cur fuel child : Nat}
    (h : exitChildren cur fuel s child = some s') (hc : (s.proc c).parent ≠ cur) :
    (s'.proc c).parent = (s.proc c).parent ∧ (s'.proc c).deleted = (s.proc c).deleted := by
  induction fuel generalizing s child with
  | zero => cases h
  | succ n ih =>
    simp only [exitChildren] at h
    split_ifs at h with h1 h2 h3
    · cases h
      exact ⟨rfl, rfl⟩
    · have hne : c ≠ child := fun heq => hc (heq ▸ not_not.mp h2)
      have hd := delete_deleted s child c
      rw [decide_eq_false hne, Bool.or_false] at hd
      rw [← delete_parent s child c, ← hd]
      exact ih h (delete_parent s child c ▸ hc)
    · have hne : c ≠ child := fun heq => hc (heq ▸ not_not.mp h2)
      have hsame : (s.modify child (·.setParent 0)).proc c = s.proc c := by simp [hne]
      rw [← hsame]
      exact ih h (hsame ▸ hc)

/-- The loop of `exit` over the children that are left: it deletes those that have
ended, and cuts the others off. -/
theorem exitChildren_spec {cur fuel : Nat} (L : Lists s kids) (hk : kids cur = xs ++ ys)
    (hpar : ∀ c ∈ ys, (s.proc c).parent = cur) (h0 : cur ≠ 0) (hf : ys.length < fuel) :
    ∃ s', exitChildren cur fuel s (ys.headD 0) = some s' ∧
      Lists s' (update kids cur (xs ++ ys.filter s.living)) ∧
      ∀ q, (s'.proc q).parent = (if q ∈ ys ∧ s.living q = true then 0 else (s.proc q).parent) ∧
        (s'.proc q).deleted = ((s.proc q).deleted || decide (q ∈ ys ∧ s.living q = false)) := by
  induction ys generalizing s kids xs fuel with
  | nil =>
    obtain ⟨n, rfl⟩ : ∃ n, fuel = n + 1 := ⟨fuel - 1, by simp at hf; omega⟩
    refine ⟨s, rfl, ?_, fun q => by simp⟩
    rwa [filter_nil, ← hk, update_eq_self]
  | cons c ys ih =>
    obtain ⟨n, rfl⟩ : ∃ n, fuel = n + 1 := ⟨fuel - 1, by simp at hf; omega⟩
    have hchain := L.chain cur
    have hnd := L.nodup cur
    rw [hk] at hchain hnd
    have hc : c ≠ 0 := hchain.ne_null (by simp)
    have hnext : (s.proc c).nextSibling = ys.headD 0 := hchain.at.2
    have hparc := hpar c mem_cons_self
    have hcys : c ∉ ys := (nodup_cons.mp (nodup_append.mp hnd).2.1).1
    rw [headD_cons, exitChildren, if_neg hc, if_neg (not_not.mpr hparc)]
    simp only [hnext]
    by_cases hz : (s.proc c).status = .zombie
    · have hlive : s.living c = false := by simp [Kernel.living, hz]
      have hfilter : (c :: ys).filter s.living = ys.filter s.living :=
        filter_cons_of_neg (by simp [hlive])
      have T := delete_treeOnly s c
      obtain ⟨s', hs', L', hq⟩ := ih (L.delete hk h0 hparc) (by rw [update_self])
        (fun d hd => (delete_parent s c d).trans (hpar d (mem_cons_of_mem _ hd)))
        (Nat.lt_of_succ_lt_succ hf)
      rw [if_pos hz]
      refine ⟨s', hs', ?_, fun q => ?_⟩
      · rwa [update_idem, T.living, ← hfilter] at L'
      obtain ⟨h1, h2⟩ := hq q
      rw [T.living, delete_parent] at h1
      rw [T.living, delete_deleted] at h2
      by_cases hqc : q = c
      · subst hqc
        simp [h1, h2, hlive]
      · simp [h1, h2, hqc]
    · have hlive : s.living c = true := by simp [Kernel.living, hz]
      have hfilter : (c :: ys).filter s.living = c :: ys.filter s.living :=
        filter_cons_of_pos hlive
      have T : s.TreeOnly (s.modify c (·.setParent 0)) := .modify fun _ => rfl
      have L1 : Lists (s.modify c (·.setParent 0)) kids := L.modify fun _ => ⟨rfl, rfl, rfl⟩
      have hother (d : Nat) (hd : d ≠ c) : ((s.modify c (·.setParent 0)).proc d) = s.proc d := by
        simp [hd]
      have hk' : kids cur = (xs ++ [c]) ++ ys := by simpa using hk
      obtain ⟨s', hs', L', hq⟩ := ih L1 hk'
        (fun d hd => by
          rw [hother d (ne_of_mem_of_not_mem hd hcys)]
          exact hpar d (mem_cons_of_mem _ hd)) (Nat.lt_of_succ_lt_succ hf)
      rw [if_neg hz]
      refine ⟨s', hs', ?_, fun q => ?_⟩
      · rwa [T.living, append_assoc, singleton_append, ← hfilter] at L'
      obtain ⟨h1, h2⟩ := hq q
      rw [T.living] at h1 h2
      by_cases hqc : q = c
      · subst hqc
        simp [h1, h2, hlive]
      · simp [h1, h2, hqc]

end Sysint.Process
