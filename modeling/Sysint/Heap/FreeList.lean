import Mathlib.Data.List.Perm.Basic
import Mathlib.Tactic.SplitIfs
import Sysint.Heap.Layout

/-! The list of unused blocks: `insert`, `remove` and `insert_list` in terms of
the layout, and the search `alloc` makes. -/
namespace Sysint.Heap
open Tiling Dlink List
open Function

variable {nil : Sentinel} {keep : List Blk} {m₀ m : Mem} {heapEnd : Nat} {bs l r : List Blk}
  {b : Blk} {free : List Nat}

/-! ## Unlinking a block -/

theorem remove_apply {x : Nat} (hp : prev m x ≠ x) (hs : prev m x + 12 ≠ x + 8) (a : Nat) :
    remove m x a = if a = x + 12 then 0 else if a = x + 8 then 0
      else if a = next m x + 8 then prev m x
      else if a = prev m x + 12 then next m x else m a := by
  have h1 : next (set m (prev m x + 12) (next m x)) x = next m x := by
    simp only [next, prev, update_apply] at hp ⊢
    rw [if_neg (by omega)]
  have h2 : prev (set m (prev m x + 12) (next m x)) x = prev m x := by
    unfold prev set
    exact update_of_ne (Ne.symm hs) _ _
  simp [remove, h1, h2, update_apply]

/-- The neighbours of a listed block are other nodes. -/
theorem Layout.neighbours (H : Layout nil m heapEnd bs free) (hb : b ∈ bs) (hl : b.listed = true) :
    prev m b.h ∈ nil.addr :: free ∧ next m b.h ∈ nil.addr :: free ∧ prev m b.h ≠ b.h ∧
      prev m b.h + 12 ≠ b.h + 8 := by
  have hx : b.h ∈ free := H.mem_free.mpr ⟨b, hb, hl, rfl⟩
  have hxn := mem_cons_of_mem nil.addr hx
  have hpm : prev m b.h ∈ nil.addr :: free := H.ring.prev_mem hxn
  have := H.node_spaced (H.free_subset hpm) (H.free_subset hxn)
  exact ⟨hpm, H.ring.next_mem hxn, H.ring.prev_ne_self hx, by omega⟩

/-- Unlinking a block does not depend on the sizes. -/
theorem Layout.remove_setSize (H : Layout nil m heapEnd bs free) (hb : b ∈ bs)
    (hl : b.listed = true) {c : Blk} (hc : c ∈ bs) (v : Nat) :
    remove (setSize m c.h v) b.h = setSize (remove m b.h) c.h v := by
  obtain ⟨hpm, hnm, hpne, hsp⟩ := H.neighbours hb hl
  have h1 := H.node_or hc (H.free_subset hpm)
  have h2 := H.node_or hc (H.free_subset hnm)
  have h3 := H.node_or hc (mem_cons_of_mem _ (mem_map_of_mem hb))
  have hcb := H.bounds hc
  have ep : prev (setSize m c.h v) b.h = prev m b.h := update_of_ne (by omega) _ _
  have en : next (setSize m c.h v) b.h = next m b.h := update_of_ne (by omega) _ _
  funext a
  rw [remove_apply (by rw [ep]; exact hpne) (by rw [ep]; exact hsp), setSize_apply, setSize_apply,
    remove_apply hpne hsp, ep, en]
  split_ifs <;> omega

theorem Work.unlist (H : Work nil keep m₀ m heapEnd (l ++ b :: r) free) (hb : b.listed = true) :
    Work nil keep m₀ (remove m b.h) heapEnd (l ++ { b with listed := false } :: r)
      (free.erase b.h) := by
  have hbm : b ∈ l ++ b :: r := by simp
  have hx : b.h ∈ free := H.mem_free.mpr ⟨b, hbm, hb, rfl⟩
  have hxn := mem_cons_of_mem nil.addr hx
  obtain ⟨hpm, hnm, hpne, hsp⟩ := H.neighbours hbm hb
  have spaced {y z : Nat} (hy : y ∈ nil.addr :: free) (hz : z ∈ nil.addr :: free) :
      y = z ∨ y + 20 ≤ z ∨ z + 20 ≤ y := H.node_spaced (H.free_subset hy) (H.free_subset hz)
  have hrem := remove_apply hpne hsp
  obtain ⟨xs, ys, rfl⟩ := append_of_mem hx
  have hnd : (xs ++ b.h :: ys).Nodup := (nodup_cons.mp H.ring.nodup).2
  have herase : (xs ++ b.h :: ys).erase b.h = xs ++ ys := by
    have : b.h ∉ xs := fun h => (nodup_append.mp hnd).2.2 _ h _ (by simp) rfl
    rw [erase_append_right _ this, erase_cons_head]
  rw [herase]
  apply H.relink (H.unused b hbm hb).1 (H.unused b hbm hb).2
  · intro a ha
    have h1 := ha b.h (by simp)
    have h2 := ha _ (mem_cons_of_mem _ hpm)
    have h3 := ha _ (mem_cons_of_mem _ hnm)
    rw [hrem, if_neg h1.2, if_neg h1.1, if_neg h3.1, if_neg h2.2]
  · -- on the nodes that stay, the links are those of the ring without `b`
    have stays (y : Nat) (hy : y ∈ nil.addr :: (xs ++ ys)) :
        y ∈ nil.addr :: (xs ++ b.h :: ys) ∧ y ≠ b.h := by
      have hne := H.ring.nodup
      simp only [nodup_cons, nodup_append, mem_append, mem_cons] at hne hy ⊢
      grind
    apply H.ring.remove.congr
    · intro y hy
      obtain ⟨hy, hyb⟩ := stays y hy
      have h1 := spaced hy hxn
      have h2 := spaced hy hnm
      rw [remove_next]
      change remove m b.h (y + 12) = if y = prev m b.h then next m b.h else m (y + 12)
      rw [hrem, if_neg (by omega), if_neg (by omega), if_neg (by omega)]
      simp
    · intro y hy
      obtain ⟨hy, hyb⟩ := stays y hy
      have h1 := spaced hy hxn
      have h2 := spaced hy hpm
      rw [remove_prev _ _ _ hpne]
      change remove m b.h (y + 8) = if y = next m b.h then prev m b.h else m (y + 8)
      rw [hrem, if_neg (by omega), if_neg (by omega),
        if_neg (show y + 8 ≠ prev m b.h + 12 by omega)]
      simp
  · have h1 := H.listed
    simp only [filter_append, filter_cons, hb, if_true, map_append,
      map_cons] at h1 ⊢
    have h2 := (perm_middle.symm.trans h1).trans perm_middle
    simpa using (perm_cons _).mp h2
  · exact H.sorted.sublist (List.Sublist.append_left (sublist_cons_self _ _) _)

/-! ## Linking a block in -/

theorem insert_apply {n x : Nat} (h1 : n + 12 ≠ next m n + 8) (h2 : n + 12 ≠ x + 8) (a : Nat) :
    insert m n x a = if a = n + 12 then x else if a = x + 12 then next m n
      else if a = x + 8 then n else if a = next m n + 8 then x else m a := by
  have h3 : next (set (set m (next m n + 8) x) (x + 8) n) n = next m n := by
    unfold next set at *
    rw [update_of_ne h2, update_of_ne h1]
  simp [insert, h3, update_apply]

/-- `insert_list` stops in front of the blocks that are not smaller. -/
theorem insertPos_spec {x a fuel : Nat} {ys : List Nat} (hs : Seg (links m) a ys nil.addr)
    (good : ∀ y ∈ ys, y ≠ nil.addr ∧ magic m y = headerMagic ∧ used m y = false)
    (hf : ys.length < fuel) :
    ∃ ps qs, ys = ps ++ qs ∧ insertPos m nil.addr x fuel (next m a) = some (qs.headD nil.addr) ∧
      (∀ p ∈ ps, size m p < size m x) ∧ ∀ q ∈ qs.head?, size m x ≤ size m q := by
  induction ys generalizing a fuel with
  | nil =>
    obtain ⟨fuel, rfl⟩ := Nat.exists_eq_add_of_lt hf
    have hn : next m a = nil.addr := hs.1
    exact ⟨[], [], by simp [insertPos, hn]⟩
  | cons y ys ih =>
    cases fuel with
    | zero => simp at hf
    | succ fuel =>
      obtain ⟨hn, -, hs⟩ := hs
      have hn : next m a = y := hn
      obtain ⟨hyn, hym, hyu⟩ := good y (by simp)
      by_cases hlt : size m y < size m x
      · obtain ⟨ps, qs, rfl, h1, h2, h3⟩ := ih hs
          (fun z hz => good z (mem_cons_of_mem _ hz)) (by simpa using hf)
        refine ⟨y :: ps, qs, rfl, ?_, ?_, h3⟩
        · simpa [insertPos, hn, hyn, hlt, hym, hyu] using h1
        · simpa [hlt] using h2
      · refine ⟨[], y :: ys, rfl, ?_, by simp, by simpa using hlt⟩
        simp [insertPos, hn, hlt]

theorem Layout.good (H : Layout nil m heapEnd bs free) {y : Nat} (hy : y ∈ free) :
    y ≠ nil.addr ∧ magic m y = headerMagic ∧ used m y = false := by
  obtain ⟨c, hc, hcl, rfl⟩ := H.mem_free.mp hy
  have hb := H.bounds hc
  have hn : nil.addr + 20 ≤ heapBase := nil.below
  obtain ⟨hu, hw⟩ := H.unused c hc hcl
  exact ⟨by omega, (H.record c hc).magic hw, ((H.record c hc).used_eq hw).trans hu⟩

theorem Work.enlist (H : Work nil keep m₀ m heapEnd (l ++ b :: r) free) (hb : b.listed = false)
    (hu : b.used = false) (hw : b.written = true) :
    ∃ m' free', insertList m nil.addr b.h heapEnd = some m' ∧
      Work nil keep m₀ m' heapEnd (l ++ { b with listed := true } :: r) free' ∧
      ∀ x, b.h + 20 ≤ x → x < b.fin → m' x = m x := by
  have hbm : b ∈ l ++ b :: r := by simp
  obtain ⟨ps, qs, rfl, hpos, hlt, hge⟩ :=
    insertPos_spec (x := b.h) H.ring.seg (fun _ hy => H.good hy) H.free_length
  have hprev : prev m (qs.headD nil.addr) = ps.getLastD nil.addr := H.ring.prev_at
  have hxn : b.h ∉ nil.addr :: (ps ++ qs) := by
    intro h
    have := H.node_apart hbm hb h
    have := H.bounds hbm
    omega
  have hnm : ps.getLastD nil.addr ∈ nil.addr :: (ps ++ qs) := by
    rw [← hprev]
    apply H.ring.prev_mem
    cases qs <;> simp
  have hxm : next m (ps.getLastD nil.addr) ∈ nil.addr :: (ps ++ qs) := H.ring.next_mem hnm
  have hx : b.h ∈ nil.addr :: (l ++ b :: r).map Blk.h :=
    mem_cons_of_mem _ (mem_map_of_mem hbm)
  generalize hn : ps.getLastD nil.addr = n at *
  have hins := insert_apply (m := m) (n := n) (x := b.h)
    (by have := H.node_spaced (H.free_subset hnm) (H.free_subset hxm); omega)
    (by have := H.node_spaced (H.free_subset hnm) hx; omega)
  refine ⟨insert m n b.h, ps ++ b.h :: qs, ?_, H.relink hu hw ?_ ?_ ?_ ?_, ?_⟩
  · have : used m b.h = false := ((H.record b hbm).used_eq hw).trans hu
    simp only [insertList, this, hpos, Option.map_some, hprev, Bool.false_eq_true, if_false]
  · intro a ha
    have h1 := ha b.h (by simp)
    have h2 := ha _ (mem_cons_of_mem _ hnm)
    have h3 := ha _ (mem_cons_of_mem _ hxm)
    rw [hins, if_neg h2.2, if_neg h1.2, if_neg h1.1, if_neg h3.1]
  · have hring := H.ring.insert_at hxn
    rw [hn] at hring
    have node (y : Nat) (hy : y ∈ nil.addr :: (ps ++ b.h :: qs)) :
        y ∈ nil.addr :: (l ++ b :: r).map Blk.h := by
      by_cases he : y = b.h
      · exact he ▸ hx
      · apply H.free_subset
        simp only [mem_cons, mem_append] at hy ⊢
        tauto
    apply hring.congr
    · intro y hy
      have h1 := H.node_spaced (node y hy) hx
      have h2 := H.node_spaced (node y hy) (H.free_subset hxm)
      rw [insert_next]
      change insert m n b.h
        (y + 12) = if y = n then b.h else if y = b.h then next m n else m (y + 12)
      rw [hins, if_neg (show y + 12 ≠ b.h + 8 by omega),
        if_neg (show y + 12 ≠ next m n + 8 by omega)]
      simp
    · intro y hy
      have h1 := H.node_spaced (node y hy) hx
      have h2 := H.node_spaced (node y hy) (H.free_subset hnm)
      rw [insert_prev]
      change insert m n b.h (y + 8) = if y = b.h then n else if y = next m n then b.h else m (y + 8)
      rw [hins, if_neg (show y + 8 ≠ n + 12 by omega), if_neg (show y + 8 ≠ b.h + 12 by omega)]
      simp
  · have h1 := H.listed
    simp only [filter_append, filter_cons, hb, if_true, map_append,
      map_cons, Bool.false_eq_true, if_false] at h1 ⊢
    exact (perm_middle.trans (h1.cons _)).trans perm_middle.symm
  · have hs := pairwise_append.mp H.sorted
    refine pairwise_append.mpr ⟨hs.1, pairwise_cons.mpr ⟨?_, hs.2.1⟩, ?_⟩
    · -- the first of `qs` is not smaller than the block, the others not smaller than it
      intro q hq
      cases qs with
      | nil => simp at hq
      | cons q₀ qs =>
        have h0 : size m b.h ≤ size m q₀ := hge q₀ (by simp)
        cases mem_cons.mp hq with
        | inl he => exact he ▸ h0
        | inr hq => exact Nat.le_trans h0 ((pairwise_cons.mp hs.2.1).1 q hq)
    · intro p hp q hq
      cases mem_cons.mp hq with
      | inl he => exact he ▸ Nat.le_of_lt (hlt p hp)
      | inr hq => exact hs.2.2 p hp q hq
  · intro x h1 h2
    have h3 := H.node_apart hbm hb hnm
    have h4 := H.node_apart hbm hb hxm
    rw [hins, if_neg (by omega), if_neg (by omega), if_neg (by omega), if_neg (by omega)]

/-! ## Searching -/

theorem searchFree_spec {sz a fuel : Nat} {align : Bool} {ys : List Nat}
    (hs : Seg (links m) a ys nil.addr)
    (good : ∀ y ∈ ys, y ≠ nil.addr ∧ magic m y = headerMagic ∧ used m y = false)
    (hf : ys.length < fuel) :
    searchFree m nil.addr sz align fuel (next m a) = some (ys.find? (fits m sz align)) := by
  induction ys generalizing a fuel with
  | nil =>
    obtain ⟨fuel, rfl⟩ := Nat.exists_eq_add_of_lt hf
    have hn : next m a = nil.addr := hs.1
    simp [searchFree, hn]
  | cons y ys ih =>
    cases fuel with
    | zero => simp at hf
    | succ fuel =>
      obtain ⟨hn, -, hs⟩ := hs
      have hn : next m a = y := hn
      obtain ⟨hyn, hym, hyu⟩ := good y (by simp)
      have hr := ih hs (fun z hz => good z (mem_cons_of_mem _ hz)) (by simpa using hf)
      by_cases hfit : fits m sz align y = true
      · simp [searchFree, hn, hyn, hym, hyu, hfit]
      · simp [searchFree, hn, hyn, hym, hyu, hfit, hr]

theorem Layout.searchFree (H : Layout nil m heapEnd bs free) (sz : Nat) (align : Bool) :
    searchFree m nil.addr sz align heapEnd (next m nil.addr) =
      some (free.find? (fits m sz align)) :=
  searchFree_spec H.ring.seg (fun _ hy => H.good hy) H.free_length

end Sysint.Heap
