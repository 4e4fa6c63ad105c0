import Sysint.Paging.BuddyBook

/-! The invariant of the frame allocator over whole runs. The blocks on the
lists and the blocks in the callers' hands form one family of aligned, pairwise
disjoint blocks inside the managed range. -/
namespace Sysint.Paging

open Dlink Dyadic List
open Function

theorem getBuddy_eq (x o : Nat) : getBuddy x o = x ^^^ 2 ^ o := by
  rw [getBuddy, Nat.one_shiftLeft]

structure Inv (b : Boot) (s : Frames) (lists : Nat → List Nat) : Prop where
  size : s.buddy.memorySize = b.memSize
  book : Book s.buddy lists fun _ => False
  family : Family b.start b.frames (s.allocated ++ blocksOf lists)
  recorded : ∀ c ∈ s.allocated, c.order ≤ buddyMaxOrder ∧ s.buddy.order c.idx = c.order

theorem blocksOf_add (lists : Nat → List Nat) (i : Nat) {x : Nat} (hx : x ≤ buddyMaxOrder) :
    (blocksOf (update lists x (i :: lists x))).Perm (⟨i, x⟩ :: blocksOf lists) := by
  have h := blocksOf_cons lists hx (List.Perm.refl (i :: lists x))
  rwa [update_eq_self] at h

theorem blocksOf_take (lists : Nat → List Nat) {i x : Nat} {l m : List Nat}
    (hx : x ≤ buddyMaxOrder) (hl : lists x = l ++ i :: m) :
    (blocksOf lists).Perm (⟨i, x⟩ :: blocksOf (update lists x (l ++ m))) := by
  have h := blocksOf_cons lists hx (hl ▸ perm_middle : (lists x).Perm (i :: (l ++ m)))
  rwa [update_eq_self] at h

/-! ## Splitting -/

theorem firstAvail_spec (s : Buddy) (n x : Nat) : x ≤ s.firstAvail n x ∧ s.firstAvail n x ≤ x + n ∧
      (s.firstAvail n x < x + n →
        s.links.next (.nil (s.firstAvail n x)) ≠ .nil (s.firstAvail n x)) ∧
      ∀ y, x ≤ y → y < s.firstAvail n x → s.links.next (.nil y) = .nil y := by
  induction n generalizing x with
  | zero =>
    simp only [Buddy.firstAvail]
    exact ⟨Nat.le_refl _, Nat.le_refl _, by omega, by omega⟩
  | succ n ih =>
    unfold Buddy.firstAvail
    split
    · rename_i hempty
      obtain ⟨h1, h2, h3, h4⟩ := ih (x + 1)
      refine ⟨by omega, by omega, fun h => h3 (by omega), ?_⟩
      intro y hy hlt
      rcases Nat.eq_or_lt_of_le hy with rfl | hy
      · exact hempty
      · exact h4 y hy hlt
    · rename_i hne
      exact ⟨by omega, by omega, fun _ => hne, by omega⟩

variable {lists : Nat → List Nat} {held : List Block} {s : Buddy}

theorem split_spec {lo hi : Nat} {idx order : Nat} (n : Nat) (hn : order + n ≤ buddyMaxOrder)
    (hb : Book s lists (· = idx))
    (hf : Family lo hi (⟨idx, order + n⟩ :: (held ++ blocksOf lists))) :
    ∃ lists', Book (s.split idx order n) lists' (· = idx) ∧
      Family lo hi (⟨idx, order⟩ :: (held ++ blocksOf lists')) ∧
      (Covers lo hi (⟨idx, order + n⟩ :: (held ++ blocksOf lists)) →
        Covers lo hi (⟨idx, order⟩ :: (held ++ blocksOf lists'))) ∧
      (s.split idx order n).memorySize = s.memorySize ∧
      (∀ j, ¬ Block.Mem j ⟨idx, order + n⟩ → (s.split idx order n).order j = s.order j) ∧
      (Joined buddyMaxOrder (blocksOf lists) → Joined buddyMaxOrder (blocksOf lists')) ∧
      cells (blocksOf lists') + 2 ^ order = cells (blocksOf lists) + 2 ^ (order + n) ∧
      ∀ c ∈ blocksOf lists', ∀ f, c.Mem f → ∃ c ∈ ⟨idx, order + n⟩ :: blocksOf lists, c.Mem f := by
  induction n generalizing s lists with
  | zero =>
    exact ⟨lists, hb, hf, id, rfl, fun _ _ => rfl, id, rfl, fun c hc f h =>
      ⟨c, mem_cons_of_mem _ hc, h⟩⟩
  | succ n ih =>
    have ha : 2 ^ (order + n + 1) ∣ idx := hf.aligned _ mem_cons_self
    have hbud : getBuddy idx (order + n) = idx + 2 ^ (order + n) := by
      rw [getBuddy_eq, xor_of_even ha]
    have hs := hf.split
    have hhalf : 2 ^ (order + n) ∣ idx + 2 ^ (order + n) :=
      hs.aligned ⟨idx + 2 ^ (order + n), order + n⟩ (by simp)
    have hle : order + n ≤ buddyMaxOrder := by omega
    have hnew : ∀ y, y ≤ buddyMaxOrder → idx + 2 ^ (order + n) ∉ lists y := fun y hy =>
      held_not_mem hs.tail hy
    -- the upper half goes from the hand to its list
    have hperm := blocksOf_add lists (idx + 2 ^ (order + n)) hle
    have hmove : (⟨idx, order + n⟩ :: ⟨idx + 2 ^ (order + n), order + n⟩ ::
        (held ++ blocksOf lists)).Perm (⟨idx, order + n⟩ :: (held ++ blocksOf
          (update lists (order + n) ((idx + 2 ^ (order + n)) :: lists (order + n))))) :=
      (perm_middle.symm.trans (hperm.symm.append_left held)).cons _
    obtain ⟨lists', h1, h2, h3, h4, h5, h6, h7, h8⟩ := ih hle
      (hb.addBlock (lists_separate hs.tail.tail) hle hhalf hnew) (hs.perm hmove)
    refine ⟨lists', ?_, h2, ?_, ?_, ?_, ?_, ?_, ?_⟩
    · rw [Buddy.split, hbud]
      exact h1
    · intro hc
      apply h3
      apply Covers.perm _ hmove
      intro f hf1 hf2
      obtain ⟨b, hbm, hbf⟩ := hc f hf1 hf2
      rcases mem_cons.mp hbm with rfl | hbm
      · rcases (mem_halves idx (order + n) f).mp hbf with hl | hu
        · exact ⟨_, by simp, hl⟩
        · exact ⟨⟨idx + 2 ^ (order + n), order + n⟩, by simp, hu⟩
      · exact ⟨b, mem_cons_of_mem _ (mem_cons_of_mem _ hbm), hbf⟩
    · rw [Buddy.split, hbud]
      exact h4
    · intro j hj
      have hj' : ¬ Block.Mem j ⟨idx, order + n⟩ ∧
        ¬ Block.Mem j ⟨idx + 2 ^ (order + n), order + n⟩ :=
        not_or.mp fun h => hj ((mem_halves idx (order + n) j).mpr h)
      have hne : j ≠ idx + 2 ^ (order + n) := by
        rintro rfl
        exact hj'.2 (Block.mem_start _)
      rw [Buddy.split, hbud, h5 j hj'.1]
      simp [Buddy.addBlock, hne]
    · intro hjoined
      apply h6
      -- the buddy of the upper half is in the hand
      apply Joined.subset (Joined.cons hjoined (b := ⟨idx + 2 ^ (order + n), order + n⟩) ?_)
        fun c hc => hperm.mem_iff.mp hc
      intro _ hlow
      simp only [Block.buddy, xor_of_odd ha] at hlow
      have hap := hs.apart_of_mem (mem_cons_of_mem _ (mem_append_right _ hlow))
      exact hap.start_ne rfl
    · have hc := cells_perm hperm
      rw [cells_cons] at hc
      have hp : 2 ^ (order + (n + 1)) = 2 ^ (order + n) * 2 := Nat.pow_succ 2 (order + n)
      dsimp only at hc
      omega
    · intro c hc f hf
      obtain ⟨c', hc', hf'⟩ := h8 c hc f hf
      have hwhole := (mem_halves idx (order + n) f).mpr
      rcases mem_cons.mp hc' with rfl | hc'
      · exact ⟨_, mem_cons_self, hwhole (.inl hf')⟩
      rcases mem_cons.mp (hperm.mem_iff.mp hc') with rfl | hc'
      · exact ⟨_, mem_cons_self, hwhole (.inr hf')⟩
      · exact ⟨c', mem_cons_of_mem _ hc', hf'⟩

/-- The search of `alloc_frames`: no block is large enough, or the first one of the list found. -/
theorem firstAvail_found {out : Nat → Prop} {order : Nat}
    (hb : Book s lists out) (ho : order ≤ buddyMaxOrder) :
    (buddyMaxOrder < s.firstAvail (buddyMaxOrder + 1 - order) order ∧
      ∀ c ∈ blocksOf lists, c.order < order) ∨
    ∃ n idx m, s.firstAvail (buddyMaxOrder + 1 - order) order = order + n ∧
      order + n ≤ buddyMaxOrder ∧ lists (order + n) = idx :: m ∧
      s.links.next (.nil (order + n)) = .entry idx := by
  obtain ⟨hx1, hx2, hx3, hx4⟩ := firstAvail_spec s (buddyMaxOrder + 1 - order) order
  generalize s.firstAvail (buddyMaxOrder + 1 - order) order = x at *
  by_cases hmax : buddyMaxOrder < x
  · refine Or.inl ⟨hmax, fun c hc => ?_⟩
    obtain ⟨hco, hcm⟩ := (mem_blocksOf _ _).mp hc
    by_contra hge
    have hnil := (hb.ring c.order hco).next_nil_iff.mp (hx4 c.order (by omega) (by omega))
    simp [map_eq_nil_iff.mp hnil] at hcm
  have hring := hb.ring x (by omega)
  obtain ⟨n, rfl⟩ := Nat.exists_eq_add_of_le hx1
  cases hl : lists (order + n) with
  | nil =>
    rw [hl] at hring
    exact absurd (hring.next_nil_iff.mpr rfl) (hx3 (by omega))
  | cons idx m =>
    have hnext := hring.next_nil
    rw [hl] at hnext
    exact Or.inr ⟨n, idx, m, rfl, by omega, hl, hnext⟩

theorem allocFrames_spec {b : Boot} {t : Buddy}
    {order p : Nat} (hi : Inv b ⟨s, held⟩ lists) (h : allocFrames s order = some (t, p)) :
    (p = 0 ∧ t = s ∧ ∀ c ∈ blocksOf lists, c.order < order) ∨
    ∃ idx lists', p = idx <<< pageShift ∧ b.start ≤ idx ∧ idx < b.frames ∧
      (∃ x, order ≤ x ∧ ⟨idx, x⟩ ∈ blocksOf lists) ∧ Inv b ⟨t, ⟨idx, order⟩ :: held⟩ lists' ∧
      (Covers b.start b.frames (held ++ blocksOf lists) →
        Covers b.start b.frames (⟨idx, order⟩ :: held ++ blocksOf lists')) ∧
      (Joined buddyMaxOrder (blocksOf lists) → Joined buddyMaxOrder (blocksOf lists')) ∧
      cells (blocksOf lists') + 2 ^ order = cells (blocksOf lists) ∧
      ∀ c ∈ blocksOf lists', ∀ f, c.Mem f → ∃ c ∈ blocksOf lists, c.Mem f := by
  have ho : order ≤ buddyMaxOrder := by
    by_contra ho
    simp [allocFrames, ho] at h
  have hfound := firstAvail_found (s := s) hi.book ho
  simp only [allocFrames, ho, ↓reduceIte] at h
  generalize s.firstAvail (buddyMaxOrder + 1 - order) order = x at *
  obtain ⟨hmax, hnone⟩ | ⟨n, idx, m, rfl, hx, hl, hnext⟩ := hfound
  · rw [if_pos hmax] at h
    simp only [Option.some.injEq, Prod.mk.injEq] at h
    exact Or.inl ⟨h.2.symm, h.1.symm, hnone⟩
  rw [if_neg (by omega), Nat.add_sub_cancel_left] at h
  simp only [hnext, Node.idx, Option.some.injEq, Prod.mk.injEq] at h
  obtain ⟨rfl, rfl⟩ := h
  -- the block moves from its list into the hand
  have hperm := blocksOf_take lists hx (l := []) hl
  simp only [nil_append] at hperm
  have hmove : (held ++ blocksOf lists).Perm
      (⟨idx, order + n⟩ :: (held ++ blocksOf (update lists (order + n) m))) :=
    (hperm.append_left held).trans perm_middle
  have hfam := hi.family.perm hmove
  have hunl := hi.book.unlink (lists_separate hi.family) hx (l := []) hl
  simp only [nil_append, false_or] at hunl
  obtain ⟨lists', h1, h2, h3, h4, h5, h6, h7, h8⟩ := split_spec n hx hunl hfam
  have hin := h2.inside _ mem_cons_self
  have hal : 2 ^ order ∣ idx := h2.aligned _ mem_cons_self
  have hpos := Nat.two_pow_pos order
  simp only [Block.Inside] at hin
  have hlt : idx < b.frames := by omega
  have htaken : (⟨idx, order + n⟩ : Block) ∈ blocksOf lists :=
    hperm.mem_iff.mpr mem_cons_self
  refine Or.inr ⟨idx, lists', ?_, hin.1, hlt, ⟨order + n, Nat.le_add_right _ _, htaken⟩,
    ⟨?_, ?_, ?_, ?_⟩, ?_, ?_, ?_, ?_⟩
  · apply u32_of_lt
    have := b.memSize_lt
    rw [Boot.frames, Nat.shiftRight_eq_div_pow] at hlt
    rw [Nat.shiftLeft_eq]
    simp only [pageShift] at hlt ⊢
    omega
  · exact h4.trans hi.size
  · have hset := (h1.setOrder order fun j hj => hj).clearBit hal fun j hj => hj
    refine Book.settle (i := idx) (by simpa using hset) ?_ ?_
    · intro y hy
      exact held_not_mem h2 hy
    · simp [Buddy.clearBit, Bitmap.get_clear]
  · exact h2
  · intro c hc
    rcases mem_cons.mp hc with rfl | hc
    · exact ⟨ho, by simp [Buddy.clearBit]⟩
    obtain ⟨hco, hcr⟩ := hi.recorded c hc
    have hap := hfam.apart_of_mem (mem_append_left _ hc)
    have hcm : ¬ Block.Mem c.idx ⟨idx, order + n⟩ := fun hm =>
      hap _ hm c.mem_start
    have hci : c.idx ≠ idx := fun he => hcm (he ▸ Block.mem_start ⟨idx, order + n⟩)
    refine ⟨hco, ?_⟩
    simp only [Buddy.clearBit, update_of_ne hci, h5 c.idx hcm]
    exact hcr
  · intro hc
    apply h3
    exact hc.perm hmove
  · intro hjoined
    apply h6
    exact hjoined.subset fun c hc => hperm.mem_iff.mpr (mem_cons_of_mem _ hc)
  · have hc := cells_perm hperm
    rw [cells_cons] at hc
    dsimp only at hc
    omega
  · intro c hc f hf
    obtain ⟨c', hc', hf'⟩ := h8 c hc f hf
    exact ⟨c', hperm.mem_iff.mpr hc', hf'⟩

/-! ## Merging -/

/-- The block and the free blocks around it fill one block of the largest
order whose own buddy is free too. -/
def Fills (free : List Block) (c : Block) : Prop :=
  ∃ j, 2 ^ buddyMaxOrder ∣ j ∧ (∀ f, c.Mem f → Block.Mem f ⟨j, buddyMaxOrder⟩) ∧
    ⟨getBuddy j buddyMaxOrder, buddyMaxOrder⟩ ∈ free ∧
    ∀ f, Block.Mem f ⟨j, buddyMaxOrder⟩ → c.Mem f ∨ ∃ d ∈ free, d.Mem f

section

variable (hb : Book s lists fun _ => False)
include hb

theorem canMerge_free {idx x : Nat}
    (hx : x ≤ buddyMaxOrder) (hd : 2 ^ x ∣ idx)
    (h : s.canMerge idx x = true) : getBuddy idx x ∈ lists x ∧ s.order (getBuddy idx x) = x := by
  simp only [Buddy.canMerge, Bool.and_eq_true, beq_iff_eq] at h
  have hd' : 2 ^ x ∣ getBuddy idx x := by
    rw [getBuddy_eq]
    exact xor_aligned hd
  exact ⟨(hb.free_iff x _ hx (fun h => h) hd').mpr ⟨h.1.2, h.2⟩, h.1.2⟩

/-- A buddy on its list is found. -/
theorem free_canMerge {idx x : Nat}
    (hx : x ≤ buddyMaxOrder) (hd : 2 ^ x ∣ idx)
    (hmem : getBuddy idx x ∈ lists x) (hlt : getBuddy idx x < s.memorySize >>> pageShift) :
    s.canMerge idx x = true := by
  have hd' : 2 ^ x ∣ getBuddy idx x := by
    rw [getBuddy_eq]
    exact xor_aligned hd
  obtain ⟨hord, hbit⟩ := (hb.free_iff x _ hx (fun h => h) hd').mp hmem
  simp [Buddy.canMerge, hlt, hord, hbit]

/-- Taking the buddy off its list and clearing its bit. -/
theorem Book.take {i x : Nat} {l m : List Nat} {lo hi : Nat}
    (hf : Family lo hi (held ++ blocksOf lists)) (hx : x ≤ buddyMaxOrder)
    (hl : lists x = l ++ i :: m) (ho : s.order i = x) (hd : 2 ^ x ∣ i) :
    Book ((s.unlink (.entry i) x).clearBit x (i >>> x)) (update lists x (l ++ m))
      fun _ => False := by
  have hmove := (blocksOf_take lists hx hl).append_left held |>.trans perm_middle
  have hclear := (hb.unlink (lists_separate hf) hx hl).clearBit hd fun j hj => (not_or.mp hj).2
  apply hclear.settle
  · intro y hy
    exact held_not_mem (hf.perm hmove) hy
  · simp [Buddy.clearBit, Buddy.unlink, ho, Bitmap.get_clear]

end

theorem merge_spec {lo hi : Nat} (n : Nat) {idx x : Nat} (hn : x + n = buddyMaxOrder + 1)
    (hb : Book s lists fun _ => False) (hf : Family lo hi (⟨idx, x⟩ :: (held ++ blocksOf lists))) :
    ∃ lists' idx' x', (s.merge idx x n).2 = (idx', x') ∧
      Book (s.merge idx x n).1 lists' (fun _ => False) ∧
      Family lo hi (⟨idx', x'⟩ :: (held ++ blocksOf lists')) ∧
      (s.merge idx x n).1.memorySize = s.memorySize ∧ (s.merge idx x n).1.order = s.order ∧
      x' ≤ buddyMaxOrder + 1 ∧
      (Covers lo hi (⟨idx, x⟩ :: (held ++ blocksOf lists)) →
        Covers lo hi (⟨idx', x'⟩ :: (held ++ blocksOf lists'))) ∧
      (x' = buddyMaxOrder + 1 → x ≤ buddyMaxOrder → Fills (blocksOf lists) ⟨idx, x⟩) ∧
      (∀ d ∈ blocksOf lists', d ∈ blocksOf lists) ∧
      (hi ≤ s.memorySize >>> pageShift → x' ≤ buddyMaxOrder → getBuddy idx' x' ∉ lists' x') := by
  induction n generalizing s idx x lists with
  | zero =>
    refine ⟨lists, idx, x, rfl, hb, hf, rfl, rfl, by omega, id, ?_, fun _ h => h, ?_⟩
    · intro h1 h2
      omega
    · intro _ h
      omega
  | succ n ih =>
    have hx : x ≤ buddyMaxOrder := by omega
    have hd : 2 ^ x ∣ idx := hf.aligned _ mem_cons_self
    cases hc : s.canMerge idx x with
    | false =>
      have hstop : s.merge idx x (n + 1) = (s, idx, x) := by simp [Buddy.merge, hc]
      rw [hstop]
      refine ⟨lists, idx, x, rfl, hb, hf, rfl, rfl, by omega, id, fun h => by omega,
        fun _ h => h, ?_⟩
      intro hsize _ hmem
      have htrue := free_canMerge hb hx hd hmem ?_
      · rw [hc] at htrue
        cases htrue
      have hfree : (⟨getBuddy idx x, x⟩ : Block) ∈ blocksOf lists :=
        (mem_blocksOf _ _).mpr ⟨hx, hmem⟩
      have hin := hf.inside _ (mem_cons_of_mem _ (mem_append_right _ hfree))
      have hpos := Nat.two_pow_pos x
      simp only [Block.Inside] at hin
      omega
    | true =>
      obtain ⟨hmem, hord⟩ := canMerge_free hb hx hd hc
      have hmin : (if getBuddy idx x < idx then getBuddy idx x else idx) =
          min idx (idx ^^^ 2 ^ x) := by
        rw [getBuddy_eq]
        split <;> omega
      rw [getBuddy_eq] at hmem hord
      have hfree : (⟨idx ^^^ 2 ^ x, x⟩ : Block) ∈ blocksOf lists :=
        (mem_blocksOf _ _).mpr ⟨hx, hmem⟩
      obtain ⟨l, m, hl⟩ := append_of_mem hmem
      have hb' := hb.take hf.tail hx hl hord (xor_aligned hd)
      have hperm := blocksOf_take lists hx hl
      have hmove : (⟨idx, x⟩ :: (held ++ blocksOf lists)).Perm (⟨idx, x⟩ :: ⟨idx ^^^ 2 ^ x, x⟩ ::
          (held ++ blocksOf (update lists x (l ++ m)))) :=
        ((hperm.append_left held).trans perm_middle).cons _
      have hsub : ∀ d ∈ blocksOf (update lists x (l ++ m)), d ∈ blocksOf lists :=
        fun d hd => hperm.mem_iff.mpr (mem_cons_of_mem _ hd)
      obtain ⟨lists', idx', x', h1, h2, h3, h4, h5, h6, h7, h8, h9, h10⟩ :=
        ih (by omega) hb' (hf.perm hmove).join
      refine ⟨lists', idx', x', ?_⟩
      simp only [Buddy.merge, hc, ↓reduceIte, hmin]
      rw [getBuddy_eq]
      refine ⟨h1, h2, h3, h4, h5, h6, ?_, ?_, fun d hd => hsub d (h9 d hd), h10⟩
      · intro hcov
        apply h7
        intro f hf1 hf2
        obtain ⟨d, hdm, hdf⟩ := hcov.perm hmove f hf1 hf2
        simp only [mem_cons] at hdm
        rcases hdm with rfl | rfl | hdm
        · exact ⟨_, mem_cons_self, (mem_join hd f).mpr (Or.inl hdf)⟩
        · exact ⟨_, mem_cons_self, (mem_join hd f).mpr (Or.inr hdf)⟩
        · exact ⟨d, mem_cons_of_mem _ hdm, hdf⟩
      · intro htop _
        by_cases hlast : x = buddyMaxOrder
        · -- the merge at the largest order itself
          subst hlast
          exact ⟨idx, hd, fun f h => h, by rw [getBuddy_eq]; exact hfree, fun f h => Or.inl h⟩
        obtain ⟨j, hj, hin, hbud, hfill⟩ := h8 htop (by omega)
        refine ⟨j, hj, fun f h => hin f ((mem_join hd f).mpr (Or.inl h)), hsub _ hbud, ?_⟩
        intro f h
        rcases hfill f h with h | ⟨d, hd', hdf⟩
        · rcases (mem_join hd f).mp h with h | h
          · exact Or.inl h
          · exact Or.inr ⟨_, hfree, h⟩
        · exact Or.inr ⟨d, hsub d hd', hdf⟩

theorem freeFrames_spec {b : Boot} {c : Block} (hi : Inv b ⟨s, held⟩ lists) (hc : c ∈ held) :
    ∃ t n lists', freeFrames s (c.idx <<< pageShift) = some (t, n) ∧
      Inv b ⟨t, held.erase c⟩ lists' ∧
      (¬ Fills (blocksOf lists) c → Covers b.start b.frames (held ++ blocksOf lists) →
        Covers b.start b.frames (held.erase c ++ blocksOf lists')) ∧
      (Joined buddyMaxOrder (blocksOf lists) → Joined buddyMaxOrder (blocksOf lists')) := by
  obtain ⟨hco, hcr⟩ := hi.recorded c hc
  have hmove : (held ++ blocksOf lists).Perm (c :: (held.erase c ++ blocksOf lists)) :=
    (perm_cons_erase hc).append_right _
  have hfam := hi.family.perm hmove
  have hin := hfam.inside c mem_cons_self
  have hpos := Nat.two_pow_pos c.order
  simp only [Block.Inside] at hin
  have hsize : s.memorySize = b.memSize := hi.size
  have hlt : c.idx <<< pageShift < s.memorySize := by
    rw [hsize, Nat.shiftLeft_eq]
    rw [Boot.frames, Nat.shiftRight_eq_div_pow] at hin
    simp only [pageShift] at hin ⊢
    omega
  have hidx : c.idx <<< pageShift >>> pageShift = c.idx := Nat.shiftLeft_shiftRight _ _
  obtain ⟨lists', idx, x, h1, h2, h3, h4, h5, h6, h7, h8, h9, h10⟩ :=
    merge_spec (buddyMaxOrder + 1 - c.order) (by omega) hi.book hfam
  have hord : s.order c.idx = c.order := hcr
  have hrun : freeFrames s (c.idx <<< pageShift) =
      some ((s.merge c.idx c.order (buddyMaxOrder + 1 - c.order)).1.addBlock idx
        (min x buddyMaxOrder), 1 <<< min x buddyMaxOrder) := by
    have hm : s.merge c.idx c.order (buddyMaxOrder + 1 - c.order) =
        ((s.merge c.idx c.order (buddyMaxOrder + 1 - c.order)).1, idx, x) := by
      rw [← h1]
    simp only [freeFrames, hlt, ↓reduceIte, hidx, hord, hco]
    rw [hm]
  -- above the largest order only the lower half is put back
  have hdown : Family b.start b.frames
      (⟨idx, min x buddyMaxOrder⟩ :: (held.erase c ++ blocksOf lists')) := by
    by_cases htop : x = buddyMaxOrder + 1
    · have hs := (htop ▸ h3).split
      have hm : min x buddyMaxOrder = buddyMaxOrder := by omega
      rw [hm]
      exact (hs.perm (List.Perm.swap _ _ _)).tail
    · rwa [Nat.min_eq_left (by omega)]
  have hadd := blocksOf_add lists' idx (Nat.min_le_right x buddyMaxOrder)
  have hput : (⟨idx, min x buddyMaxOrder⟩ :: (held.erase c ++ blocksOf lists')).Perm
      (held.erase c ++ blocksOf (update lists' (min x buddyMaxOrder)
        (idx :: lists' (min x buddyMaxOrder)))) :=
    perm_middle.symm.trans (hadd.symm.append_left _)
  refine ⟨_, _, _, hrun, ⟨h4.trans hi.size, ?_, hdown.perm hput, ?_⟩, ?_, ?_⟩
  · exact h2.addBlock (lists_separate hdown.tail) (Nat.min_le_right _ _)
      (hdown.aligned _ mem_cons_self) fun y hy => held_not_mem hdown hy
  · intro d hd
    obtain ⟨hdo, hdr⟩ := hi.recorded d (mem_of_mem_erase hd)
    have hne : d.idx ≠ idx :=
      (hdown.apart_of_mem (mem_append_left _ hd)).start_ne.symm
    refine ⟨hdo, ?_⟩
    simp only [Buddy.addBlock, update_of_ne hne, h5]
    exact hdr
  · intro hnf hcov
    have hx : x ≠ buddyMaxOrder + 1 := fun htop => hnf (h8 htop hco)
    have hm : min x buddyMaxOrder = x := by omega
    rw [hm] at hput ⊢
    exact (h7 (hcov.perm hmove)).perm hput
  · intro hjoined
    apply Joined.subset (Joined.cons (hjoined.subset h9) (b := ⟨idx, min x buddyMaxOrder⟩) ?_)
      fun d hd => hadd.mem_iff.mp hd
    intro hlt hbud
    have hx : min x buddyMaxOrder = x := by
      simp only at hlt
      omega
    rw [hx] at hbud hlt
    simp only [Block.buddy, ← getBuddy_eq] at hbud
    refine h10 ?_ (by simp only at hlt; omega) ((mem_blocksOf _ _).mp hbud).2
    rw [hsize]
    exact Nat.le_refl _

end Sysint.Paging
