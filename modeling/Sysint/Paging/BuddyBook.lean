import Sysint.Paging.Buddy

/-! What the lists, the order fields and the bitmaps of the frame allocator say
about each other, and how the small writes of `alloc_frames` and `free_frames`
keep it. A bitmap bit alone means nothing: bits of split blocks stay set, and
order fields inside merged blocks stay as they were. Only the two together,
`order == x` and bit set, mark a block as free. -/
namespace Sysint.Paging

open Dlink Dyadic List
open Function

theorem mem_blocksOf (lists : Nat → List Nat) (b : Block) :
    b ∈ blocksOf lists ↔ b.order ≤ buddyMaxOrder ∧ b.idx ∈ lists b.order := by
  simp only [blocksOf, mem_flatMap, mem_range, mem_map]
  constructor
  · rintro ⟨x, hx, i, hi, rfl⟩
    exact ⟨Nat.le_of_lt_succ hx, hi⟩
  · rintro ⟨hx, hi⟩
    exact ⟨b.order, by omega, b.idx, hi, rfl⟩

/-- The blocks of one order, then all the others. -/
theorem blocksOf_perm (lists : Nat → List Nat) (l : List Nat) {x : Nat} (hx : x ≤ buddyMaxOrder) :
    (blocksOf (update lists x l)).Perm
      (l.map (fun i => ⟨i, x⟩) ++
        ((List.range (buddyMaxOrder + 1)).erase x).flatMap fun y =>
          (lists y).map fun i => ⟨i, y⟩) := by
  have hp : (List.range (buddyMaxOrder + 1)).Perm
      (x :: (List.range (buddyMaxOrder + 1)).erase x) :=
    perm_cons_erase (mem_range.mpr (by omega))
  have hf := List.Perm.flatMap_right
    (fun y => (update lists x l y).map fun i => (⟨i, y⟩ : Block)) hp
  have he : ∀ y ∈ (List.range (buddyMaxOrder + 1)).erase x,
      (update lists x l y).map (fun i => (⟨i, y⟩ : Block)) =
        (lists y).map fun i => ⟨i, y⟩ := by
    intro y hy
    have hyx : y ≠ x := fun h =>
      (List.Nodup.mem_erase_iff nodup_range).mp hy |>.1 h
    rw [update_of_ne hyx]
  rw [flatMap_cons, update_self, flatMap_congr he] at hf
  exact hf

/-- Putting a block on its list, or taking one off, moves just that block. -/
theorem blocksOf_cons (lists : Nat → List Nat) {l m : List Nat} {i x : Nat}
    (hx : x ≤ buddyMaxOrder) (hl : l.Perm (i :: m)) : (blocksOf (update lists x l)).Perm
      (⟨i, x⟩ :: blocksOf (update lists x m)) := by
  have h1 := blocksOf_perm lists l hx
  have h2 := blocksOf_perm lists m hx
  refine h1.trans (List.Perm.trans ?_ (h2.symm.cons _))
  exact (hl.map fun i => (⟨i, x⟩ : Block)).append_right _

/-- The records agree with `lists`, except for the entries in `out`, whose
order and bit are about to be written. -/
structure Book (s : Buddy) (lists : Nat → List Nat) (out : Nat → Prop) : Prop where
  ring : ∀ x, x ≤ buddyMaxOrder → Ring s.links (.nil x) ((lists x).map .entry)
  free_iff : ∀ x i, x ≤ buddyMaxOrder → ¬ out i → 2 ^ x ∣ i →
    (i ∈ lists x ↔ s.order i = x ∧ (s.map x).get (i >>> x) = true)
  avail : ∀ x, x ≤ buddyMaxOrder → s.numAvail x = (lists x).length

/-- No entry is on two lists. -/
def Separate (lists : Nat → List Nat) : Prop :=
  ∀ x y i, x ≤ buddyMaxOrder → y ≤ buddyMaxOrder → i ∈ lists x → i ∈ lists y → x = y

theorem lists_separate {lo hi : Nat} {held : List Block} {lists : Nat → List Nat}
    (h : Family lo hi (held ++ blocksOf lists)) : Separate lists := by
  intro x y i hx hy hix hiy
  by_contra hne
  have hm : (⟨i, x⟩ : Block) ∈ blocksOf lists := (mem_blocksOf _ _).mpr ⟨hx, hix⟩
  have hm' : (⟨i, y⟩ : Block) ∈ blocksOf lists := (mem_blocksOf _ _).mpr ⟨hy, hiy⟩
  have hp := (pairwise_append.mp h.apart).2.1
  have ha := hp.forall hm hm' (by simp [hne])
  exact ha.start_ne rfl

/-- A block in hand is on no list. -/
theorem held_not_mem {lo hi : Nat} {b : Block} {held : List Block}
    {lists : Nat → List Nat} (h : Family lo hi (b :: (held ++ blocksOf lists))) {x : Nat}
    (hx : x ≤ buddyMaxOrder) : b.idx ∉ lists x := by
  intro hi'
  have hm : (⟨b.idx, x⟩ : Block) ∈ blocksOf lists := (mem_blocksOf _ _).mpr ⟨hx, hi'⟩
  exact (h.apart_of_mem (mem_append_right _ hm)).start_ne rfl

theorem nil_ne_of_order {x y : Nat} (lists : Nat → List Nat) (hxy : y ≠ x)
    (hsep : ∀ i, i ∈ lists y → i ∉ lists x) :
    ∀ e ∈ Node.nil y :: (lists y).map .entry, e ∉ Node.nil x :: (lists x).map .entry := by
  intro e he
  simp only [mem_cons, mem_map, not_or, not_exists, not_and] at he ⊢
  rcases he with rfl | ⟨i, hi, rfl⟩
  · exact ⟨by simpa using hxy, by simp⟩
  · exact ⟨by simp, fun j hj hji => hsep i hi (by simpa [← Node.entry.inj hji] using hj)⟩

/-- Two aligned blocks of one order with the same bitmap index are the same. -/
theorem shift_inj {x i j : Nat} (hi : 2 ^ x ∣ i) (hj : 2 ^ x ∣ j) (h : i >>> x = j >>> x) :
    i = j := by
  rw [Nat.shiftRight_eq_div_pow, Nat.shiftRight_eq_div_pow] at h
  rw [← Nat.div_mul_cancel hi, h, Nat.div_mul_cancel hj]

section
variable {s : Buddy} {lists : Nat → List Nat} {out : Nat → Prop}

section

variable (h : Book s lists out)
include h

theorem Book.addBlock (hsep : Separate lists) {i x : Nat}
    (hx : x ≤ buddyMaxOrder) (hd : 2 ^ x ∣ i) (hnew : ∀ y, y ≤ buddyMaxOrder → i ∉ lists y) :
    Book (s.addBlock i x) (update lists x (i :: lists x)) out := by
  have hfresh : ∀ y, y ≤ buddyMaxOrder → Node.entry i ∉ Node.nil y :: (lists y).map .entry := by
    intro y hy
    simpa using hnew y hy
  refine ⟨?_, ?_, ?_⟩
  · intro y hy
    by_cases hyx : y = x
    · subst hyx
      simpa [Buddy.addBlock] using (h.ring y hy).insert_front (hfresh y hy)
    · rw [update_of_ne hyx]
      exact (h.ring x hx).insert_frame mem_cons_self (h.ring y hy) (hfresh y hy)
        (nil_ne_of_order lists hyx fun j hj hjx => hyx (hsep y x j hy hx hj hjx))
  · intro y j hy ho hdj
    by_cases hji : j = i
    · subst hji
      by_cases hyx : y = x
      · subst hyx
        simp [Buddy.addBlock, Bitmap.get_set]
      · simp [Buddy.addBlock, hyx, Ne.symm hyx, hnew y hy]
    have hb : (s.addBlock i x).order j = s.order j := by simp [Buddy.addBlock, hji]
    have hm : ((s.addBlock i x).map y).get (j >>> y) = (s.map y).get (j >>> y) := by
      by_cases hyx : y = x
      · subst hyx
        have hne : j >>> y ≠ i >>> y := fun he => hji (shift_inj hdj hd he)
        simp [Buddy.addBlock, Bitmap.get_set, hne]
      · simp [Buddy.addBlock, hyx]
    rw [hb, hm, ← h.free_iff y j hy ho hdj]
    by_cases hyx : y = x
    · subst hyx
      simp [hji]
    · simp [hyx]
  · intro y hy
    by_cases hyx : y = x
    · subst hyx
      simp [Buddy.addBlock, h.avail y hy]
    · simp [Buddy.addBlock, hyx, h.avail y hy]

/-- Unlinking leaves the entry's order and bit for later. -/
theorem Book.unlink (hsep : Separate lists) {i x : Nat}
    (hx : x ≤ buddyMaxOrder) {l m : List Nat} (hl : lists x = l ++ i :: m) :
    Book (s.unlink (.entry i) x) (update lists x (l ++ m)) (fun j => out j ∨ j = i) := by
  have hix : i ∈ lists x := by simp [hl]
  refine ⟨?_, ?_, ?_⟩
  · intro y hy
    by_cases hyx : y = x
    · subst hyx
      have hr : Ring s.links (.nil y) (l.map .entry ++ .entry i :: m.map .entry) := by
        simpa [hl] using h.ring y hy
      simpa [Buddy.unlink] using hr.remove
    · rw [update_of_ne hyx]
      exact (h.ring x hx).remove_frame (mem_map_of_mem hix) (h.ring y hy)
        (nil_ne_of_order lists hyx fun j hj hjx => hyx (hsep y x j hy hx hj hjx))
  · intro y j hy ho hdj
    obtain ⟨ho, hji⟩ := not_or.mp ho
    rw [show (s.unlink (.entry i) x).order = s.order from rfl,
      show (s.unlink (.entry i) x).map = s.map from rfl, ← h.free_iff y j hy ho hdj]
    by_cases hyx : y = x
    · subst hyx
      simp [hl, hji]
    · simp [hyx]
  · intro y hy
    by_cases hyx : y = x
    · subst hyx
      have := h.avail y hy
      rw [hl] at this
      simp only [Buddy.unlink, update_self, this, length_append, length_cons]
      omega
    · simp [Buddy.unlink, hyx, h.avail y hy]

theorem Book.clearBit {i x : Nat} (hd : 2 ^ x ∣ i)
    (hi : ∀ j, ¬ out j → j ≠ i) : Book (s.clearBit x (i >>> x)) lists out := by
  refine ⟨h.ring, ?_, h.avail⟩
  intro y j hy ho hdj
  rw [h.free_iff y j hy ho hdj]
  by_cases hyx : y = x
  · subst hyx
    have hne : j >>> y ≠ i >>> y := fun he => hi j ho (shift_inj hdj hd he)
    simp [Buddy.clearBit, Bitmap.get_clear, hne]
  · simp [Buddy.clearBit, hyx]

theorem Book.setOrder {i : Nat} (x : Nat) (hi : ∀ j, ¬ out j → j ≠ i) :
    Book { s with order := update s.order i x } lists out := by
  refine ⟨h.ring, ?_, h.avail⟩
  intro y j hy ho hdj
  rw [h.free_iff y j hy ho hdj]
  simp [hi j ho]

end

/-- An entry whose own bit is clear is accounted for again. -/
theorem Book.settle {i : Nat} (h : Book s lists fun j => out j ∨ j = i)
    (hnew : ∀ y, y ≤ buddyMaxOrder → i ∉ lists y)
    (hbit : (s.map (s.order i)).get (i >>> s.order i) = false) : Book s lists out := by
  refine ⟨h.ring, ?_, h.avail⟩
  intro y j hy ho hdj
  by_cases hji : j = i
  · subst hji
    have hn : ¬ (s.order j = y ∧ (s.map y).get (j >>> y) = true) := by
      rintro ⟨rfl, hb⟩
      simp [hbit] at hb
    simp [hnew y hy, hn]
  · exact h.free_iff y j hy (by simp [ho, hji]) hdj

end

end Sysint.Paging
