import Mathlib.Data.List.Perm.Basic
import Mathlib.Data.Nat.Bitwise
import Mathlib.Order.Interval.Finset.Nat
import Mathlib.Tactic.Ring

/-! Dyadic blocks: runs of `2 ^ order` cells. `Family` collects blocks that are
aligned to their size, inside a range and pairwise disjoint; it is kept when a
block is replaced by its halves and when two buddies are joined. -/
namespace Dyadic

open Nat Finset

structure Block where
  idx : Nat
  order : Nat
  deriving DecidableEq, Repr

variable {b c : Block}

namespace Block

def Mem (f : Nat) (b : Block) : Prop := b.idx ≤ f ∧ f < b.idx + 2 ^ b.order

def Aligned (b : Block) : Prop := 2 ^ b.order ∣ b.idx

def Inside (lo hi : Nat) (b : Block) : Prop := lo ≤ b.idx ∧ b.idx + 2 ^ b.order ≤ hi

def Apart (b c : Block) : Prop := ∀ f, b.Mem f → ¬ c.Mem f

instance (f : Nat) (b : Block) : Decidable (b.Mem f) :=
  inferInstanceAs (Decidable (_ ∧ _))

theorem Apart.symm (h : b.Apart c) : c.Apart b := fun f hc hb => h f hb hc

instance : Std.Symm Apart := ⟨fun _ _ h => h.symm⟩

theorem mem_start (b : Block) : b.Mem b.idx :=
  ⟨Nat.le_refl _, Nat.lt_add_of_pos_right (Nat.two_pow_pos _)⟩

theorem Apart.start_ne (h : b.Apart c) : b.idx ≠ c.idx := by
  intro he
  exact h b.idx b.mem_start (he ▸ c.mem_start)

end Block

/-- Flipping the bit of a block's own size finds the other half of the pair. -/
theorem xor_of_even {x o : Nat} (h : 2 ^ (o + 1) ∣ x) : x ^^^ 2 ^ o = x + 2 ^ o := by
  obtain ⟨q, rfl⟩ := h
  have hlt : 2 ^ o < 2 ^ (o + 1) := Nat.pow_lt_pow_right (by decide) (by omega)
  rw [two_pow_add_eq_or_of_lt hlt q]
  apply eq_of_testBit_eq
  intro i
  rw [testBit_xor, testBit_or, testBit_two_pow, testBit_two_pow_mul]
  by_cases hi : o = i
  · subst hi
    simp
  · simp [hi]

theorem xor_of_odd {x o : Nat} (h : 2 ^ (o + 1) ∣ x) : (x + 2 ^ o) ^^^ 2 ^ o = x := by
  rw [← xor_of_even h, Nat.xor_assoc, Nat.xor_self, xor_zero]

/-- An aligned block is the lower or the upper half of the pair it belongs to. -/
theorem half_cases {x o : Nat} (h : 2 ^ o ∣ x) :
    2 ^ (o + 1) ∣ x ∨ ∃ y, x = y + 2 ^ o ∧ 2 ^ (o + 1) ∣ y := by
  obtain ⟨q, rfl⟩ := h
  rcases even_or_odd' q with ⟨k, rfl | rfl⟩
  · exact Or.inl ⟨k, by ring⟩
  · exact Or.inr ⟨2 ^ (o + 1) * k, by ring, ⟨k, rfl⟩⟩

theorem xor_aligned {x o : Nat} (h : 2 ^ o ∣ x) : 2 ^ o ∣ x ^^^ 2 ^ o := by
  have hd : 2 ^ o ∣ 2 ^ (o + 1) := pow_dvd_pow 2 (by omega)
  rcases half_cases h with hx | ⟨y, rfl, hy⟩
  · rw [xor_of_even hx]
    exact (Nat.dvd_add_right h).mpr (dvd_refl _)
  · rw [xor_of_odd hy]
    exact hd.trans hy

theorem xor_ne_self (x o : Nat) : x ^^^ 2 ^ o ≠ x := by
  intro h
  have := congrArg (fun y => Nat.testBit y o) h
  simp at this

structure Family (lo hi : Nat) (bs : List Block) : Prop where
  aligned : ∀ b ∈ bs, b.Aligned
  inside : ∀ b ∈ bs, b.Inside lo hi
  apart : bs.Pairwise Block.Apart

def Covers (lo hi : Nat) (bs : List Block) : Prop :=
  ∀ f, lo ≤ f → f < hi → ∃ b ∈ bs, b.Mem f

variable {lo hi : Nat} {bs cs : List Block}

theorem Family.perm (h : Family lo hi bs) (hp : bs.Perm cs) : Family lo hi cs :=
  ⟨fun b hb => h.aligned b (hp.mem_iff.mpr hb), fun b hb => h.inside b (hp.mem_iff.mpr hb),
    (hp.pairwise_iff fun hbc => Block.Apart.symm hbc).mp h.apart⟩

theorem Covers.perm (h : Covers lo hi bs) (hp : bs.Perm cs) : Covers lo hi cs := by
  intro f h1 h2
  obtain ⟨b, hb, hf⟩ := h f h1 h2
  exact ⟨b, hp.mem_iff.mp hb, hf⟩

theorem Family.tail (h : Family lo hi (b :: bs)) : Family lo hi bs :=
  ⟨fun c hc => h.aligned c (List.mem_cons_of_mem _ hc),
    fun c hc => h.inside c (List.mem_cons_of_mem _ hc), (List.pairwise_cons.mp h.apart).2⟩

theorem Family.cons (ha : b.Aligned) (hi' : b.Inside lo hi)
    (hd : ∀ c ∈ bs, b.Apart c) (h : Family lo hi bs) : Family lo hi (b :: bs) := by
  refine ⟨?_, ?_, List.pairwise_cons.mpr ⟨hd, h.apart⟩⟩
  · intro c hc
    rcases List.mem_cons.mp hc with rfl | hc
    · exact ha
    · exact h.aligned c hc
  · intro c hc
    rcases List.mem_cons.mp hc with rfl | hc
    · exact hi'
    · exact h.inside c hc

theorem Family.apart_of_mem (h : Family lo hi (b :: bs)) (hc : c ∈ bs) : b.Apart c :=
  (List.pairwise_cons.mp h.apart).1 c hc

/-- A block starting where the range ends extends the range. -/
theorem Family.extend {i o n : Nat} (h : Family lo i bs) (hlo : lo ≤ i)
    (hd : 2 ^ o ∣ i) (hn : i + 2 ^ o ≤ n) : Family lo n (⟨i, o⟩ :: bs) := by
  have hmono : Family lo n bs := by
    refine ⟨h.aligned, fun c hc => ?_, h.apart⟩
    have := h.inside c hc
    simp only [Block.Inside] at this ⊢
    omega
  refine Family.cons (b := ⟨i, o⟩) hd ?_ ?_ hmono
  · exact ⟨hlo, hn⟩
  · intro c hc f hf hcf
    have := h.inside c hc
    simp only [Block.Inside, Block.Mem] at this hf hcf
    omega

theorem mem_halves (i o f : Nat) :
    Block.Mem f ⟨i, o + 1⟩ ↔ Block.Mem f ⟨i, o⟩ ∨ Block.Mem f ⟨i + 2 ^ o, o⟩ := by
  simp only [Block.Mem, Nat.pow_succ]
  omega

theorem Family.split {i o : Nat} (h : Family lo hi (⟨i, o + 1⟩ :: bs)) :
    Family lo hi (⟨i, o⟩ :: ⟨i + 2 ^ o, o⟩ :: bs) := by
  have ha : 2 ^ (o + 1) ∣ i := h.aligned _ List.mem_cons_self
  have hin := h.inside _ List.mem_cons_self
  have hd : 2 ^ o ∣ i := (pow_dvd_pow 2 (by omega)).trans ha
  simp only [Block.Inside, Nat.pow_succ] at hin
  have upper : Family lo hi (⟨i + 2 ^ o, o⟩ :: bs) := by
    apply Family.cons _ _ _ h.tail
    · exact (Nat.dvd_add_right hd).mpr (dvd_refl _)
    · simp only [Block.Inside]
      omega
    · intro c hc f hf
      exact h.apart_of_mem hc f ((mem_halves i o f).mpr (Or.inr hf))
  refine Family.cons (b := ⟨i, o⟩) hd ?_ ?_ upper
  · simp only [Block.Inside]
    omega
  · intro c hc f hf
    rcases List.mem_cons.mp hc with rfl | hc
    · simp only [Block.Mem] at hf ⊢
      omega
    · exact h.apart_of_mem hc f ((mem_halves i o f).mpr (Or.inl hf))

theorem Family.join_halves {i o : Nat} (ha : 2 ^ (o + 1) ∣ i)
    (h : Family lo hi (⟨i, o⟩ :: ⟨i + 2 ^ o, o⟩ :: bs)) : Family lo hi (⟨i, o + 1⟩ :: bs) := by
  have h1 := h.inside ⟨i, o⟩ (by simp)
  have h2 := h.inside ⟨i + 2 ^ o, o⟩ (by simp)
  simp only [Block.Inside] at h1 h2
  refine Family.cons (b := ⟨i, o + 1⟩) ha ?_ ?_ h.tail.tail
  · simp only [Block.Inside, Nat.pow_succ]
    omega
  · intro c hc f hf
    rcases (mem_halves i o f).mp hf with hf | hf
    · exact h.apart_of_mem (List.mem_cons_of_mem _ hc) f hf
    · exact h.tail.apart_of_mem hc f hf

/-- Two buddies make one block of the next order, at the lower of the two. -/
theorem Family.join {i o : Nat} (h : Family lo hi (⟨i, o⟩ :: ⟨i ^^^ 2 ^ o, o⟩ :: bs)) :
    Family lo hi (⟨min i (i ^^^ 2 ^ o), o + 1⟩ :: bs) := by
  have ha : 2 ^ o ∣ i := h.aligned ⟨i, o⟩ (by simp)
  rcases half_cases ha with hd | ⟨y, rfl, hd⟩
  · rw [xor_of_even hd] at h ⊢
    rw [Nat.min_eq_left (by omega)]
    exact Family.join_halves hd h
  · rw [xor_of_odd hd] at h ⊢
    rw [Nat.min_eq_right (by omega)]
    exact Family.join_halves hd (h.perm (List.Perm.swap _ _ _))

theorem mem_join {i o : Nat} (ha : 2 ^ o ∣ i) (f : Nat) : Block.Mem f ⟨min i (i ^^^ 2 ^ o), o + 1⟩ ↔
      Block.Mem f ⟨i, o⟩ ∨ Block.Mem f ⟨i ^^^ 2 ^ o, o⟩ := by
  rcases half_cases ha with hd | ⟨y, rfl, hd⟩
  · rw [xor_of_even hd, Nat.min_eq_left (by omega)]
    exact mem_halves i o f
  · rw [xor_of_odd hd, Nat.min_eq_right (by omega), mem_halves, or_comm]

/-! ## Joined buddies -/

/-- The other half of the pair that a block belongs to. -/
def Block.buddy (b : Block) : Block := ⟨b.idx ^^^ 2 ^ b.order, b.order⟩

theorem Block.buddy_buddy (b : Block) : b.buddy.buddy = b := by
  simp [Block.buddy]

/-- No block below order `m` lies next to its buddy. -/
def Joined (m : Nat) (bs : List Block) : Prop := ∀ b ∈ bs, b.order < m → b.buddy ∉ bs

variable {m : Nat}

theorem Joined.subset (h : Joined m bs) (hsub : ∀ b ∈ cs, b ∈ bs) : Joined m cs :=
  fun b hb ho hm => h b (hsub b hb) ho (hsub _ hm)

/-- A block may be added when its buddy is not there. -/
theorem Joined.cons (h : Joined m bs) (hb : b.order < m → b.buddy ∉ bs) : Joined m (b :: bs) := by
  intro c hc ho hm
  rcases List.mem_cons.mp hc with rfl | hc
  · rcases List.mem_cons.mp hm with he | hm
    · exact xor_ne_self c.idx c.order (congrArg Block.idx he)
    · exact hb ho hm
  rcases List.mem_cons.mp hm with he | hm
  · apply hb
    · rw [← he]
      exact ho
    · rw [← he, Block.buddy_buddy]
      exact hc
  · exact h c hc ho hm

/-- An aligned block that contains the start of a block of its own order is that block. -/
theorem Block.eq_of_mem {i : Nat} (ha : b.Aligned) (hi : 2 ^ b.order ∣ i)
    (hm : b.Mem i) : b = ⟨i, b.order⟩ := by
  obtain ⟨q, hq⟩ := ha
  obtain ⟨r, rfl⟩ := hi
  have hpos := Nat.two_pow_pos b.order
  simp only [Block.Mem, hq] at hm
  have hle : q ≤ r := Nat.le_of_mul_le_mul_left hm.1 hpos
  have hlt : r < q + 1 := by
    apply Nat.lt_of_mul_lt_mul_left (a := 2 ^ b.order)
    rw [mul_succ]
    exact hm.2
  have he : q = r := by omega
  rw [← he, ← hq]

/-- A larger aligned block that meets an aligned run contains its start. -/
theorem Block.mem_of_le {i o f : Nat} (ha : b.Aligned) (ho : o ≤ b.order)
    (hi : 2 ^ o ∣ i) (hf : Block.Mem f ⟨i, o⟩) (hm : b.Mem f) : b.Mem i := by
  obtain ⟨q, hq⟩ := (pow_dvd_pow 2 ho).trans ha
  obtain ⟨r, rfl⟩ := hi
  obtain ⟨k, hk⟩ := pow_dvd_pow 2 ho
  have hpos := Nat.two_pow_pos o
  simp only [Block.Mem, hq, hk, ← Nat.mul_add] at hm hf ⊢
  have hqr : q ≤ r := by
    by_contra hlt
    have := Nat.mul_le_mul_left (2 ^ o) (show r + 1 ≤ q by omega)
    rw [mul_succ] at this
    omega
  have hrk : r < q + k := by
    by_contra hge
    have := Nat.mul_le_mul_left (2 ^ o) (show q + k ≤ r by omega)
    omega
  refine ⟨Nat.mul_le_mul_left _ hqr, ?_⟩
  exact Nat.mul_lt_mul_of_pos_left hrk hpos

/-- Joined blocks cannot cover an aligned run in pieces: one of them holds it all. -/
theorem Joined.holds (h : Joined m bs) (ha : ∀ b ∈ bs, b.Aligned) (i o : Nat) (ho : o ≤ m)
    (hi : 2 ^ o ∣ i) (hc : ∀ f, Block.Mem f ⟨i, o⟩ → ∃ b ∈ bs, b.Mem f) :
    ∃ b ∈ bs, o ≤ b.order ∧ b.Mem i := by
  induction o generalizing i with
  | zero =>
    obtain ⟨b, hb, hm⟩ := hc i (Block.mem_start ⟨i, 0⟩)
    exact ⟨b, hb, Nat.zero_le _, hm⟩
  | succ o ih =>
    have hlow : 2 ^ o ∣ i := (pow_dvd_pow 2 (le_succ o)).trans hi
    have hhigh : 2 ^ o ∣ i + 2 ^ o := (Nat.dvd_add_right hlow).mpr (dvd_refl _)
    obtain ⟨b, hb, hbo, hbm⟩ := ih i (by omega) hlow fun f hf =>
      hc f ((mem_halves i o f).mpr (.inl hf))
    obtain ⟨c, hc', hco, hcm⟩ := ih (i + 2 ^ o) (by omega) hhigh fun f hf =>
      hc f ((mem_halves i o f).mpr (.inr hf))
    by_cases hb1 : o + 1 ≤ b.order
    · exact ⟨b, hb, hb1, hbm⟩
    by_cases hc1 : o + 1 ≤ c.order
    · refine ⟨c, hc', hc1, Block.mem_of_le (ha c hc') hc1 hi ?_ hcm⟩
      exact (mem_halves i o _).mpr (.inr (Block.mem_start ⟨i + 2 ^ o, o⟩))
    -- otherwise they are the two halves, side by side
    have hbo' : b.order = o := by omega
    have hco' : c.order = o := by omega
    have hbe := Block.eq_of_mem (ha b hb) (by rwa [hbo']) hbm
    have hce := Block.eq_of_mem (ha c hc') (by rwa [hco']) hcm
    rw [hbo'] at hbe
    rw [hco'] at hce
    refine absurd hc' ?_
    have hjoined := h b hb (by omega)
    rw [hbe, Block.buddy] at hjoined
    simp only [xor_of_even hi] at hjoined
    rwa [hce]

/-! ## Counting cells -/

def cells (bs : List Block) : Nat := (bs.map fun b => 2 ^ b.order).sum

theorem cells_cons (b : Block) : cells (b :: bs) = 2 ^ b.order + cells bs := by
  simp [cells]

theorem cells_perm (h : bs.Perm cs) : cells bs = cells cs := (h.map _).sum_eq

def union (bs : List Block) : Finset Nat :=
  bs.foldr (fun b s => Finset.Ico b.idx (b.idx + 2 ^ b.order) ∪ s) ∅

theorem mem_union (f : Nat) : f ∈ union bs ↔ ∃ b ∈ bs, b.Mem f := by
  induction bs with
  | nil => simp [union]
  | cons b bs ih =>
    have : union (b :: bs) = Finset.Ico b.idx (b.idx + 2 ^ b.order) ∪ union bs := rfl
    rw [this, Finset.mem_union, ih, Finset.mem_Ico]
    simp [Block.Mem]

theorem card_union (h : bs.Pairwise Block.Apart) : (union bs).card = cells bs := by
  induction bs with
  | nil => rfl
  | cons b bs ih =>
    obtain ⟨hb, hbs⟩ := List.pairwise_cons.mp h
    have hu : union (b :: bs) = Finset.Ico b.idx (b.idx + 2 ^ b.order) ∪ union bs := rfl
    have hd : Disjoint (Finset.Ico b.idx (b.idx + 2 ^ b.order)) (union bs) := by
      rw [disjoint_left]
      intro f hf hm
      obtain ⟨c, hc, hcf⟩ := (mem_union f).mp hm
      exact hb c hc f (Finset.mem_Ico.mp hf) hcf
    rw [hu, card_union_of_disjoint hd, ih hbs, card_Ico]
    simp [cells]

/-- A covering family has exactly as many cells as the range. -/
theorem Family.cells_eq (h : Family lo hi bs) (hc : Covers lo hi bs) : cells bs = hi - lo := by
  have hu : union bs = Finset.Ico lo hi := by
    ext f
    rw [mem_union, Finset.mem_Ico]
    constructor
    · rintro ⟨b, hb, h1, h2⟩
      have := h.inside b hb
      simp only [Block.Inside] at this
      omega
    · rintro ⟨h1, h2⟩
      exact hc f h1 h2
  rw [← card_union h.apart, hu, card_Ico]

end Dyadic
