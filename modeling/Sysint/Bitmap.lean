import Mathlib.Data.List.Induction
import Mathlib.Data.Nat.Bitwise
import Mathlib.Logic.Function.Basic
import Sysint.Memory

/-! The bitmap class of `include/lib/bitmap.h`: bits packed into 32-bit words,
addressed by word `pos >> 5` and bit `pos & 31`. -/
namespace Sysint

open List Option Nat BitVec

structure Bitmap where
  n : Nat
  xs : Nat → BitVec 32

variable {b : Bitmap}

namespace Bitmap

/-- The constructor allocates the words and zeroes them. -/
def new (count : Nat) : Bitmap := ⟨count, fun _ => 0#32⟩

/-- The number of words; the sum is computed in a `size_t`. -/
def sz (b : Bitmap) : Nat := u32 (b.n + 31) >>> 5

/-- The bit selected by `1 << (pos & 31)`. -/
def mask (pos : Nat) : BitVec 32 := 1#32 <<< (pos &&& 31)

/-- `operator[]`. Its range assertion reports without halting, so the word is
read either way. -/
def get (b : Bitmap) (pos : Nat) : Bool := b.xs (pos >>> 5) &&& mask pos != 0#32

def set (b : Bitmap) (pos : Nat) (x : Bool) : Bitmap :=
  if x then { b with xs := Function.update b.xs (pos >>> 5) (b.xs (pos >>> 5) ||| mask pos) }
  else { b with xs := Function.update b.xs (pos >>> 5) (b.xs (pos >>> 5) &&& ~~~ mask pos) }

def clear (b : Bitmap) (pos : Nat) : Bitmap := b.set pos false

/-- The `bsf` instruction: the lowest bit that is set. -/
def bsf (w : BitVec 32) : Option Nat := (List.range 32).find? fun j => w.getLsbD j

/-- `first_one` with `start` 0; `none` is the result -1. -/
def firstOne (b : Bitmap) : Option Nat :=
  (List.range b.sz).findSome? fun i =>
    (bsf (b.xs i)).bind fun j => if j + i <<< 5 < b.n then some (j + i <<< 5) else none

/-- `first_zero` with `start` 0. -/
def firstZero (b : Bitmap) : Option Nat :=
  (List.range b.sz).findSome? fun i =>
    (bsf (~~~ b.xs i)).bind fun j => if j + i <<< 5 < b.n then some (j + i <<< 5) else none

theorem and_31 (pos : Nat) : pos &&& 31 = pos % 32 := and_two_pow_sub_one_eq_mod pos 5

theorem shiftRight_5 (pos : Nat) : pos >>> 5 = pos / 32 := shiftRight_eq_div_pow pos 5

theorem getLsbD_mask (pos i : Nat) : (mask pos).getLsbD i = decide (i = pos % 32) := by
  rw [mask, and_31, ← twoPow_eq, getLsbD_twoPow]
  have := mod_lt pos (show 0 < 32 by decide)
  grind

theorem and_mask (w : BitVec 32) (pos : Nat) : (w &&& mask pos != 0#32) = w.getLsbD (pos % 32) := by
  rw [mask, and_31, ← twoPow_eq, and_twoPow]
  have hlt := mod_lt pos (show 0 < 32 by decide)
  have hne : BitVec.twoPow 32 (pos % 32) ≠ 0#32 := by
    intro h
    have := congrArg (fun v => BitVec.getLsbD v (pos % 32)) h
    simp [hlt] at this
  cases hb : w.getLsbD (pos % 32) <;> simp [hne]

theorem get_eq (b : Bitmap) (pos : Nat) : b.get pos = (b.xs (pos / 32)).getLsbD (pos % 32) := by
  rw [get, and_mask, shiftRight_5]

@[simp] theorem set_n (b : Bitmap) (pos : Nat) (x : Bool) : (b.set pos x).n = b.n := by
  cases x <;> rfl

@[simp] theorem clear_n (b : Bitmap) (pos : Nat) : (b.clear pos).n = b.n := set_n b pos false

@[simp] theorem get_new (count pos : Nat) : (new count).get pos = false := by
  simp [get_eq, new]

/-- Setting one position decides that position and leaves the others alone. -/
theorem get_set (b : Bitmap) (pos i : Nat) (x : Bool) :
    (b.set pos x).get i = if i = pos then x else b.get i := by
  have hlt := mod_lt i (show 0 < 32 by decide)
  have hsplit : i = pos ↔ i / 32 = pos / 32 ∧ i % 32 = pos % 32 := by omega
  simp only [get_eq, hsplit]
  by_cases hw : i / 32 = pos / 32
  · rw [hw]
    cases x
    · simp only [set, shiftRight_5, Bool.false_eq_true, ↓reduceIte, Function.update_self,
        getLsbD_and, getLsbD_not, getLsbD_mask, hlt]
      by_cases hb : i % 32 = pos % 32 <;> simp [hb]
    · simp only [set, shiftRight_5, ↓reduceIte, Function.update_self, getLsbD_or,
        getLsbD_mask]
      by_cases hb : i % 32 = pos % 32 <;> simp [hb]
  · cases x <;> simp [set, shiftRight_5, hw]

theorem get_clear (b : Bitmap) (pos i : Nat) :
    (b.clear pos).get i = if i = pos then false else b.get i := get_set b pos i false

/-! ## The first bit -/

theorem bsf_le {w : BitVec 32} {i : Nat} (h : w.getLsbD i = true) :
    ∃ j, bsf w = some j ∧ j ≤ i := by
  have hi : i < 32 := lt_of_getLsbD h
  cases hb : bsf w with
  | none =>
    have := List.find?_eq_none.mp hb i (mem_range.mpr hi)
    exact absurd h this
  | some j =>
    obtain ⟨-, -, hmin⟩ := List.find?_range_eq_some.mp hb
    refine ⟨j, rfl, ?_⟩
    by_contra hlt
    have := hmin i (by omega)
    simp [h] at this

theorem findSome?_range_le {α : Type} {f : Nat → Option α} {i n : Nat} (hi : i < n)
    (h : (f i).isSome) : ∃ a k, (List.range n).findSome? f = some k ∧ a ≤ i ∧ f a = some k := by
  induction n with
  | zero => omega
  | succ n ih =>
    rw [range_succ, List.findSome?_append]
    cases hr : (List.range n).findSome? f with
    | some k =>
      by_cases hin : i < n
      · obtain ⟨a, k', hk, ha⟩ := ih hin
        obtain rfl := some_inj.mp (hr.symm.trans hk)
        exact ⟨a, k, rfl, ha⟩
      · obtain ⟨a, ha, hk⟩ := exists_of_findSome?_eq_some hr
        have := mem_range.mp ha
        exact ⟨a, k, rfl, by omega, hk⟩
    | none =>
      have hin : i = n := by
        by_contra hne
        obtain ⟨a, k, hk, -⟩ := ih (by omega)
        rw [hr] at hk
        cases hk
      obtain ⟨k, hk⟩ := isSome_iff_exists.mp h
      exact ⟨i, k, by simp [← hin, hk], le_rfl, hk⟩

theorem shiftLeft_5 (i : Nat) : i <<< 5 = i * 32 := Nat.shiftLeft_eq i 5

theorem get_of_bsf {a i : Nat} (hi : bsf (b.xs a) = some i) : b.get (i + a <<< 5) = true := by
  obtain ⟨hbit, hmem, -⟩ := List.find?_range_eq_some.mp hi
  have hi32 := mem_range.mp hmem
  have hdiv : (i + a * 32) / 32 = a := by omega
  have hmod : (i + a * 32) % 32 = i := by omega
  rw [shiftLeft_5, get_eq, hdiv, hmod]
  exact hbit

/-- What `first_one` finds is a bit that is set. -/
theorem firstOne_get {k : Nat} (h : b.firstOne = some k) : k < b.n ∧ b.get k = true := by
  obtain ⟨a, -, hf⟩ := exists_of_findSome?_eq_some h
  obtain ⟨i, hi, hf⟩ := bind_eq_some_iff.mp hf
  split_ifs at hf with hn
  cases hf
  exact ⟨hn, get_of_bsf hi⟩

theorem firstOne_word {k : Nat} (h : b.firstOne = some k) : k / 32 < b.sz := by
  obtain ⟨a, ha, hf⟩ := exists_of_findSome?_eq_some h
  obtain ⟨i, hi, hf⟩ := bind_eq_some_iff.mp hf
  have hi32 := mem_range.mp (List.find?_range_eq_some.mp hi).2.1
  have hsz := mem_range.mp ha
  split_ifs at hf
  cases hf
  rw [shiftLeft_5]
  omega

theorem firstOne_le_word {pos : Nat} (hword : pos / 32 < b.sz) (hlt : pos < b.n)
    (h : b.get pos = true) : ∃ k, b.firstOne = some k ∧ k ≤ pos ∧ b.get k = true := by
  rw [get_eq] at h
  obtain ⟨j, hj, hle⟩ := bsf_le h
  obtain ⟨a, k, hk, ha, hf⟩ := findSome?_range_le (f := fun i =>
    (bsf (b.xs i)).bind fun j => if j + i <<< 5 < b.n then some (j + i <<< 5) else none) hword (by
      rw [hj, bind_some, if_pos (by rw [shiftLeft_5]; omega)]
      rfl)
  refine ⟨k, hk, ?_, (firstOne_get hk).2⟩
  obtain ⟨i, hi, hf⟩ := bind_eq_some_iff.mp hf
  split_ifs at hf with hn
  cases hf
  have hi32 := mem_range.mp (List.find?_range_eq_some.mp hi).2.1
  rw [shiftLeft_5]
  by_cases hap : a = pos / 32
  · -- in the word of the bit itself, `bsf` has found the lowest
    rw [hap, hj] at hi
    cases hi
    omega
  · omega

/-- `first_one` finds a bit that is set, and no bit that is set comes before it. -/
theorem firstOne_le {pos : Nat} (hn : b.n + 31 < 2 ^ 32) (hlt : pos < b.n)
    (h : b.get pos = true) : ∃ k, b.firstOne = some k ∧ k ≤ pos ∧ b.get k = true := by
  apply firstOne_le_word _ hlt h
  rw [sz, u32_of_lt hn, shiftRight_5]
  omega

theorem firstOne_lowest {k j : Nat} (h : b.firstOne = some k) (hj : j < k) : b.get j = false := by
  by_contra hne
  have hword := firstOne_word h
  obtain ⟨k', hk', hle, -⟩ := firstOne_le_word (by omega) (hj.trans (firstOne_get h).1)
    (Bool.not_eq_false _ ▸ hne)
  rw [h] at hk'
  cases hk'
  omega

/-! ## Searches after writes -/

/-- The result of a search for the least position below `n` with `P`. -/
def Least (n : Nat) (P : Nat → Prop) : Option Nat → Prop
  | some k => k < n ∧ P k ∧ ∀ j, j < k → ¬ P j
  | none => ∀ j, j < n → ¬ P j

theorem firstOne_least (hn : b.n + 31 < 2 ^ 32) :
    Least b.n (fun pos => b.get pos = true) b.firstOne := by
  cases h : b.firstOne with
  | some k =>
    refine ⟨(firstOne_get h).1, (firstOne_get h).2, ?_⟩
    intro j hj
    simp [firstOne_lowest h hj]
  | none =>
    intro j hj hset
    obtain ⟨k, hk, -⟩ := firstOne_le hn hj hset
    rw [h] at hk
    cases hk

/-- The bitmap with all bits inverted. -/
def inverse (b : Bitmap) : Bitmap := { b with xs := fun i => ~~~ b.xs i }

theorem get_inverse (b : Bitmap) (pos : Nat) : b.inverse.get pos = !b.get pos := by
  have hlt := mod_lt pos (show 0 < 32 by decide)
  simp [get_eq, inverse, hlt]

theorem firstZero_eq (b : Bitmap) : b.firstZero = b.inverse.firstOne := rfl

theorem firstZero_least (hn : b.n + 31 < 2 ^ 32) :
    Least b.n (fun pos => b.get pos = false) b.firstZero := by
  have h : Least b.n (fun pos => b.inverse.get pos = true) b.inverse.firstOne := firstOne_least hn
  simpa only [firstZero_eq, get_inverse, Bool.not_eq_true'] using h

/-- A call that writes a bit. -/
inductive Write where
  | set (pos : Nat) (x : Bool)
  | clear (pos : Nat)

namespace Write

def pos : Write → Nat
  | set pos _ => pos
  | clear pos => pos

def value : Write → Bool
  | set _ x => x
  | clear _ => false

/-- The value that the last write to a position has left, from a bit that was clear. -/
def last (ws : List Write) (pos : Nat) : Bool :=
  (ws.reverse.find? fun w => w.pos = pos).elim false value

end Write

def write (b : Bitmap) : Write → Bitmap
  | .set pos x => b.set pos x
  | .clear pos => b.clear pos

/-- A zeroed bitmap of size `n`, after some writes. -/
def written (n : Nat) (ws : List Write) : Bitmap := ws.foldl write (new n)

theorem write_eq (b : Bitmap) (w : Write) : b.write w = b.set w.pos w.value := by
  cases w with
  | set pos x => rfl
  | clear pos => rfl

theorem written_concat (n : Nat) (ws : List Write) (w : Write) :
    written n (ws ++ [w]) = (written n ws).write w := by
  rw [written, foldl_append, written]
  rfl

theorem written_n (n : Nat) (ws : List Write) : (written n ws).n = n := by
  induction ws using List.reverseRecOn with
  | nil => rfl
  | append_singleton ws w ih => rw [written_concat, write_eq, set_n, ih]

theorem get_written (n : Nat) (ws : List Write) (pos : Nat) :
    (written n ws).get pos = Write.last ws pos := by
  induction ws using List.reverseRecOn with
  | nil => exact get_new n pos
  | append_singleton ws w ih =>
    rw [written_concat, write_eq, get_set, ih, Write.last, Write.last, List.reverse_append,
      reverse_singleton, singleton_append, List.find?_cons]
    by_cases h : pos = w.pos
    · simp [h]
    · simp [h, Ne.symm h]

theorem firstZero_huge {n : Nat} (hn : n < 2 ^ 32) (h : 2 ^ 32 ≤ n + 31) :
    (written n []).firstZero = none := by
  have hsz : (new n).sz = 0 := by
    have hnew : (new n).n = n := rfl
    have hwrap : u32 (n + 31) = n + 31 - 2 ^ 32 := by
      rw [u32, mod_eq_sub_mod h, mod_eq_of_lt (by omega)]
    rw [sz, hnew, hwrap, shiftRight_5]
    omega
  simp [written, firstZero, hsz]

/-- **Bitmaps.** Each bit has the value last written to it, and the searches find the least
position, exactly if the number of words does not overflow. -/
theorem bitmap_search {n : Nat} (hn : n < 2 ^ 32) :
    (∀ ws, (∀ pos, (written n ws).get pos = Write.last ws pos) ∧
      Least n (fun pos => Write.last ws pos = true) (written n ws).firstOne ∧
      Least n (fun pos => Write.last ws pos = false) (written n ws).firstZero) ↔
    n + 31 < 2 ^ 32 := by
  constructor
  · intro h
    by_contra hbig
    obtain ⟨-, -, hzero⟩ := h []
    rw [firstZero_huge hn (by omega)] at hzero
    exact hzero 0 (by omega) rfl
  intro hfit ws
  have hsize := written_n n ws
  have hone := firstOne_least (b := written n ws) (hsize.symm ▸ hfit)
  have hzero := firstZero_least (b := written n ws) (hsize.symm ▸ hfit)
  simp only [get_written, hsize] at hone hzero
  exact ⟨get_written n ws, hone, hzero⟩

/-- 40 is no multiple of the word size. -/
theorem bitmap_search_forty :
    Least 40 (fun pos => Write.last [.set 39 true, .set 3 true, .clear 3] pos = true)
      (written 40 [.set 39 true, .set 3 true, .clear 3]).firstOne :=
  ((bitmap_search (by decide)).mpr (by decide) _).2.1

/-- Close to the largest size the number of words is 0: a bit that is set is not found. -/
theorem huge_bitmap_search : (written 0xFFFFFFFF [.set 0 true]).get 0 = true ∧
    (written 0xFFFFFFFF [.set 0 true]).firstOne = none ∧
    (written 0xFFFFFFFF []).firstZero = none := by
  decide +kernel

end Bitmap

end Sysint
