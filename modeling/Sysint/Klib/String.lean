import Mathlib.Data.Nat.Digits.Defs
import Mathlib.Data.Nat.Digits.Lemmas
import Sysint.Lib.Block
import Sysint.Memory

/-! The moves of `kernel/lib/string.cpp`, made with the string instructions, and `itoa`. -/
namespace Sysint.Klib
open Function List Nat

/-! ## Moves -/

/-- `movs` with units of `w` bytes: the unit is read before it is written. -/
def movs (w : Nat) (m : Nat → BitVec 8) (edi esi : Nat) : Nat → BitVec 8 :=
  (List.range w).foldl (fun m' i => update m' (u32 (edi + i)) (m (u32 (esi + i)))) m

/-- `rep movs`; `down` is the direction flag, set by `std` and cleared by `cld`. -/
def repMovs (w : Nat) (down : Bool) : Nat → (Nat → BitVec 8) → Nat → Nat → Nat → BitVec 8
  | 0, m, _, _ => m
  | ecx + 1, m, edi, esi =>
    if down then repMovs w down ecx (movs w m edi esi) (sub32 edi w) (sub32 esi w)
    else repMovs w down ecx (movs w m edi esi) (u32 (edi + w)) (u32 (esi + w))

/-- `p + num - 1`, for a pointer to elements of `w` bytes. -/
def lastElem (w p num : Nat) : Nat := sub32 (u32 (p + w * num)) w

/-- The moves differ only in the size of their elements. -/
def moveElems (w : Nat) (m : Nat → BitVec 8) (dest src num : Nat) : (Nat → BitVec 8) × Nat :=
  if src > dest then (repMovs w false num m dest src, dest)
  else if src < dest then
    (repMovs w true num m (lastElem w dest num) (lastElem w src num), dest)
  else (m, dest)

def memmove := moveElems 1

def memmovew := moveElems 2

def memmoved := moveElems 4

/-- So do the copies, which do not look at the order of the blocks. -/
def copyElems (w : Nat) (m : Nat → BitVec 8) (dest src num : Nat) : (Nat → BitVec 8) × Nat :=
  (repMovs w false num m dest src, dest)

def memcpy := copyElems 1

def memcpyd := copyElems 4

section
variable {w n dest src : Nat} {m : Nat → BitVec 8}

theorem movs_eq_move {edi esi : Nat} (hd : edi + w ≤ 2 ^ 32) (hs : esi + w ≤ 2 ^ 32) :
    movs w m edi esi = Block.move m edi esi w := by
  have hprefix : ∀ k, k ≤ w → (List.range k).foldl
      (fun m' i => update m' (u32 (edi + i)) (m (u32 (esi + i)))) m =
        Block.move m edi esi k := by
    intro k
    induction k with
    | zero =>
      intro _
      funext a
      exact (Block.move_of_not_mem (by omega)).symm
    | succ k ih =>
      intro hk
      rw [range_succ, foldl_append, ih (by omega), foldl_cons, foldl_nil,
        u32_of_lt (by omega), u32_of_lt (by omega)]
      funext a
      by_cases ha : a = edi + k
      · rw [ha, update_self, Block.move_of_mem (by omega) (by omega), Nat.add_sub_cancel_left]
      · rw [update_of_ne ha]
        by_cases hin : edi ≤ a ∧ a < edi + k
        · rw [Block.move_of_mem hin.1 hin.2, Block.move_of_mem hin.1 (by omega)]
        · rw [Block.move_of_not_mem (by omega), Block.move_of_not_mem (by omega)]
  exact hprefix w (Nat.le_refl w)

/-- Upwards, the pointers wrap only behind the last element. -/
theorem repMovs_up (hw : 0 < w) (hd : dest + w * n ≤ 2 ^ 32) (hs : src + w * n ≤ 2 ^ 32) :
    repMovs w false n m dest src = Block.moveUp w n m dest src := by
  induction n generalizing m dest src with
  | zero => rfl
  | succ n ih =>
    rw [mul_succ] at hd hs
    rw [repMovs, Block.moveUp, movs_eq_move (by omega) (by omega)]
    simp only [Bool.false_eq_true, ↓reduceIte]
    cases n with
    | zero => rfl
    | succ k =>
      rw [mul_succ] at hd hs
      rw [u32_of_lt (by omega), u32_of_lt (by omega)]
      exact ih (by rw [mul_succ]; omega) (by rw [mul_succ]; omega)

theorem copyElems_eq (hw : 0 < w) (hd : dest + w * n ≤ 2 ^ 32) (hs : src + w * n ≤ 2 ^ 32)
    (h : dest ≤ src ∨ src + w * n ≤ dest) :
    copyElems w m dest src n = (Block.move m dest src (w * n), dest) := by
  rw [copyElems, repMovs_up hw hd hs, Block.moveUp_eq_move h]

/-- Downwards they wrap only below the first one. -/
theorem repMovs_down (hd : dest + w * (n + 1) ≤ 2 ^ 32) (hs : src + w * (n + 1) ≤ 2 ^ 32)
    (hw : 0 < w) : repMovs w true (n + 1) m (dest + w * n) (src + w * n) =
      Block.moveDown w (n + 1) m (dest + w * n) (src + w * n) := by
  induction n generalizing m with
  | zero =>
    rw [repMovs, Block.moveDown, movs_eq_move (by omega) (by omega)]
    rfl
  | succ n ih =>
    rw [mul_succ w (n + 1)] at hd hs
    rw [repMovs, Block.moveDown, movs_eq_move (by omega) (by omega)]
    simp only [↓reduceIte]
    have hd' : dest + w * (n + 1) - w = dest + w * n := by
      rw [mul_succ]
      omega
    have hs' : src + w * (n + 1) - w = src + w * n := by
      rw [mul_succ]
      omega
    have hle : w ≤ w * (n + 1) := Nat.le_mul_of_pos_right w (succ_pos n)
    rw [sub32_of_le (by omega) (by omega), sub32_of_le (by omega) (by omega), hd', hs']
    exact ih (by omega) (by omega)

theorem lastElem_eq {p : Nat} (hw : w < 2 ^ 32) (hp : p + w * (n + 1) ≤ 2 ^ 32) (h0 : 0 < w) :
    lastElem w p (n + 1) = p + w * n := by
  rw [mul_succ] at hp
  rw [lastElem, mul_succ, sub32, u32_of_lt hw, u32, u32]
  omega

/-- Whatever the overlap, the whole block is moved. -/
theorem moveElems_eq (h0 : 0 < w) (hw : w < 2 ^ 32) (hd : dest + w * n ≤ 2 ^ 32)
    (hs : src + w * n ≤ 2 ^ 32) :
    moveElems w m dest src n = (Block.move m dest src (w * n), dest) := by
  rw [moveElems]
  rcases Nat.lt_trichotomy dest src with hlt | rfl | hgt
  · rw [if_pos hlt, repMovs_up h0 hd hs, Block.moveUp_eq_move (.inl (Nat.le_of_lt hlt))]
  · rw [if_neg (Nat.lt_irrefl _), if_neg (Nat.lt_irrefl _), Block.move_self]
  · rw [if_neg (by omega), if_pos hgt]
    cases n with
    | zero =>
      rw [Nat.mul_zero]
      congr 1
      funext a
      exact (Block.move_of_not_mem (by omega)).symm
    | succ n =>
      rw [lastElem_eq hw hd h0, lastElem_eq hw hs h0, repMovs_down hd hs h0,
        Block.moveDown_eq_move (Nat.le_of_lt hgt)]

end

/-- Neither of the two blocks wraps. -/
def Unwrapped (dest src len : Nat) : Prop := dest + len ≤ 2 ^ 32 ∧ src + len ≤ 2 ^ 32

/-- `dest` is returned, its `len` bytes are what was at `src`, and no other byte has changed. -/
structure Moved (m : Nat → BitVec 8) (dest src len : Nat) (r : (Nat → BitVec 8) × Nat) : Prop where
  result : r.2 = dest
  bytes : ∀ i, i < len → r.1 (dest + i) = m (src + i)
  others : ∀ a, a < dest ∨ dest + len ≤ a → r.1 a = m a

theorem moveElems_moved {w dest src num : Nat} (h0 : 0 < w) (hw : w < 2 ^ 32)
    (m : Nat → BitVec 8) (h : Unwrapped dest src (w * num)) :
    Moved m dest src (w * num) (moveElems w m dest src num) := by
  rw [moveElems_eq h0 hw h.1 h.2]
  refine ⟨rfl, ?_, ?_⟩
  · intro i hi
    change Block.move m dest src (w * num) (dest + i) = _
    rw [Block.move_of_mem (by omega) (by omega), Nat.add_sub_cancel_left]
  · intro a ha
    exact Block.move_of_not_mem ha

/-- **Overlapping moves.** Blocks that do not wrap are moved as a whole, whatever their distance. -/
theorem overlapping_moves (m : Nat → BitVec 8) (dest src num : Nat) :
    (Unwrapped dest src num → Moved m dest src num (memmove m dest src num)) ∧
    (Unwrapped dest src (2 * num) → Moved m dest src (2 * num) (memmovew m dest src num)) ∧
    (Unwrapped dest src (4 * num) → Moved m dest src (4 * num) (memmoved m dest src num)) := by
  refine ⟨?_, moveElems_moved (by decide) (by decide) m, moveElems_moved (by decide) (by decide) m⟩
  have hbytes : Unwrapped dest src (1 * num) →
    Moved m dest src (1 * num) (memmove m dest src num) :=
    moveElems_moved Nat.one_pos (by decide) m
  rwa [Nat.one_mul] at hbytes

/-- Double words that overlap by three bytes, at the end of the address space. -/
theorem overlapping_moves_end : Moved (fun a => BitVec.ofNat 8 a) 0xFFFFFFF4 0xFFFFFFF3 (4 * 3)
    (memmoved (fun a => BitVec.ofNat 8 a) 0xFFFFFFF4 0xFFFFFFF3 3) :=
  (overlapping_moves _ _ _ _).2.2 ⟨by decide, by decide⟩

/-! ## Numerals -/

/-- The character of a digit, up to `Z`. -/
def digitChar (v : Int) : BitVec 8 :=
  if v < 10 then 48 + BitVec.ofInt 8 v else 65 + BitVec.ofInt 8 (v - 10)

/-- The loop of `itoa`; `none` is a write behind the end of the buffer, which has `room` left. -/
def itoaLoop (base : Int) : Nat → Int → List (BitVec 8) → Option (List (BitVec 8))
  | 0, value, buffer => if value > 0 then none else some buffer
  | room + 1, value, buffer =>
    if value > 0 then
      itoaLoop base room (value.tdiv base) (buffer ++ [digitChar (value.tmod base)])
    else some buffer

/-- Bytes are stored from `a` on. -/
def store (m : Nat → BitVec 8) (a : Nat) : List (BitVec 8) → Nat → BitVec 8
  | [] => m
  | x :: xs => store (update m a x) (a + 1) xs

/-- Returns the memory and the pointer, which is null for a base out of range. -/
def itoa (m : Nat → BitVec 8) (value : Int) (str : Nat) (base : Int) :
    Option ((Nat → BitVec 8) × Option Nat) :=
  if base < 2 ∨ base > 36 then some (m, none)
  else
    (itoaLoop base 72 value []).map fun buffer =>
      (store m str (buffer.reverse ++ [0]), some str)

/-- The string at `a` is `xs`. -/
structure CString (m : Nat → BitVec 8) (a : Nat) (xs : List (BitVec 8)) : Prop where
  chars : ∀ i, i < xs.length → m (a + i) = xs.getD i 0
  stop : m (a + xs.length) = 0
  nonzero : 0 ∉ xs

def digitValue (c : BitVec 8) : Option Nat :=
  if 48 ≤ c.toNat ∧ c.toNat ≤ 57 then some (c.toNat - 48)
  else if 65 ≤ c.toNat ∧ c.toNat ≤ 90 then some (c.toNat - 55)
  else none

/-- One more digit behind those read so far. -/
def readDigit (base : Nat) (acc : Option Nat) (c : BitVec 8) : Option Nat := do
  let a ← acc
  let d ← digitValue c
  if d < base then some (a * base + d) else none

def readDigits (base : Nat) (xs : List (BitVec 8)) : Option Nat :=
  if xs = [] then none else xs.foldl (readDigit base) (some 0)

/-- The number that a numeral stands for, with a minus sign for a negative one. -/
def readNumeral (base : Nat) : List (BitVec 8) → Option Int
  | [] => none
  | c :: cs =>
    if c = 45 then (readDigits base cs).map fun n => -(n : Int)
    else (readDigits base (c :: cs)).map fun n => (n : Int)

theorem store_before (m : Nat → BitVec 8) {a b : Nat} (h : b < a) (xs : List (BitVec 8)) :
    store m a xs b = m b := by
  induction xs generalizing m a with
  | nil => rfl
  | cons x xs ih => rw [store, ih _ (lt_succ_of_lt h), update_of_ne h.ne]

theorem store_apply (m : Nat → BitVec 8) (a : Nat) (xs : List (BitVec 8)) (i : Nat)
    (hi : i < xs.length) : store m a xs (a + i) = xs.getD i 0 := by
  induction xs generalizing m a i with
  | nil => exact absurd hi (Nat.not_lt_zero i)
  | cons x xs ih =>
    cases i with
    | zero =>
      have hfirst : store (update m a x) (a + 1) xs a = update m a x a :=
        store_before _ (lt_succ_self a) xs
      exact hfirst.trans (update_self ..)
    | succ i =>
      have haddr : a + (i + 1) = a + 1 + i := by omega
      rw [store, haddr, ih _ _ _ (by simpa using hi)]
      rfl

theorem store_cstring (m : Nat → BitVec 8) (a : Nat) {xs : List (BitVec 8)} (h : 0 ∉ xs) :
    CString (store m a (xs ++ [0])) a xs where
  chars := by
    intro i hi
    rw [store_apply _ _ _ _ (by simp; omega), getD_append _ _ _ _ hi]
  stop := by
    rw [store_apply _ _ _ _ (by simp)]
    simp
  nonzero := h

section
variable {b : Nat}

theorem digitValue_digitChar {d : Nat} (h : d < 36) : digitValue (digitChar d) = some d := by
  have hall : ∀ d : Fin 36, digitValue (digitChar (d : Nat)) = some (d : Nat) := by decide
  exact hall ⟨d, h⟩

/-- A digit is neither the end of a string nor a sign, and only 0 is written `0`. -/
theorem digitChar_ne {d : Nat} (h : d < 36) :
    digitChar d ≠ 0 ∧ digitChar d ≠ 45 ∧ (digitChar d = 48 → d = 0) := by
  have hall : ∀ d : Fin 36, digitChar (d : Nat) ≠ 0 ∧ digitChar (d : Nat) ≠ 45 ∧
      (digitChar (d : Nat) = 48 → (d : Nat) = 0) := by decide
  exact hall ⟨d, h⟩

/-- The loop appends the digits, the last one first. -/
theorem itoaLoop_digits (hb : 1 < b) {room v : Nat} (h : (b.digits v).length ≤ room)
    (buffer : List (BitVec 8)) : itoaLoop b room v buffer =
      some (buffer ++ (b.digits v).map fun d : Nat => digitChar d) := by
  induction room generalizing v buffer with
  | zero =>
    obtain rfl : v = 0 :=
      digits_eq_nil_iff_eq_zero.mp (length_eq_zero_iff.mp (le_zero.mp h))
    simp [itoaLoop]
  | succ room ih =>
    rw [itoaLoop]
    by_cases hv : v = 0
    · subst hv
      simp
    · have hpos : 0 < v := Nat.pos_of_ne_zero hv
      rw [digits_def' hb hpos] at h ⊢
      rw [if_pos (by omega), ← Int.ofNat_tdiv, ← Int.ofNat_tmod, ih (by simpa using h)]
      simp

/-- The digits are read from the first one on. -/
theorem readDigits_digits (hb : b ≤ 36) {ds : List Nat} (h : ∀ d ∈ ds, d < b) :
    ((ds.map fun d : Nat => digitChar d).reverse).foldl (readDigit b) (some 0) =
      some (Nat.ofDigits b ds) := by
  induction ds with
  | nil => rfl
  | cons d ds ih =>
    have hd : d < b := h d mem_cons_self
    rw [map_cons, reverse_cons, foldl_append,
      ih fun e he => h e (mem_cons_of_mem d he), foldl_cons, foldl_nil]
    simp only [readDigit, Option.bind_eq_bind, Option.bind_some,
      digitValue_digitChar (Nat.lt_of_lt_of_le hd hb), hd, ↓reduceIte, ofDigits_cons]
    congr 1
    ring

end

/-- The string at `str` is a numeral for `value`, without a leading zero. -/
def Writes (m : Nat → BitVec 8) (value : Int) (str : Nat) (base : Int) : Prop :=
  ∃ m' xs, itoa m value str base = some (m', some str) ∧ CString m' str xs ∧ xs ≠ [] ∧
    readNumeral base.toNat xs = some value ∧ xs.head? ≠ some 48

section
variable {value base : Int} (hlo : 2 ≤ base) (hhi : base ≤ 36) (m : Nat → BitVec 8) (str : Nat)
include hlo hhi

theorem itoa_of_pos (hpos : 0 < value) (hlt : value < 2 ^ 31) : Writes m value str base := by
  obtain ⟨v, rfl⟩ := Int.eq_ofNat_of_zero_le (Int.le_of_lt hpos)
  obtain ⟨b, rfl⟩ := Int.eq_ofNat_of_zero_le (show 0 ≤ base by omega)
  have hv : v ≠ 0 := by omega
  have hb : 1 < b := by omega
  have hlen : (b.digits v).length ≤ 72 := by
    rw [digits_length_le_iff hb]
    calc v < 2 ^ 31 := by omega
      _ ≤ 2 ^ 72 := by decide
      _ ≤ b ^ 72 := Nat.pow_le_pow_left hb 72
  have hdigit : ∀ d ∈ b.digits v, d < b := fun d hd => digits_lt_base hb hd
  have hne : b.digits v ≠ [] := digits_ne_nil_iff_ne_zero.mpr hv
  obtain ⟨xs, hxs⟩ : ∃ xs, xs = ((b.digits v).map fun d : Nat => digitChar d).reverse := ⟨_, rfl⟩
  have hchar : ∀ c ∈ xs, c ≠ 0 ∧ c ≠ 45 := by
    intro c hc
    rw [hxs, mem_reverse, mem_map] at hc
    obtain ⟨d, hd, rfl⟩ := hc
    have hd' := digitChar_ne (show d < 36 by have := hdigit d hd; omega)
    exact ⟨hd'.1, hd'.2.1⟩
  have hnil : xs ≠ [] := by simpa [hxs] using hne
  refine ⟨store m str (xs ++ [0]), xs, ?_, ?_, hnil, ?_, ?_⟩
  · rw [itoa, if_neg (by omega), itoaLoop_digits hb hlen, nil_append, hxs]
    rfl
  · exact store_cstring m str fun h0 => (hchar 0 h0).1 rfl
  · have hread : readDigits b xs = some v := by
      rw [readDigits, if_neg hnil, hxs, readDigits_digits (by omega) hdigit, ofDigits_digits]
    cases xs with
    | nil => exact absurd rfl hnil
    | cons c cs =>
      rw [readNumeral, if_neg (hchar c mem_cons_self).2, Int.toNat_natCast, hread]
      rfl
  · -- the first character is the last digit of the list
    rw [hxs, List.head?_reverse, List.getLast?_map, List.getLast?_eq_getLast_of_ne_nil hne]
    intro hzero
    have hlast := getLast_digit_ne_zero b hv
    have hd := hdigit _ (getLast_mem hne)
    exact hlast ((digitChar_ne (by omega)).2.2 (Option.some.inj hzero))

/-- The loop is not entered. -/
theorem itoa_of_nonpos (hneg : value ≤ 0) :
    itoa m value str base = some (store m str [0], some str) := by
  rw [itoa, if_neg (by omega), itoaLoop, if_neg (by omega)]
  rfl

/-- **Numerals.** A number is written in its base, without a leading zero, if it is positive, and
else it is not. -/
theorem itoa_numeral (hlt : value < 2 ^ 31) : Writes m value str base ↔ 0 < value := by
  refine ⟨?_, fun hpos => itoa_of_pos hlo hhi m str hpos hlt⟩
  rintro ⟨m', xs, hrun, hstr, hne, -⟩
  by_contra hneg
  rw [itoa_of_nonpos hlo hhi m str (not_lt.mp hneg)] at hrun
  obtain rfl : store m str [0] = m' := congrArg Prod.fst (Option.some.inj hrun)
  obtain ⟨c, cs, rfl⟩ := exists_cons_of_ne_nil hne
  have hfirst : (0 : BitVec 8) = c :=
    (store_apply m str [0] 0 (by decide)).symm.trans (hstr.chars 0 (by simp))
  exact hstr.nonzero (hfirst ▸ mem_cons_self)

end

theorem itoa_numeral_max : Writes (fun _ => 0) 0x7FFFFFFF 16 36 :=
  (itoa_numeral (by decide) (by decide) _ _ (by decide)).mpr (by decide)

/-- For 0 and for negative numbers the string is empty. -/
theorem itoa_writes_nothing :
    (itoa (fun _ => 7) 0 16 10).map (fun r => (r.1 16, r.2)) = some (0, some 16) ∧
      (itoa (fun _ => 7) (-5) 16 10).map (fun r => (r.1 16, r.2)) = some (0, some 16) := by
  decide

end Sysint.Klib
