import Mathlib.Tactic.Linarith
import Mathlib.Tactic.Ring
import Sysint.Memory

/-! The integer square root of `kernel/lib/math.cpp`, found digit by digit in base 4. -/
namespace Sysint.Klib

theorem shift_two_lt {one : Nat} (h : 0 < one) : one >>> 2 < one := by
  rw [Nat.shiftRight_eq_div_pow]
  omega

/-- The first loop of `isqrt`, which lowers `one`. -/
def isqrtStart (v one : Nat) : Nat :=
  if one > v then isqrtStart v (one >>> 2) else one
termination_by one
decreasing_by exact shift_two_lt (by omega)

/-- The second loop of `isqrt`. -/
def isqrtLoop (v res one : Nat) : Nat :=
  if one = 0 then res
  else if v ≥ u32 (res + one) then
    isqrtLoop (sub32 v (u32 (res + one))) (u32 (res + u32 (one <<< 1)) >>> 1) (one >>> 2)
  else isqrtLoop v (res >>> 1) (one >>> 2)
termination_by one
decreasing_by
  · exact shift_two_lt (by omega)
  · exact shift_two_lt (by omega)

def isqrt (v : Nat) : Nat := isqrtLoop v 0 (isqrtStart v (1 <<< 30))

/-- The sums and shifts that the second loop computes, before they are cut to 32 bits. -/
def isqrtSums (v res one : Nat) : List Nat :=
  if one = 0 then []
  else if v ≥ u32 (res + one) then
    [res + one, one <<< 1, res + u32 (one <<< 1)] ++
      isqrtSums (sub32 v (u32 (res + one))) (u32 (res + u32 (one <<< 1)) >>> 1) (one >>> 2)
  else (res + one) :: isqrtSums v (res >>> 1) (one >>> 2)
termination_by one
decreasing_by
  · exact shift_two_lt (by omega)
  · exact shift_two_lt (by omega)

/-! ## The invariant

With `n` digits left, `one` is `4 ^ (n - 1)`, or 0 at the end. `r` is the root found so far, a
multiple of `2 ^ n`. -/

/-- What `one` is with `n` digits left. -/
def place (n : Nat) : Nat := 4 ^ n / 4

theorem place_succ (n : Nat) : place (n + 1) = 2 ^ n * 2 ^ n := by
  rw [place, Nat.pow_succ, Nat.mul_div_cancel _ (by decide), ← Nat.mul_pow]

theorem place_shift (n : Nat) : place (n + 1) >>> 2 = place n := by
  rw [place, place, Nat.pow_succ, Nat.mul_div_cancel _ (by decide), Nat.shiftRight_eq_div_pow]

theorem place_pos (n : Nat) : 0 < place (n + 1) := by
  rw [place_succ]
  positivity

/-- The root `r` of `w` so far: the whole root lies in the interval of length `2 ^ n` from `r` on,
and the loop holds the remainder `v`. -/
structure Root (w n r v : Nat) : Prop where
  rest : v + r * r = w
  upper : w < (r + 2 ^ n) * (r + 2 ^ n)
  small : r + 2 ^ n ≤ 2 ^ 16

/-- All values below `2 ^ 32`. -/
def NoOverflow (xs : List Nat) : Prop := ∀ x ∈ xs, x < 2 ^ 32

variable {w n r v : Nat}

/-- The scaled root with its next two digits stays below `2 ^ 32`. -/
theorem Root.bound (h : Root w (n + 1) r v) : r * 2 ^ (n + 1) + 2 * (2 ^ n * 2 ^ n) < 2 ^ 32 := by
  have hsmall := h.small
  have hpos : 0 < 2 ^ n := by positivity
  rw [Nat.pow_succ] at hsmall ⊢
  have hprod : (r + 2 ^ n) * (2 ^ n * 2) ≤ (2 ^ 16 - 1) * 2 ^ 16 :=
    Nat.mul_le_mul (by omega) (by omega)
  calc r * (2 ^ n * 2) + 2 * (2 ^ n * 2 ^ n) = (r + 2 ^ n) * (2 ^ n * 2) := by ring
    _ ≤ (2 ^ 16 - 1) * 2 ^ 16 := hprod
    _ < 2 ^ 32 := by decide

/-- The digit is 1. -/
theorem Root.take (h : Root w (n + 1) r v) (hle : r * 2 ^ (n + 1) + 2 ^ n * 2 ^ n ≤ v) :
    Root w n (r + 2 ^ n) (v - (r * 2 ^ (n + 1) + 2 ^ n * 2 ^ n)) := by
  have hupper := h.upper
  have hsmall := h.small
  rw [Nat.pow_succ] at hupper hsmall hle ⊢
  refine ⟨?_, ?_, by omega⟩
  · have hsq : (r + 2 ^ n) * (r + 2 ^ n) = r * r + (r * (2 ^ n * 2) + 2 ^ n * 2 ^ n) := by ring
    rw [hsq, ← h.rest]
    omega
  · have hend : r + 2 ^ n + 2 ^ n = r + 2 ^ n * 2 := by ring
    rw [hend]
    exact hupper

/-- The digit is 0. -/
theorem Root.leave (h : Root w (n + 1) r v)
    (hlt : v < r * 2 ^ (n + 1) + 2 ^ n * 2 ^ n) : Root w n r v := by
  have hsmall := h.small
  rw [Nat.pow_succ] at hsmall hlt
  refine ⟨h.rest, ?_, by omega⟩
  have hsq : (r + 2 ^ n) * (r + 2 ^ n) = r * r + (r * (2 ^ n * 2) + 2 ^ n * 2 ^ n) := by ring
  rw [hsq, ← h.rest]
  omega

theorem half_taken (r n : Nat) :
    (r * 2 ^ (n + 1) + 2 * (2 ^ n * 2 ^ n)) >>> 1 = (r + 2 ^ n) * 2 ^ n := by
  have heq : r * 2 ^ (n + 1) + 2 * (2 ^ n * 2 ^ n) = (r + 2 ^ n) * 2 ^ n * 2 := by ring
  rw [heq, Nat.shiftRight_eq_div_pow]
  exact Nat.mul_div_cancel _ (by decide)

theorem half_left (r n : Nat) : (r * 2 ^ (n + 1)) >>> 1 = r * 2 ^ n := by
  rw [Nat.pow_succ, ← Nat.mul_assoc, Nat.shiftRight_eq_div_pow]
  exact Nat.mul_div_cancel _ (by decide)

/-- The second loop ends with the root, and nothing overflows. -/
theorem isqrtLoop_spec (h : Root w n r v) (hw : w < 2 ^ 32) :
    isqrtLoop v (r * 2 ^ n) (place n) * isqrtLoop v (r * 2 ^ n) (place n) ≤ w ∧
    w < (isqrtLoop v (r * 2 ^ n) (place n) + 1) * (isqrtLoop v (r * 2 ^ n) (place n) + 1) ∧
    NoOverflow (isqrtSums v (r * 2 ^ n) (place n)) := by
  induction n generalizing r v with
  | zero =>
    have hrest := h.rest
    have hupper := h.upper
    have hplace : place 0 = 0 := rfl
    rw [hplace, isqrtLoop, isqrtSums, if_pos rfl, if_pos rfl, Nat.pow_zero, Nat.mul_one]
    rw [Nat.pow_zero] at hupper
    exact ⟨by omega, hupper, by simp [NoOverflow]⟩
  | succ n ih =>
    have hpos := place_pos n
    have hbound := h.bound
    have hshift : place (n + 1) <<< 1 = 2 * (2 ^ n * 2 ^ n) := by
      rw [place_succ, Nat.shiftLeft_eq]
      ring
    have hsum : u32 (r * 2 ^ (n + 1) + place (n + 1)) = r * 2 ^ (n + 1) + 2 ^ n * 2 ^ n := by
      rw [place_succ]
      exact u32_of_lt (by omega)
    have hdouble : u32 (place (n + 1) <<< 1) = 2 * (2 ^ n * 2 ^ n) := by
      rw [hshift]
      exact u32_of_lt (by omega)
    rw [isqrtLoop, isqrtSums, if_neg hpos.ne', if_neg hpos.ne', hsum, hdouble, u32_of_lt hbound,
      half_taken, half_left, place_shift]
    have hv : v < 2 ^ 32 := by
      have hrest := h.rest
      omega
    by_cases hle : r * 2 ^ (n + 1) + 2 ^ n * 2 ^ n ≤ v
    · rw [if_pos hle, if_pos hle, sub32_of_le hv hle]
      obtain ⟨hlo, hhi, hsums⟩ := ih (h.take hle)
      refine ⟨hlo, hhi, ?_⟩
      intro x hx
      rw [List.mem_append] at hx
      rcases hx with hx | hx
      · simp only [List.mem_cons, List.not_mem_nil, or_false] at hx
        have hone := place_succ n
        omega
      · exact hsums x hx
    · rw [if_neg hle, if_neg hle]
      obtain ⟨hlo, hhi, hsums⟩ := ih (h.leave (by omega))
      refine ⟨hlo, hhi, ?_⟩
      intro x hx
      rcases List.mem_cons.mp hx with rfl | hx
      · rw [place_succ]
        omega
      · exact hsums x hx

/-- The first loop ends at the largest power of four that is at most `v`, and at 0 for 0. -/
theorem isqrtStart_spec (v n : Nat) (h : v < 4 ^ n) :
    ∃ k, k ≤ n ∧ isqrtStart v (place n) = place k ∧ v < 4 ^ k := by
  induction n with
  | zero =>
    refine ⟨0, Nat.le_refl _, ?_, h⟩
    have hplace : place 0 = 0 := rfl
    rw [hplace, isqrtStart, if_neg (Nat.not_lt_zero v)]
  | succ n ih =>
    by_cases hgt : place (n + 1) > v
    · have hlt : v < 4 ^ n := by
        rw [place, Nat.pow_succ, Nat.mul_div_cancel _ (by decide)] at hgt
        exact hgt
      obtain ⟨k, hk, hstart, hv⟩ := ih hlt
      refine ⟨k, by omega, ?_, hv⟩
      rw [isqrtStart, if_pos hgt, place_shift, hstart]
    · refine ⟨n + 1, Nat.le_refl _, ?_, h⟩
      rw [isqrtStart, if_neg hgt]

/-- **Square root.** The result is the integer square root, and no sum and no shift on the way
leaves 32 bits. -/
theorem isqrt_correct {v : Nat} (hv : v < 2 ^ 32) :
    isqrt v * isqrt v ≤ v ∧ v < (isqrt v + 1) * (isqrt v + 1) ∧
      NoOverflow (isqrtSums v 0 (isqrtStart v (1 <<< 30))) := by
  obtain ⟨k, hk, hstart, hlt⟩ := isqrtStart_spec v 16 hv
  have hone : 1 <<< 30 = place 16 := by decide
  have hroot : Root v k 0 v := by
    refine ⟨by omega, ?_, ?_⟩
    · rw [Nat.zero_add, ← Nat.mul_pow]
      exact hlt
    · rw [Nat.zero_add]
      exact Nat.pow_le_pow_right (by decide) hk
  have hloop := isqrtLoop_spec hroot hv
  rw [Nat.zero_mul] at hloop
  rw [isqrt, hone, hstart]
  exact hloop

theorem isqrt_correct_max : isqrt 0xFFFFFFFF * isqrt 0xFFFFFFFF ≤ 0xFFFFFFFF ∧
    0xFFFFFFFF < (isqrt 0xFFFFFFFF + 1) * (isqrt 0xFFFFFFFF + 1) := by
  obtain ⟨hlo, hhi, -⟩ := isqrt_correct (v := 0xFFFFFFFF) (by decide)
  exact ⟨hlo, hhi⟩

end Sysint.Klib
