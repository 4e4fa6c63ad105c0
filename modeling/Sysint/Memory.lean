import Mathlib.Data.Nat.Bitwise

/-! Address arithmetic of `kernel/include/memory.h` and the constants of the
memory layout. Addresses are natural numbers below `2 ^ 32`; sums that the code
computes in a `uint32_t` go through `u32`. -/
namespace Sysint

open Nat

/-- The value a `uint32_t` keeps of a sum. -/
def u32 (n : Nat) : Nat := n % 2 ^ 32

/-- `a - b` in a `uint32_t`. -/
def sub32 (a b : Nat) : Nat := u32 (a + (2 ^ 32 - u32 b))

def pageShift : Nat := 12

def pageSize : Nat := 1 <<< pageShift

def kernelVirtualBase : Nat := 0xC0000000

/-- Rounds an address up to the nearest 4 KiB block. -/
def alignAddr (addr : Nat) : Nat :=
  u32 ((addr &&& 0xFFFFF000) + if addr &&& 0xFFF ≠ 0 then 0x1000 else 0)

/-- Rounds an address up to the nearest 4 MiB block. -/
def alignAddr4m (addr : Nat) : Nat :=
  u32 ((addr &&& 0xFFC00000) + if addr &&& 0x3FFFFF ≠ 0 then 0x400000 else 0)

theorem u32_of_lt {n : Nat} (h : n < 2 ^ 32) : u32 n = n := mod_eq_of_lt h

theorem u32_lt (n : Nat) : u32 n < 2 ^ 32 := mod_lt _ (by decide)

theorem sub32_of_le {a b : Nat} (ha : a < 2 ^ 32) (h : b ≤ a) : sub32 a b = a - b := by
  have hb : u32 b = b := u32_of_lt (by omega)
  rw [sub32, hb, u32]
  omega

/-- Clearing the low `k` bits of a 32-bit value. -/
theorem and_high {x : Nat} (hx : x < 2 ^ 32) (k m : Nat) (hk : k ≤ 32)
    (hm : m = (2 ^ (32 - k) - 1) <<< k) : x &&& m = x / 2 ^ k * 2 ^ k := by
  apply eq_of_testBit_eq
  intro i
  rw [← shiftRight_eq_div_pow, ← shiftLeft_eq, hm]
  simp only [testBit_and, testBit_shiftLeft, testBit_shiftRight,
    testBit_two_pow_sub_one]
  by_cases hi : k ≤ i
  · have he : k + (i - k) = i := by omega
    by_cases h32 : i < 32
    · have : i - k < 32 - k := by omega
      simp [hi, he, this]
    · have hf : x.testBit i = false := by
        apply testBit_lt_two_pow
        exact Nat.lt_of_lt_of_le hx (Nat.pow_le_pow_right (by decide) (by omega))
      simp [he, hf]
  · simp [hi]

theorem and_low (x k : Nat) : x &&& (2 ^ k - 1) = x % 2 ^ k := and_two_pow_sub_one_eq_mod x k

/-- `align_addr` rounds up; the result wraps to 0 above the last page. -/
theorem alignAddr_eq {x : Nat} (hx : x < 2 ^ 32) :
    alignAddr x = u32 ((x + 4095) / 4096 * 4096) := by
  have h1 : x &&& 0xFFFFF000 = x / 4096 * 4096 := and_high hx 12 _ (by decide) (by decide)
  have h2 : x &&& 0xFFF = x % 4096 := and_low x 12
  rw [alignAddr, h1, h2]
  apply congrArg u32
  split <;> omega

theorem alignAddr4m_eq {x : Nat} (hx : x < 2 ^ 32) :
    alignAddr4m x = u32 ((x + 4194303) / 4194304 * 4194304) := by
  have h1 : x &&& 0xFFC00000 = x / 4194304 * 4194304 := and_high hx 22 _ (by decide) (by decide)
  have h2 : x &&& 0x3FFFFF = x % 4194304 := and_low x 22
  rw [alignAddr4m, h1, h2]
  apply congrArg u32
  split <;> omega

end Sysint
