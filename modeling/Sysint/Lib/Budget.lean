import Mathlib.Algebra.BigOperators.Group.Finset.Basic
import Mathlib.Algebra.Order.BigOperators.Group.Finset

/-! Shares of a budget: a common base and what each of any number of members holds above it. -/
namespace Budget

open Finset

variable {ι : Type}

/-- The base and the shares of any finitely many members stay within the total. -/
def Within (base : Nat) (share : ι → Nat) (total : Nat) : Prop :=
  ∀ S : Finset ι, base + ∑ i ∈ S, share i ≤ total

variable {base base' total total' : Nat} {share share' : ι → Nat} {i : ι}

theorem Within.member (h : Within base share total) (i : ι) : base + share i ≤ total := by
  simpa using h {i}

theorem Within.mono (h : Within base share total) (ht : total ≤ total') :
    Within base share total' :=
  fun S => (h S).trans ht

variable [DecidableEq ι]

theorem sum_le_add_erase (share : ι → Nat) (i : ι) (S : Finset ι) :
    ∑ j ∈ S, share j ≤ share i + ∑ j ∈ S.erase i, share j := by
  by_cases hi : i ∈ S
  · exact (add_sum_erase S share hi).ge
  · rw [erase_eq_of_notMem hi]
    exact Nat.le_add_left _ _

/-- The base, the total and the share of one member change; what the base and the share gain
together, the total gains at least. -/
theorem Within.shift (h : Within base share total) (hrest : ∀ j, j ≠ i → share' j ≤ share j)
    (hi : base' + share' i + total ≤ base + share i + total') : Within base' share' total' := by
  intro S
  have hS := h (insert i (S.erase i))
  rw [sum_insert (notMem_erase i S)] at hS
  have hsum := sum_le_add_erase share' i S
  have hle : ∑ j ∈ S.erase i, share' j ≤ ∑ j ∈ S.erase i, share j :=
    sum_le_sum fun j hj => hrest j (ne_of_mem_erase hj)
  omega

end Budget
