import Mathlib.Logic.Function.Basic
import Mathlib.Tactic.SplitIfs

/-! A queue in a circular array of `n` cells. The cell before the first one stays
free, so that a full queue differs from an empty one. -/

structure Circular (α : Type) (n : Nat) where
  cell : Nat → α
  first : Nat
  last : Nat

namespace Circular

open List Nat

variable {α : Type} {n : Nat} {r : Circular α n} {x : α}

def count (r : Circular α n) : Nat := (r.last + n - r.first) % n

/-- The elements, the oldest first. -/
def contents (r : Circular α n) : List α :=
  (List.range r.count).map fun i => r.cell ((r.first + i) % n)

def push (r : Circular α n) (x : α) : Circular α n :=
  { r with cell := Function.update r.cell r.last x, last := (r.last + 1) % n }

def pop (r : Circular α n) : Circular α n := { r with first := (r.first + 1) % n }

structure Ok (r : Circular α n) : Prop where
  first : r.first < n
  last : r.last < n

theorem mod_wrap {a : Nat} (h : a < 2 * n) : a % n = if a < n then a else a - n := by
  split
  · exact mod_eq_of_lt ‹_›
  · rw [mod_eq_sub_mod (by omega), mod_eq_of_lt (by omega)]

theorem length_contents (r : Circular α n) : r.contents.length = r.count := by simp [contents]

namespace Ok

variable (h : Ok r)
include h

theorem count_eq : r.count = if r.first ≤ r.last then r.last - r.first
    else r.last + n - r.first := by
  have h1 := h.first
  have h2 := h.last
  rw [count, mod_wrap (by omega)]
  split_ifs <;> omega

theorem count_lt : r.count < n := by
  have h1 := h.first
  have h2 := h.last
  rw [h.count_eq]
  split_ifs <;> omega

theorem full_iff : (r.last + 1) % n = r.first ↔ r.count = n - 1 := by
  have h1 := h.first
  have h2 := h.last
  rw [h.count_eq, mod_wrap (by omega)]
  split_ifs <;> omega

theorem push (x : α) : Ok (r.push x) :=
  ⟨h.first, mod_lt _ (by have := h.first; omega)⟩

theorem pop : Ok r.pop := ⟨mod_lt _ (by have := h.first; omega), h.last⟩

theorem count_push (hfull : (r.last + 1) % n ≠ r.first) : (r.push x).count = r.count + 1 := by
  have h1 := h.first
  have h2 := h.last
  rw [(h.push x).count_eq, h.count_eq]
  rw [mod_wrap (by omega)] at hfull
  simp only [Circular.push, mod_wrap (show r.last + 1 < 2 * n by omega)]
  split_ifs at * <;> omega

theorem count_pop (hne : r.first ≠ r.last) : r.count = r.pop.count + 1 := by
  have h1 := h.first
  have h2 := h.last
  rw [h.pop.count_eq, h.count_eq]
  simp only [Circular.pop, mod_wrap (show r.first + 1 < 2 * n by omega)]
  split_ifs at * <;> omega

theorem contents_push (hfull : (r.last + 1) % n ≠ r.first) :
    (r.push x).contents = r.contents ++ [x] := by
  have h1 := h.first
  have h2 := h.last
  have hcount := h.count_eq
  rw [contents, h.count_push hfull, range_succ, map_append]
  have hidx (i : Nat) (hi : i ≤ r.count) : (r.first + i) % n = r.last ↔ i = r.count := by
    have hlt := h.count_lt
    rw [mod_wrap (by omega)]
    split_ifs at hcount ⊢ <;> omega
  congr 1
  · apply map_congr_left
    intro i hi
    rw [mem_range] at hi
    have hne : (r.first + i) % n ≠ r.last := by
      intro he
      have := (hidx i (Nat.le_of_lt hi)).mp he
      omega
    exact Function.update_of_ne hne ..
  · have hlast := (hidx r.count (Nat.le_refl _)).mpr rfl
    simp [Circular.push, hlast]

theorem contents_pop (hne : r.first ≠ r.last) : r.contents = r.cell r.first :: r.pop.contents := by
  have h1 := h.first
  rw [contents, h.count_pop hne, range_succ_eq_map, map_cons, map_map, contents]
  congr 1
  · rw [Nat.add_zero, mod_eq_of_lt h1]
  · apply map_congr_left
    intro i _
    simp only [Circular.pop, Function.comp_apply, mod_add_mod]
    congr 2
    omega

end Ok

end Circular
