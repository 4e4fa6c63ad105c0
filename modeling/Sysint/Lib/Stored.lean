import Mathlib.Data.List.Basic
import Mathlib.Logic.Function.Basic

/-! Lists laid out in consecutive slots of a memory. A slot that holds no object is
`none`. -/

/-- The objects from address `a` on are those of the list. -/
def Stored {α : Type} (mem : Nat → Option α) (a : Nat) : List α → Prop
  | [] => True
  | x :: xs => mem a = some x ∧ Stored mem (a + 1) xs

namespace Stored
open Function List

variable {α : Type} {mem mem' : Nat → Option α} {a : Nat} {xs ys : List α}

theorem append_iff : Stored mem a (xs ++ ys) ↔ Stored mem a xs ∧ Stored mem (a + xs.length) ys := by
  induction xs generalizing a with
  | nil => simp [Stored]
  | cons x xs ih =>
    have ha : a + (xs.length + 1) = a + 1 + xs.length := by omega
    simp [Stored, ih, ha, and_assoc]

section

variable (h : Stored mem a xs)
include h

theorem congr (heq : ∀ b, a ≤ b → b < a + xs.length → mem' b = mem b) :
    Stored mem' a xs := by
  induction xs generalizing a with
  | nil => trivial
  | cons x xs ih =>
    simp only [length_cons] at heq
    constructor
    · rw [heq a (by omega) (by omega)]
      exact h.1
    · apply ih h.2
      intro b hb hb'
      exact heq b (by omega) (by omega)

/-- What the slots show is the list. -/
theorem range_map :
    (List.range xs.length).map (fun i => mem (a + i)) = xs.map some := by
  induction xs generalizing a with
  | nil => rfl
  | cons x xs ih =>
    have hshift : (fun i => mem (a + (i + 1))) = fun i => mem (a + 1 + i) := by
      funext i
      rw [Nat.add_right_comm, Nat.add_assoc]
    rw [length_cons, range_succ_eq_map, map_cons, map_map, map_cons]
    simp only [comp_def, Nat.succ_eq_add_one, hshift, ih h.2, Nat.add_zero, h.1]

theorem getElem {i : Nat} (hi : i < xs.length) : mem (a + i) = some xs[i] := by
  induction xs generalizing a i with
  | nil => cases hi
  | cons x xs ih =>
    cases i with
    | zero => exact h.1
    | succ i =>
      have ha : a + (i + 1) = a + 1 + i := by omega
      rw [ha]
      exact ih h.2 (Nat.lt_of_succ_lt_succ hi)

/-- A slot is overwritten. -/
theorem set {i : Nat} (x : α) :
    Stored (update mem (a + i) (some x)) a (xs.set i x) := by
  induction xs generalizing a i with
  | nil => trivial
  | cons y xs ih =>
    cases i with
    | zero =>
      constructor
      · exact update_self _ _ _
      · apply h.2.congr
        intro b hb _
        exact update_of_ne (by omega) _ _
    | succ i =>
      have ha : a + (i + 1) = a + 1 + i := by omega
      constructor
      · rw [update_of_ne (by omega)]
        exact h.1
      · rw [ha]
        exact ih h.2

end

end Stored
