import Mathlib.Logic.Function.Basic

/-! Memories as functions from addresses to cells, and the string instructions on
them: a block is moved or filled one unit at a time. Where the blocks do not
overlap the wrong way, that is one move of the whole block. -/
namespace Block

variable {α : Type} {m : Nat → α} {w n dst src : Nat}

/-- `n` cells from `src` on, copied to `dst` at once. -/
def move (m : Nat → α) (dst src n : Nat) : Nat → α :=
  fun a => if dst ≤ a ∧ a < dst + n then m (src + (a - dst)) else m a

/-- `rep movs` with units of `w` cells, from the first unit up. -/
def moveUp (w : Nat) : Nat → (Nat → α) → Nat → Nat → Nat → α
  | 0, m, _, _ => m
  | n + 1, m, dst, src => moveUp w n (move m dst src w) (dst + w) (src + w)

/-- `rep movs` from the last unit down. -/
def moveDown (w : Nat) : Nat → (Nat → α) → Nat → Nat → Nat → α
  | 0, m, _, _ => m
  | n + 1, m, dst, src => moveDown w n (move m dst src w) (dst - w) (src - w)

/-- `rep stos` with units of one cell. -/
def fillUp (v : α) : Nat → (Nat → α) → Nat → Nat → α
  | 0, m, _ => m
  | n + 1, m, dst => fillUp v n (Function.update m dst v) (dst + 1)

theorem move_of_mem {a : Nat} (h1 : dst ≤ a) (h2 : a < dst + n) :
    move m dst src n a = m (src + (a - dst)) := if_pos ⟨h1, h2⟩

theorem move_of_not_mem {a : Nat} (h : a < dst ∨ dst + n ≤ a) : move m dst src n a = m a :=
  if_neg (by omega)

theorem move_self (m : Nat → α) (p n : Nat) : move m p p n = m := by
  funext a
  by_cases h : p ≤ a ∧ a < p + n
  · rw [move_of_mem h.1 h.2, Nat.add_sub_of_le h.1]
  · exact move_of_not_mem (by omega)

/-- Moving up is one move if no unit is overwritten before it is read. -/
theorem moveUp_eq_move (h : dst ≤ src ∨ src + w * n ≤ dst) :
    moveUp w n m dst src = move m dst src (w * n) := by
  induction n generalizing m dst src with
  | zero =>
    funext a
    exact (move_of_not_mem (by omega)).symm
  | succ n ih =>
    rw [Nat.mul_succ] at h ⊢
    rw [moveUp, ih (by omega)]
    funext a
    by_cases h1 : dst + w ≤ a ∧ a < dst + w + w * n
    · -- what a later unit reads, the first one has not written
      rw [move_of_mem h1.1 h1.2, move_of_not_mem (by omega), move_of_mem (by omega) (by omega)]
      congr 1
      omega
    · rw [move_of_not_mem (by omega)]
      by_cases h2 : dst ≤ a ∧ a < dst + w
      · rw [move_of_mem h2.1 h2.2, move_of_mem (by omega) (by omega)]
      · rw [move_of_not_mem (by omega), move_of_not_mem (by omega)]

/-- Moving down is one move if no unit is overwritten before it is read. -/
theorem moveDown_eq_move (h : src ≤ dst) :
    moveDown w (n + 1) m (dst + w * n) (src + w * n) = move m dst src (w * (n + 1)) := by
  induction n generalizing m with
  | zero =>
    rw [moveDown, moveDown, Nat.mul_zero, Nat.zero_add, Nat.mul_one]
    rfl
  | succ n ih =>
    have hd : dst + w * (n + 1) - w = dst + w * n := by
      rw [Nat.mul_succ]
      omega
    have hs : src + w * (n + 1) - w = src + w * n := by
      rw [Nat.mul_succ]
      omega
    rw [moveDown, hd, hs, ih, Nat.mul_succ w (n + 1)]
    obtain ⟨k, hk⟩ : ∃ k, k = w * (n + 1) := ⟨_, rfl⟩
    rw [← hk]
    funext a
    by_cases h1 : dst ≤ a ∧ a < dst + k
    · -- what an earlier unit reads lies below what the last one has written
      rw [move_of_mem h1.1 h1.2, move_of_not_mem (by omega), move_of_mem h1.1 (by omega)]
    rw [move_of_not_mem (by omega)]
    by_cases h2 : dst + k ≤ a ∧ a < dst + k + w
    · rw [move_of_mem h2.1 h2.2, move_of_mem (by omega) (by omega)]
      congr 1
      omega
    · rw [move_of_not_mem (by omega), move_of_not_mem (by omega)]

theorem fillUp_apply (v : α) (a : Nat) :
    fillUp v n m dst a = if dst ≤ a ∧ a < dst + n then v else m a := by
  induction n generalizing m dst with
  | zero => exact (if_neg (by omega)).symm
  | succ n ih =>
    rw [fillUp, ih]
    by_cases ha : a = dst
    · rw [if_neg (by omega), if_pos (by omega), ha, Function.update_self]
    · rw [Function.update_of_ne ha]
      by_cases h : dst + 1 ≤ a ∧ a < dst + 1 + n
      · rw [if_pos h, if_pos (by omega)]
      · rw [if_neg h, if_neg (by omega)]

end Block
