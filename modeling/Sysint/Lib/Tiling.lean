import Mathlib.Algebra.Ring.Nat
import Mathlib.Data.List.Basic

/-! Lists of pieces that fill an interval of the natural numbers one after the
other, with no gap and no overlap. A piece is anything with a start and a
length. -/
namespace Tiling

open List

variable {β : Type} {start len : β → Nat} {a e : Nat} {xs ys : List β}

/-- The pieces `xs`, in order, fill the interval from `a` to `e`. -/
def Tiles (start len : β → Nat) : Nat → List β → Nat → Prop
  | a, [], e => a = e
  | a, x :: xs, e => start x = a ∧ Tiles start len (a + len x) xs e

theorem tiles_append :
    Tiles start len a (xs ++ ys) e ↔ ∃ b, Tiles start len a xs b ∧ Tiles start len b ys e := by
  induction xs generalizing a with
  | nil => simp [Tiles]
  | cons x xs ih => simp [Tiles, ih, and_assoc]

section

variable (h : Tiles start len a xs e)
include h

theorem Tiles.congr {start' : β → Nat}
    (heq : ∀ x ∈ xs, start' x = start x) : Tiles start' len a xs e := by
  induction xs generalizing a with
  | nil => exact h
  | cons x xs ih =>
    obtain ⟨hx, hxs⟩ := forall_mem_cons.mp heq
    exact ⟨hx.trans h.1, ih h.2 hxs⟩

theorem Tiles.le : a ≤ e := by
  induction xs generalizing a with
  | nil => exact Nat.le_of_eq h
  | cons x xs ih => exact Nat.le_trans (Nat.le_add_right _ _) (ih h.2)

theorem Tiles.sum : a + (xs.map len).sum = e := by
  induction xs generalizing a with
  | nil => exact h
  | cons x xs ih => rw [map_cons, sum_cons, ← Nat.add_assoc, ih h.2]

theorem Tiles.bounds {x : β} (hx : x ∈ xs) :
    a ≤ start x ∧ start x + len x ≤ e := by
  obtain ⟨ys, zs, rfl⟩ := append_of_mem hx
  obtain ⟨b, h1, h2, h3⟩ := tiles_append.mp h
  exact h2 ▸ ⟨h1.le, h3.le⟩

/-- Two pieces of a tiling are the same piece or do not meet. -/
theorem Tiles.apart {x y : β} (hx : x ∈ xs) (hy : y ∈ xs) :
    x = y ∨ start x + len x ≤ start y ∨ start y + len y ≤ start x := by
  induction xs generalizing a with
  | nil => simp at hx
  | cons z zs ih =>
    obtain ⟨rfl, h2⟩ := h
    cases mem_cons.mp hx with
    | inl hxz =>
      cases mem_cons.mp hy with
      | inl hyz => exact .inl (hxz.trans hyz.symm)
      | inr hy => exact .inr (.inl (hxz ▸ (h2.bounds hy).1))
    | inr hx =>
      cases mem_cons.mp hy with
      | inl hyz => exact .inr (.inr (hyz ▸ (h2.bounds hx).1))
      | inr hy => exact ih h2 hx hy

theorem Tiles.nodup (hpos : ∀ x ∈ xs, 0 < len x) :
    (xs.map start).Nodup := by
  induction xs generalizing a with
  | nil => exact nodup_nil
  | cons x xs ih =>
    obtain ⟨rfl, h2⟩ := h
    have hx := hpos x (by simp)
    have hnd := ih h2 fun y hy => hpos y (mem_cons_of_mem _ hy)
    refine nodup_cons.mpr ⟨?_, hnd⟩
    intro hm
    obtain ⟨y, hy, he⟩ := mem_map.mp hm
    have := (h2.bounds hy).1
    omega

/-- The number of pieces is bounded by the length they fill. -/
theorem Tiles.length_le (hpos : ∀ x ∈ xs, 0 < len x) :
    a + xs.length ≤ e := by
  induction xs generalizing a with
  | nil => exact Nat.le_of_eq h
  | cons x xs ih =>
    have hx := hpos x (by simp)
    have := ih h.2 fun y hy => hpos y (mem_cons_of_mem _ hy)
    simp only [length_cons]
    omega

end

end Tiling
