import Mathlib.Data.List.Nodup
import Mathlib.Logic.Function.Basic

/-! Circular doubly linked lists threaded through the nodes they hold. A list
is a sentinel and the nodes met by following `next` from it; `Ring` says that
the links represent a given sequence. Nodes are of any type, so the links can
be fields of records, words of a memory or entries of a table. -/
namespace Dlink
open Function List

structure Links (α : Type) where
  prev : α → α
  next : α → α

variable {α : Type}

/-- The nodes strictly between `a` and `b` are `xs`, in both directions. -/
def Seg (s : Links α) : α → List α → α → Prop
  | a, [], b => s.next a = b ∧ s.prev b = a
  | a, x :: xs, b => s.next a = x ∧ s.prev x = a ∧ Seg s x xs b

structure Ring (s : Links α) (nil : α) (xs : List α) : Prop where
  seg : Seg s nil xs nil
  nodup : (nil :: xs).Nodup

theorem seg_append (s : Links α) (a y b : α) (xs ys : List α) :
    Seg s a (xs ++ y :: ys) b ↔ Seg s a xs y ∧ Seg s y ys b := by
  induction xs generalizing a with
  | nil => simp [Seg, and_assoc]
  | cons x xs ih => simp [Seg, ih, and_assoc]

variable {s : Links α} {xs : List α}

theorem seg_congr {t : Links α} {a b : α}
    (hn : ∀ x ∈ a :: xs, t.next x = s.next x) (hp : ∀ x ∈ b :: xs, t.prev x = s.prev x)
    (h : Seg s a xs b) : Seg t a xs b := by
  induction xs generalizing a with
  | nil => exact ⟨(hn a (by simp)).trans h.1, (hp b (by simp)).trans h.2⟩
  | cons x xs ih =>
    obtain ⟨h1, h2, h3⟩ := h
    refine ⟨(hn a (by simp)).trans h1, (hp x (by simp)).trans h2, ih ?_ ?_ h3⟩
    · intro y hy
      exact hn y (mem_cons_of_mem _ hy)
    · intro y hy
      apply hp
      simp only [mem_cons] at hy ⊢
      exact hy.imp id Or.inr

variable {nil : α}

theorem Ring.congr {t : Links α} (h : Ring s nil xs)
    (hn : ∀ x ∈ nil :: xs, t.next x = s.next x) (hp : ∀ x ∈ nil :: xs, t.prev x = s.prev x) :
    Ring t nil xs :=
  ⟨seg_congr hn hp h.seg, h.nodup⟩

variable {ys : List α}

/-- A circular list can be read from any of its nodes. -/
theorem Ring.rotate {a y : α} (h : Ring s a (xs ++ y :: ys)) : Ring s y (ys ++ a :: xs) := by
  obtain ⟨h1, h2⟩ := (seg_append s a y a xs ys).mp h.seg
  refine ⟨(seg_append s y a y ys xs).mpr ⟨h2, h1⟩, ?_⟩
  have hp : (y :: (ys ++ a :: xs)).Perm (a :: (xs ++ y :: ys)) := by
    have : ((y :: ys) ++ (a :: xs)).Perm ((a :: xs) ++ (y :: ys)) := perm_append_comm
    simpa using this
  exact hp.nodup_iff.mpr h.nodup

theorem Ring.next_nil (h : Ring s nil xs) : s.next nil = xs.headD nil := by
  cases xs with
  | nil => exact h.seg.1
  | cons x xs => exact h.seg.1

theorem Ring.next_at {y : α} (h : Ring s nil (xs ++ y :: ys)) : s.next y = ys.headD nil := by
  rw [h.rotate.next_nil]
  cases ys with
  | nil => rfl
  | cons z ys => rfl

theorem Ring.next_nil_iff (h : Ring s nil xs) : s.next nil = nil ↔ xs = [] := by
  rw [h.next_nil]
  cases xs with
  | nil => simp
  | cons x xs =>
    have hne : x ≠ nil := by
      rintro rfl
      simpa using h.nodup
    simp [hne]

variable {x : α}

/-- Following `next` from a node of the list stays in it. -/
theorem Ring.next_mem (h : Ring s nil xs) (hx : x ∈ nil :: xs) : s.next x ∈ nil :: xs := by
  rcases mem_cons.mp hx with rfl | hx
  · rw [h.next_nil]
    cases xs <;> simp
  · obtain ⟨ys, zs, rfl⟩ := append_of_mem hx
    have := h.rotate.next_nil
    rw [this]
    cases zs <;> simp

theorem Ring.prev_mem (h : Ring s nil xs) (hx : x ∈ nil :: xs) : s.prev x ∈ nil :: xs := by
  have last (a : α) (as : List α) (b : α) (hs : Seg s a as b) : s.prev b ∈ a :: as := by
    induction as generalizing a with
    | nil => simp [hs.2]
    | cons c cs ih => exact mem_cons_of_mem _ (ih c hs.2.2)
  rcases mem_cons.mp hx with rfl | hx
  · exact last _ _ _ h.seg
  · obtain ⟨ys, zs, rfl⟩ := append_of_mem hx
    have hm := last _ _ _ ((seg_append s nil x nil ys zs).mp h.seg).1
    simp only [mem_cons, mem_append] at hm ⊢
    tauto

theorem Ring.prev_ne_self (h : Ring s nil xs) (hx : x ∈ xs) : s.prev x ≠ x := by
  obtain ⟨ys, zs, rfl⟩ := append_of_mem hx
  have hs := ((seg_append s nil x nil ys zs).mp h.seg).1
  have hnd := h.nodup
  rcases eq_nil_or_concat ys with rfl | ⟨ws, m, rfl⟩
  · rw [hs.2]
    rintro rfl
    simp at hnd
  · have hs' : Seg s nil (ws ++ [m]) x := by simpa using hs
    have hm := ((seg_append s nil m x ws []).mp hs').2
    rw [hm.2]
    rintro rfl
    simp [nodup_append, nodup_cons] at hnd

/-- The node before a place in the list is the last one of the part before it. -/
theorem Ring.prev_at (h : Ring s nil (xs ++ ys)) : s.prev (ys.headD nil) = xs.getLastD nil := by
  have last (a : α) (as : List α) (b : α) (hs : Seg s a as b) : s.prev b = as.getLastD a := by
    induction as generalizing a with
    | nil => exact hs.2
    | cons c cs ih => exact (ih c hs.2.2).trans getLastD_cons.symm
  cases ys with
  | nil => exact last _ _ _ (by simpa using h.seg)
  | cons y ys => exact last _ _ _ ((seg_append s nil y nil xs ys).mp h.seg).1

theorem Ring.prev_next {n : α} (h : Ring s nil xs)
    (hn : n ∈ nil :: xs) : s.prev (s.next n) = n := by
  have first (a : α) (as : List α) (b : α) (hs : Seg s a as b) : s.prev (s.next a) = a := by
    cases as with
    | nil => rw [hs.1, hs.2]
    | cons c cs => rw [hs.1, hs.2.1]
  rcases mem_cons.mp hn with rfl | hn
  · exact first _ _ _ h.seg
  · obtain ⟨ys, zs, rfl⟩ := append_of_mem hn
    exact first _ _ _ h.rotate.seg

variable [DecidableEq α]

/-- Insert `x` after `n`, in the order of the four pointer writes. -/
def Links.insert (s : Links α) (n x : α) : Links α :=
  let s := { s with prev := update s.prev (s.next n) x }
  let s := { s with prev := update s.prev x n }
  let s := { s with next := update s.next x (s.next n) }
  { s with next := update s.next n x }

/-- Unlink `x`; its own links keep their values. -/
def Links.remove (s : Links α) (x : α) : Links α :=
  let s := { s with next := update s.next (s.prev x) (s.next x) }
  { s with prev := update s.prev (s.next x) (s.prev x) }

theorem insert_next (s : Links α) (n x y : α) :
    (s.insert n x).next y = if y = n then x else if y = x then s.next n else s.next y := by
  simp [Links.insert, update_apply]

theorem insert_prev (s : Links α) (n x y : α) :
    (s.insert n x).prev y = if y = x then n else if y = s.next n then x else s.prev y := by
  simp [Links.insert, update_apply]

theorem Ring.insert_front (h : Ring s nil xs)
    (hx : x ∉ nil :: xs) : Ring (s.insert nil x) nil (x :: xs) := by
  have hnd : (nil :: x :: xs).Nodup := by
    have := h.nodup
    simp only [nodup_cons, mem_cons, not_or] at this hx ⊢
    exact ⟨⟨Ne.symm hx.1, this.1⟩, hx.2, this.2⟩
  refine ⟨⟨by simp [insert_next], by simp [insert_prev], ?_⟩, hnd⟩
  obtain ⟨hne, hxs⟩ : x ≠ nil ∧ x ∉ xs := by simpa using hx
  cases xs with
  | nil =>
    have h1 := h.seg.1
    simp [Seg, insert_next, insert_prev, h1, hne, Ne.symm hne]
  | cons y ys =>
    obtain ⟨h1, h2, h3⟩ := h.seg
    have hy : y ≠ x ∧ y ≠ nil ∧ y ∉ ys ∧ nil ∉ ys ∧ x ∉ ys := by
      have := h.nodup
      simp only [nodup_cons, mem_cons, not_or] at this hxs
      exact ⟨Ne.symm hxs.1, Ne.symm this.1.1, this.2.1, this.1.2, hxs.2⟩
    refine ⟨by simp [insert_next, hne, h1], by simp [insert_prev, h1, hy.1], ?_⟩
    -- behind `y` no link changed: only the links at `nil`, `x` and `y.prev` were written
    apply seg_congr _ _ h3
    · intro z hz
      have hzn : z ≠ nil := by rintro rfl; simp [hy, Ne.symm hy.2.1] at hz
      have hzx : z ≠ x := by rintro rfl; simp [hy, Ne.symm hy.1] at hz
      simp [insert_next, hzn, hzx]
    · intro z hz
      have hzy : z ≠ y := by rintro rfl; simp [hy] at hz
      have hzx : z ≠ x := by rintro rfl; simp [hy, hne] at hz
      simp [insert_prev, hzx, h1, hzy]

theorem Ring.insert_after {n : α}
    (h : Ring s nil (xs ++ n :: ys)) (hx : x ∉ nil :: (xs ++ n :: ys)) :
    Ring (s.insert n x) nil (xs ++ n :: x :: ys) := by
  have hx' : x ∉ n :: (ys ++ nil :: xs) := by
    simp only [mem_cons, mem_append, not_or] at hx ⊢
    tauto
  have hr : Ring (s.insert n x) n ((x :: ys) ++ nil :: xs) := h.rotate.insert_front hx'
  exact hr.rotate

/-- Insert at any place of the list. -/
theorem Ring.insert_at (h : Ring s nil (xs ++ ys))
    (hx : x ∉ nil :: (xs ++ ys)) : Ring (s.insert (xs.getLastD nil) x) nil (xs ++ x :: ys) := by
  rcases eq_nil_or_concat xs with rfl | ⟨zs, n, rfl⟩
  · exact h.insert_front hx
  · have hr : Ring s nil (zs ++ n :: ys) := by simpa using h
    have := hr.insert_after (by simpa using hx)
    simpa [getLastD_concat] using this

theorem remove_next (s : Links α) (x y : α) :
    (s.remove x).next y = if y = s.prev x then s.next x else s.next y := by
  simp [Links.remove, update_apply]

theorem remove_prev (s : Links α) (x y : α) (hx : s.prev x ≠ x) :
    (s.remove x).prev y = if y = s.next x then s.prev x else s.prev y := by
  simp [Links.remove, update_apply, Ne.symm hx]

theorem Ring.remove_front (h : Ring s nil (x :: xs)) : Ring (s.remove x) nil xs := by
  obtain ⟨h1, h2, h3⟩ := h.seg
  have hnd := h.nodup
  simp only [nodup_cons, mem_cons, not_or] at hnd
  obtain ⟨⟨hnx, hnxs⟩, hxxs, hxs⟩ := hnd
  have hpx : s.prev x ≠ x := by rw [h2]; exact hnx
  refine ⟨?_, nodup_cons.mpr ⟨hnxs, hxs⟩⟩
  cases xs with
  | nil => simp [Seg, remove_next, remove_prev _ _ _ hpx, h2, h3.1]
  | cons y ys =>
    obtain ⟨h4, h5, h6⟩ := h3
    have hy : nil ≠ y ∧ nil ∉ ys ∧ x ≠ y ∧ x ∉ ys ∧ y ∉ ys := by
      simp only [nodup_cons, mem_cons, not_or] at hnxs hxxs hxs
      exact ⟨hnxs.1, hnxs.2, hxxs.1, hxxs.2, hxs.1⟩
    refine ⟨by simp [remove_next, h2, h4], by simp [remove_prev _ _ _ hpx, h4, h2], ?_⟩
    apply seg_congr _ _ h6
    · intro z hz
      have : z ≠ nil := by rintro rfl; simp [hy] at hz
      simp [remove_next, h2, this]
    · intro z hz
      have : z ≠ y := by rintro rfl; simp [hy, Ne.symm hy.1] at hz
      simp [remove_prev _ _ _ hpx, h4, this]

theorem Ring.remove (h : Ring s nil (xs ++ x :: ys)) : Ring (s.remove x) nil (xs ++ ys) := by
  rcases eq_nil_or_concat xs with rfl | ⟨zs, m, rfl⟩
  · exact Ring.remove_front (by simpa using h)
  -- read the list from the predecessor `m`, where `x` comes first
  have hm : Ring s m (x :: (ys ++ nil :: zs)) := by
    have hs : Ring s nil (zs ++ m :: x :: ys) := by simpa using h
    exact hs.rotate
  have := hm.remove_front.rotate
  simpa using this

/-- A node that is unlinked and put back where it was leaves all links as they were. -/
theorem remove_insert {n m : α} (hm : s.next m = n) (hp : s.prev n = m)
    (hn : s.prev (s.next n) = n) (hne : m ≠ n) : (s.remove n).insert m n = s := by
  have hpn : s.prev n ≠ n := by
    rw [hp]
    exact hne
  have hnext : ∀ y, ((s.remove n).insert m n).next y = s.next y := by
    intro y
    by_cases h1 : y = m
    · simp [insert_next, h1, hm]
    · by_cases h2 : y = n
      · simp [insert_next, remove_next, h2, hne.symm, hp]
      · simp [insert_next, remove_next, h1, h2, hp]
  have hprev : ∀ y, ((s.remove n).insert m n).prev y = s.prev y := by
    intro y
    by_cases h1 : y = n
    · simp [insert_prev, h1, hp]
    · by_cases h2 : y = s.next n
      · have hnn : s.next n ≠ n := h2 ▸ h1
        simp [insert_prev, remove_next, h2, hp, hn, hnn]
      · simp [insert_prev, remove_next, remove_prev _ _ _ hpn, h1, h2, hp]
  calc (s.remove n).insert m n
      = ⟨((s.remove n).insert m n).prev, ((s.remove n).insert m n).next⟩ := rfl
    _ = ⟨s.prev, s.next⟩ := by rw [funext hprev, funext hnext]

theorem Ring.insert_frame {m n : α} {zs : List α} (h : Ring s nil xs)
    (hn : n ∈ nil :: xs) (hm : Ring s m zs) (hx : x ∉ m :: zs)
    (hd : ∀ y ∈ m :: zs, y ∉ nil :: xs) : Ring (s.insert n x) m zs := by
  apply hm.congr
  · intro y hy
    have h1 : y ≠ n := by rintro rfl; exact hd _ hy hn
    have h2 : y ≠ x := by rintro rfl; exact hx hy
    simp [insert_next, h1, h2]
  · intro y hy
    have h1 : y ≠ s.next n := by rintro rfl; exact hd _ hy (h.next_mem hn)
    have h2 : y ≠ x := by rintro rfl; exact hx hy
    simp [insert_prev, h1, h2]

theorem Ring.remove_frame {m : α} {zs : List α} (h : Ring s nil xs)
    (hx : x ∈ xs) (hm : Ring s m zs) (hd : ∀ y ∈ m :: zs, y ∉ nil :: xs) :
    Ring (s.remove x) m zs := by
  have hx' : x ∈ nil :: xs := mem_cons_of_mem _ hx
  apply hm.congr
  · intro y hy
    have h1 : y ≠ s.prev x := by rintro rfl; exact hd _ hy (h.prev_mem hx')
    simp [remove_next, h1]
  · intro y hy
    have h1 : y ≠ s.next x := by rintro rfl; exact hd _ hy (h.next_mem hx')
    simp [remove_prev _ _ _ (h.prev_ne_self hx), h1]

/-! ## Reading the list off the links -/

/-- The nodes met from `a` on, up to `nil` or for at most `fuel` nodes. -/
def walk (next : α → α) (nil : α) : Nat → α → List α
  | 0, _ => []
  | fuel + 1, a => if a = nil then [] else a :: walk next nil fuel (next a)

def Links.toList (s : Links α) (nil : α) (fuel : Nat) : List α :=
  walk s.next nil fuel (s.next nil)

theorem Ring.toList (h : Ring s nil xs) {fuel : Nat}
    (hf : xs.length ≤ fuel) : s.toList nil fuel = xs := by
  have go (a : α) (ys : List α) (n : Nat) (hs : Seg s a ys nil) (hnd : nil ∉ ys)
      (hn : ys.length ≤ n) : walk s.next nil n (s.next a) = ys := by
    induction ys generalizing a n with
    | nil =>
      cases n with
      | zero => rfl
      | succ n => simp [walk, hs.1]
    | cons y ys ih =>
      cases n with
      | zero => simp at hn
      | succ n =>
        obtain ⟨h1, _, h3⟩ := hs
        simp only [mem_cons, not_or] at hnd
        have hr := ih y n h3 hnd.2 (by simpa using hn)
        simp [walk, h1, Ne.symm hnd.1, hr]
  exact go nil xs fuel h.seg (nodup_cons.mp h.nodup).1 hf

/-! ## Reading the list backward -/

def Links.flip (s : Links α) : Links α := ⟨s.next, s.prev⟩

omit [DecidableEq α] in
theorem Seg.flip {a b : α} (h : Seg s a xs b) : Seg s.flip b xs.reverse a := by
  induction xs generalizing a with
  | nil => exact ⟨h.2, h.1⟩
  | cons x xs ih =>
    obtain ⟨h1, h2, h3⟩ := h
    rw [reverse_cons]
    exact (seg_append _ _ _ _ _ _).mpr ⟨ih h3, h2, h1⟩

omit [DecidableEq α] in
theorem Ring.flip (h : Ring s nil xs) : Ring s.flip nil xs.reverse := by
  constructor
  · exact h.seg.flip
  · have hnd := h.nodup
    simp only [nodup_cons, mem_reverse, nodup_reverse] at hnd ⊢
    exact hnd

end Dlink
