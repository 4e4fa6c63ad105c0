import Mathlib.Data.Nat.Log
import Mathlib.Tactic.Ring

/-! Red-black trees and trees with a hole. A step of a balancing algorithm works
at one place of a tree: the tree is then `plug` of a context (the frames from
that place up to the root) and the subtree there. Left and right are values of
`Side`, so that a case and its mirror image are one statement. -/
namespace RedBlack

open List Bool

inductive Side where
  | l
  | r
deriving DecidableEq

namespace Side

def other : Side → Side
  | l => r
  | r => l

theorem eq_or_other (s b : Side) : s = b ∨ s = b.other := by cases s <;> cases b <;> decide

end Side

inductive RBT (α : Type) where
  | nil
  | node (red : Bool) (l : RBT α) (x : α) (r : RBT α)

/-- The colour of the root; the empty tree is black. -/
def RBT.isRed {α : Type} : RBT α → Bool
  | nil => false
  | node red _ _ _ => red

def RBT.blacken {α : Type} : RBT α → RBT α
  | nil => nil
  | node _ l x r => node false l x r

/-- A node with `near` on side `s` and `far` on the other. -/
def RBT.mk {α : Type} (s : Side) (red : Bool) (near : RBT α) (x : α) (far : RBT α) : RBT α :=
  match s with
  | .l => .node red near x far
  | .r => .node red far x near

/-- A node whose subtree on `side` is missing. -/
structure Frame (α : Type) where
  side : Side
  red : Bool
  x : α
  sib : RBT α

variable {α : Type}

def Frame.fill (f : Frame α) (t : RBT α) : RBT α := .mk f.side f.red t f.x f.sib

/-- Fill the hole of a context, given from the hole up. -/
def plug : List (Frame α) → RBT α → RBT α
  | [], t => t
  | f :: c, t => plug c (f.fill t)

theorem plug_append (c d : List (Frame α)) (t : RBT α) : plug (c ++ d) t = plug d (plug c t) := by
  induction c generalizing t with
  | nil => rfl
  | cons f c ih => exact ih (f.fill t)

section
variable (s : Side) (red : Bool) (a b : RBT α) (x : α)

theorem mk_other : RBT.mk s.other red a x b = RBT.mk s red b x a := by cases s <;> rfl

@[simp] theorem isRed_mk : (RBT.mk s red a x b).isRed = red := by cases s <;> rfl

@[simp] theorem blacken_mk : (RBT.mk s red a x b).blacken = .mk s false a x b := by
  cases s <;> rfl

end

variable {x : α} {s : Side} {red : Bool}

theorem mk_ne_nil {a b : RBT α} : RBT.mk s red a x b ≠ .nil := by
  cases s <;> exact nofun

variable {t : RBT α} {c : List (Frame α)}

theorem plug_ne_nil (h : t ≠ .nil) : plug c t ≠ .nil := by
  induction c generalizing t with
  | nil => exact h
  | cons f c ih => exact ih mk_ne_nil

theorem RBT.exists_mk (s : Side) (h : t ≠ .nil) : ∃ red a x b, t = .mk s red a x b := by
  cases t with
  | nil => exact absurd rfl h
  | node red l x r =>
    cases s with
    | l => exact ⟨red, l, x, r, rfl⟩
    | r => exact ⟨red, r, x, l, rfl⟩

/-! ## In order -/

namespace RBT

def toList : RBT α → List α
  | nil => []
  | node _ l x r => l.toList ++ x :: r.toList

def size : RBT α → Nat
  | nil => 0
  | node _ l _ r => l.size + r.size + 1

def height : RBT α → Nat
  | nil => 0
  | node _ l _ r => max l.height r.height + 1

theorem length_toList (t : RBT α) : t.toList.length = t.size := by
  induction t with
  | nil => rfl
  | node c l x r ihl ihr =>
    simp only [toList, size, length_append, length_cons, ihl, ihr]
    omega

theorem height_le_size (t : RBT α) : t.height ≤ t.size := by
  induction t with
  | nil => exact Nat.le_refl 0
  | node c l x r ihl ihr =>
    simp only [height, size]
    omega

theorem toList_blacken (t : RBT α) : t.blacken.toList = t.toList := by cases t <;> rfl

theorem toList_mk (s : Side) (red : Bool) (a b : RBT α) (x : α) : (mk s red a x b).toList =
      match s with
      | .l => a.toList ++ x :: b.toList
      | .r => b.toList ++ x :: a.toList := by cases s <;> rfl

/-- A rotation does not change the order. -/
theorem toList_rotate (s : Side) (c d e f : Bool) (a b t : RBT α) (x y : α) :
    (mk s c (mk s d a x b) y t).toList = (mk s e a x (mk s f b y t)).toList := by
  cases s <;> simp [mk, toList]

end RBT

/-- What stands before the hole, and after it. -/
def before : List (Frame α) → List α
  | [] => []
  | f :: c => before c ++ match f.side with
    | .l => []
    | .r => f.sib.toList ++ [f.x]

def after : List (Frame α) → List α
  | [] => []
  | f :: c => (match f.side with
    | .l => f.x :: f.sib.toList
    | .r => []) ++ after c

theorem before_append (c d : List (Frame α)) : before (c ++ d) = before d ++ before c := by
  induction c with
  | nil => simp [before]
  | cons f c ih => simp [before, ih]

theorem toList_plug (c : List (Frame α)) (t : RBT α) :
    (plug c t).toList = before c ++ t.toList ++ after c := by
  induction c generalizing t with
  | nil => simp [plug, before, after]
  | cons f c ih =>
    rw [plug, ih, Frame.fill, RBT.toList_mk, before, after]
    cases f.side <;> simp

theorem toList_plug_congr {u : RBT α} (h : t.toList = u.toList) :
    (plug c t).toList = (plug c u).toList := by rw [toList_plug, toList_plug, h]

/-- Every element is at a node with its context. -/
theorem exists_plug (hx : x ∈ t.toList) : ∃ c red l r, t = plug c (.node red l x r) := by
  induction t with
  | nil => simp [RBT.toList] at hx
  | node red l y r ihl ihr =>
    simp only [RBT.toList, mem_append, mem_cons] at hx
    rcases hx with hx | rfl | hx
    · obtain ⟨c, red', l', r', rfl⟩ := ihl hx
      exact ⟨c ++ [⟨.l, red, y, r⟩], red', l', r', by rw [plug_append]; rfl⟩
    · exact ⟨[], red, l, r, rfl⟩
    · obtain ⟨c, red', l', r', rfl⟩ := ihr hx
      exact ⟨c ++ [⟨.r, red, y, l⟩], red', l', r', by rw [plug_append]; rfl⟩

/-- Left and right exchanged. -/
def RBT.mirror : RBT α → RBT α
  | nil => nil
  | node red l x r => node red r.mirror x l.mirror

theorem RBT.toList_mirror (t : RBT α) : t.mirror.toList = t.toList.reverse := by
  induction t with
  | nil => rfl
  | node red l x r ihl ihr => simp [mirror, toList, ihl, ihr]

/-! ## Search -/

/-- The way down to an element with `here` or to a leaf, left at the elements with
`left`. -/
def locate (here left : α → Bool) : List (Frame α) → RBT α → List (Frame α) × RBT α
  | c, .nil => (c, .nil)
  | c, .node red l x r =>
    if here x then (c, .node red l x r)
    else if left x then locate here left (⟨.l, red, x, r⟩ :: c) l
    else locate here left (⟨.r, red, x, l⟩ :: c) r

variable {d : List (Frame α)}

section
variable {here left : α → Bool}

theorem plug_locate (here left : α → Bool) (c : List (Frame α)) (t : RBT α) :
    plug (locate here left c t).1 (locate here left c t).2 = plug c t := by
  induction t generalizing c with
  | nil => rfl
  | node red l x r ihl ihr =>
    unfold locate
    split_ifs
    · rfl
    · exact ihl _
    · exact ihr _

theorem here_of_locate {l r : RBT α}
    (h : locate here left c t = (d, .node red l x r)) : here x = true := by
  induction t generalizing c with
  | nil => simp [locate] at h
  | node e l' y r' ihl ihr =>
    unfold locate at h
    split_ifs at h with h1 h2
    · cases h
      exact h1
    · exact ihl h
    · exact ihr h

/-- The last step of the way down goes to the side that `left` says. -/
theorem side_of_locate {u : RBT α} {f : Frame α} (h : locate here left c t = (f :: d, u))
    (hc : ∀ g e, c = g :: e → g.side = if left g.x then .l else .r) :
    f.side = if left f.x then .l else .r := by
  induction t generalizing c with
  | nil => exact hc f d (congrArg Prod.fst h)
  | node e l y r ihl ihr =>
    unfold locate at h
    split_ifs at h with h1 h2
    · exact hc f d (congrArg Prod.fst h)
    · refine ihl h ?_
      rintro g e ⟨⟩
      simp [h2]
    · refine ihr h ?_
      rintro g e ⟨⟩
      simp [h2]

/-- In a tree in the order `R` that `left` respects, a search that ends at a leaf
splits the tree in two. -/
theorem split_of_locate {R : α → α → Prop}
    (hup : ∀ x y, R x y → left x = true → here x = false → left y = true ∧ here y = false)
    (hdown : ∀ x y, R x y → left y = false → here y = false → left x = false ∧ here x = false)
    (hs : t.toList.Pairwise R) (h : locate here left c t = (d, .nil)) :
    ∃ xs ys, t.toList = xs ++ ys ∧ before d = before c ++ xs ∧ after d = ys ++ after c ∧
      (∀ x ∈ xs, left x = false ∧ here x = false) ∧ (∀ y ∈ ys, left y = true ∧ here y = false) := by
  induction t generalizing c with
  | nil =>
    cases h
    exact ⟨[], [], by simp [RBT.toList]⟩
  | node red l x r ihl ihr =>
    simp only [RBT.toList, pairwise_append, pairwise_cons, mem_cons] at hs
    obtain ⟨hl, ⟨hx, hr⟩, hlr⟩ := hs
    unfold locate at h
    split_ifs at h with h1 h2
    · cases h
    · rw [not_eq_true] at h1
      obtain ⟨xs, ys, he, hb, ha, hxs, hys⟩ := ihl hl h
      refine ⟨xs, ys ++ x :: r.toList, by simp [RBT.toList, he], ?_, ?_, hxs, ?_⟩
      · simp [hb, before]
      · simp [ha, after]
      · intro y hy
        simp only [mem_append, mem_cons] at hy
        obtain hy | rfl | hy := hy
        · exact hys y hy
        · exact ⟨h2, h1⟩
        · exact hup x y (hx y hy) h2 h1
    · rw [not_eq_true] at h1 h2
      obtain ⟨xs, ys, he, hb, ha, hxs, hys⟩ := ihr hr h
      refine ⟨l.toList ++ x :: xs, ys, by simp [RBT.toList, he], ?_, ?_, ?_, hys⟩
      · simp [hb, before]
      · simp [ha, after]
      · intro y hy
        simp only [mem_append, mem_cons] at hy
        obtain hy | rfl | hy := hy
        · exact hdown y x (hlr y hy x (.inl rfl)) h2 h1
        · exact ⟨h2, h1⟩
        · exact hxs y hy

/-- The way down to the left ends below the first element. -/
theorem locate_first (ht : t ≠ .nil) (c : List (Frame α)) :
    ∃ d red x r, t = plug d (.node red .nil x r) ∧ before d = [] ∧
      locate (fun _ => false) (fun _ => true) c t = (⟨.l, red, x, r⟩ :: d ++ c, .nil) := by
  induction t generalizing c with
  | nil => exact absurd rfl ht
  | node red l x r ihl _ =>
    cases l with
    | nil => exact ⟨[], red, x, r, rfl, rfl, rfl⟩
    | node e l' y r' =>
      obtain ⟨d, red', y', r'', he, hb, hloc⟩ := ihl nofun (⟨.l, red, x, r⟩ :: c)
      refine ⟨d ++ [⟨.l, red, x, r⟩], red', y', r'', ?_, ?_, ?_⟩
      · rw [he, plug_append]
        rfl
      · rw [before_append, hb]
        rfl
      · simpa [locate] using hloc

end

/-! ## Balance -/

/-- `RB t red n`: the root of `t` has the colour `red`, no red node has a red
child, and every path from the root down meets `n` black nodes. -/
inductive RB : RBT α → Bool → Nat → Prop where
  | nil : RB .nil false 0
  | red {l r : RBT α} {x : α} {n : Nat} : RB l false n → RB r false n → RB (.node true l x r) true n
  | black {l r : RBT α} {x : α} {c d : Bool} {n : Nat} : RB l c n → RB r d n →
      RB (.node false l x r) false (n + 1)

/-- `Fits c red n`: filling the hole of `c` with a tree that is `RB` with colour
`red` and `n` gives a red-black tree with a black root. -/
inductive Fits : List (Frame α) → Bool → Nat → Prop where
  | root {n : Nat} : Fits [] false n
  | red {s : Side} {x : α} {t : RBT α} {c : List (Frame α)} {n : Nat} : RB t false n →
      Fits c true n → Fits (⟨s, true, x, t⟩ :: c) false n
  | black {s : Side} {x : α} {t : RBT α} {c : List (Frame α)} {d e : Bool} {n : Nat} : RB t d n →
      Fits c false (n + 1) → Fits (⟨s, false, x, t⟩ :: c) e n

variable {n : Nat}

theorem RB.mk_red {a b : RBT α} (ha : RB a false n)
    (hb : RB b false n) : RB (.mk s true a x b) true n := by
  cases s with
  | l => exact .red ha hb
  | r => exact .red hb ha

theorem RB.mk_black {a b : RBT α} {c d : Bool} (ha : RB a c n)
    (hb : RB b d n) : RB (.mk s false a x b) false (n + 1) := by
  cases s with
  | l => exact .black ha hb
  | r => exact .black hb ha

theorem RB.of_mk {c : Bool} {a b : RBT α} (h : RB (.mk s red a x b) c n) :
    c = red ∧ ((red = true ∧ RB a false n ∧ RB b false n) ∨
      (red = false ∧ ∃ m d e, n = m + 1 ∧ RB a d m ∧ RB b e m)) := by
  cases s <;> cases h with
  | red h1 h2 => exact ⟨rfl, .inl ⟨rfl, by assumption, by assumption⟩⟩
  | black h1 h2 => exact ⟨rfl, .inr ⟨rfl, _, _, _, rfl, by assumption, by assumption⟩⟩

/-- A hole that takes a red tree takes a black one. -/
theorem Fits.of_red (h : Fits c true n) : Fits c false n := by
  cases h with
  | black hs hc => exact .black hs hc

/-- What a frame says about its sibling, and about the place above it. -/
theorem Fits.sib {d : Bool}
    (h : Fits (⟨s, d, x, t⟩ :: c) false n) : ∃ e, RB t e n ∧ (d = true → e = false) := by
  cases h with
  | red hs _ => exact ⟨false, hs, fun _ => rfl⟩
  | black hs _ => exact ⟨_, hs, nofun⟩

theorem Fits.tail {d : Bool}
    (h : Fits (⟨s, d, x, t⟩ :: c) false n) : Fits c d (if d then n else n + 1) := by
  cases h with
  | red _ hc => exact hc
  | black _ hc => exact hc

theorem Fits.set_sib {d e : Bool} {t' : RBT α}
    (h : Fits (⟨s, d, x, t⟩ :: c) e n) (ht' : RB t' false n) : Fits (⟨s, d, x, t'⟩ :: c) e n := by
  cases h with
  | red _ hc => exact .red ht' hc
  | black _ hc => exact .black ht' hc

theorem RB.exists_mk {e : Bool} (h : RB t e (n + 1)) (s : Side) : ∃ d a x b, t = .mk s d a x b := by
  apply RBT.exists_mk
  rintro rfl
  cases h

/-- The elements do not matter for the balance. -/
theorem Fits.relabel {e : Bool} (y : α)
    (h : Fits (c ++ ⟨s, red, x, t⟩ :: d) e n) : Fits (c ++ ⟨s, red, y, t⟩ :: d) e n := by
  induction c generalizing e n with
  | nil =>
    cases h with
    | red hs hc => exact .red hs hc
    | black hs hc => exact .black hs hc
  | cons f c ih =>
    cases h with
    | red hs hc => exact .red hs (ih hc)
    | black hs hc => exact .black hs (ih hc)

theorem RB.isRed (h : RB t red n) : t.isRed = red := by
  cases h <;> rfl

theorem RB.blacken_eq (h : RB t false n) : t.blacken = t := by
  cases h <;> rfl

theorem RB.blacken (h : RB t true n) : RB t.blacken false (n + 1) := by
  cases h with
  | red h1 h2 => exact .black h1 h2

theorem Fits.plug (hc : Fits c red n) (ht : RB t red n) : ∃ m, RB (plug c t) false m := by
  induction hc generalizing t with
  | root => exact ⟨_, ht⟩
  | red hs _ ih => exact ih (RB.mk_red ht hs)
  | black hs _ ih => exact ih (RB.mk_black ht hs)

/-- A red root at a hole that has no red node above it. -/
theorem Fits.plug_red (hc : Fits c false n)
    (hup : c.head?.elim false Frame.red = false) (ht : RB t true n) :
    ∃ m, RB (RedBlack.plug c t).blacken false m := by
  cases hc with
  | root => exact ⟨n + 1, ht.blacken⟩
  | red _ _ => cases hup
  | black hs hc =>
    obtain ⟨m, hm⟩ := (Fits.black hs hc).plug ht
    exact ⟨m, hm.blacken_eq.symm ▸ hm⟩

/-- The parts of a red-black tree at any of its places. -/
theorem RB.unplug {m : Nat} (h : RB (plug c t) false m) : ∃ red n, RB t red n ∧ Fits c red n := by
  induction c generalizing t with
  | nil => exact ⟨false, m, h, .root⟩
  | cons f c ih =>
    obtain ⟨red, n, hf, hc⟩ := ih h
    obtain ⟨rfl, h | h⟩ := RB.of_mk hf
    · obtain ⟨hred, h1, h2⟩ := h
      obtain ⟨s, fred, x, sib⟩ := f
      subst hred
      exact ⟨false, n, h1, .red h2 hc⟩
    · obtain ⟨hred, k, d, e, rfl, h1, h2⟩ := h
      obtain ⟨s, fred, x, sib⟩ := f
      subst hred
      exact ⟨d, k, h1, .black h2 hc⟩

theorem RB.size_ge (h : RB t red n) : 2 ^ n ≤ t.size + 1 := by
  induction h with
  | nil => simp [RBT.size]
  | red _ _ ih1 ih2 =>
    simp only [RBT.size]
    omega
  | black _ _ ih1 ih2 =>
    simp only [RBT.size]
    rw [pow_succ]
    omega

theorem RB.height_le (h : RB t red n) : t.height ≤ 2 * n + red.toNat := by
  induction h with
  | nil => simp [RBT.height]
  | red _ _ ih1 ih2 =>
    simp only [RBT.height, toNat_false, toNat_true] at ih1 ih2 ⊢
    omega
  | @black _ _ _ c d _ _ _ ih1 ih2 =>
    have hc : c.toNat ≤ 1 := toNat_le c
    have hd : d.toNat ≤ 1 := toNat_le d
    simp only [RBT.height, toNat_false] at ih1 ih2 ⊢
    omega

/-- A red-black tree of `n` nodes is no higher than `2 * log2 (n + 1)`. -/
theorem RB.height_log (h : RB t false n) : t.height ≤ 2 * Nat.log 2 (t.size + 1) := by
  have h1 := h.height_le
  have h2 : n ≤ Nat.log 2 (t.size + 1) := Nat.le_log_of_pow_le (by decide) h.size_ge
  simp only [toNat_false] at h1
  omega

end RedBlack
