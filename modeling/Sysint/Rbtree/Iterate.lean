import Sysint.Rbtree.Run

/-! Iterators and the bound searches, over any search tree in memory: its colours
and what the sentinel holds do not matter. What `max`, `pred` and `--` do is what
`min`, `succ` and `++` do in the tree with left and right exchanged. -/
namespace Sysint.Rbtree
open RedBlack Option
open List hiding after

variable {K : Type} {o : Order K} {t t' : Rbtree K} {xs ys : List (Nat × K)} {x : Nat × K} {k : K}
  {T : Shape K}

/-- A search tree in memory with the nodes `xs` in order. -/
structure Bst (o : Order K) (t : Rbtree K) (xs : List (Nat × K)) : Prop where
  tree : ∃ T, Rep t.node T nil ∧ t.root = addr T ∧ T.toList = xs
  nodup : (xs.map Prod.fst).Nodup
  range : ∀ x ∈ xs, nil < x.1 ∧ x.1 < t.fresh
  made : nil < t.fresh
  sorted : o.Sorted xs

/-! ## The sentinel is not read -/

/-- Two memories with the same nodes, the sentinel apart. -/
structure SameNodes (t t' : Rbtree K) : Prop where
  node : ∀ a, a ≠ nil → t'.node a = t.node a
  root : t'.root = t.root
  fresh : t'.fresh = t.fresh

namespace SameNodes

variable (h : SameNodes t t')
include h

theorem walk {here left : K → Bool} (fuel a b : Nat) :
    t'.walk here left fuel a b = t.walk here left fuel a b := by
  induction fuel generalizing a b with
  | zero => rfl
  | succ n ih =>
    rw [Rbtree.walk, Rbtree.walk]
    by_cases ha : a = nil
    · rw [if_pos (.inl ha), if_pos (.inl ha)]
    · rw [h.node a ha, ih]

theorem climb (fuel a b : Nat) : t'.climb fuel a b = t.climb fuel a b := by
  induction fuel generalizing a b with
  | zero => rfl
  | succ n ih =>
    rw [Rbtree.climb, Rbtree.climb]
    by_cases hb : b = nil
    · rw [if_neg fun hc => hc.1 hb, if_neg fun hc => hc.1 hb]
    · rw [h.node b hb, ih]

theorem min (a : Nat) : t'.min a = t.min a := by
  rw [Rbtree.min, Rbtree.min, h.fresh, h.walk]

theorem begin : t'.begin = t.begin := by
  rw [Rbtree.begin, Rbtree.begin, h.root, h.min]

theorem succ (a : Nat) : t'.succ a = t.succ a := by
  rw [Rbtree.succ, Rbtree.succ]
  by_cases ha : a = nil
  · rw [if_pos ha, if_pos ha]
  · rw [if_neg ha, if_neg ha, h.node a ha, h.fresh, h.climb, h.min]

theorem bound : bound o t' k = bound o t k := by
  rw [Rbtree.bound, Rbtree.bound, h.root, h.fresh, h.walk]

end SameNodes

/-- With the sentinel of the constructor the tree is one that `At` describes. -/
theorem Bst.exists_at (H : Bst o t xs) : ∃ t' T, SameNodes t t' ∧ At t' [] T ∧ T.toList = xs := by
  obtain ⟨T, hrep, hroot, rfl⟩ := H.tree
  have hrange : ∀ a ∈ addrs T, nil < a ∧ a < t.fresh := by
    intro a ha
    obtain ⟨x, hx, rfl⟩ := List.mem_map.mp ha
    exact H.range x hx
  let n := Function.update t.node nil { t.node nil with l := nil, r := nil, red := false }
  have hn (a : Nat) (ha : a ≠ nil) : n a = t.node a := Function.update_of_ne ha ..
  refine ⟨{ t with node := n }, T, ⟨hn, rfl, rfl⟩, ?_, rfl⟩
  constructor
  · exact hrep.congr fun a ha => hn a (hrange a ha).1.ne'
  · exact hroot
  · simpa [addrs, addrsC, before, after] using H.nodup
  · simpa [addrsC, before, after] using hrange
  · exact H.made
  · simp only [n, Function.update_self]
    exact ⟨rfl, rfl, rfl⟩

theorem Bst.key (H : Bst o t xs) (hx : x ∈ xs) : (t.node x.1).key = x.2 := by
  obtain ⟨t', T, hsame, HT, rfl⟩ := H.exists_at
  obtain ⟨ys, zs, hT⟩ := append_of_mem hx
  obtain ⟨c, red, l, r, -, Hc, -, -⟩ := HT.exists_cut hT
  have hk : (t'.node x.1).key = x.2 := congrArg Node.key Hc.tree.1
  rwa [hsame.node x.1 (H.range x hx).1.ne'] at hk

theorem Bst.begin (H : Bst o t xs) : t.begin = some (first xs) := by
  obtain ⟨t', T, hsame, HT, rfl⟩ := H.exists_at
  rw [← hsame.begin]
  exact HT.begin_first

theorem Bst.succ (H : Bst o t (xs ++ x :: ys)) : t.succ x.1 = some (first ys) := by
  obtain ⟨t', T, hsame, HT, hT⟩ := H.exists_at
  rw [← hsame.succ]
  exact HT.succ_first hT

/-! ## Left and right exchanged -/

def Node.mirror (n : Node K) : Node K := { n with l := n.r, r := n.l }

def mirror (t : Rbtree K) : Rbtree K := { t with node := fun a => (t.node a).mirror }

theorem mirror_walk {here left : K → Bool} (fuel a b : Nat) :
    t.mirror.walk here left fuel a b = t.walk here (fun k => !left k) fuel a b := by
  induction fuel generalizing a b with
  | zero => rfl
  | succ n ih =>
    rw [walk, walk, ih]
    cases hl : left (t.node a).key <;> simp [mirror, Node.mirror, hl]

theorem mirror_min (a : Nat) : t.mirror.min a = t.max a := by
  rw [Rbtree.min, mirror_walk]
  rfl

theorem mirror_climb (fuel a b : Nat) : t.mirror.climb fuel a b = t.climbLeft fuel a b := by
  induction fuel generalizing a b with
  | zero => rfl
  | succ n ih =>
    rw [climb, climbLeft, ih]
    rfl

theorem mirror_succ (a : Nat) : t.mirror.succ a = t.pred a := by
  rw [Rbtree.succ, pred, mirror_climb, mirror_min]
  rfl

theorem rep_mirror {n : Nat → Node K} {p : Nat} (h : Rep n T p) :
    Rep (fun a => (n a).mirror) T.mirror p := by
  have haddr (T : Shape K) : addr T.mirror = addr T := by cases T <;> rfl
  induction T generalizing p with
  | nil => trivial
  | node red l x r ihl ihr =>
    obtain ⟨h1, h2, h3⟩ := h
    refine ⟨?_, ihr h3, ihl h2⟩
    simp [h1, Node.mirror, haddr]

/-- The order from the other end. -/
def Order.flip (o : Order K) : Order K := { o with lt := fun a b => o.lt b a }

theorem Bst.mirror (H : Bst o t xs) : Bst o.flip t.mirror xs.reverse := by
  obtain ⟨T, hrep, hroot, hT⟩ := H.tree
  constructor
  · refine ⟨T.mirror, rep_mirror hrep, ?_, by rw [RBT.toList_mirror, hT]⟩
    rw [show t.mirror.root = t.root from rfl, hroot]
    cases T <;> rfl
  · rw [map_reverse]
    exact nodup_reverse.mpr H.nodup
  · intro x hx
    exact H.range x (mem_reverse.mp hx)
  · exact H.made
  · exact pairwise_reverse.mpr H.sorted

theorem Bst.max (H : Bst o t xs) : t.max t.root = some (first xs.reverse) := by
  rw [← mirror_min]
  exact H.mirror.begin

theorem Bst.pred (H : Bst o t (xs ++ x :: ys)) : t.pred x.1 = some (first xs.reverse) := by
  have h := H.mirror
  rw [reverse_append, reverse_cons, append_assoc] at h
  rw [← mirror_succ]
  exact h.succ

/-! ## Iteration -/

/-- A loop that goes from each node of `xs` to the next one meets them all. -/
theorem visit_all {next : Nat → Option Nat} (hne : ∀ x ∈ xs, x.1 ≠ nil)
    (hkey : ∀ x ∈ xs, (t.node x.1).key = x.2)
    (hnext : ∀ ys x zs, xs = ys ++ x :: zs → next x.1 = some (first zs)) {fuel : Nat}
    (hf : xs.length < fuel) : t.visit next fuel (first xs) = some (xs.map Prod.snd) := by
  induction xs generalizing fuel with
  | nil =>
    obtain ⟨n, rfl⟩ := Nat.exists_eq_add_of_lt hf
    simp [visit, first]
  | cons x xs ih =>
    obtain ⟨n, rfl⟩ := Nat.exists_eq_add_of_lt hf
    have hx := mem_cons_self (a := x) (l := xs)
    have hrest : t.visit next (xs.length + 1 + n) (first xs) = some (xs.map Prod.snd) :=
      ih (fun y hy => hne y (mem_cons_of_mem _ hy))
        (fun y hy => hkey y (mem_cons_of_mem _ hy))
        (fun ys y zs h => hnext (x :: ys) y zs (by rw [h, cons_append])) (by omega)
    rw [length_cons, visit, first, if_neg (hne x hx), hnext [] x xs rfl, bind_some,
      hrest, hkey x hx]
    rfl

theorem Bst.length_lt (H : Bst o t xs) : xs.length < t.fresh := by
  obtain ⟨t', T, hsame, HT, rfl⟩ := H.exists_at
  have hlen := HT.size_le
  rw [hsame.fresh] at hlen
  rw [RBT.length_toList]
  omega

theorem Bst.forward (H : Bst o t xs) :
    t.begin.bind (t.visit t.succ t.fresh) = some (xs.map Prod.snd) := by
  rw [H.begin, bind_some]
  apply visit_all (fun x hx => (H.range x hx).1.ne') (fun x hx => H.key hx) _ H.length_lt
  rintro ys x zs rfl
  exact H.succ

theorem mirror_visit {next : Nat → Option Nat} (fuel a : Nat) :
    t.mirror.visit next fuel a = t.visit next fuel a := by
  induction fuel generalizing a with
  | zero => rfl
  | succ n ih =>
    simp only [visit, ih]
    rfl

theorem Bst.backward (H : Bst o t xs) :
    (t.max t.root).bind (t.visit t.pred t.fresh) = some (xs.map Prod.snd).reverse := by
  have h := H.mirror.forward
  rw [map_reverse] at h
  have hvisit : t.mirror.visit t.mirror.succ t.mirror.fresh = t.visit t.pred t.fresh := by
    funext a
    rw [mirror_visit, show t.mirror.succ = t.pred from funext mirror_succ]
    rfl
  rwa [Rbtree.begin, mirror_min, hvisit] at h

/-- `++` from `begin()` meets every key once, in increasing order, and ends at
`end()`; `--` from `max()` meets them in decreasing order and ends at the sentinel;
and `--` undoes `++`. -/
theorem iteration_in_order (H : Bst o t xs) :
    t.begin.bind (t.visit t.succ t.fresh) = some (xs.map Prod.snd) ∧
      (xs.map Prod.snd).Pairwise (fun a b => o.lt a b = true) ∧
      (t.max t.root).bind (t.visit t.pred t.fresh) = some (xs.map Prod.snd).reverse ∧
      ∀ x ∈ xs, t.max t.root ≠ some x.1 → (t.succ x.1).bind t.pred = some x.1 := by
  refine ⟨H.forward, pairwise_map.mpr H.sorted, H.backward, fun x hx hlast => ?_⟩
  obtain ⟨ys, zs, rfl⟩ := append_of_mem hx
  rw [H.succ, bind_some]
  cases zs with
  | nil =>
    rw [H.max, reverse_append] at hlast
    exact absurd rfl hlast
  | cons z zs =>
    have H' : Bst o t ((ys ++ [x]) ++ z :: zs) := by rwa [append_assoc]
    have hpred := H'.pred
    rwa [reverse_append] at hpred

/-- Three red nodes, and a red sentinel that still has a parent. -/
def redTree : Rbtree Nat where
  node
    | 2 => ⟨20, true, 3, 4, nil⟩
    | 3 => ⟨10, true, nil, nil, 2⟩
    | 4 => ⟨30, true, nil, nil, 2⟩
    | _ => ⟨0, true, nil, nil, 3⟩
  root := 2
  sz := 3
  fresh := 5

theorem redTree_bst : Bst natOrder redTree [(3, 10), (2, 20), (4, 30)] where
  tree := ⟨.node true (.node true .nil (3, 10) .nil) (2, 20) (.node true .nil (4, 30) .nil),
    ⟨rfl, ⟨rfl, trivial, trivial⟩, rfl, trivial, trivial⟩, rfl, rfl⟩
  nodup := by decide
  range := by decide
  made := by decide
  sorted := by
    unfold Order.Sorted
    decide

theorem iteration_of_redTree :
    redTree.begin.bind (redTree.visit redTree.succ 5) = some [10, 20, 30] ∧
      (redTree.max 2).bind (redTree.visit redTree.pred 5) = some [30, 20, 10] ∧
      (redTree.succ 3).bind redTree.pred = some 3 := by
  obtain ⟨hf, -, hb, hp⟩ := iteration_in_order redTree_bst
  exact ⟨hf, hb, hp (3, 10) (by decide) (by decide)⟩

/-! ## Bound searches -/

/-- `a` is the node with the least of the keys with `P`, or the sentinel if there is none. -/
def Designates (o : Order K) (xs : List (Nat × K)) (P : K → Prop) (a : Nat) : Prop :=
  (a = nil ∧ ∀ x ∈ xs, ¬ P x.2) ∨
    ∃ x ∈ xs, a = x.1 ∧ P x.2 ∧ ∀ y ∈ xs, P y.2 → o.lt y.2 x.2 = false

/-- The key is in the tree, or it is below all keys, or the node with the greatest
key below it has a right child. -/
def BoundOk (o : Order K) (t : Rbtree K) (xs : List (Nat × K)) (k : K) : Prop :=
  k ∈ xs.map Prod.snd ∨ (∀ x ∈ xs, o.lt k x.2 = true) ∨
    ∃ x ∈ xs, o.lt x.2 k = true ∧ (∀ y ∈ xs, o.lt y.2 k = true → o.lt x.2 y.2 = false) ∧
      (t.node x.1).r ≠ nil

theorem At.bound (H : At t [] T) : Rbtree.bound o t k =
      some (addr (RedBlack.locate (fun x => o.eq x.2 k) (fun x => o.lt k x.2) [] T).2,
        up (RedBlack.locate (fun x => o.eq x.2 k) (fun x => o.lt k x.2) [] T).1) := by
  have hroot : t.root = addr T := H.ctx
  have hlen := H.size_le
  have hh := T.height_le_size
  rw [Rbtree.bound, hroot]
  exact H.walk (by omega)

/-- The node just before a tree in the order, if it is above the tree, has it on its right. -/
theorem At.right_of_before {c : Ctx K} (H : At t c T) (hT : T ≠ .nil)
    (hb : before c = ys ++ [x]) : (t.node x.1).r ≠ nil := by
  induction c generalizing T with
  | nil => simp [before] at hb
  | cons f d ih =>
    obtain ⟨s, red, z, S⟩ := f
    cases s with
    | l =>
      have Hd : At t d (.mk .l red T z S) := at_up.mp H
      rw [before, List.append_nil] at hb
      exact ih Hd (by simp [RBT.mk]) hb
    | r =>
      rw [before, ← append_assoc] at hb
      obtain rfl := (append_singleton_inj.mp hb).2
      rw [H.node_up]
      exact mt H.addr_eq_nil.mp hT

section
variable {P : K → Prop} (ho : o.TotalOn Set.univ)
include ho

theorem designates_first (hs : o.Sorted (xs ++ ys)) (hxs : ∀ x ∈ xs, ¬ P x.2)
    (hys : ∀ y ∈ ys, P y.2) : Designates o (xs ++ ys) P (first ys) := by
  cases ys with
  | nil =>
    rw [List.append_nil]
    exact .inl ⟨rfl, hxs⟩
  | cons y ys =>
    refine .inr ⟨y, by simp, rfl, hys y mem_cons_self, fun z hz hPz => ?_⟩
    have hlater := (pairwise_cons.mp (pairwise_append.mp hs).2.1).1
    obtain hz | hz := mem_append.mp hz
    · exact absurd hPz (hxs z hz)
    · obtain rfl | hz := mem_cons.mp hz
      · exact ho.irrefl _ trivial
      · exact ho.asymm trivial trivial (hlater z hz)

/-- A search for an absent key stops below the next key or below the one before it. -/
theorem At.bound_absent (HT : At t [] T) (hs : o.Sorted T.toList) {c : Ctx K}
    (hloc : RedBlack.locate (fun x => o.eq x.2 k) (fun x => o.lt k x.2) [] T = (c, .nil)) :
    ∃ ys zs, T.toList = ys ++ zs ∧ (∀ y ∈ ys, o.lt y.2 k = true) ∧
      (∀ z ∈ zs, o.lt k z.2 = true) ∧
      (up c = first zs ∧ (∀ ys' x, ys = ys' ++ [x] → (t.node x.1).r ≠ nil) ∨
        ∃ ys' x, ys = ys' ++ [x] ∧ up c = x.1 ∧ (t.node x.1).r = nil) := by
  have hlt (a : K) (h : o.lt k a = false) (he : o.eq a k = false) : o.lt a k = true := by
    obtain rfl | hak | hka := ho.total a trivial k trivial
    · rw [(ho.eq_iff a trivial a trivial).mpr rfl] at he
      cases he
    · exact hak
    · rw [h] at hka
      cases hka
  obtain ⟨ys, zs, hT, hb, ha, hys, hzs⟩ := split_of_locate
    (fun x y h h1 _ => by
      have hky := ho.trans k trivial x.2 trivial y.2 trivial h1 h
      exact ⟨hky, ho.eq_false_symm trivial trivial hky⟩)
    (fun x y h h1 h2 => by
      have hxk := ho.trans x.2 trivial y.2 trivial k trivial h (hlt y.2 h1 h2)
      exact ⟨ho.asymm trivial trivial hxk, ho.eq_false trivial trivial hxk⟩) hs hloc
  refine ⟨ys, zs, hT, fun y hy => hlt y.2 (hys y hy).1 (hys y hy).2, fun z hz => (hzs z hz).1, ?_⟩
  have Hc : At t c .nil := by
    have hplug := plug_locate (fun x => o.eq x.2 k) (fun x => o.lt k x.2) [] T
    rw [hloc, plug] at hplug
    rw [at_root, hplug]
    exact HT
  simp only [before, List.nil_append, after, List.append_nil] at hb ha
  -- the last turn says which of the two neighbours is the parent of the place
  cases c with
  | nil => exact .inl ⟨by rw [← ha]; rfl, fun ys' x hx => by simp [← hb, before] at hx⟩
  | cons f d =>
    obtain ⟨s, red, x, S⟩ := f
    cases s with
    | l =>
      have Hd : At t d (.mk .l red .nil x S) := at_up.mp Hc
      rw [before, List.append_nil] at hb
      refine .inl ⟨by rw [← ha]; rfl, fun ys' z hz => ?_⟩
      exact Hd.right_of_before (by simp [RBT.mk]) (hb.trans hz)
    | r =>
      refine .inr ⟨before d ++ S.toList, x, ?_, rfl, ?_⟩
      · rw [← hb, before, append_assoc]
      · rw [Hc.node_up]
        rfl

/-- What the loop of the bound searches finds. -/
theorem Bst.bound (H : Bst o t xs) (k : K) :
    (∃ ys x zs y, xs = ys ++ x :: zs ∧ x.2 = k ∧ Rbtree.bound o t k = some (x.1, y)) ∨
    ∃ ys zs y, xs = ys ++ zs ∧ (∀ x ∈ ys, o.lt x.2 k = true) ∧ (∀ x ∈ zs, o.lt k x.2 = true) ∧
      Rbtree.bound o t k = some (nil, y) ∧
      (y = first zs ∧ (∀ ys' x, ys = ys' ++ [x] → (t.node x.1).r ≠ nil) ∨
        ∃ ys' x, ys = ys' ++ [x] ∧ y = x.1 ∧ (t.node x.1).r = nil) := by
  have hs := H.sorted
  have hrange := H.range
  obtain ⟨t', T, hsame, HT, rfl⟩ := H.exists_at
  have hplug := plug_locate (fun x => o.eq x.2 k) (fun x => o.lt k x.2) [] T
  rw [← hsame.bound, HT.bound]
  cases hloc : RedBlack.locate (fun x => o.eq x.2 k) (fun x => o.lt k x.2) [] T with
  | mk c X =>
    rw [hloc] at hplug
    cases X with
    | nil =>
      obtain ⟨ys, zs, hT, hys, hzs, hup⟩ := HT.bound_absent ho hs hloc
      have hnode {ys' : List (Nat × K)} {x : Nat × K} (hx : ys = ys' ++ [x]) :
        t'.node x.1 = t.node x.1 :=
        hsame.node x.1 (hrange x (by rw [hT, hx]; simp)).1.ne'
      refine .inr ⟨ys, zs, up c, hT, hys, hzs, rfl, ?_⟩
      refine hup.imp (And.imp_right fun hr ys' x hx => ?_) ?_
      · rw [← hnode hx]
        exact hr ys' x hx
      · rintro ⟨ys', x, hx, hup, hr⟩
        exact ⟨ys', x, hx, hup, by rw [← hnode hx, hr]⟩
    | node red l x r =>
      have hhere := here_of_locate hloc
      have hk := (ho.eq_iff x.2 trivial k trivial).mp hhere
      refine .inl ⟨before c ++ l.toList, x, r.toList ++ after c, up c, ?_, hk, rfl⟩
      rw [show T = plug c (.node red l x r) from hplug.symm, toList_plug]
      simp [RBT.toList]

/-- The greatest key below `k` has a right child, if there is such a key and `k` is
absent. -/
theorem BoundOk.right (hs : o.Sorted ((ys ++ [x]) ++ xs)) (hk : BoundOk o t ((ys ++ [x]) ++ xs) k)
    (hys : ∀ y ∈ ys ++ [x], o.lt y.2 k = true) (hxs : ∀ y ∈ xs, o.lt k y.2 = true) :
    (t.node x.1).r ≠ nil := by
  have hx := hys x (by simp)
  obtain hmem | hall | ⟨y, hy, hlt, hmax, hr⟩ := hk
  · obtain ⟨y, hy, rfl⟩ := List.mem_map.mp hmem
    have hirrefl := ho.irrefl y.2 trivial
    obtain hy | hy := mem_append.mp hy
    · rw [hys y hy] at hirrefl
      cases hirrefl
    · rw [hxs y hy] at hirrefl
      cases hirrefl
  · have hlt := ho.asymm trivial trivial (hall x (by simp))
    rw [hx] at hlt
    cases hlt
  · -- the greatest key below `k` is the last of those below `k`
    obtain hy | hy := mem_append.mp hy
    · obtain hy | hy := mem_append.mp hy
      · have hyx := (pairwise_append.mp (pairwise_append.mp hs).1).2.2 y hy x
          (mem_singleton_self x)
        rw [hmax x (by simp) hx] at hyx
        cases hyx
      · rwa [← mem_singleton.mp hy]
    · have hle := ho.asymm trivial trivial hlt
      rw [hxs y hy] at hle
      cases hle

/-- A search for an absent key that ends below the next one meets the condition. -/
theorem boundOk_of_right (hs : o.Sorted (ys ++ xs)) (hys : ∀ y ∈ ys, o.lt y.2 k = true)
    (hxs : ∀ y ∈ xs, o.lt k y.2 = true)
    (hr : ∀ ys' x, ys = ys' ++ [x] → (t.node x.1).r ≠ nil) : BoundOk o t (ys ++ xs) k := by
  rcases eq_nil_or_concat ys with rfl | ⟨ys', x, rfl⟩
  · exact .inr (.inl hxs)
  rw [concat_eq_append] at *
  refine .inr (.inr ⟨x, by simp, hys x (by simp), fun y hy hlt => ?_, hr ys' x rfl⟩)
  obtain hy | hy := mem_append.mp hy
  · obtain hy | hy := mem_append.mp hy
    · exact ho.asymm trivial trivial ((pairwise_append.mp (pairwise_append.mp hs).1).2.2
        y hy x (mem_singleton_self x))
    · rw [mem_singleton.mp hy]
      exact ho.irrefl _ trivial
  · have hle := ho.asymm trivial trivial hlt
    rw [hxs y hy] at hle
    cases hle

omit ho in
/-- A node whose key is below `k` is not what `lower_bound` should find. -/
theorem Bst.not_designates (H : Bst o t xs) (hx : x ∈ xs) (hlt : o.lt x.2 k = true) :
    ¬ Designates o xs (fun b => o.lt b k = false) x.1 := by
  rintro (⟨hnil, -⟩ | ⟨y, hy, heq, hP, -⟩)
  · exact (H.range x hx).1.ne' hnil
  · rw [← inj_on_of_nodup_map H.nodup hx hy heq, hlt] at hP
    cases hP

/-- `lower_bound` and `upper_bound` are right exactly if the search ends at the key or below
the next one. -/
theorem bound_searches (H : Bst o t xs) :
    ((∃ a, lowerBound o t k = some a ∧ Designates o xs (fun b => o.lt b k = false) a) ∧
      ∃ a, upperBound o t k = some a ∧ Designates o xs (fun b => o.lt k b = true) a) ↔
    BoundOk o t xs k := by
  have hs := H.sorted
  constructor
  · rintro ⟨⟨a, ha, hd⟩, -⟩
    obtain ⟨ys, x, zs, y, rfl, rfl, -⟩ | ⟨ys, zs, y, rfl, hys, hzs, hb, hy⟩ := H.bound ho k
    · exact .inl (by simp)
    · obtain ⟨-, hr⟩ | ⟨ys', x, rfl, rfl, -⟩ := hy
      · exact boundOk_of_right ho hs hys hzs hr
      · obtain rfl : x.1 = a := by simpa [lowerBound, hb] using ha
        exact absurd hd (H.not_designates (by simp) (hys x (by simp)))
  intro hk
  obtain ⟨ys, x, zs, y, rfl, rfl, hb⟩ | ⟨ys, zs, y, rfl, hys, hzs, hb, hy⟩ := H.bound ho k
  · have hne : x.1 ≠ nil := (H.range x (by simp)).1.ne'
    obtain ⟨-, hxzs, hyx⟩ := pairwise_append.mp hs
    have hx := (pairwise_cons.mp hxzs).1
    constructor
    · have hfirst : first (x :: zs) = x.1 := rfl
      refine ⟨first (x :: zs), by simp [lowerBound, hb, hne, hfirst], designates_first ho hs ?_ ?_⟩
      · intro z hz
        simp [hyx z hz x mem_cons_self]
      · intro z hz
        obtain rfl | hz := mem_cons.mp hz
        · exact ho.irrefl _ trivial
        · exact ho.asymm trivial trivial (hx z hz)
    · refine ⟨first zs, by simp [upperBound, hb, hne, H.succ], ?_⟩
      have hs' : o.Sorted ((ys ++ [x]) ++ zs) := by rwa [append_assoc]
      rw [show ys ++ x :: zs = (ys ++ [x]) ++ zs by simp]
      apply designates_first ho hs' _ hx
      intro z hz
      obtain hz | hz := mem_append.mp hz
      · simp [ho.asymm trivial trivial (hyx z hz x mem_cons_self)]
      · rw [mem_singleton.mp hz, ho.irrefl _ trivial]
        exact nofun
  · obtain rfl : y = first zs := by
      obtain ⟨hy, -⟩ | ⟨ys', x, rfl, -, hr⟩ := hy
      · exact hy
      · exact absurd hr (hk.right ho hs hys hzs)
    constructor
    · refine ⟨first zs, by simp [lowerBound, hb], designates_first ho hs ?_ ?_⟩
      · intro z hz
        simp [hys z hz]
      · intro z hz
        exact ho.asymm trivial trivial (hzs z hz)
    · refine ⟨first zs, by simp [upperBound, hb], designates_first ho hs ?_ hzs⟩
      intro z hz
      simp [ho.asymm trivial trivial (hys z hz)]

end

theorem bound_searches_of_redTree : (∃ a, lowerBound natOrder redTree 25 = some a ∧
      Designates natOrder [(3, 10), (2, 20), (4, 30)] (fun b => natOrder.lt b 25 = false) a) ∧
      ∃ a, upperBound natOrder redTree 25 = some a ∧
        Designates natOrder [(3, 10), (2, 20), (4, 30)] (fun b => natOrder.lt 25 b = true) a :=
  (bound_searches natOrder_total redTree_bst).mpr (.inr (.inr ⟨(2, 20), by decide⟩))

/-- In the tree of the one key 1, both searches for 2 give the node of 1. -/
theorem bound_before :
    ∃ t, (insert natOrder empty 1).map Prod.fst = some t ∧ Bst natOrder t [(2, 1)] ∧
      lowerBound natOrder t 2 = some 2 ∧ upperBound natOrder t 2 = some 2 ∧
      ¬ Designates natOrder [(2, 1)] (fun b => natOrder.lt b 2 = false) 2 ∧
      ¬ Designates natOrder [(2, 1)] (fun b => natOrder.lt 2 b = true) 2 := by
  have hins : (insert natOrder empty 1).map (fun r =>
      ((r.1.root, r.1.fresh, r.1.node 2), lowerBound natOrder r.1 2, upperBound natOrder r.1 2)) =
        some ((2, 3, ⟨1, false, nil, nil, nil⟩), some 2, some 2) := rfl
  obtain ⟨⟨t, a⟩, ht, he⟩ := map_eq_some_iff.mp hins
  obtain ⟨⟨hroot, hfresh, hnode⟩, hl, hu⟩ : (t.root = 2 ∧ t.fresh = 3 ∧
      t.node 2 = ⟨1, false, nil, nil, nil⟩) ∧ lowerBound natOrder t 2 = some 2 ∧
      upperBound natOrder t 2 = some 2 := by simpa only [Prod.mk.injEq] using he
  refine ⟨t, by rw [ht]; rfl, ?_, hl, hu, ?_, ?_⟩
  · refine ⟨⟨.node false .nil (2, 1) .nil, ⟨hnode, trivial, trivial⟩, hroot, rfl⟩, by simp, ?_, ?_,
      pairwise_singleton ..⟩
    · simp [nil, hfresh]
    · simp [nil, hfresh]
  · simp [Designates, nil, natOrder]
  · simp [Designates, nil, natOrder]

end Sysint.Rbtree
