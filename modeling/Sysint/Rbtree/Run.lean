import Sysint.Lib.Machine
import Sysint.Rbtree.Erase
import Mathlib.Data.Set.Card

/-! Runs of `insert(k)` and `erase(find(k))` from an empty tree. The tree stays
red-black and is the set of the keys inserted and not erased since, as long as no
insertion meets the case that `_insert_fixup` gets wrong. -/
namespace Sysint.Rbtree
open RedBlack List
open Machine

variable {K : Type} {o : Order K} {t : Rbtree K} {xs : List (Nat × K)} {k : K} {x : Nat}

/-! ## Runs -/

inductive Op (K : Type) where
  | insert (k : K)
  | erase (k : K)

/-- A tree, and the keys inserted into it and not erased since. -/
structure SetRun (K : Type) where
  tree : Rbtree K
  keys : Set K

def SetRun.init [Inhabited K] : SetRun K := ⟨empty, ∅⟩

def SetRun.step (o : Order K) (s : SetRun K) : Op K → Option (SetRun K)
  | .insert k => (insert o s.tree k).map fun r => ⟨r.1, {k} ∪ s.keys⟩
  | .erase k =>
    (s.tree.find (fun a => o.eq a k) (fun a => o.lt a k)).bind fun x =>
      (s.tree.erase x).map fun t => ⟨t, s.keys \ {k}⟩

/-- No insertion meets the case that `_insert_fixup` gets wrong. -/
def SetRun.ok (o : Order K) (s : SetRun K) : Op K → Prop
  | .insert k => insertOk o s.tree k = true
  | .erase _ => True

instance (s : SetRun K) : (a : Op K) → Decidable (s.ok o a)
  | .insert k => inferInstanceAs (Decidable (insertOk o s.tree k = true))
  | .erase _ => inferInstanceAs (Decidable True)

/-- The tree holds the keys in order. -/
def SetRun.Inv (o : Order K) (s : SetRun K) : Prop :=
  ∃ xs, Holds s.tree xs ∧ o.Sorted xs ∧ ∀ a, a ∈ s.keys ↔ a ∈ xs.map Prod.snd

theorem holds_empty [Inhabited K] : Holds (empty : Rbtree K) [] :=
  ⟨⟨.nil, 0, ⟨trivial, rfl, nodup_nil, nofun, Nat.one_lt_two, rfl, rfl, rfl⟩, .nil, rfl⟩, rfl⟩

theorem SetRun.inv_init [Inhabited K] : (SetRun.init : SetRun K).Inv o := by
  refine ⟨[], holds_empty, List.Pairwise.nil, ?_⟩
  simp [SetRun.init]

section
variable {s : SetRun K} (ho : o.TotalOn Set.univ)
include ho

theorem SetRun.insert_inv (h : s.Inv o) (hok : insertOk o s.tree k = true) :
    ∃ s', s.step o (.insert k) = some s' ∧ s'.Inv o := by
  obtain ⟨xs, H, hs, hkeys⟩ := h
  have hS : o.TotalOn {a | a = k ∨ a ∈ xs.map Prod.snd} := ho.mono (Set.subset_univ _)
  obtain ⟨x, hx, he, hins, H'⟩ | ⟨ys, zs, t', rfl, hins, H', -, hsort⟩ := insert_spec H hok
  · obtain rfl := (ho.eq_iff k trivial x.2 trivial).mp he
    refine ⟨⟨s.tree.alloc x.2, {x.2} ∪ s.keys⟩, by simp [step, hins], xs, H', hs, fun a => ?_⟩
    simp only [Set.singleton_union, Set.mem_insert_iff, hkeys]
    have hmem : x.2 ∈ xs.map Prod.snd := mem_map_of_mem hx
    grind
  · obtain ⟨hys, hzs⟩ := hsort hS hs
    refine ⟨⟨t', {k} ∪ s.keys⟩, by simp [step, hins], _, H', hs.insert hys hzs, fun a => ?_⟩
    simp only [Set.singleton_union, Set.mem_insert_iff, hkeys, map_append, map_cons,
      mem_append, mem_cons]
    tauto

theorem SetRun.erase_inv (h : s.Inv o) : ∃ s', s.step o (.erase k) = some s' ∧ s'.Inv o := by
  obtain ⟨xs, H, hs, hkeys⟩ := h
  have hS : o.TotalOn {a | a = k ∨ a ∈ xs.map Prod.snd} := ho.mono (Set.subset_univ _)
  obtain ⟨x, hx, ⟨rfl, hk⟩ | hk⟩ := find_sorted hS H hs
  · refine ⟨⟨s.tree, s.keys \ {k}⟩, by simp [step, hx, erase], xs, H, hs, fun a => ?_⟩
    simp only [Set.mem_sdiff, Set.mem_singleton_iff, hkeys]
    grind
  obtain ⟨ys, zs, rfl⟩ := append_of_mem hk
  obtain ⟨t', he, H', -⟩ := erase_spec H
  -- the other keys are below or above `k`
  have hne {y : Nat × K} (hy : y ∈ ys ++ zs) : y.2 ≠ k := by
    rintro rfl
    unfold Order.Sorted at hs
    simp only [pairwise_append, pairwise_cons] at hs
    have hlt : o.lt y.2 y.2 = true := by
      obtain hy | hy := mem_append.mp hy
      · exact hs.2.2 y hy (x, y.2) mem_cons_self
      · exact hs.2.1.1 y hy
    rw [ho.irrefl y.2 trivial] at hlt
    cases hlt
  refine ⟨⟨t', s.keys \ {k}⟩, by simp [step, hx, he], _, H', ?_, fun a => ?_⟩
  · exact hs.sublist ((sublist_cons_self ..).append_left ys)
  simp only [Set.mem_sdiff, Set.mem_singleton_iff, hkeys, map_append, map_cons,
    mem_append, mem_cons]
  constructor
  · tauto
  · intro ha
    refine ⟨ha.imp_right .inr, ?_⟩
    rw [← mem_append, ← map_append] at ha
    obtain ⟨y, hy, rfl⟩ := mem_map.mp ha
    exact hne hy

theorem SetRun.step_inv (h : s.Inv o) {a : Op K} (hok : s.ok o a) :
    ∃ s', s.step o a = some s' ∧ s'.Inv o := by
  cases a with
  | insert k => exact insert_inv ho h hok
  | erase k => exact erase_inv ho h

theorem SetRun.reach_inv [Inhabited K]
    (h : Reach (· = SetRun.init) (SetRun.step o) (SetRun.ok o) s) : s.Inv o := by
  refine h.invariant ?_ fun s a s' hs hok hstep => ?_
  · rintro _ rfl
    exact inv_init
  · obtain ⟨s'', hs'', hinv⟩ := step_inv ho hs hok
    rw [hstep] at hs''
    cases hs''
    exact hinv

end

/-! ## The shape -/

/-- The nodes on a way from `x` down to the sentinel. -/
inductive Path (t : Rbtree K) : Nat → List Nat → Prop where
  | nil : Path t nil []
  | node {x : Nat} {p : List Nat} (s : Side) : x ≠ Rbtree.nil → Path t ((t.node x).child s) p →
      Path t x (x :: p)

def blacks (t : Rbtree K) (p : List Nat) : Nat := p.countP fun x => !(t.node x).red

/-- The red-black conditions on a tree with `n` nodes. -/
structure RedBlackShape (t : Rbtree K) (n : Nat) : Prop where
  root : (t.node t.root).red = false
  sentinel : (t.node nil).red = false
  red : ∀ p, Path t t.root p → ∀ x ∈ p, (t.node x).red = true →
    ∀ s, (t.node ((t.node x).child s)).red = false
  black : ∀ p q, Path t t.root p → Path t t.root q → t.blacks p = t.blacks q
  height : ∀ p, Path t t.root p → p.length ≤ 2 * Nat.log 2 (n + 1)

/-- A way down stays in the tree; its colours and its length are those of `RB`. -/
theorem At.path {c : Ctx K} {T : Shape K} {p : List Nat} {red : Bool} {m : Nat}
    (hp : Path t x p) (H : At t c T) (hx : x = addr T) (hT : RB T red m) :
    t.blacks p = m ∧ p.length ≤ T.height ∧
      ∀ x ∈ p, (t.node x).red = true → ∀ s, (t.node ((t.node x).child s)).red = false := by
  induction hp generalizing c T red m with
  | nil =>
    obtain rfl := H.addr_eq_nil.mp hx.symm
    cases hT
    exact ⟨rfl, Nat.zero_le _, nofun⟩
  | @node x p s hne hp ih =>
    have hTn : T ≠ .nil := by
      rintro rfl
      exact hne hx
    obtain ⟨d, A, y, B, rfl⟩ := RBT.exists_mk s hTn
    have HA : At t (⟨s, d, y, B⟩ :: c) A := at_up.mpr H
    have HB := (at_sib.mp HA).isRed
    rw [addr_mk] at hx
    subst hx
    have hn := H.node
    have hheight : A.height + 1 ≤ (RBT.mk s d A y B).height := by
      cases s <;> simp [RBT.mk, RBT.height]
    rw [hn, mk'_near] at hp ih
    obtain ⟨-, ⟨rfl, hA, hB⟩ | ⟨rfl, m, e, e', rfl, hA, hB⟩⟩ := hT.of_mk
    · obtain ⟨h1, h2, h3⟩ := ih HA rfl hA
      refine ⟨by simpa [blacks, hn] using h1, by rw [length_cons]; omega, ?_⟩
      rintro z (_ | ⟨_, hz⟩) hred b
      · obtain rfl | rfl := Side.eq_or_other b s
        · rw [hn, mk'_near, HA.isRed, hA.isRed]
        · rw [hn, mk'_far, HB, hB.isRed]
      · exact h3 z hz hred b
    · obtain ⟨h1, h2, h3⟩ := ih HA rfl hA
      refine ⟨by simpa [blacks, hn] using h1, by rw [length_cons]; omega, ?_⟩
      rintro z (_ | ⟨_, hz⟩) hred b
      · simp [hn] at hred
      · exact h3 z hz hred b

theorem SetRun.Inv.ncard {s : SetRun K} (h : s.Inv o) (ho : o.TotalOn Set.univ) :
    s.keys.Finite ∧ s.tree.sz = s.keys.ncard := by
  classical
  obtain ⟨xs, H, hs, hkeys⟩ := h
  have hset : s.keys = ↑(xs.map Prod.snd).toFinset := by
    ext a
    rw [hkeys, coe_toFinset]
    rfl
  have hnodup : (xs.map Prod.snd).Nodup := by
    refine pairwise_map.mpr (hs.imp fun {x y} hlt he => ?_)
    rw [he, ho.irrefl y.2 trivial] at hlt
    cases hlt
  refine ⟨hset ▸ Finset.finite_toSet _, ?_⟩
  rw [hset, Set.ncard_coe_finset, toFinset_card_of_nodup hnodup, length_map, H.sz]

/-- In every run whose insertions avoid the wrong case of `_insert_fixup` the tree
is red-black, with one node for every key. -/
theorem tree_red_black [Inhabited K] (o : Order K) (ho : o.TotalOn Set.univ) {s : SetRun K}
    (h : Reach (· = SetRun.init) (SetRun.step o) (SetRun.ok o) s) :
    RedBlackShape s.tree s.keys.ncard := by
  have hinv := SetRun.reach_inv ho h
  rw [← (hinv.ncard ho).2]
  obtain ⟨xs, ⟨⟨T, m, H, hT, rfl⟩, hsz⟩, -, -⟩ := hinv
  have hroot : s.tree.root = addr T := H.ctx
  constructor
  · rw [hroot, H.isRed, hT.isRed]
  · exact H.sentinel.black
  · exact fun p hp => (At.path hp H hroot hT).2.2
  · intro p q hp hq
    rw [(At.path hp H hroot hT).1, (At.path hq H hroot hT).1]
  · intro p hp
    rw [hsz, RBT.length_toList]
    exact (At.path hp H hroot hT).2.1.trans hT.height_log

def natOrder : Order Nat := ⟨fun a b => decide (a < b), fun a b => a == b⟩

theorem natOrder_total : natOrder.TotalOn Set.univ where
  eq_iff a _ b _ := beq_iff_eq
  irrefl a _ := decide_eq_false (Nat.lt_irrefl a)
  trans a _ b _ c _ h1 h2 := decide_eq_true ((of_decide_eq_true h1).trans (of_decide_eq_true h2))
  total a _ b _ := by
    obtain h | h | h := Nat.lt_trichotomy a b
    · exact .inr (.inl (decide_eq_true h))
    · exact .inl h
    · exact .inr (.inr (decide_eq_true h))

def sampleOps : List (Op Nat) :=
  [4, 2, 6, 1, 3, 5].map .insert ++ [4, 9].map .erase

theorem tree_red_black_sample :
    ∃ s, Reach (· = SetRun.init) (SetRun.step natOrder) (SetRun.ok natOrder) s ∧
      s.tree.sz = 5 ∧ RedBlackShape s.tree s.keys.ncard := by
  have hrun : (run (guarded (SetRun.step natOrder) (SetRun.ok natOrder)) .init
      sampleOps).map (·.tree.sz) = some 5 := by decide +kernel
  obtain ⟨s, hs, he⟩ := run_of_map hrun
  have hreach : Reach (· = SetRun.init) (SetRun.step natOrder) (SetRun.ok natOrder) s :=
    Reach.runGuarded (.init rfl) hs
  exact ⟨s, hreach, he, tree_red_black natOrder natOrder_total hreach⟩

/-- The eighth insertion leaves the red node of 5 below the red node of 7. -/
theorem red_below_red : ∃ s, Reach (· = SetRun.init) (SetRun.step natOrder) always s ∧
      ¬ RedBlackShape s.tree s.keys.ncard := by
  have hrun : (run (SetRun.step natOrder) .init
      ([1, 8, 0, 6, 7, 5, 2, 4].map .insert)).map (fun s => ([s.tree.root, (s.tree.node 2).r,
        (s.tree.node 6).l, (s.tree.node 7).r, (s.tree.node 5).r], (s.tree.node 6).red,
        (s.tree.node 7).red)) = some ([2, 6, 7, 5, nil], true, true) := by decide +kernel
  obtain ⟨s, hs, he⟩ := run_of_map hrun
  simp only [Prod.mk.injEq, List.cons.injEq, and_true] at he
  obtain ⟨⟨h0, h2, h6, h7, h5⟩, hred6, hred7⟩ := he
  refine ⟨s, Reach.run (.init rfl) hs, fun h => ?_⟩
  have hp5 : Path s.tree 5 [5] := .node .r (by decide) (by rw [Node.child, h5]; exact .nil)
  have hp7 : Path s.tree 7 [7, 5] := .node .r (by decide) (by rwa [Node.child, h7])
  have hp6 : Path s.tree 6 [6, 7, 5] := .node .l (by decide) (by rwa [Node.child, h6])
  have hp2 : Path s.tree 2 [2, 6, 7, 5] := .node .r (by decide) (by rwa [Node.child, h2])
  have hblack := h.red [2, 6, 7, 5] (by rwa [h0]) 6 (by decide) hred6 .l
  rw [Node.child, h6, hred7] at hblack
  cases hblack

/-! ## The set -/

/-- The nodes below `x` in order. -/
inductive Inorder (t : Rbtree K) : Nat → List Nat → Prop where
  | nil : Inorder t nil []
  | node {x : Nat} {xs ys : List Nat} : x ≠ Rbtree.nil → Inorder t (t.node x).l xs →
      Inorder t (t.node x).r ys → Inorder t x (xs ++ x :: ys)

/-- The tree with the nodes `xs` is the set `keys`. -/
structure OrderedSet (o : Order K) (t : Rbtree K) (keys : Set K) (xs : List Nat) : Prop where
  inorder : Inorder t t.root xs
  increasing : (xs.map fun x => (t.node x).key).Pairwise fun a b => o.lt a b = true
  contents : ∀ a, a ∈ keys ↔ a ∈ xs.map fun x => (t.node x).key
  size : keys.Finite ∧ t.sz = keys.ncard
  children : ∀ x ∈ xs, ∀ s, (t.node x).child s ≠ nil → (t.node ((t.node x).child s)).p = x
  parent : ∀ x ∈ xs, ((t.node x).p = nil ∧ x = t.root) ∨
    ((t.node x).p ∈ xs ∧ ∃ s, (t.node (t.node x).p).child s = x)
  sentinel : NilOk (t.node nil)

section
variable {c : Ctx K} {T : Shape K}

theorem At.inorder (H : At t c T) : Inorder t (addr T) (addrs T) := by
  induction T generalizing c with
  | nil => exact .nil
  | node red l x r ihl ihr =>
    have hn := At.node (s := .l) H
    have hl : At t (⟨.l, red, x, r⟩ :: c) l := at_up.mpr H
    have hr : At t (⟨.r, red, x, l⟩ :: c) r := at_up.mpr H
    rw [addrs, RBT.toList, map_append, map_cons]
    exact .node (At.root_ne_nil (s := .l) H) (by rw [addr, hn]; exact ihl hl)
      (by rw [addr, hn]; exact ihr hr)

theorem Holds.inorder (H : Holds t xs) : Inorder t t.root (xs.map Prod.fst) := by
  obtain ⟨⟨T, m, HT, -, rfl⟩, -⟩ := H
  have hroot : t.root = addr T := HT.ctx
  exact hroot ▸ HT.inorder

theorem Inorder.unique {as bs : List Nat} (h : Inorder t x as) (h' : Inorder t x bs) : as = bs := by
  induction h generalizing bs with
  | nil =>
    cases h' with
    | nil => rfl
    | node hne => exact absurd rfl hne
  | node hne _ _ ihl ihr =>
    cases h' with
    | nil => exact absurd rfl hne
    | node _ hl hr => rw [ihl hl, ihr hr]

/-- A tree in memory has one sequence of nodes. -/
theorem Holds.unique {ys : List (Nat × K)} (H : Holds t xs) (H' : Holds t ys) : xs = ys := by
  have hkeys {zs : List (Nat × K)} (h : Holds t zs) :
      zs = (zs.map Prod.fst).map fun a => (a, (t.node a).key) := by
    rw [map_map]
    refine (map_id _).symm.trans (map_congr_left fun z hz => ?_)
    simp [h.key hz]
  rw [hkeys H, hkeys H', H.inorder.unique H'.inorder]

/-- Every node of the tree is read at a place of its own. -/
theorem At.exists_at {x : Nat × K} (H : At t [] T) (hx : x ∈ T.toList) (s : Side) :
    ∃ c red A B, T = plug c (.mk s red A x B) ∧ At t c (.mk s red A x B) := by
  obtain ⟨c, red, l, r, rfl⟩ := exists_plug hx
  have hc := at_root.mpr H
  cases s with
  | l => exact ⟨c, red, l, r, rfl, hc⟩
  | r => exact ⟨c, red, r, l, rfl, hc⟩

theorem Linked.inorder (H : Linked t xs) : Inorder t t.root (xs.map Prod.fst) := by
  obtain ⟨⟨T, HT, -, rfl⟩, -⟩ := H
  have hroot : t.root = addr T := HT.ctx
  exact hroot ▸ HT.inorder

theorem Linked.key {x : Nat × K} (H : Linked t xs) (hx : x ∈ xs) : (t.node x.1).key = x.2 := by
  obtain ⟨⟨T, HT, -, rfl⟩, -⟩ := H
  obtain ⟨c, red, A, B, -, Hx⟩ := HT.exists_at hx .l
  rw [Hx.node, mk'_key]

theorem At.keys (H : At t [] T) :
    ((addrs T).map fun x => (t.node x).key) = T.toList.map Prod.snd := by
  rw [addrs, map_map]
  refine map_congr_left fun x hx => ?_
  obtain ⟨c, red, A, B, -, Hx⟩ := H.exists_at hx .l
  rw [Function.comp_apply, Hx.node, mk'_key]

theorem At.children (H : At t [] T) (hx : x ∈ addrs T) (s : Side)
    (hne : (t.node x).child s ≠ Rbtree.nil) : (t.node ((t.node x).child s)).p = x := by
  obtain ⟨y, hy, rfl⟩ := mem_map.mp hx
  obtain ⟨c, red, A, B, -, Hy⟩ := H.exists_at hy s
  have HA : At t (⟨s, red, y, B⟩ :: c) A := at_up.mpr Hy
  rw [Hy.node, mk'_near] at hne ⊢
  exact HA.parent fun h => hne (HA.addr_eq_nil.mpr h)

theorem At.parent_mem (H : At t [] T) (hx : x ∈ addrs T) :
    ((t.node x).p = Rbtree.nil ∧ x = t.root) ∨
      ((t.node x).p ∈ addrs T ∧ ∃ s, (t.node (t.node x).p).child s = x) := by
  obtain ⟨y, hy, rfl⟩ := mem_map.mp hx
  obtain ⟨c, red, A, B, rfl, Hy⟩ := H.exists_at hy .l
  cases c with
  | nil =>
    have hroot := Hy.ctx
    rw [addr_mk] at hroot
    exact .inl ⟨by rw [Hy.node, mk'_p]; rfl, hroot.symm⟩
  | cons f c =>
    have hp : (t.node y.1).p = f.x.1 := by rw [Hy.node, mk'_p]; rfl
    refine .inr ⟨?_, f.side, ?_⟩
    · rw [hp, (addrs_plug _ _).mem_iff, mem_append]
      exact .inr (mem_addrsC_cons.mpr (.inl rfl))
    · rw [hp, At.node_up (s := f.side) Hy, mk'_near, addr_mk]

end

/-- In every run whose insertions avoid the wrong case of `_insert_fixup` the tree
is the set of its keys, and every further operation that avoids it returns. -/
theorem tree_is_set [Inhabited K] (o : Order K) (ho : o.TotalOn Set.univ) {s : SetRun K}
    (h : Reach (· = SetRun.init) (SetRun.step o) (SetRun.ok o) s) :
    (∃ xs, OrderedSet o s.tree s.keys xs) ∧ ∀ a, s.ok o a → (s.step o a).isSome := by
  have hinv := SetRun.reach_inv ho h
  have hsize := hinv.ncard ho
  constructor
  · obtain ⟨xs, ⟨⟨T, m, H, -, rfl⟩, -⟩, hs, hkeys⟩ := hinv
    have hroot : s.tree.root = addr T := H.ctx
    refine ⟨addrs T, hroot ▸ H.inorder, ?_, ?_, hsize, fun x hx => H.children hx,
      fun x hx => H.parent_mem hx, H.sentinel⟩
    · rw [H.keys]
      exact pairwise_map.mpr hs
    · rwa [H.keys]
  · intro a hok
    obtain ⟨s', hs', -⟩ := SetRun.step_inv ho hinv hok
    rw [hs']
    rfl

theorem tree_is_set_sample :
    ∃ s, Reach (· = SetRun.init) (SetRun.step natOrder) (SetRun.ok natOrder) s ∧
      s.tree.sz = 5 ∧ (∃ xs, OrderedSet natOrder s.tree s.keys xs) ∧
      ∀ a, s.ok natOrder a → (s.step natOrder a).isSome := by
  have hrun : (run (guarded (SetRun.step natOrder) (SetRun.ok natOrder)) .init
      sampleOps).map (·.tree.sz) = some 5 := by decide +kernel
  obtain ⟨s, hs, he⟩ := run_of_map hrun
  have hreach : Reach (· = SetRun.init) (SetRun.step natOrder) (SetRun.ok natOrder) s :=
    Reach.runGuarded (.init rfl) hs
  exact ⟨s, hreach, he, tree_is_set natOrder natOrder_total hreach⟩

/-- After a red node below a red node, three erasures paint the sentinel red. -/
theorem sentinel_red : ∃ s, Reach (· = SetRun.init) (SetRun.step natOrder) always s ∧
      ¬ ∃ xs, OrderedSet natOrder s.tree s.keys xs := by
  have hrun : (run (SetRun.step natOrder) .init
      ([7, 10, 11, 9, 1, 5, 0, 2].map .insert ++ [9, 10, 7].map .erase)).map
        (fun s => (s.tree.node nil).red) = some true := by decide +kernel
  obtain ⟨s, hs, he⟩ := run_of_map hrun
  refine ⟨s, Reach.run (.init rfl) hs, fun ⟨xs, h⟩ => ?_⟩
  have hblack := h.sentinel.black
  rw [he] at hblack
  cases hblack

end Sysint.Rbtree
