import Sysint.Rbtree.Repr

/-! `insert`: the new node is linked at a leaf and `_insert_fixup` makes the tree
red-black again, in all cases but one. -/
namespace Sysint.Rbtree
open RedBlack Option
open List hiding after

variable {K : Type} {t : Rbtree K} {o : Order K} {c : Ctx K} {T : Shape K} {xs : List (Nat × K)}
  {k : K} {z : Nat × K}

/-! ## The new node -/

theorem At.alloc (H : At t c T) (k : K) : At (t.alloc k) c T := by
  have he (a : Nat) (ha : a < t.fresh) : (t.alloc k).node a = t.node a :=
    Function.update_of_ne ha.ne ..
  constructor
  · exact H.tree.congr fun a ha => he a (H.range a (List.mem_append_left _ ha)).2
  · exact H.ctx.congr fun a ha => he a (H.range a (List.mem_append_right _ ha)).2
  · exact H.nodup
  · exact fun a ha => ⟨(H.range a ha).1, Nat.lt_succ_of_lt (H.range a ha).2⟩
  · exact Nat.lt_succ_of_lt H.made
  · rw [he _ H.made]
    exact H.sentinel

theorem attach_eq {z : Nat} (H : At t c .nil) (hz : z ∉ addrsC c)
    (hside : ∀ f d, c = f :: d → f.side = if o.lt k f.x.2 then .l else .r) :
    attach o t k z (up c) = (t.setP z (up c)).relink c z := by
  cases c with
  | nil => rfl
  | cons f c =>
    have hne : f.x.1 ≠ z := fun h => hz (mem_addrsC_cons.mpr (.inl h.symm))
    have hkey : ((t.setP z f.x.1).node f.x.1).key = f.x.2 := by
      rw [setP_node_ne _ _ hne, H.node_up, mk'_key]
    simp only [attach, up, up_ne_nil H, if_false, hkey, relink, hside f c rfl]
    split_ifs <;> rfl

theorem same_attach (o : Order K) (t : Rbtree K) (k : K) (z y : Nat) :
    Same t (attach o t k z y) := by
  unfold Rbtree.attach
  simp only
  split_ifs <;> exact ⟨rfl, rfl⟩

theorem At.attach {z q : Nat} (H : At t c .nil) (hn : t.node z = ⟨k, true, nil, nil, q⟩)
    (hz : z ∉ addrsC c) (hr : nil < z ∧ z < t.fresh)
    (hside : ∀ f d, c = f :: d → f.side = if o.lt k f.x.2 then .l else .r) :
    At (attach o t k z (up c)) c (.node true .nil (z, k) .nil) := by
  rw [attach_eq H hz hside]
  have hnil : (t.setP z (up c)).node nil = t.node nil := setP_node_ne _ _ hr.1.ne
  have H' : At (t.setP z (up c)) c .nil := H.modify_out _ (by simpa using hz) (hnil ▸ H.sentinel)
  have hsame : Same (t.setP z (up c)) ((t.setP z (up c)).relink c z) := same_relink ..
  refine ⟨⟨?_, trivial, trivial⟩, H'.ctx.relink ?_ z, ?_, ?_, ?_, ?_⟩
  · rw [relink_node _ _ _ hz, setP_node, hn]
    rfl
  · exact (nodup_append.mp H.nodup).2.1
  · exact nodup_cons.mpr ⟨hz, (nodup_append.mp H.nodup).2.1⟩
  · rintro a (_ | ⟨_, ha⟩)
    · rw [hsame.fresh]
      exact hr
    · rw [hsame.fresh]
      exact H.range a ha
  · rw [hsame.fresh]
    exact H.made
  · rw [relink_node _ _ _ fun h => H.nil_not_mem (List.mem_append_right _ h)]
    exact H'.sentinel

/-! ## Repair -/

section
variable {s b : Side} {d : Bool} {p g m : Nat × K} {S U C N : Shape K}

/-- The loop ends below a black node. -/
theorem At.insertFixup_black (H : At t c T) (hT : T ≠ .nil)
    (hup : c.head?.elim false Frame.red = false)
    (fuel : Nat) :
    ∃ t', insertFixup (fuel + 1) t (addr T) = some t' ∧ At t' [] (plug c T).blacken ∧
      Same t t' := by
  have H0 := at_root.mp H
  have hroot : t.root = addr (plug c T) := H0.ctx
  have hloop : (t.node (t.node (addr T)).p).red = false := by rw [H.parent hT, H.up_red, hup]
  refine ⟨t.setRed t.root false, by simp [insertFixup, hloop], ?_, same_modify ..⟩
  rw [hroot]
  exact H0.blacken

/-- A red uncle: the grandparent becomes red. -/
theorem At.insertFix_red (H : At t (⟨s, true, p, S⟩ :: ⟨b, d, g, U⟩ :: c) T) (hT : T ≠ .nil)
    (hU : U.isRed = true) : (t.insertFix b (addr T)).2 = addr T ∧
      At (t.insertFix b (addr T)).1 (⟨s, false, p, S⟩ :: ⟨b, true, g, U.blacken⟩ :: c) T ∧
      Same t (t.insertFix b (addr T)).1 := by
  have Hg := at_up.mp H
  have Hu := at_sib.mp Hg
  have hp : (t.node (addr T)).p = p.1 := H.parent hT
  have hg : (t.node p.1).p = g.1 := by rw [H.node_up, mk'_p]; rfl
  have hu : (t.node g.1).child b.other = addr U := by rw [Hg.node_up, mk'_far]
  have hred : (t.node (addr U)).red = true := by rw [Hu.isRed, hU]
  have hne : p.1 ≠ addr U := by
    have h := Hg.addr_ne_sib (.inl (mk_ne_nil))
    rwa [Frame.fill, addr_mk] at h
  have H1 := H.setRed_up false
  have H2 := at_sib.mpr (at_sib.mp (at_up.mp H1)).blacken
  have H3 := at_up.mpr (H2.setRed_up true)
  simp only [insertFix, hp, hg, hu, hred, if_true, true_and]
  have hg' : (((t.setRed p.1 false).setRed (addr U) false).node p.1).p = g.1 := by
    rw [setRed_node_ne _ _ hne, setRed_node, hg]
  rw [hg']
  exact ⟨H3, rfl, rfl⟩

/-- A black uncle and a new node on the outer side. -/
theorem At.insertFixOuter (H : At t (⟨b, true, m, C⟩ :: ⟨b, d, g, U⟩ :: c) N) (hN : N ≠ .nil) :
    At (t.insertFixOuter b (addr N)) c (.mk b.other false (.mk b.other true U g C) m N) ∧
      Same t (t.insertFixOuter b (addr N)) := by
  have H1 := H.setRed_up false
  have H2 := at_up.mpr ((at_up.mp H1).setRed_up true)
  have hm : (t.node (addr N)).p = m.1 := H.parent hN
  have hm1 : ((t.setRed m.1 false).node (addr N)).p = m.1 := H1.parent hN
  have hg1 : ((t.setRed m.1 false).node m.1).p = g.1 := by rw [H1.node_up, mk'_p]; rfl
  have hm2 : (((t.setRed m.1 false).setRed g.1 true).node (addr N)).p = m.1 := H2.parent hN
  have hg2 : (((t.setRed m.1 false).setRed g.1 true).node m.1).p = g.1 := by
    rw [H2.node_up, mk'_p]; rfl
  simp only [Rbtree.insertFixOuter, hm, hm1, hg1, hm2, hg2]
  have H3 : At ((t.setRed m.1 false).setRed g.1 true) c
      (.mk b.other true U g (.mk b.other false C m N)) := by
    simpa only [Frame.fill, mk_other] using at_up.mp (at_up.mp H2)
  have hs := same_rotate ((t.setRed m.1 false).setRed g.1 true) b.other g.1
  exact ⟨H3.rotate.1, hs.sz, hs.fresh⟩

/-- A new node on the outer side stays there. -/
theorem At.insertFixInner_outer {A B : Shape K}
    (H : At t (⟨b, true, p, S⟩ :: ⟨b, d, g, U⟩ :: c) (.mk b true A z B)) :
    t.insertFixInner b z.1 = (t, z.1) := by
  have hp : (t.node z.1).p = p.1 := by rw [H.node, mk'_p]; rfl
  have hside := H.addr_ne_sib (.inl (mk_ne_nil))
  rw [addr_mk] at hside
  simp only [Rbtree.insertFixInner, hp]
  rw [if_neg (by rwa [H.node_up, mk'_far])]

/-- A new node on the inner side changes places with its parent. -/
theorem At.insertFixInner_inner {A B : Shape K}
    (H : At t (⟨b.other, true, p, S⟩ :: ⟨b, d, g, U⟩ :: c) (.mk b true A z B)) :
    (t.insertFixInner b z.1).2 = p.1 ∧
      At (t.insertFixInner b z.1).1 (⟨b, true, z, B⟩ :: ⟨b, d, g, U⟩ :: c) (.mk b true S p A) ∧
      Same t (t.insertFixInner b z.1).1 := by
  have hp : (t.node z.1).p = p.1 := by rw [H.node, mk'_p]; rfl
  simp only [Rbtree.insertFixInner, hp]
  rw [if_pos (by rw [H.node_up, mk'_near, addr_mk])]
  have H1 := at_up.mp H
  simp only [Frame.fill, mk_other] at H1
  exact ⟨rfl, at_up.mpr H1.rotate.1, same_rotate ..⟩

end

/-- What `_insert_fixup` gets wrong: the parent `y` of the new node is red, its
sibling is red, and the parent of the node that turns red is red too. -/
def leavesRed (t : Rbtree K) (y : Nat) : Bool :=
  let g := (t.node y).p
  let u := (t.node g).child (if y = (t.node g).l then Side.l else .r).other
  (t.node y).red && (t.node u).red && (t.node (t.node g).p).red

def leavesRedC : Ctx K → Bool
  | f :: g :: c => f.red && g.sib.isRed && c.head?.elim false Frame.red
  | _ => false

theorem At.leavesRed (H : At t c T) : t.leavesRed (up c) = leavesRedC c := by
  match c, H with
  | [], H =>
    have hnil : (t.node Rbtree.nil).red = false := H.sentinel.black
    simp [Rbtree.leavesRed, leavesRedC, up, hnil]
  | [f], H =>
    have hp : (t.node f.x.1).p = Rbtree.nil := by rw [H.node_up, mk'_p]; rfl
    have hu (s : Side) : (t.node Rbtree.nil).child s = Rbtree.nil := by
      cases s with
      | l => exact H.sentinel.l
      | r => exact H.sentinel.r
    simp [Rbtree.leavesRed, leavesRedC, up, hp, hu, H.sentinel.black]
  | f :: g :: c, H =>
    have Hg := at_up.mp H
    have hside := Hg.side (.inl mk_ne_nil)
    have hred := (at_sib.mp Hg).isRed
    have hp : (t.node f.x.1).p = g.x.1 := by rw [H.node_up, mk'_p]; rfl
    have hf : (t.node f.x.1).red = f.red := by rw [H.node_up, mk'_red]
    rw [Frame.fill, addr_mk] at hside
    simp only [Rbtree.leavesRed, leavesRedC, up, hp, hf, hside]
    rw [Hg.node_up, mk'_far, mk'_p, hred, (at_up.mp Hg).up_red]

section
variable {s b : Side} {d : Bool} {p g z : Nat × K} {S U A B : Shape K}

section

variable (H : At t (⟨s, true, p, S⟩ :: ⟨b, d, g, U⟩ :: c) T)
include H

/-- A round of the loop with a red parent. -/
theorem At.insertFixup_round (hT : T ≠ .nil)
    (fuel : Nat) : Rbtree.insertFixup (fuel + 1) t (addr T) =
      Rbtree.insertFixup fuel (t.insertFix b (addr T)).1 (t.insertFix b (addr T)).2 := by
  have hp : (t.node (addr T)).p = p.1 := H.parent hT
  have hg : (t.node p.1).p = g.1 := by rw [H.node_up, mk'_p]; rfl
  have hred : (t.node p.1).red = true := by rw [H.node_up, mk'_red]
  have hside := (at_up.mp H).side (.inl mk_ne_nil)
  rw [Frame.fill, addr_mk] at hside
  rw [Rbtree.insertFixup]
  simp [hp, hred, hg, hside]

/-- The loop stops after the colours have changed, even below a red node. -/
theorem At.insertFixup_redUncle (hT : T ≠ .nil)
    (hU : U.isRed = true) (fuel : Nat) : ∃ t', Rbtree.insertFixup (fuel + 2) t (addr T) = some t' ∧
      At t' [] (plug c (.mk b true (.mk s false T p S) g U.blacken)).blacken ∧ Same t t' := by
  obtain ⟨he, H1, hs1⟩ := H.insertFix_red hT hU
  obtain ⟨t', he', H', hs'⟩ := H1.insertFixup_black hT rfl fuel
  exact ⟨t', by rw [H.insertFixup_round hT, he, he'], H', hs1.trans hs'⟩

/-- With a black uncle the loop ends after the rotation of the grandparent. -/
theorem At.insertFixup_rotated {t1 : Rbtree K} {m : Nat × K} {C N : Shape K}
    (hT : T ≠ .nil) (hU : U.isRed = false)
    (hin : t.insertFixInner b (addr T) = (t1, addr N))
    (H1 : At t1 (⟨b, true, m, C⟩ :: ⟨b, d, g, U⟩ :: c) N) (hs1 : Same t t1) (hN : N ≠ .nil)
    (fuel : Nat) : ∃ t', Rbtree.insertFixup (fuel + 2) t (addr T) = some t' ∧
      At t' [] (plug c (.mk b false N m (.mk b.other true U g C))).blacken ∧ Same t t' := by
  obtain ⟨H2, hs2⟩ := H1.insertFixOuter hN
  have hp : (t.node (addr T)).p = p.1 := H.parent hT
  have hred : (t.node ((t.node (t.node (t.node (addr T)).p).p).child b.other)).red = false := by
    rw [hp, H.node_up, mk'_p, up, (at_up.mp H).node_up, mk'_far]
    exact (at_sib.mp (at_up.mp H)).isRed.trans hU
  have hfix : t.insertFix b (addr T) = (t1.insertFixOuter b (addr N), addr N) := by
    simp [insertFix, hred, hin]
  have H3 : At (t1.insertFixOuter b (addr N)) (⟨b, false, m, .mk b.other true U g C⟩ :: c) N :=
    at_up.mpr (by rwa [mk_other] at H2)
  obtain ⟨t', he', H', hs'⟩ := H3.insertFixup_black hN rfl fuel
  refine ⟨t', ?_, H', hs1.trans (hs2.trans hs')⟩
  rw [H.insertFixup_round hT, hfix, he']

end

end

/-- The tree that `_insert_fixup` leaves after a red leaf was linked at `c`. -/
def fixed (z : Nat × K) : Ctx K → Shape K
  | ⟨s, true, p, S⟩ :: ⟨b, _, g, U⟩ :: c =>
    if U.isRed then
      (plug c (.mk b true (.mk s false (.node true .nil z .nil) p S) g U.blacken)).blacken
    else if s = b then
      (plug c (.mk b false (.mk b true .nil z .nil) p (.mk b.other true U g S))).blacken
    else (plug c (.mk b false (.mk b true S p .nil) z (.mk b.other true U g .nil))).blacken
  | c => (plug c (.node true .nil z .nil)).blacken

theorem fixed_black (h : c.head?.elim false Frame.red = false) :
    fixed z c = (plug c (.node true .nil z .nil)).blacken := by
  match c, h with
  | [], _ => rfl
  | [⟨s, false, p, S⟩], _ => rfl
  | ⟨s, false, p, S⟩ :: g :: c, _ => rfl

/-- A tree with a black root has no red parent without a grandparent. -/
theorem red_parent_cases (hroot : (plug c (.nil : Shape K)).isRed = false) :
    c.head?.elim false Frame.red = false ∨
      ∃ s p S g d, c = ⟨s, true, p, S⟩ :: g :: d := by
  match c, hroot with
  | [], _ => exact .inl rfl
  | [⟨s, d, p, S⟩], hroot =>
    left
    simpa [plug, Frame.fill] using hroot
  | ⟨s, false, p, S⟩ :: g :: c, _ => exact .inl rfl
  | ⟨s, true, p, S⟩ :: g :: c, _ => exact .inr ⟨s, p, S, g, c, rfl⟩

/-- `_insert_fixup` after a red leaf was linked at `c`, whatever the other colours are. -/
theorem At.insertFixup (H : At t c (.node true .nil z .nil))
    (hroot : (plug c (.nil : Shape K)).isRed = false) (fuel : Nat) :
    ∃ t', insertFixup (fuel + 2) t z.1 = some t' ∧ At t' [] (fixed z c) ∧ Same t t' := by
  have hne : RBT.node true .nil z .nil ≠ .nil := mk_ne_nil (s := .l)
  obtain hup | ⟨s, p, S, ⟨b, d, g, U⟩, c, rfl⟩ := red_parent_cases hroot
  · rw [fixed_black hup]
    exact H.insertFixup_black hne hup (fuel + 1)
  cases hU : U.isRed with
  | true =>
    rw [fixed, if_pos hU]
    exact H.insertFixup_redUncle hne hU fuel
  | false =>
    have hmk : RBT.node true .nil z .nil = .mk b true .nil z .nil := by cases b <;> rfl
    rw [fixed, if_neg (by simp [hU])]
    rw [hmk] at H hne
    have haddr : addr (.mk b true .nil z .nil) = z.1 := addr_mk ..
    rw [← haddr]
    obtain rfl | rfl := Side.eq_or_other s b
    · rw [if_pos rfl]
      refine H.insertFixup_rotated hne hU ?_ H (.refl t) hne fuel
      rw [haddr]
      exact H.insertFixInner_outer
    rw [if_neg (by cases b <;> decide)]
    obtain ⟨he, H1, hs1⟩ := H.insertFixInner_inner
    refine H.insertFixup_rotated hne hU (Prod.ext rfl ?_) (haddr.symm ▸ H1) (haddr.symm ▸ hs1)
      mk_ne_nil fuel
    rw [haddr, addr_mk]
    exact he

theorem isRed_blacken (T : Shape K) : T.blacken.isRed = false := by cases T <;> rfl

theorem isRed_fixed (z : Nat × K) (c : Ctx K) : (fixed z c).isRed = false := by
  unfold fixed
  split
  · split_ifs <;> exact isRed_blacken _
  · exact isRed_blacken _

/-- The new node comes where it was linked. -/
theorem toList_fixed (z : Nat × K) (c : Ctx K) : (fixed z c).toList = before c ++ z :: after c := by
  have hlist (c : Ctx K) : (plug c (.node true .nil z .nil)).toList = before c ++ z :: after c := by
    simp [toList_plug, RBT.toList]
  unfold fixed
  split
  · rename_i s p S b d g U c
    rw [← hlist]
    split_ifs with hU hs
    · rw [RBT.toList_blacken, plug, plug]
      apply toList_plug_congr
      simp [Frame.fill, RBT.toList_mk, RBT.toList_blacken]
    · subst hs
      rw [RBT.toList_blacken, plug, plug]
      apply toList_plug_congr
      simp only [Frame.fill, mk_other]
      cases s <;> simp [RBT.mk, RBT.toList]
    · obtain rfl : s = b.other := (Side.eq_or_other s b).resolve_left hs
      rw [RBT.toList_blacken, plug, plug]
      apply toList_plug_congr
      simp only [Frame.fill, mk_other]
      cases b <;> simp [RBT.mk, RBT.toList]
  · rw [RBT.toList_blacken, hlist]

/-- In a red-black tree all colours are right again, in all cases but one. -/
theorem rb_fixed (hc : Fits c false 0) (hok : leavesRedC c = false) :
    ∃ m, RB (fixed z c) false m := by
  have hz : RB (.node true .nil z .nil) true 0 := .red .nil .nil
  cases hc with
  | root => exact Fits.root.plug_red rfl hz
  | black hs hc =>
    rw [fixed_black rfl]
    exact (Fits.black hs hc).plug_red rfl hz
  | red hS hc =>
    cases hc with
    | @black b g U c d _ _ hU hc =>
      rw [fixed]
      split_ifs with hred hs
      · rw [hU.isRed] at hred
        subst hred
        have hup : c.head?.elim false Frame.red = false := by rwa [leavesRedC, hU.isRed] at hok
        exact hc.plug_red hup (.mk_red (.mk_black hz hS) hU.blacken)
      all_goals
        rw [hU.isRed] at hred
        obtain rfl : d = false := by simpa using hred
      · obtain ⟨k, hk⟩ := hc.plug (.mk_black (.mk_red .nil .nil) (.mk_red hU hS))
        exact ⟨k, hk.blacken_eq.symm ▸ hk⟩
      · obtain ⟨k, hk⟩ := hc.plug (.mk_black (.mk_red hS .nil) (.mk_red hU .nil))
        exact ⟨k, hk.blacken_eq.symm ▸ hk⟩

/-! ## The whole operation -/

/-- The tree in memory is red-black, and `xs` are its nodes in order. -/
structure Holds (t : Rbtree K) (xs : List (Nat × K)) : Prop where
  tree : ∃ T m, At t [] T ∧ RB T false m ∧ T.toList = xs
  sz : t.sz = xs.length

/-- `xs` are the nodes of the tree in memory in order; of the colours only that of the root
matters. -/
structure Linked (t : Rbtree K) (xs : List (Nat × K)) : Prop where
  tree : ∃ T, At t [] T ∧ T.isRed = false ∧ T.toList = xs
  sz : t.sz = xs.length

theorem Holds.linked (H : Holds t xs) : Linked t xs := by
  obtain ⟨⟨T, m, HT, hRB, hT⟩, hsz⟩ := H
  exact ⟨⟨T, HT, hRB.isRed, hT⟩, hsz⟩

/-- On the keys in `S`, `<` is a strict total order and `==` is equality. -/
structure Order.TotalOn (o : Order K) (S : Set K) : Prop where
  eq_iff : ∀ a ∈ S, ∀ b ∈ S, o.eq a b = true ↔ a = b
  irrefl : ∀ a ∈ S, o.lt a a = false
  trans : ∀ a ∈ S, ∀ b ∈ S, ∀ c ∈ S, o.lt a b = true → o.lt b c = true → o.lt a c = true
  total : ∀ a ∈ S, ∀ b ∈ S, a = b ∨ o.lt a b = true ∨ o.lt b a = true

/-- Keys in increasing order. -/
def Order.Sorted (o : Order K) (xs : List (Nat × K)) : Prop :=
  xs.Pairwise fun x y => o.lt x.2 y.2 = true

theorem Order.Sorted.insert {ys zs : List (Nat × K)} {x : Nat × K} (hs : o.Sorted (ys ++ zs))
    (hys : ∀ y ∈ ys, o.lt y.2 x.2 = true) (hzs : ∀ z ∈ zs, o.lt x.2 z.2 = true) :
    o.Sorted (ys ++ x :: zs) := by
  unfold Order.Sorted at hs ⊢
  simp only [pairwise_append, pairwise_cons, mem_cons] at hs ⊢
  refine ⟨hs.1, ⟨hzs, hs.2.1⟩, fun y hy z hz => ?_⟩
  obtain rfl | hz := hz
  · exact hys y hy
  · exact hs.2.2 y hy z hz

/-- The next `insert` of `k` avoids the case `_insert_fixup` gets wrong. -/
def insertOk (o : Order K) (t : Rbtree K) (k : K) : Bool :=
  (locate o t k).all fun r => r.1 != nil || !t.leavesRed r.2

theorem At.locate (H : At t [] T) (k : K) : locate o t k =
      some (addr (RedBlack.locate (fun x => o.eq k x.2) (fun x => o.lt k x.2) [] T).2,
        up (RedBlack.locate (fun x => o.eq k x.2) (fun x => o.lt k x.2) [] T).1) := by
  have hroot : t.root = addr T := H.ctx
  have hlen := H.size_le
  have hh := T.height_le_size
  rw [Rbtree.locate, hroot]
  exact H.walk (by omega)

namespace Order.TotalOn

theorem mono {S R : Set K} (ho : o.TotalOn S) (h : R ⊆ S) : o.TotalOn R where
  eq_iff a ha b hb := ho.eq_iff a (h ha) b (h hb)
  irrefl a ha := ho.irrefl a (h ha)
  trans a ha b hb c hc := ho.trans a (h ha) b (h hb) c (h hc)
  total a ha b hb := ho.total a (h ha) b (h hb)

variable {S : Set K} (ho : o.TotalOn S) {a b k : K} (ha : a ∈ S) (hb : b ∈ S) (hk : k ∈ S)
include ho

include ha hb in
theorem asymm (h : o.lt a b = true) : o.lt b a = false := by
  cases hba : o.lt b a with
  | false => rfl
  | true => exact (ho.trans a ha b hb a ha h hba).symm.trans (ho.irrefl a ha)

include ha hb in
theorem eq_false (h : o.lt a b = true) : o.eq a b = false := by
  cases he : o.eq a b with
  | false => rfl
  | true =>
    rw [(ho.eq_iff a ha b hb).mp he, ho.irrefl b hb] at h
    cases h

include ha hb in
theorem eq_false_symm (h : o.lt a b = true) : o.eq b a = false := by
  cases he : o.eq b a with
  | false => rfl
  | true =>
    rw [(ho.eq_iff b hb a ha).mp he, ho.irrefl a ha] at h
    cases h

include ha hb in
theorem lt_of_not (h : o.lt a b = false) (he : o.eq a b = false) : o.lt b a = true := by
  obtain rfl | hab | hba := ho.total a ha b hb
  · rw [(ho.eq_iff a ha a ha).mpr rfl] at he
    cases he
  · rw [h] at hab
    cases hab
  · exact hba

include ha hb hk in
/-- What is above a key that is above `k` is above `k`. -/
theorem locate_up (h : o.lt a b = true) (hka : o.lt k a = true) :
    o.lt k b = true ∧ o.eq k b = false := by
  have hkb := ho.trans k hk a ha b hb hka h
  exact ⟨hkb, ho.eq_false hk hb hkb⟩

include ha hb hk in
theorem locate_down (h : o.lt a b = true) (hkb : o.lt k b = false) (he : o.eq k b = false) :
    o.lt k a = false ∧ o.eq k a = false := by
  have hak := ho.trans a ha b hb k hk h (ho.lt_of_not hk hb hkb he)
  exact ⟨ho.asymm ha hk hak, ho.eq_false_symm ha hk hak⟩

end Order.TotalOn

/-- A search that finds no equal key ends at the place of the key in the order. -/
theorem split_sorted (ho : o.TotalOn {a | a = k ∨ a ∈ T.toList.map Prod.snd})
    (hs : o.Sorted T.toList)
    (hloc : RedBlack.locate (fun x => o.eq k x.2) (fun x => o.lt k x.2) [] T = (c, .nil)) :
    (∀ y ∈ before c, o.lt y.2 k = true) ∧ (∀ z ∈ after c, o.lt k z.2 = true) := by
  have hk : k ∈ {a | a = k ∨ a ∈ T.toList.map Prod.snd} := .inl rfl
  have hm {x : Nat × K} (hx : x ∈ T.toList) : x.2 ∈ {a | a = k ∨ a ∈ T.toList.map Prod.snd} :=
    .inr (List.mem_map_of_mem hx)
  have hs' : T.toList.Pairwise fun x y => x ∈ T.toList ∧ y ∈ T.toList ∧ o.lt x.2 y.2 = true :=
    List.Pairwise.and_mem.mp hs
  obtain ⟨ys, zs, hT, hb, ha, hys, hzs⟩ := split_of_locate
    (fun x y h hka _ => ho.locate_up (hm h.1) (hm h.2.1) hk h.2.2 hka)
    (fun x y h hkb he => ho.locate_down (hm h.1) (hm h.2.1) hk h.2.2 hkb he) hs' hloc
  simp only [before, after, List.nil_append, List.append_nil] at hb ha
  rw [hb, ha]
  refine ⟨fun y hy => ?_, fun z hz => (hzs z hz).1⟩
  exact ho.lt_of_not hk (hm (hT ▸ List.mem_append_left _ hy)) (hys y hy).1 (hys y hy).2

theorem At.setSz (H : At t c T) (n : Nat) : At { t with sz := n } c T :=
  ⟨H.tree, H.ctx, H.nodup, H.range, H.made, H.sentinel⟩

/-- A new node goes to the leaf where the search ends. -/
theorem At.insert_new (H : At t [] T) (hroot : T.isRed = false)
    (hloc : RedBlack.locate (fun x => o.eq k x.2) (fun x => o.lt k x.2) [] T = (c, .nil)) :
    ∃ t', insert o t k = some (t', t.fresh) ∧ At t' [] (fixed (t.fresh, k) c) ∧
      t'.sz = t.sz + 1 ∧ t'.fresh = t.fresh + 1 := by
  have hplug := plug_locate (fun x => o.eq k x.2) (fun x => o.lt k x.2) [] T
  rw [hloc] at hplug
  obtain rfl : plug c .nil = T := hplug
  have Hc : At t c .nil := at_root.mpr H
  have HA : At (t.alloc k) c .nil := Hc.alloc k
  have hla := (H.alloc k).locate (o := o) k
  rw [hloc] at hla
  have hz : t.fresh ∉ addrsC c := fun h =>
    absurd (Hc.range _ (List.mem_append_right _ h)).2 (Nat.lt_irrefl _)
  have hside (f : Frame (Nat × K)) (d : Ctx K) (hf : c = f :: d) :
      f.side = if o.lt k f.x.2 then .l else .r := by
    subst hf
    exact side_of_locate hloc fun _ _ h => absurd h.symm (cons_ne_nil _ _)
  have Hz := HA.attach (o := o) (Function.update_self ..) hz ⟨H.made, Nat.lt_succ_self _⟩ hside
  obtain ⟨t', hfix, H', hs'⟩ := Hz.insertFixup hroot (t.fresh - 1)
  have hfuel : t.fresh - 1 + 2 = (t.alloc k).fresh := by
    have h := H.made
    change _ = t.fresh + 1
    omega
  have hsame := (same_attach o (t.alloc k) k t.fresh (up c)).trans hs'
  refine ⟨{ t' with sz := t.sz + 1 }, ?_, H'.setSz _, rfl, hsame.fresh⟩
  rw [hfuel] at hfix
  simp only [insert, hla, bind_some, addr, ne_eq, not_true_eq_false, if_false, hfix,
    map_some, hsame.sz]
  rfl

/-- The place where the search for the key ends: at a node with an equal key, or at a leaf. -/
theorem At.insert (H : At t [] T) (hroot : T.isRed = false) :
    (∃ x ∈ T.toList, o.eq k x.2 = true ∧ insert o t k = some (t.alloc k, x.1)) ∨
    (∃ c t', RedBlack.locate (fun x => o.eq k x.2) (fun x => o.lt k x.2) [] T = (c, .nil) ∧
      T = plug c .nil ∧ insert o t k = some (t', t.fresh) ∧ At t' [] (fixed (t.fresh, k) c) ∧
      t'.sz = t.sz + 1 ∧ t'.fresh = t.fresh + 1) := by
  have hplug := plug_locate (fun x => o.eq k x.2) (fun x => o.lt k x.2) [] T
  have hl := (H.alloc k).locate (o := o) k
  cases hloc : RedBlack.locate (fun x => o.eq k x.2) (fun x => o.lt k x.2) [] T with
  | mk c X =>
    rw [hloc] at hl hplug
    replace hplug : plug c X = T := hplug
    cases X with
    | node red l x r =>
      left
      subst hplug
      have hne : x.1 ≠ nil := At.root_ne_nil (s := .l) (at_root.mpr H)
      have hhere := here_of_locate hloc
      refine ⟨x, ?_, hhere, ?_⟩
      · rw [toList_plug]
        simp [RBT.toList]
      · simp [Rbtree.insert, hl, addr, hne]
    | nil =>
      right
      obtain ⟨t', hins, H', hsz, hf⟩ := H.insert_new hroot hloc
      exact ⟨c, t', rfl, hplug.symm, hins, H', hsz, hf⟩

theorem toList_plug_nil (c : Ctx K) : (plug c .nil).toList = before c ++ after c := by
  rw [toList_plug]
  simp [RBT.toList]

/-- `insert` finds a node with an equal key, or makes a new one; in a sorted tree
it makes it at the place of the key. -/
theorem insert_linked (H : Linked t xs) :
    (∃ x ∈ xs, o.eq k x.2 = true ∧ insert o t k = some (t.alloc k, x.1) ∧ Linked (t.alloc k) xs) ∨
    (∃ ys zs t', xs = ys ++ zs ∧ insert o t k = some (t', t.fresh) ∧
      Linked t' (ys ++ (t.fresh, k) :: zs) ∧ t'.fresh = t.fresh + 1 ∧
      (o.TotalOn {a | a = k ∨ a ∈ xs.map Prod.snd} → o.Sorted xs →
        (∀ y ∈ ys, o.lt y.2 k = true) ∧ (∀ z ∈ zs, o.lt k z.2 = true))) := by
  obtain ⟨⟨T, HT, hroot, rfl⟩, hsz⟩ := H
  obtain ⟨x, hx, he, hins⟩ | ⟨c, t', hloc, rfl, hins, H', hsz', hf⟩ :=
    HT.insert (o := o) (k := k) hroot
  · exact .inl ⟨x, hx, he, hins, ⟨T, HT.alloc k, hroot, rfl⟩, hsz⟩
  · refine .inr ⟨before c, after c, t', toList_plug_nil c, hins,
      ⟨⟨_, H', isRed_fixed .., toList_fixed ..⟩, ?_⟩, hf, fun ho hs => split_sorted ho hs hloc⟩
    rw [toList_plug_nil] at hsz
    simp only [List.length_append, length_cons] at hsz ⊢
    omega

/-- Where `insert` avoids the case `_insert_fixup` gets wrong, the tree stays red-black. -/
theorem At.rb_insert {m : Nat} (H : At t [] (plug c .nil)) (hRB : RB (plug c .nil) false m)
    (hok : insertOk o t k = true)
    (hloc : RedBlack.locate (fun x => o.eq k x.2) (fun x => o.lt k x.2) []
    (plug c .nil) = (c, .nil)) :
    ∃ m', RB (fixed (t.fresh, k) c) false m' := by
  have hlt := H.locate (o := o) k
  rw [hloc] at hlt
  -- the hole takes a black tree without black nodes
  obtain ⟨red, n, hnil, hfits⟩ := hRB.unplug
  cases hnil
  apply rb_fixed hfits
  simp only [insertOk, hlt, addr, all_some, bne_self_eq_false, Bool.false_or,
    Bool.not_eq_true'] at hok
  rw [← hok, (at_root.mpr H).leavesRed]

/-- A red-black tree stays one. -/
theorem insert_spec (H : Holds t xs) (hok : insertOk o t k = true) :
    (∃ x ∈ xs, o.eq k x.2 = true ∧ insert o t k = some (t.alloc k, x.1) ∧ Holds (t.alloc k) xs) ∨
    (∃ ys zs t', xs = ys ++ zs ∧ insert o t k = some (t', t.fresh) ∧
      Holds t' (ys ++ (t.fresh, k) :: zs) ∧ t'.fresh = t.fresh + 1 ∧
      (o.TotalOn {a | a = k ∨ a ∈ xs.map Prod.snd} → o.Sorted xs →
        (∀ y ∈ ys, o.lt y.2 k = true) ∧ (∀ z ∈ zs, o.lt k z.2 = true))) := by
  obtain ⟨⟨T, m, HT, hRB, rfl⟩, hsz⟩ := H
  obtain ⟨x, hx, he, hins⟩ | ⟨c, t', hloc, rfl, hins, H', hsz', hf⟩ :=
    HT.insert (o := o) (k := k) hRB.isRed
  · exact .inl ⟨x, hx, he, hins, ⟨T, m, HT.alloc k, hRB, rfl⟩, hsz⟩
  obtain ⟨m', hRB'⟩ := HT.rb_insert hRB hok hloc
  refine .inr ⟨before c, after c, t', toList_plug_nil c, hins,
    ⟨⟨_, m', H', hRB', toList_fixed ..⟩, ?_⟩, hf, fun ho hs => split_sorted ho hs hloc⟩
  rw [toList_plug_nil] at hsz
  simp only [List.length_append, length_cons] at hsz ⊢
  omega

/-- A key that compares with no node as equal or less goes to the end. -/
theorem insert_last (H : Holds t xs) (hok : insertOk o t k = true)
    (hlast : ∀ x ∈ xs, o.eq k x.2 = false ∧ o.lt k x.2 = false) :
    ∃ t', insert o t k = some (t', t.fresh) ∧ Holds t' (xs ++ [(t.fresh, k)]) := by
  obtain ⟨⟨T, m, HT, hRB, rfl⟩, hsz⟩ := H
  obtain ⟨x, hx, he, -⟩ | ⟨c, t', hloc, rfl, hins, H', hsz', -⟩ :=
    HT.insert (o := o) (k := k) hRB.isRed
  · exact absurd ((hlast x hx).1.symm.trans he) (by decide)
  have hmem : (plug c .nil).toList.Pairwise fun x y =>
      x ∈ (plug c .nil).toList ∧ y ∈ (plug c .nil).toList := by
    refine (List.Pairwise.and_mem (R := fun _ _ => True)).mp ?_ |>.imp fun h => ⟨h.1, h.2.1⟩
    exact pairwise_of_forall fun _ _ => trivial
  obtain ⟨ys, zs, hT, hb, ha, -, hzs⟩ := split_of_locate
    (fun x y h hx _ => absurd ((hlast x h.1).2.symm.trans hx) (by decide))
    (fun x y h _ _ => (hlast x h.1).symm) hmem hloc
  obtain rfl : zs = [] := by
    rw [eq_nil_iff_forall_not_mem]
    intro z hz
    have hz' := hlast z (hT ▸ List.mem_append_right _ hz)
    exact absurd (hz'.2.symm.trans (hzs z hz).1) (by decide)
  simp only [before, after, List.nil_append, List.append_nil] at hb ha hT
  obtain ⟨m', hRB'⟩ := HT.rb_insert hRB hok hloc
  refine ⟨t', hins, ⟨_, m', H', hRB', ?_⟩, ?_⟩
  · rw [toList_fixed, hb, ha, hT]
  · rw [hsz', hsz, List.length_append, List.length_singleton]

end Sysint.Rbtree
