import Sysint.Rbtree.Insert

/-! The first half of `erase`: the node is unlinked, by itself or after its
successor took its place. -/
namespace Sysint.Rbtree
open RedBlack
open List hiding after

variable {K : Type} {t : Rbtree K} {c : Ctx K} {T V : Shape K}

/-! ## Unlinking -/

/-- `T` is at `c` and its parent field says so, also for the sentinel. -/
structure Cur (t : Rbtree K) (c : Ctx K) (T : Shape K) : Prop extends At t c T where
  parent : (t.node (addr T)).p = up c

/-- Link a detached tree at the hole of `c`. -/
theorem At.put {p h : Nat} (hV : Rep t.node V p) (hc : RepC t.node t.root c h)
    (hnd : (addrs V ++ addrsC c).Nodup) (hr : ∀ a ∈ addrs V ++ addrsC c, nil < a ∧ a < t.fresh)
    (hmade : nil < t.fresh) (hnil : NilOk (t.node nil)) :
    Cur ((t.relink c (addr V)).setP (addr V) (up c)) c V := by
  obtain ⟨hndV, hndc, hVc⟩ := nodup_append.mp hnd
  have hnc : nil ∉ addrsC c := fun h => absurd rfl (hr nil (mem_append_right _ h)).1.ne
  have hac : addr V ∉ addrsC c := by
    obtain h | h := addr_mem_or V
    · rwa [h]
    · exact fun hm => hVc _ h _ hm rfl
  have hout (a : Nat) (ha : a ∉ addrsC c) (hne : a ≠ addr V) :
      ((t.relink c (addr V)).setP (addr V) (up c)).node a = t.node a := by
    rw [setP_node_ne _ _ hne, relink_node _ _ _ ha]
  have hself : ((t.relink c (addr V)).setP (addr V) (up c)).node (addr V) =
      { t.node (addr V) with p := up c } := by
    rw [setP_node, relink_node _ _ _ hac]
  refine ⟨⟨?_, ?_, hnd, ?_, ?_, ?_⟩, ?_⟩
  · exact hV.reparent hndV (fun _ => hself) fun a ha hne => hout a (fun h => hVc a ha a h rfl) hne
  · refine (hc.relink hndc (addr V)).congr fun a ha => ?_
    rw [setP_node_ne _ _ (ne_of_mem_of_not_mem ha hac)]
  · exact fun a ha => (same_relink t c (addr V)).fresh ▸ hr a ha
  · exact (same_relink t c (addr V)).fresh ▸ hmade
  · by_cases h : addr V = nil
    · rw [h] at hself ⊢
      rw [hself]
      exact ⟨hnil.l, hnil.r, hnil.black⟩
    · rw [hout nil hnc (Ne.symm h)]
      exact hnil
  · rw [hself]

/-- `_transplant` of a node without a child on one side by its other child. -/
theorem At.transplant {s : Side} {d : Bool} {u : Nat × K} (H : At t c (.mk s d .nil u V)) :
    Cur (t.transplant u.1 (addr V)) c V ∧ Same t (t.transplant u.1 (addr V)) ∧
      ∀ a, a ∉ addrsC c → a ≠ addr V → (t.transplant u.1 (addr V)).node a = t.node a := by
  obtain ⟨hu, -, hV⟩ := rep_mk.mp H.tree
  obtain ⟨-, huV, huc⟩ := H.root_not_mem
  have hctx := H.ctx
  rw [addr_mk] at hctx
  have hp : (t.node u.1).p = up c := by rw [hu, mk'_p]
  have hnc : nil ∉ addrsC c := fun h => H.nil_not_mem (mem_append_right _ h)
  have heq : t.transplant u.1 (addr V) = (t.relink c (addr V)).setP (addr V) (up c) := by
    rw [Rbtree.transplant, replaceChild_eq hctx hp H.root_ne_nil huc hnc, hp]
  have hsub (a : Nat) (ha : a ∈ addrs V ++ addrsC c) :
    a ∈ addrs (.mk s d .nil u V) ++ addrsC c := by
    rw [mem_append] at ha ⊢
    exact ha.imp_left fun h => mem_addrs_mk.mpr (.inr (.inr h))
  have hnd : (addrs V ++ addrsC c).Nodup := by
    have h := ((addrs_mk s d .nil V u).append_right (addrsC c)).nodup_iff.mp H.nodup
    exact (nodup_cons.mp h).2
  rw [heq]
  refine ⟨At.put hV hctx hnd (fun a ha => H.range a (hsub a ha)) H.made H.sentinel,
    ⟨(same_relink t c _).sz, (same_relink t c _).fresh⟩, fun a ha hne => ?_⟩
  rw [setP_node_ne _ _ hne, relink_node _ _ _ ha]

/-- `node::min` of a subtree is its first node. -/
theorem At.min (H : At t c T) (hT : T ≠ .nil) :
    ∃ d red y V, T = plug d (.node red .nil y V) ∧ before d = [] ∧ t.min (addr T) = some y.1 := by
  have hlen := H.size_le
  have hh := T.height_le_size
  obtain ⟨d, red, y, V, he, hb, hloc⟩ := locate_first hT c
  have hwalk : t.walk (fun _ => false) (fun _ => true) t.fresh (addr T) (up c) = _ :=
    H.walk (by omega)
  rw [hloc] at hwalk
  refine ⟨d, red, y, V, he, hb, ?_⟩
  -- the loop starts with the sentinel as the node before, and forgets it at once
  have hstart : t.walk (fun _ => false) (fun _ => true) t.fresh (addr T) nil =
      t.walk (fun _ => false) (fun _ => true) t.fresh (addr T) (up c) := by
    have hne : addr T ≠ nil := fun h => hT (H.addr_eq_nil.mp h)
    cases t.fresh with
    | zero => rfl
    | succ n => simp [Rbtree.walk, hne]
  rw [Rbtree.min, hstart, hwalk]
  rfl

section
variable {red e : Bool} {l V : Shape K} {z y : Nat × K} {d : Ctx K}

/-- Between the two halves of a removal with two children: `y` is out of its place
and has the right subtree `R` of `z`, which is still in the tree; the parent
field of `R` is `p`. -/
structure Ready (t : Rbtree K) (c : Ctx K) (red : Bool) (l : Shape K) (z y : Nat × K)
    (R : Shape K) (p : Nat) : Prop where
  old : ∃ k r, t.node z.1 = ⟨k, red, addr l, r, up c⟩
  key : (t.node y.1).key = y.2
  right : (t.node y.1).r = addr R
  left : Rep t.node l z.1
  rest : Rep t.node R p
  ctx : RepC t.node t.root c z.1
  nodup : (z.1 :: y.1 :: (addrs l ++ (addrs R ++ addrsC c))).Nodup
  range : ∀ a ∈ z.1 :: y.1 :: (addrs l ++ (addrs R ++ addrsC c)), nil < a ∧ a < t.fresh
  made : nil < t.fresh
  sentinel : NilOk (t.node nil)

theorem ne_addr {a : Nat} (ha : a ∉ addrs T) (hn : nil < a) : a ≠ addr T := by
  obtain h | h := addr_mem_or T
  · rw [h]
    exact hn.ne'
  · exact (ne_of_mem_of_not_mem h ha).symm

theorem Ready.setP {p : Nat} {R : Shape K} (H : Ready t c red l z y R p) :
    Ready (t.setP (addr R) y.1) c red l z y R y.1 := by
  have hnd := H.nodup
  have hr := H.range
  simp only [nodup_cons, nodup_append, mem_cons, mem_append, not_or] at hnd hr
  obtain ⟨⟨hzy, hzl, hzR, hzc⟩, ⟨hyl, hyR, hyc⟩, hndl, ⟨hndR, hndc, hRc⟩, hlR⟩ := hnd
  have hout (a : Nat) (ha : a ∉ addrs R) (hn : nil < a) :
      (t.setP (addr R) y.1).node a = t.node a := setP_node_ne _ _ (ne_addr ha hn)
  have hz := hout z.1 hzR (hr _ (.inl rfl)).1
  have hy := hout y.1 hyR (hr _ (.inr (.inl rfl))).1
  refine ⟨?_, ?_, ?_, ?_, ?_, ?_, H.nodup, H.range, H.made, ?_⟩
  · rw [hz]
    exact H.old
  · rw [hy]
    exact H.key
  · rw [hy]
    exact H.right
  · refine H.left.congr fun a ha => hout a (fun h => hlR a ha a (.inl h) rfl) ?_
    exact (hr a (.inr (.inr (.inl ha)))).1
  · exact H.rest.reparent hndR (fun _ => setP_node ..) fun a _ hne => setP_node_ne _ _ hne
  · refine H.ctx.congr fun a ha => hout a (fun h => hRc a h a ha rfl) ?_
    exact (hr a (.inr (.inr (.inr (.inr ha))))).1
  · by_cases h : nil = addr R
    · rw [← h, setP_node]
      exact ⟨H.sentinel.l, H.sentinel.r, H.sentinel.black⟩
    · rw [setP_node_ne _ _ h]
      exact H.sentinel

theorem perm_takeOut (c d : Ctx K) (red e : Bool) (l V : Shape K) (z y : Nat × K) :
    (addrs (.node red l z (plug d (.node e .nil y V))) ++ addrsC c).Perm
      (z.1 :: y.1 :: (addrs l ++ (addrs (plug d V) ++ addrsC c))) := by
  have h1 : (addrs (plug d (.node e .nil y V))).Perm (y.1 :: addrs (plug d V)) :=
    (addrs_plug _ _).trans (((addrs_plug d V).symm.cons y.1))
  have h2 := (addrs_mk .l red l (plug d (.node e .nil y V)) z).append_right (addrsC c)
  refine h2.trans ?_
  simp only [cons_append, append_assoc]
  refine List.Perm.cons _ ?_
  refine ((h1.append_right (addrsC c)).append_left (addrs l)).trans ?_
  simp only [cons_append]
  exact perm_middle

theorem At.takeOut_near (H : At t c (.node red l z (.node e .nil y V))) :
    Ready (t.takeOut z.1 y.1) c red l z y V y.1 ∧
      ((t.takeOut z.1 y.1).node (addr V)).p = y.1 ∧ Same t (t.takeOut z.1 y.1) := by
  have hperm := perm_takeOut c [] red e l V z y
  obtain ⟨hz, hl, hyn, -, hV⟩ := H.tree
  have heq : t.takeOut z.1 y.1 = t.setP (addr V) y.1 := by simp [Rbtree.takeOut, hyn]
  rw [heq]
  refine ⟨Ready.setP (p := y.1) ⟨⟨_, _, hz⟩, ?_, ?_, hl, hV, H.ctx, ?_, ?_, H.made, H.sentinel⟩, ?_,
    same_modify ..⟩
  · rw [hyn]
  · rw [hyn]
  · exact hperm.nodup_iff.mp H.nodup
  · exact fun a ha => H.range a (hperm.mem_iff.mpr ha)
  · rw [setP_node]

theorem At.takeOut_far {f : Frame (Nat × K)}
    (H : At t c (.node red l z (plug (f :: d) (.node e .nil y V)))) :
    Ready (t.takeOut z.1 y.1) c red l z y (plug (f :: d) V) y.1 ∧
      ((t.takeOut z.1 y.1).node (addr V)).p = f.x.1 ∧ Same t (t.takeOut z.1 y.1) := by
  have hperm := perm_takeOut c (f :: d) red e l V z y
  have hnd := hperm.nodup_iff.mp H.nodup
  have hr (a : Nat) (ha : a ∈ z.1 :: y.1 :: (addrs l ++ (addrs (plug (f :: d) V) ++ addrsC c))) :=
    H.range a (hperm.mem_iff.mpr ha)
  have Hy : At t (f :: d ++ ⟨.r, red, z, l⟩ :: c) (.mk .l e .nil y V) := at_plug.mpr (at_up.mpr H)
  obtain ⟨H1, hs1, hout1⟩ := Hy.transplant
  have H1z : At (t.transplant y.1 (addr V)) c (.node red l z (plug (f :: d) V)) :=
    at_up.mp (at_plug.mp H1.toAt)
  obtain ⟨hz, hl, hR⟩ := H1z.tree
  have hfR : f.x.1 ∈ addrs (plug (f :: d) V) :=
    (addrs_plug (f :: d) V).mem_iff.mpr (mem_append_right _ (mem_addrsC_cons.mpr (.inl rfl)))
  simp only [nodup_cons, nodup_append, mem_cons, mem_append, not_or] at hnd
  obtain ⟨⟨hzy, -, hzR, -⟩, ⟨hyl, hyR, hyc⟩, -, ⟨hndR, -⟩, -⟩ := hnd
  have hyn := Hy.node
  have hyV : y.1 ≠ addr V := ne_addr Hy.root_not_mem.2.1 (hr y.1 (by simp)).1
  have hy1 : (t.transplant y.1 (addr V)).node y.1 = t.node y.1 :=
    hout1 _ Hy.root_not_mem.2.2 hyV
  have heq : t.takeOut z.1 y.1 =
      ((t.transplant y.1 (addr V)).setChild y.1 .r (addr (plug (f :: d) V))).setP
        (addr (plug (f :: d) V)) y.1 := by
    have hp : (t.node y.1).p ≠ z.1 := by
      rw [hyn, mk'_p]
      exact ne_of_mem_of_not_mem hfR hzR
    have hyr : (t.node y.1).r = addr V := by rw [hyn]; rfl
    simp [Rbtree.takeOut, hp, hyr, hz, Node.setChild]
  have hout2 (a : Nat) (ha : a ≠ y.1) :
      ((t.transplant y.1 (addr V)).setChild y.1 .r (addr (plug (f :: d) V))).node a =
        (t.transplant y.1 (addr V)).node a := setChild_node_ne _ _ _ ha
  rw [heq]
  refine ⟨Ready.setP (p := z.1)
    ⟨⟨z.2, addr (plug (f :: d) V), ?_⟩, ?_, ?_, ?_, ?_, ?_, ?_, ?_, ?_, ?_⟩,
    ?_, hs1.sz, hs1.fresh⟩
  · rw [hout2 _ hzy, hz]
  · rw [setChild_node, hy1, hyn]
    rfl
  · rw [setChild_node]
    rfl
  · exact hl.congr fun a ha => hout2 a (ne_of_mem_of_not_mem ha hyl)
  · exact hR.congr fun a ha => hout2 a (ne_of_mem_of_not_mem ha hyR)
  · exact H1z.ctx.congr fun a ha => hout2 a (ne_of_mem_of_not_mem ha hyc)
  · exact hperm.nodup_iff.mp H.nodup
  · exact fun a ha => hs1.fresh ▸ hr a ha
  · exact hs1.fresh ▸ H.made
  · rw [hout2 _ (hr y.1 (by simp)).1.ne]
    exact H1.sentinel
  · have hroot := addr_plug_mem f d V
    have hrootR := (addrs_plug (f :: d) V).mem_iff.mpr (mem_append_right _ hroot)
    have hdis := nodup_append.mp ((addrs_plug (f :: d) V).nodup_iff.mp hndR)
    have hne := ne_addr (fun h => hdis.2.2 _ h _ hroot rfl) (hr _ (by simp [hrootR])).1
    rw [setP_node_ne _ _ hne.symm, hout2 _ hyV.symm, H1.parent]
    rfl

/-- `y` takes the place of `z`. -/
theorem Ready.replaceBy {R : Shape K} (H : Ready t c red l z y R y.1) (hl : l ≠ .nil) :
    At (t.replaceBy z.1 y.1) c (.node red l y R) ∧ Same t (t.replaceBy z.1 y.1) ∧
      (t.replaceBy z.1 y.1).node nil = t.node nil := by
  have hnd := H.nodup
  have hr := H.range
  simp only [nodup_cons, nodup_append, mem_cons, mem_append, not_or] at hnd hr
  obtain ⟨⟨hzy, hzl, hzR, hzc⟩, ⟨hyl, hyR, hyc⟩, hndl, ⟨hndR, hndc, hRc⟩, hlR⟩ := hnd
  obtain ⟨k, r, hz⟩ := H.old
  have hla := addr_mem hl
  have hnc : nil ∉ addrsC c := fun h => absurd rfl (hr nil (by simp [h])).1.ne
  have hzn := (hr _ (.inl rfl)).1.ne'
  have hyn := (hr _ (.inr (.inl rfl))).1.ne'
  have hlz : addr l ≠ z.1 := ne_of_mem_of_not_mem hla hzl
  have hly : addr l ≠ y.1 := ne_of_mem_of_not_mem hla hyl
  have hlc : addr l ∉ addrsC c := fun h => hlR _ hla _ (.inr h) rfl
  have hln := (hr _ (.inr (.inr (.inl hla)))).1.ne'
  have hp : (t.node z.1).p = up c := by rw [hz]
  have htr : t.transplant z.1 y.1 = (t.relink c y.1).setP y.1 (up c) := by
    rw [Rbtree.transplant, replaceChild_eq H.ctx hp hzn hzc hnc, hp]
  have hz1 : ((t.relink c y.1).setP y.1 (up c)).node z.1 = t.node z.1 := by
    rw [setP_node_ne _ _ hzy, relink_node _ _ _ hzc]
  have heq : t.replaceBy z.1 y.1 =
      ((((t.relink c y.1).setP y.1 (up c)).setChild y.1 .l (addr l)).setP (addr l) y.1).setRed y.1
      red := by
    have hz2 : (((((t.relink c y.1).setP y.1 (up c)).setChild y.1 .l (addr l)).setP
        (addr l) y.1).node z.1).red = red := by
      rw [setP_node_ne _ _ hlz.symm, setChild_node_ne _ _ _ hzy, hz1, hz]
    simp [Rbtree.replaceBy, htr, hz1, hz, Node.setChild, hz2]
  have hout (a : Nat) (hay : a ≠ y.1) (hal : a ≠ addr l) (hac : a ∉ addrsC c) :
      (t.replaceBy z.1 y.1).node a = t.node a := by
    rw [heq, setRed_node_ne _ _ hay, setP_node_ne _ _ hal, setChild_node_ne _ _ _ hay,
      setP_node_ne _ _ hay, relink_node _ _ _ hac]
  have hsame : Same t (t.replaceBy z.1 y.1) := by
    rw [heq]
    exact ⟨(same_relink t c y.1).sz, (same_relink t c y.1).fresh⟩
  have hnil := hout nil hyn.symm hln.symm hnc
  have hperm := (addrs_mk .l red l R y).append_right (addrsC c)
  have hmem (a : Nat) (ha : a ∈ addrs (.node red l y R) ++ addrsC c) :
      a ∈ z.1 :: y.1 :: (addrs l ++ (addrs R ++ addrsC c)) := by
    have h := hperm.mem_iff.mp ha
    rw [cons_append, append_assoc] at h
    exact mem_cons_of_mem _ h
  refine ⟨⟨⟨?_, ?_, ?_⟩, ?_, ?_, ?_, ?_, ?_⟩, hsame, hnil⟩
  · rw [heq, setRed_node, setP_node_ne _ _ hly.symm, setChild_node, setP_node,
      relink_node _ _ _ hyc]
    simp [Node.setChild, H.key, H.right]
  · refine H.left.reparent hndl (fun _ => ?_) fun a ha hne => ?_
    · rw [heq, setRed_node_ne _ _ hly, setP_node, setChild_node_ne _ _ _ hly, setP_node_ne _ _ hly,
        relink_node _ _ _ hlc]
    · exact hout a (ne_of_mem_of_not_mem ha hyl) hne fun h => hlR a ha a (.inr h) rfl
  · refine H.rest.congr fun a ha => hout a (ne_of_mem_of_not_mem ha hyR) ?_ fun h =>
      hRc a ha a h rfl
    exact fun h => hlR _ hla _ (.inl ha) h.symm
  · rw [heq]
    refine (H.ctx.relink hndc y.1).congr fun a ha => ?_
    have hay := ne_of_mem_of_not_mem ha hyc
    rw [setRed_node_ne _ _ hay, setP_node_ne _ _ (ne_of_mem_of_not_mem ha hlc),
      setChild_node_ne _ _ _ hay, setP_node_ne _ _ hay]
  · refine hperm.nodup_iff.mpr ?_
    rw [cons_append, append_assoc]
    exact (nodup_cons.mp H.nodup).2
  · exact fun a ha => hsame.fresh ▸ H.range a (hmem a ha)
  · exact hsame.fresh ▸ H.made
  · exact hnil ▸ H.sentinel

end

/-- What is left of the balance when a node of colour `d` with one child at most is
taken out at `c`. -/
def Missing (d : Bool) (c : Ctx K) (V : Shape K) : Prop :=
  (d = true ∧ ∃ n, RB V false n ∧ Fits c false n) ∨
    (d = false ∧ ∃ n e, RB V e n ∧ Fits c false (n + 1))

theorem missing_of_mk {s : Side} {d : Bool} {u : Nat × K} {m : Nat}
    (h : RB (plug c (.mk s d .nil u V)) false m) : Missing d c V := by
  obtain ⟨red, n, hu, hc⟩ := h.unplug
  obtain ⟨rfl, hcase⟩ := RB.of_mk hu
  obtain ⟨rfl, -, hV⟩ | ⟨rfl, k, -, e, rfl, -, hV⟩ := hcase
  · exact .inl ⟨rfl, n, hV, hc.of_red⟩
  · exact .inr ⟨rfl, k, e, hV, hc⟩

theorem Missing.relabel {e d : Bool} {s : Side} {x : Nat × K} {S : Shape K} {c' : Ctx K}
    (y : Nat × K) (h : Missing e (c ++ ⟨s, d, x, S⟩ :: c') V) :
    Missing e (c ++ ⟨s, d, y, S⟩ :: c') V := by
  obtain ⟨he, n, hV, hc⟩ | ⟨he, n, f, hV, hc⟩ := h
  · exact .inl ⟨he, n, hV, hc.relabel y⟩
  · exact .inr ⟨he, n, f, hV, hc.relabel y⟩

/-- The two children of the node of `z` become one tree; `x = addr V` is where a
black node may be missing. -/
theorem At.splice {red : Bool} {l r : Shape K} {z : Nat × K} {m : Nat}
    (H : At t c (.node red l z r)) (hRB : RB (plug c (.node red l z r)) false m) :
    ∃ t' c' V d, t.splice z.1 = some (t', addr V, d) ∧ Cur t' c' V ∧ Same t t' ∧
      (plug c' V).toList = before c ++ (l.toList ++ r.toList) ++ after c ∧ Missing d c' V ∧
      z.1 ∉ addrs V ++ addrsC c' := by
  have hn : t.node z.1 = ⟨z.2, red, addr l, addr r, up c⟩ := H.tree.1
  have hzn : z.1 ∉ addrs l ∧ z.1 ∉ addrs r ∧ z.1 ∉ addrsC c := At.root_not_mem (s := .l) H
  have hl0 : addr l = nil ↔ l = .nil := (at_up (f := ⟨.l, red, z, r⟩).mpr H).addr_eq_nil
  have hr0 : addr r = nil ↔ r = .nil := (at_up (f := ⟨.r, red, z, l⟩).mpr H).addr_eq_nil
  by_cases hl : l = .nil
  · subst hl
    obtain ⟨H', hs, -⟩ := At.transplant (s := .l) H
    refine ⟨_, c, r, red, by simp [Rbtree.splice, hn], H', hs, ?_, ?_, ?_⟩
    · rw [toList_plug]
      rfl
    · exact missing_of_mk (s := .l) hRB
    · simp [hzn]
  by_cases hr : r = .nil
  · subst hr
    obtain ⟨H', hs, -⟩ := At.transplant (s := .r) H
    have hl1 : addr l ≠ nil := fun h => hl (hl0.mp h)
    refine ⟨_, c, l, red, by simp [Rbtree.splice, hn, hl1], H', hs, ?_, ?_, ?_⟩
    · rw [toList_plug]
      simp [RBT.toList]
    · exact missing_of_mk (s := .r) hRB
    · simp [hzn]
  -- two children: the successor `y` is the first node of `r`
  have Hr : At t (⟨.r, red, z, l⟩ :: c) r := at_up.mpr H
  obtain ⟨d, e, y, V, rfl, hb, hmin⟩ := Hr.min hr
  have hl1 : addr l ≠ nil := fun h => hl (hl0.mp h)
  have hr1 : addr (plug d (.node e .nil y V)) ≠ nil := fun h => hr (hr0.mp h)
  have Hy : At t (d ++ ⟨.r, red, z, l⟩ :: c) (.node e .nil y V) := at_plug.mpr Hr
  have hyn : t.node y.1 = ⟨y.2, e, nil, addr V, up (d ++ ⟨.r, red, z, l⟩ :: c)⟩ := Hy.tree.1
  have hout : ∃ R, R = plug d V ∧ Ready (t.takeOut z.1 y.1) c red l z y R y.1 ∧
      ((t.takeOut z.1 y.1).node (addr V)).p = up (d ++ ⟨.r, red, y, l⟩ :: c) ∧
      Same t (t.takeOut z.1 y.1) := by
    cases d with
    | nil => exact ⟨_, rfl, H.takeOut_near⟩
    | cons f d => exact ⟨_, rfl, H.takeOut_far⟩
  obtain ⟨R, rfl, hready, hp, hs1⟩ := hout
  obtain ⟨H2, hs2, hnil⟩ := hready.replaceBy hl
  have H3 : At ((t.takeOut z.1 y.1).replaceBy z.1 y.1) (d ++ ⟨.r, red, y, l⟩ :: c) V :=
    at_plug.mpr (at_up.mpr H2)
  refine ⟨_, d ++ ⟨.r, red, y, l⟩ :: c, V, e, ?_, ⟨H3, ?_⟩, hs1.trans hs2, ?_, ?_, ?_⟩
  · simp [Rbtree.splice, hn, hl1, hr1, hmin, hyn]
  · by_cases hV : V = .nil
    · subst hV
      rw [addr] at hp ⊢
      rw [hnil, hp]
    · exact H3.parent hV
  · rw [plug_append, toList_plug, toList_plug]
    simp [RBT.toList, toList_plug, hb, before, after]
  · refine Missing.relabel (x := z) y (missing_of_mk (s := .l) (u := y) (m := m) ?_)
    rw [plug_append]
    exact hRB
  · rw [← (addrs_plug _ _).mem_iff, plug_append]
    intro hz
    have h := (addrs_plug c (.node red l y (plug d V))).mem_iff.mp hz
    have h' := ((addrs_mk .l red l (plug d V) y).append_right (addrsC c)).mem_iff.mp h
    rw [cons_append, append_assoc] at h'
    exact (nodup_cons.mp hready.nodup).1 h'

end Sysint.Rbtree
