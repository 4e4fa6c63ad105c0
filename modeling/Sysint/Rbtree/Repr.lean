import Mathlib.Data.List.Nodup
import Mathlib.Data.List.Perm.Basic
import Mathlib.Tactic.Tauto
import Sysint.Rbtree.Model

/-! What the nodes in memory represent: a tree whose elements are the addresses
and keys of its nodes. `At t c T` says that memory holds the tree `plug c T`; it
is the form in which an operation at the place `c` reads and writes it. -/
namespace Sysint.Rbtree
open RedBlack
open List hiding after
open Function

variable {K : Type} {t : Rbtree K} {n n' : Nat → Node K} {root root' hole hole' p q a : Nat}
  {x : Nat × K} {s : Side}

/-- A node with `near` on side `s`. -/
def Node.mk' (s : Side) (k : K) (red : Bool) (near far p : Nat) : Node K :=
  match s with
  | .l => ⟨k, red, near, far, p⟩
  | .r => ⟨k, red, far, near, p⟩

section
variable (s : Side) (k : K) (red : Bool) (near far p a : Nat)

@[simp] theorem mk'_near : (Node.mk' s k red near far p).child s = near := by cases s <;> rfl

@[simp] theorem mk'_far : (Node.mk' s k red near far p).child s.other = far := by cases s <;> rfl

@[simp] theorem mk'_p : (Node.mk' s k red near far p).p = p := by cases s <;> rfl

@[simp] theorem mk'_key : (Node.mk' s k red near far p).key = k := by cases s <;> rfl

@[simp] theorem mk'_red : (Node.mk' s k red near far p).red = red := by cases s <;> rfl

@[simp] theorem mk'_setNear :
    (Node.mk' s k red near far p).setChild s a = Node.mk' s k red a far p := by cases s <;> rfl

@[simp] theorem mk'_setFar :
    (Node.mk' s k red near far p).setChild s.other a = Node.mk' s k red near a p := by
  cases s <;> rfl

@[simp] theorem mk'_setP :
    { Node.mk' s k red near far p with p := a } = Node.mk' s k red near far a := by cases s <;> rfl

@[simp] theorem mk'_setRed (c : Bool) :
    { Node.mk' s k red near far p with red := c } = Node.mk' s k c near far p := by cases s <;> rfl

end

abbrev Shape (K : Type) := RBT (Nat × K)

abbrev Ctx (K : Type) := List (Frame (Nat × K))

def addr : Shape K → Nat
  | .nil => nil
  | .node _ _ x _ => x.1

@[simp] theorem addr_nil : addr (.nil : Shape K) = nil := rfl

@[simp] theorem addr_mk (s : Side) (red : Bool) (A B : Shape K) (x : Nat × K) :
    addr (.mk s red A x B) = x.1 := by cases s <;> rfl

def addrs (T : Shape K) : List Nat := T.toList.map Prod.fst

@[simp] theorem addrs_nil : addrs (.nil : Shape K) = [] := rfl

/-- The addresses of the nodes of a context. -/
def addrsC (c : Ctx K) : List Nat := (before c ++ after c).map Prod.fst

/-- The parent of the hole. -/
def up : Ctx K → Nat
  | [] => nil
  | f :: _ => f.x.1

/-- Memory holds `T`, below the node `p`. -/
def Rep (n : Nat → Node K) : Shape K → Nat → Prop
  | .nil, _ => True
  | .node red l x r, p => n x.1 = ⟨x.2, red, addr l, addr r, p⟩ ∧ Rep n l x.1 ∧ Rep n r x.1

/-- Memory holds the context, with `hole` at its hole. -/
def RepC (n : Nat → Node K) (root : Nat) : Ctx K → Nat → Prop
  | [], hole => root = hole
  | f :: c, hole => n f.x.1 = .mk' f.side f.x.2 f.red hole (addr f.sib) (up c) ∧
      Rep n f.sib f.x.1 ∧ RepC n root c f.x.1

theorem rep_mk {red : Bool} {A B : Shape K} : Rep n (.mk s red A x B) p ↔
      n x.1 = .mk' s x.2 red (addr A) (addr B) p ∧ Rep n A x.1 ∧ Rep n B x.1 := by
  cases s with
  | l => rfl
  | r =>
    simp only [RBT.mk, Rep, Node.mk']
    tauto

/-! ## Addresses -/

theorem addrs_mk (s : Side) (red : Bool) (A B : Shape K) (x : Nat × K) :
    (addrs (.mk s red A x B)).Perm (x.1 :: (addrs A ++ addrs B)) := by
  unfold addrs
  cases s with
  | l =>
    simp only [RBT.mk, RBT.toList, map_append, map_cons]
    exact List.perm_middle
  | r =>
    simp only [RBT.mk, RBT.toList, map_append, map_cons]
    exact List.perm_middle.trans (List.perm_append_comm.cons _)

theorem addrsC_cons (f : Frame (Nat × K)) (c : Ctx K) :
    (addrsC (f :: c)).Perm (f.x.1 :: (addrs f.sib ++ addrsC c)) := by
  rw [addrsC, before, after, addrsC, addrs]
  simp only [map_append]
  cases f.side with
  | l =>
    simp only [map_nil, append_nil, map_cons, cons_append]
    refine List.perm_middle.trans (List.Perm.cons _ ?_)
    simp only [← append_assoc]
    exact List.perm_append_comm.append_right _
  | r =>
    simp only [map_nil, nil_append, map_cons, map_append, ← append_assoc]
    rw [append_assoc _ [f.x.1]]
    refine List.perm_middle.trans (List.Perm.cons _ ?_)
    exact List.perm_append_comm.append_right _

theorem addrs_mk_congr (s : Side) (d e : Bool) (A B : Shape K) (x : Nat × K) :
    addrs (.mk s d A x B) = addrs (.mk s e A x B) := by cases s <;> rfl

theorem mem_addrs_mk {red : Bool} {A B : Shape K} :
    a ∈ addrs (.mk s red A x B) ↔ a = x.1 ∨ a ∈ addrs A ∨ a ∈ addrs B := by
  rw [(addrs_mk s red A B x).mem_iff, mem_cons, mem_append]

variable {c : Ctx K} {T : Shape K}

theorem mem_addrsC_cons {f : Frame (Nat × K)} :
    a ∈ addrsC (f :: c) ↔ a = f.x.1 ∨ a ∈ addrs f.sib ∨ a ∈ addrsC c := by
  rw [(addrsC_cons f c).mem_iff, mem_cons, mem_append]

theorem addrs_plug (c : Ctx K) (T : Shape K) : (addrs (plug c T)).Perm (addrs T ++ addrsC c) := by
  unfold addrs addrsC
  rw [toList_plug]
  simp only [map_append, ← append_assoc]
  exact List.Perm.append_right _ List.perm_append_comm

theorem addr_mem (h : T ≠ .nil) : addr T ∈ addrs T := by
  cases T with
  | nil => exact absurd rfl h
  | node red l x r => simp [addr, addrs, RBT.toList]

theorem addr_mem_or (T : Shape K) : addr T = nil ∨ addr T ∈ addrs T := by
  by_cases h : T = .nil
  · exact .inl (by rw [h]; rfl)
  · exact .inr (addr_mem h)

/-- The root of a tree with a hole is not in the hole. -/
theorem addr_plug_mem (f : Frame (Nat × K)) (c : Ctx K) (T : Shape K) :
    addr (plug (f :: c) T) ∈ addrsC (f :: c) := by
  induction c generalizing f T with
  | nil => exact mem_addrsC_cons.mpr (.inl (addr_mk ..))
  | cons g c ih => exact mem_addrsC_cons.mpr (.inr (.inr (ih g (f.fill T))))

/-! ## Frame rules -/

theorem Rep.congr (h : Rep n T p) (he : ∀ a ∈ addrs T, n' a = n a) : Rep n' T p := by
  induction T generalizing p with
  | nil => trivial
  | node red l x r ihl ihr =>
    obtain ⟨h1, h2, h3⟩ := h
    have hm (a : Nat) : a ∈ addrs (.node red l x r) ↔ a = x.1 ∨ a ∈ addrs l ∨ a ∈ addrs r :=
      mem_addrs_mk (s := .l)
    refine ⟨(he _ ((hm _).mpr (.inl rfl))).trans h1, ihl h2 fun a ha => ?_, ihr h3 fun a ha => ?_⟩
    · exact he a ((hm a).mpr (.inr (.inl ha)))
    · exact he a ((hm a).mpr (.inr (.inr ha)))

/-- The parent of a tree is a field of its root only. -/
theorem Rep.reparent (h : Rep n T p) (hnd : (addrs T).Nodup)
    (hroot : T ≠ .nil → n' (addr T) = { n (addr T) with p := q })
    (he : ∀ a ∈ addrs T, a ≠ addr T → n' a = n a) : Rep n' T q := by
  cases T with
  | nil => trivial
  | node red l x r =>
    obtain ⟨h1, h2, h3⟩ := h
    have hp := addrs_mk .l red l r x
    have hx := (nodup_cons.mp (hp.nodup_iff.mp hnd)).1
    simp only [mem_append, not_or] at hx
    have hm (a : Nat) (ha : a ∈ addrs l ∨ a ∈ addrs r) : n' a = n a := by
      apply he a
      · exact hp.mem_iff.mpr (mem_cons_of_mem _ (mem_append.mpr ha))
      · rintro rfl
        exact ha.elim hx.1 hx.2
    have hr : n' x.1 = { n x.1 with p := q } := hroot nofun
    refine ⟨by rw [hr, h1], h2.congr fun a ha => hm a (.inl ha), h3.congr fun a ha => hm a
      (.inr ha)⟩

theorem RepC.congr (h : RepC n root c hole) (he : ∀ a ∈ addrsC c, n' a = n a) :
    RepC n' root c hole := by
  induction c generalizing hole with
  | nil => exact h
  | cons f c ih =>
    obtain ⟨h1, h2, h3⟩ := h
    have hm (a : Nat) (ha : a = f.x.1 ∨ a ∈ addrs f.sib ∨ a ∈ addrsC c) : n' a = n a :=
      he a (mem_addrsC_cons.mpr ha)
    exact ⟨(hm _ (.inl rfl)).trans h1, h2.congr fun a ha => hm a (.inr (.inl ha)),
      ih h3 fun a ha => hm a (.inr (.inr ha))⟩

/-- What is at the hole is a field of the first node only, or the root. -/
theorem RepC.rehole (h : RepC n root c hole) (hnd : (addrsC c).Nodup)
    (hnil : c = [] → root' = hole') (hroot : c ≠ [] → root' = root)
    (hfirst : ∀ f d, c = f :: d → n' f.x.1 = (n f.x.1).setChild f.side hole')
    (he : ∀ a ∈ addrsC c, a ≠ up c → n' a = n a) : RepC n' root' c hole' := by
  cases c with
  | nil => exact hnil rfl
  | cons f c =>
    obtain ⟨h1, h2, h3⟩ := h
    have hp := addrsC_cons f c
    have hx := (nodup_cons.mp (hp.nodup_iff.mp hnd)).1
    simp only [mem_append, not_or] at hx
    have hm (a : Nat) (ha : a ∈ addrs f.sib ∨ a ∈ addrsC c) : n' a = n a := by
      apply he a
      · exact hp.mem_iff.mpr (mem_cons_of_mem _ (mem_append.mpr ha))
      · rintro rfl
        exact ha.elim hx.1 hx.2
    rw [hroot nofun]
    refine ⟨?_, h2.congr fun a ha => hm a (.inl ha), h3.congr fun a ha => hm a (.inr ha)⟩
    rw [hfirst f c rfl, h1, mk'_setNear]

/-! ## A tree in memory -/

/-- The sentinel is black and its children are itself. -/
structure NilOk (n : Node K) : Prop where
  l : n.l = nil
  r : n.r = nil
  black : n.red = false

/-- Memory holds `plug c T`, seen from the place `c`. -/
structure At (t : Rbtree K) (c : Ctx K) (T : Shape K) : Prop where
  tree : Rep t.node T (up c)
  ctx : RepC t.node t.root c (addr T)
  nodup : (addrs T ++ addrsC c).Nodup
  range : ∀ a ∈ addrs T ++ addrsC c, nil < a ∧ a < t.fresh
  made : nil < t.fresh
  sentinel : NilOk (t.node nil)

theorem at_up {f : Frame (Nat × K)} : At t (f :: c) T ↔ At t c (f.fill T) := by
  have hp : (addrs T ++ addrsC (f :: c)).Perm (addrs (f.fill T) ++ addrsC c) := by
    refine ((addrsC_cons f c).append_left _).trans ?_
    refine List.Perm.trans ?_ ((addrs_mk f.side f.red T f.sib f.x).symm.append_right _)
    refine List.perm_middle.trans ?_
    simp only [cons_append, append_assoc]
    exact List.Perm.refl _
  constructor
  · intro H
    obtain ⟨h1, h2, h3⟩ := H.ctx
    refine ⟨rep_mk.mpr ⟨h1, H.tree, h2⟩, ?_, hp.nodup_iff.mp H.nodup, ?_, H.made, H.sentinel⟩
    · rw [Frame.fill, addr_mk]
      exact h3
    · exact fun a ha => H.range a (hp.mem_iff.mpr ha)
  intro H
  obtain ⟨h1, h2, h3⟩ := rep_mk.mp H.tree
  have h4 := H.ctx
  rw [Frame.fill, addr_mk] at h4
  exact ⟨h2, ⟨h1, h3, h4⟩, hp.nodup_iff.mpr H.nodup, fun a ha => H.range a (hp.mem_iff.mp ha),
    H.made, H.sentinel⟩

/-- The same memory can be read from any place of the tree. -/
theorem at_plug {d : Ctx K} : At t (c ++ d) T ↔ At t d (plug c T) := by
  induction c generalizing T with
  | nil => rfl
  | cons f c ih => exact at_up.trans ih

theorem at_root : At t c T ↔ At t [] (plug c T) := by
  rw [← at_plug, append_nil]

/-- The other child of the first node of the context. -/
theorem at_sib {d : Bool} {S : Shape K} :
    At t (⟨s, d, x, S⟩ :: c) T ↔ At t (⟨s.other, d, x, T⟩ :: c) S := by
  rw [at_up, at_up]
  simp [Frame.fill, mk_other]

/-! ## Reads -/

section
variable {s : Side} {c : Ctx K} {d : Bool} {A B S T : Shape K} {x : Nat × K}

theorem At.node (H : At t c (.mk s d A x B)) :
    t.node x.1 = .mk' s x.2 d (addr A) (addr B) (up c) := (rep_mk.mp H.tree).1

theorem At.node_up (H : At t (⟨s, d, x, S⟩ :: c) T) :
    t.node x.1 = .mk' s x.2 d (addr T) (addr S) (up c) := H.ctx.1

theorem At.parent (H : At t c T) (h : T ≠ .nil) : (t.node (addr T)).p = up c := by
  cases T with
  | nil => exact absurd rfl h
  | node red l y r => exact congrArg Node.p H.tree.1

theorem At.isRed (H : At t c T) : (t.node (addr T)).red = T.isRed := by
  cases T with
  | nil => exact H.sentinel.black
  | node red l y r => exact congrArg Node.red H.tree.1

theorem At.addr_eq_nil (H : At t c T) : addr T = nil ↔ T = .nil := by
  constructor
  · intro h
    by_contra hne
    exact absurd h (H.range _ (mem_append_left _ (addr_mem hne))).1.ne'
  · rintro rfl
    rfl

theorem At.addr_ne_sib (H : At t (⟨s, d, x, S⟩ :: c) T) (h : T ≠ .nil ∨ S ≠ .nil) :
    addr T ≠ addr S := by
  intro he
  have hT := H.addr_eq_nil
  have hS := (at_sib.mp H).addr_eq_nil
  have hTn : T ≠ .nil := fun h0 => h.elim (· h0) (· (hS.mp (he ▸ hT.mpr h0)))
  have hSn : S ≠ .nil := fun h0 => hTn (hT.mp (he ▸ hS.mpr h0))
  refine (nodup_append.mp H.nodup).2.2 _ (addr_mem hTn) _ ?_ he
  exact mem_addrsC_cons.mpr (.inr (.inl (addr_mem hSn)))

/-- The test by which the source finds on which side of its parent a node is. -/
theorem At.side (H : At t (⟨s, d, x, S⟩ :: c) T) (h : T ≠ .nil ∨ S ≠ .nil) :
    (if addr T = (t.node x.1).l then Side.l else .r) = s := by
  rw [H.node_up]
  cases s with
  | l => exact if_pos rfl
  | r => exact if_neg (H.addr_ne_sib h)

theorem At.root_ne_nil (H : At t c (.mk s d A x B)) : x.1 ≠ Rbtree.nil :=
  (H.range _ (mem_append_left _ (mem_addrs_mk.mpr (.inl rfl)))).1.ne'

/-- A node occurs once. -/
theorem At.root_not_mem (H : At t c (.mk s d A x B)) :
    x.1 ∉ addrs A ∧ x.1 ∉ addrs B ∧ x.1 ∉ addrsC c := by
  have h := ((addrs_mk s d A B x).append_right (addrsC c)).nodup_iff.mp H.nodup
  simp only [cons_append, nodup_cons, mem_append, not_or] at h
  exact ⟨h.1.1.1, h.1.1.2, h.1.2⟩

/-- The colour of the parent; above the root is the sentinel. -/
theorem At.up_red (H : At t c T) : (t.node (up c)).red = (c.head?.elim false Frame.red) := by
  cases c with
  | nil => exact H.sentinel.black
  | cons f c => simp [up, H.ctx.1]

theorem up_ne_nil (H : At t (⟨s, d, x, S⟩ :: c) T) : x.1 ≠ Rbtree.nil :=
  (H.range _ (mem_append_right _ (mem_addrsC_cons.mpr (.inl rfl)))).1.ne'

end

/-! ## Searches -/

section
variable {here left : K → Bool} {c : Ctx K} {T : Shape K}

theorem length_le_addrsC (c : Ctx K) : c.length ≤ (addrsC c).length := by
  induction c with
  | nil => exact Nat.zero_le _
  | cons f c ih =>
    rw [(addrsC_cons f c).length_eq]
    simp only [length_cons, length_append]
    omega

/-- There are no more nodes than were ever made, so the bounds suffice. -/
theorem At.size_le (H : At t c T) : T.size + c.length + 2 ≤ t.fresh := by
  have hsub : addrs T ++ addrsC c ⊆ List.range' 2 (t.fresh - 2) := by
    intro a ha
    obtain ⟨h1, h2⟩ := H.range a ha
    rw [Rbtree.nil] at h1
    rw [mem_range'_1]
    omega
  have hlen := (subperm_of_subset H.nodup hsub).length_le
  have hc := length_le_addrsC c
  have hT : (addrs T).length = T.size := by rw [addrs, length_map, RBT.length_toList]
  have hmade := H.made
  rw [length_append, length_range', hT] at hlen
  rw [Rbtree.nil] at hmade
  omega

theorem At.walk (H : At t c T) {fuel : Nat} (hf : T.height < fuel) :
    t.walk here left fuel (addr T) (up c) =
      some (addr (RedBlack.locate (fun x => here x.2) (fun x => left x.2) c T).2,
        up (RedBlack.locate (fun x => here x.2) (fun x => left x.2) c T).1) := by
  induction T generalizing c fuel with
  | nil =>
    cases fuel with
    | zero => exact absurd hf (Nat.not_lt_zero _)
    | succ fuel => simp [Rbtree.walk, addr, RedBlack.locate]
  | node red l x r ihl ihr =>
    cases fuel with
    | zero => exact absurd hf (Nat.not_lt_zero _)
    | succ fuel =>
      simp only [RBT.height] at hf
      have hn := At.node (s := .l) H
      have hne : x.1 ≠ Rbtree.nil := At.root_ne_nil (s := .l) H
      have hl : At t (⟨.l, red, x, r⟩ :: c) l := at_up.mpr H
      have hr : At t (⟨.r, red, x, l⟩ :: c) r := at_up.mpr H
      simp only [Rbtree.walk, RedBlack.locate, addr, hne, false_or, hn, Node.mk']
      split_ifs with h1 h2
      · rfl
      · exact ihl hl (by omega)
      · exact ihr hr (by omega)

end

/-! ## Writes -/

section
variable (t : Rbtree K) {a b : Nat} (q : Nat) (s : Side) (red : Bool)

@[simp] theorem setP_node : (t.setP a q).node a = { t.node a with p := q } :=
  update_self ..

@[simp] theorem setP_node_ne (h : b ≠ a) : (t.setP a q).node b = t.node b :=
  update_of_ne h ..

@[simp] theorem setChild_node : (t.setChild a s q).node a = (t.node a).setChild s q :=
  update_self ..

@[simp] theorem setChild_node_ne (h : b ≠ a) : (t.setChild a s q).node b = t.node b :=
  update_of_ne h ..

@[simp] theorem setRed_node : (t.setRed a red).node a = { t.node a with red := red } :=
  update_self ..

@[simp] theorem setRed_node_ne (h : b ≠ a) : (t.setRed a red).node b = t.node b :=
  update_of_ne h ..

@[simp] theorem setChild_p (n : Node K) : (n.setChild s q).p = n.p := by cases s <;> rfl

end

/-- Operations that only write links and colours. -/
structure Same (t t' : Rbtree K) : Prop where
  sz : t'.sz = t.sz
  fresh : t'.fresh = t.fresh

theorem Same.refl (t : Rbtree K) : Same t t := ⟨rfl, rfl⟩

theorem Same.trans {t t' t'' : Rbtree K} (h : Same t t') (h' : Same t' t'') : Same t t'' :=
  ⟨h'.sz.trans h.sz, h'.fresh.trans h.fresh⟩

theorem same_modify (t : Rbtree K) (a : Nat) (f : Node K → Node K) : Same t (t.modify a f) :=
    ⟨rfl, rfl⟩

/-- A write to a node that is not in the tree. -/
theorem At.modify_out (H : At t c T) (f : Node K → Node K)
    (ha : a ∉ addrs T ++ addrsC c) (hn : NilOk ((t.modify a f).node Rbtree.nil)) :
    At (t.modify a f) c T := by
  have he (b : Nat) (hb : b ∈ addrs T ++ addrsC c) : (t.modify a f).node b = t.node b :=
    update_of_ne (ne_of_mem_of_not_mem hb ha) ..
  exact ⟨H.tree.congr fun b hb => he b (mem_append_left _ hb),
    H.ctx.congr fun b hb => he b (mem_append_right _ hb), H.nodup, H.range, H.made, hn⟩

theorem At.nil_not_mem (H : At t c T) :
    Rbtree.nil ∉ addrs T ++ addrsC c := fun h => absurd rfl (H.range _ h).1.ne

theorem At.setRed_nil (H : At t c T) : At (t.setRed Rbtree.nil false) c T :=
  H.modify_out _ H.nil_not_mem (by simpa [modify] using ⟨H.sentinel.l, H.sentinel.r, rfl⟩)

theorem At.setRed {d : Bool} {A B : Shape K}
    (H : At t c (.mk s d A x B)) (e : Bool) : At (t.setRed x.1 e) c (.mk s e A x B) := by
  obtain ⟨hx, hA, hB⟩ := rep_mk.mp H.tree
  obtain ⟨hxA, hxB, hxc⟩ := H.root_not_mem
  have he (b : Nat) (hb : b ≠ x.1) : (t.setRed x.1 e).node b = t.node b := setRed_node_ne _ _ hb
  refine ⟨rep_mk.mpr ⟨?_, ?_, ?_⟩, ?_, ?_, fun a ha => ?_, H.made, ?_⟩
  · rw [setRed_node, hx, mk'_setRed]
  · exact hA.congr fun b hb => he b (ne_of_mem_of_not_mem hb hxA)
  · exact hB.congr fun b hb => he b (ne_of_mem_of_not_mem hb hxB)
  · have h := H.ctx
    rw [addr_mk] at h ⊢
    exact h.congr fun b hb => he b (ne_of_mem_of_not_mem hb hxc)
  · rw [addrs_mk_congr s e d]
    exact H.nodup
  · rw [addrs_mk_congr s e d] at ha
    exact H.range a ha
  · rw [he _ H.root_ne_nil.symm]
    exact H.sentinel

section
variable {s : Side} {c : Ctx K} {d : Bool} {x : Nat × K} {S T : Shape K}

theorem At.setRed_up (H : At t (⟨s, d, x, S⟩ :: c) T) (e : Bool) :
    At (t.setRed x.1 e) (⟨s, e, x, S⟩ :: c) T := at_up.mpr ((at_up.mp H).setRed e)

/-- `x->color = BLACK`, for a node of the tree or the sentinel. -/
theorem At.blacken (H : At t c T) : At (t.setRed (addr T) false) c T.blacken := by
  cases T with
  | nil => exact H.setRed_nil
  | node red l y r => exact At.setRed (s := .l) H false

end

/-- Set what is at the hole of `c`. -/
def relink (t : Rbtree K) (c : Ctx K) (y : Nat) : Rbtree K :=
  match c with
  | [] => { t with root := y }
  | f :: _ => t.setChild f.x.1 f.side y

theorem relink_node (t : Rbtree K) (c : Ctx K) (y : Nat) (ha : a ∉ addrsC c) :
    (t.relink c y).node a = t.node a := by
  cases c with
  | nil => rfl
  | cons f c => exact setChild_node_ne _ _ _ fun h => ha (mem_addrsC_cons.mpr (.inl h))

theorem same_relink (t : Rbtree K) (c : Ctx K) (y : Nat) : Same t (t.relink c y) := by
  cases c <;> exact ⟨rfl, rfl⟩

theorem RepC.relink (h : RepC t.node t.root c hole) (hnd : (addrsC c).Nodup) (y : Nat) :
    RepC (t.relink c y).node (t.relink c y).root c y := by
  cases c with
  | nil => rfl
  | cons f c =>
    apply h.rehole hnd nofun fun _ => rfl
    · rintro g d ⟨⟩
      exact setChild_node ..
    · intro a _ ha
      exact setChild_node_ne _ _ _ ha

/-- `replaceChild` finds the right field of the parent, or the root. -/
theorem replaceChild_eq {x : Nat} (h : RepC t.node t.root c x) (hp : (t.node x).p = up c)
    (hx : x ≠ nil) (hxc : x ∉ addrsC c) (hnil : nil ∉ addrsC c) (y : Nat) :
    t.replaceChild x y = t.relink c y := by
  cases c with
  | nil => simp [replaceChild, relink, hp, up]
  | cons f c =>
    have hf : f.x.1 ≠ nil := fun he => hnil (mem_addrsC_cons.mpr (.inl he.symm))
    have hsib : x ≠ addr f.sib := by
      rintro rfl
      obtain hs | hs := addr_mem_or f.sib
      · exact hx hs
      · exact hxc (mem_addrsC_cons.mpr (.inr (.inl hs)))
    simp only [replaceChild, relink, hp, up, hf, if_false, h.1]
    cases f.side with
    | l => simp [Node.mk']
    | r => simp [Node.mk', hsib]

theorem same_replaceChild (t : Rbtree K) (x y : Nat) : Same t (t.replaceChild x y) := by
  unfold replaceChild
  simp only
  split_ifs
  · exact ⟨rfl, rfl⟩
  · exact same_modify ..
  · exact same_modify ..

/-! ## Rotation -/

section
variable {s : Side} {x y b : Nat}

theorem rotateLow_node (hx : (t.node x).child s.other = y) (hy : (t.node y).child s = b)
    (hxy : x ≠ y) (hbx : b ≠ x) (hby : b ≠ y) (a : Nat) : (t.rotateLow s x).node a =
      if a = x then (t.node x).setChild s.other b
      else if a = y then { t.node y with p := (t.node x).p }
      else if a = b ∧ b ≠ nil then { t.node b with p := x }
      else t.node a := by
  have h1 : ((t.setChild x s.other b).node y).child s = b := by
    rw [setChild_node_ne _ _ _ hxy.symm, hy]
  simp only [rotateLow, hx, hy, h1]
  obtain rfl | hax := eq_or_ne a x
  · rw [if_pos rfl, setP_node_ne _ _ hxy]
    split_ifs <;> simp [hbx.symm]
  obtain rfl | hay := eq_or_ne a y
  · rw [if_neg hax, if_pos rfl, setP_node]
    split_ifs <;> simp [hbx.symm, hby.symm, hax]
  rw [if_neg hax, if_neg hay, setP_node_ne _ _ hay]
  obtain rfl | hab := eq_or_ne a b
  · split_ifs <;> simp_all
  · split_ifs <;> simp_all

theorem same_rotateLow (t : Rbtree K) (s : Side) (x : Nat) : Same t (t.rotateLow s x) := by
  unfold rotateLow
  simp only
  split_ifs
  · exact ⟨rfl, rfl⟩
  · exact ⟨rfl, rfl⟩

theorem rotateLow_root (t : Rbtree K) (s : Side) (x : Nat) : (t.rotateLow s x).root = t.root := by
  unfold rotateLow
  simp only
  split_ifs <;> rfl

theorem same_rotate (t : Rbtree K) (s : Side) (x : Nat) : Same t (t.rotate s x) := by
  have h := (same_rotateLow t s x).trans (same_replaceChild _ x ((t.node x).child s.other))
  exact ⟨h.sz, h.fresh⟩

end

theorem At.rotate {d e : Bool} {A B C : Shape K} {y : Nat × K}
    (H : At t c (.mk s d A x (.mk s e B y C))) :
    At (t.rotate s x.1) c (.mk s e (.mk s d A x B) y C) ∧
      (t.rotate s x.1).node nil = t.node nil := by
  obtain ⟨hx, hA, hyBC⟩ := rep_mk.mp H.tree
  obtain ⟨hy, hB, hC⟩ := rep_mk.mp hyBC
  have hctx := H.ctx
  rw [addr_mk] at hx hctx
  have hp1 : (addrs (.mk s d A x (.mk s e B y C)) ++ addrsC c).Perm
      (x.1 :: y.1 :: (addrs A ++ (addrs B ++ (addrs C ++ addrsC c)))) := by
    refine ((addrs_mk s d A _ x).trans (((addrs_mk s e B C y).append_left _).cons _)).append_right _
      |>.trans ?_
    simp only [cons_append, append_assoc]
    exact List.perm_middle.cons _
  have hp2 : (addrs (.mk s e (.mk s d A x B) y C) ++ addrsC c).Perm
      (x.1 :: y.1 :: (addrs A ++ (addrs B ++ (addrs C ++ addrsC c)))) := by
    refine ((addrs_mk s e _ C y).trans (((addrs_mk s d A B x).append_right _).cons _)).append_right
      _
      |>.trans ?_
    simp only [cons_append, append_assoc]
    exact List.Perm.swap _ _ _
  have hnd := hp1.nodup_iff.mp H.nodup
  have hr (a : Nat) (ha : a ∈ x.1 :: y.1 :: (addrs A ++ (addrs B ++ (addrs C ++ addrsC c)))) :=
    (H.range a (hp1.mem_iff.mpr ha)).1.ne
  simp only [nodup_cons, nodup_append, mem_cons, mem_append, not_or] at hnd hr
  obtain ⟨⟨hxy, hxA, hxB, hxC, hxc⟩, ⟨hyA, hyB, hyC, hyc⟩, hndA, ⟨hndB, ⟨hndC, hndc, hCc⟩, hBC⟩,
    hAB⟩ := hnd
  have hxn := hr x.1 (.inl rfl)
  have hyn := hr y.1 (.inr (.inl rfl))
  have hnc : nil ∉ addrsC c := fun h => hr nil (by simp [h]) rfl
  have hb := addr_mem_or B
  have hbx : addr B ≠ x.1 := by grind
  have hby : addr B ≠ y.1 := by grind
  have hlow := rotateLow_node (t := t) (s := s) (x := x.1) (by rw [hx, mk'_far])
    (by rw [hy, mk'_near])
    hxy hbx hby
  rw [hx, mk'_setFar, mk'_p] at hlow
  generalize htl : t.rotateLow s x.1 = tl at hlow
  have hctx' : RepC tl.node tl.root c x.1 := by
    rw [← htl, rotateLow_root, htl]
    refine hctx.congr fun a ha => ?_
    grind
  have hrot : t.rotate s x.1 = ((tl.relink c y.1).setChild y.1 s x.1).setP x.1 y.1 := by
    rw [← replaceChild_eq hctx' (by simp [hlow]) hxn.symm hxc hnc]
    simp [Rbtree.rotate, hx, htl]
  have hout (a : Nat) (hax : a ≠ x.1) (hay : a ≠ y.1) (hac : a ∉ addrsC c)
      (hab : a = addr B → addr B = nil) : (t.rotate s x.1).node a = t.node a := by
    rw [hrot, setP_node_ne _ _ hax, setChild_node_ne _ _ _ hay, relink_node _ _ _ hac, hlow,
      if_neg hax, if_neg hay, if_neg fun h => h.2 (hab h.1)]
  have hnil := hout nil hxn hyn hnc Eq.symm
  refine ⟨⟨rep_mk.mpr ⟨?_, rep_mk.mpr ⟨?_, ?_, ?_⟩, ?_⟩, ?_,
    hp2.nodup_iff.mpr (hp1.nodup_iff.mp H.nodup),
    fun a ha => ?_, (same_rotate t s x.1).fresh ▸ H.made, hnil ▸ H.sentinel⟩, hnil⟩
  · rw [hrot, setP_node_ne _ _ (Ne.symm hxy), setChild_node, relink_node _ _ _ hyc, hlow,
      if_neg (Ne.symm hxy), if_pos rfl, hy, mk'_setP, mk'_setNear, addr_mk]
  · rw [hrot, setP_node, setChild_node_ne _ _ _ hxy, relink_node _ _ _ hxc, hlow, if_pos rfl,
      mk'_setP]
  · exact hA.congr fun a ha => hout a (by grind) (by grind) (by grind) (by grind)
  · refine hB.reparent hndB (fun hne => ?_) (fun a ha hne => ?_)
    · have hm := addr_mem hne
      rw [hrot, setP_node_ne _ _ hbx, setChild_node_ne _ _ _ hby, relink_node _ _ _ (by grind),
        hlow,
        if_neg hbx, if_neg hby, if_pos ⟨rfl, (hr _ (by simp [hm])).symm⟩]
    · exact hout a (by grind) (by grind) (by grind) fun h => absurd h hne
  · exact hC.congr fun a ha => hout a (by grind) (by grind) (by grind) (by grind)
  · rw [hrot, addr_mk]
    refine (hctx'.relink hndc y.1).congr fun a ha => ?_
    rw [setP_node_ne _ _ (by grind), setChild_node_ne _ _ _ (by grind)]
  · rw [(same_rotate t s x.1).fresh]
    exact H.range a (hp1.mem_iff.mpr (hp2.mem_iff.mp ha))

end Sysint.Rbtree
