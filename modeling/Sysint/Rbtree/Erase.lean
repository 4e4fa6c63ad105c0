import Sysint.Rbtree.Search

/-! The second half of `erase`: `_remove_fixup` moves a missing black node up until
it can be made good. -/
namespace Sysint.Rbtree
open RedBlack

variable {K : Type} {t t' : Rbtree K} {c c' : Ctx K} {T : Shape K}

/-- The sentinel keeps its parent field as long as it is not written. -/
theorem Cur.keep (H : Cur t c T) (H' : At t' c' T) (hup : up c' = up c)
    (hnil : t'.node nil = t.node nil) : Cur t' c' T := by
  refine ⟨H', ?_⟩
  by_cases hT : T = .nil
  · have hp := H.parent
    subst hT
    rw [addr_nil] at hp ⊢
    rw [hnil, hp, hup]
  · exact H'.parent hT

section
variable {b : Side} {d e : Bool} {p w m : Nat × K} {N F P Q S : Shape K}

/-- The state of a round: `x` is below `p`, and its sibling is the root of `S`. -/
theorem Cur.reads (H : Cur t (⟨b, d, p, S⟩ :: c) T) :
    (t.node (addr T)).p = p.1 ∧ (t.node p.1).child b.other = addr S ∧
      (t.node (addr S)).red = S.isRed := by
  refine ⟨H.parent, ?_, (at_sib.mp H.toAt).isRed⟩
  rw [H.node_up, mk'_far]

/-- A red sibling becomes the grandparent. -/
theorem Cur.removeFixRed (H : Cur t (⟨b, d, p, .mk b true N w F⟩ :: c) T) :
    Cur (t.removeFixRed b (addr T)) (⟨b, true, p, N⟩ :: ⟨b, false, w, F⟩ :: c) T ∧
      Same t (t.removeFixRed b (addr T)) := by
  obtain ⟨hp, hw, hred⟩ := H.reads
  rw [addr_mk] at hw hred
  have Hw := at_sib.mp H.toAt
  have H1 := at_sib.mpr (Hw.setRed false)
  have H2 := at_up.mp (H1.setRed_up true)
  have hrot := H2.rotate
  have heq : t.removeFixRed b (addr T) = ((t.setRed w.1 false).setRed p.1 true).rotate b p.1 := by
    simp [Rbtree.removeFixRed, hp, hw, hred]
  rw [heq]
  have hs := same_rotate ((t.setRed w.1 false).setRed p.1 true) b p.1
  refine ⟨H.keep (at_up.mpr (at_up.mpr hrot.1)) rfl ?_, hs.sz, hs.fresh⟩
  rw [hrot.2, setRed_node_ne _ _ (up_ne_nil H.toAt).symm, setRed_node_ne _ _ Hw.root_ne_nil.symm]

theorem Cur.removeFixRed_black (H : Cur t (⟨b, d, p, S⟩ :: c) T) (hS : S.isRed = false) :
    t.removeFixRed b (addr T) = t := by
  obtain ⟨hp, hw, hred⟩ := H.reads
  simp [Rbtree.removeFixRed, hp, hw, hred, hS]

/-- A sibling with a red near child and a black far child. -/
theorem Cur.removeFixNear (H : Cur t (⟨b, d, p, .mk b false (.mk b.other true P m Q) w F⟩ :: c) T)
    (hF : F.isRed = false) :
    Cur (t.removeFixNear b (addr T)) (⟨b, d, p, .mk b false Q m (.mk b true P w F)⟩ :: c) T ∧
      Same t (t.removeFixNear b (addr T)) := by
  obtain ⟨hp, hw, hred⟩ := H.reads
  rw [addr_mk] at hw
  have Hw := at_sib.mp H.toAt
  have hn := Hw.node
  have HN : At t (⟨b, false, w, F⟩ :: ⟨b.other, d, p, T⟩ :: c) (.mk b.other true P m Q) :=
    at_up.mpr Hw
  have hF' : (t.node (addr F)).red = false := by rw [(at_sib.mp HN).isRed, hF]
  have H1 := HN.setRed false
  have H2 := at_up.mp (H1.setRed_up true)
  have H3 : At ((t.setRed m.1 false).setRed w.1 true) (⟨b.other, d, p, T⟩ :: c)
      (.mk b.other true F w (.mk b.other false P m Q)) := by
    simpa only [Frame.fill, mk_other] using H2
  have hrot := H3.rotate
  have heq : t.removeFixNear b (addr T) =
      ((t.setRed m.1 false).setRed w.1 true).rotate b.other w.1 := by
    simp [Rbtree.removeFixNear, hp, hw, hn, hF']
  have hs := same_rotate ((t.setRed m.1 false).setRed w.1 true) b.other w.1
  rw [heq]
  refine ⟨H.keep (at_sib.mpr ?_) rfl ?_, hs.sz, hs.fresh⟩
  · simpa only [mk_other] using hrot.1
  · rw [hrot.2, setRed_node_ne _ _ Hw.root_ne_nil.symm, setRed_node_ne _ _ HN.root_ne_nil.symm]

theorem Cur.removeFixNear_red (H : Cur t (⟨b, d, p, .mk b e N w F⟩ :: c) T) (hF : F.isRed = true) :
    t.removeFixNear b (addr T) = t := by
  obtain ⟨hp, hw, hred⟩ := H.reads
  rw [addr_mk] at hw
  have hn := (at_sib.mp H.toAt).node
  have HF := at_sib.mp (at_up (f := ⟨b, e, w, F⟩).mpr (at_sib.mp H.toAt))
  have hF' : (t.node (addr F)).red = true := by rw [HF.isRed, hF]
  simp [Rbtree.removeFixNear, hp, hw, hn, hF']

/-- A sibling with a red far child takes the place of the parent. -/
theorem Cur.removeFixFar (H : Cur t (⟨b, d, p, .mk b false N w F⟩ :: c) T) :
    At (t.removeFixFar b (addr T)) c (.mk b d (.mk b false T p N) w F.blacken) ∧
      Same t (t.removeFixFar b (addr T)) := by
  obtain ⟨hp, hw, hred⟩ := H.reads
  rw [addr_mk] at hw
  have hd : (t.node p.1).red = d := by rw [H.node_up, mk'_red]
  have H1 := at_sib.mpr ((at_sib.mp H.toAt).setRed d)
  have H2 := H1.setRed_up false
  have HF := at_sib.mp (at_up (f := ⟨b, d, w, F⟩).mpr (at_sib.mp H2))
  have hF : (((t.setRed w.1 d).setRed p.1 false).node w.1).child b.other = addr F := by
    rw [(at_sib.mp H2).node, mk'_far]
  have H3 := at_up.mp (at_sib.mpr (at_up.mp (at_sib.mpr HF.blacken)))
  have heq : t.removeFixFar b (addr T) =
      (((t.setRed w.1 d).setRed p.1 false).setRed (addr F) false).rotate b p.1 := by
    simp [Rbtree.removeFixFar, hp, hw, hd, hF]
  have hs := same_rotate (((t.setRed w.1 d).setRed p.1 false).setRed (addr F) false) b p.1
  rw [heq]
  exact ⟨(At.rotate H3).1, hs.sz, hs.fresh⟩

end

/-! ## The loop -/

/-- A tree with `n` black nodes on its paths, or a red root to be made black. -/
def Bal (T : Shape K) (n : Nat) : Prop :=
  RB T false n ∨ (T.isRed = true ∧ RB T.blacken false (n + 1))

/-- The loop ends at the root or at a red node. -/
theorem Cur.removeFixup_end {n : Nat} (H : Cur t c T) (hT : Bal T n) (hc : Fits c false (n + 1))
    (hend : c = [] ∨ T.isRed = true) (fuel : Nat) :
    ∃ t' T' m, removeFixup (fuel + 1) t (addr T) = some t' ∧ At t' [] T' ∧ Same t t' ∧
      RB T' false m ∧ T'.toList = (plug c T).toList := by
  have hstop : ¬(addr T ≠ t.root ∧ (t.node (addr T)).red = false) := by
    rintro ⟨h1, h2⟩
    obtain rfl | hred := hend
    · exact h1 (Eq.symm H.ctx)
    · rw [H.isRed, hred] at h2
      cases h2
  have hRB : ∃ m, RB (plug c T.blacken) false m := by
    obtain hT | ⟨-, hT⟩ := hT
    · obtain rfl | hred := hend
      · exact ⟨n, hT.blacken_eq.symm ▸ hT⟩
      · rw [hT.isRed] at hred
        cases hred
    · exact hc.plug hT
  obtain ⟨m, hm⟩ := hRB
  refine ⟨t.setRed (addr T) false, _, m, ?_, at_root.mp H.toAt.blacken, same_modify .., hm, ?_⟩
  · rw [removeFixup, if_neg hstop]
  · exact toList_plug_congr (RBT.toList_blacken T)

section
variable {b : Side} {d : Bool} {p : Nat × K} {S : Shape K} {n : Nat}

/-- After the first half of a round the sibling is black. -/
theorem Cur.removeFixRed_spec (H : Cur t (⟨b, d, p, S⟩ :: c) T)
    (hc : Fits (⟨b, d, p, S⟩ :: c) false (n + 1)) :
    ∃ d' S' c', Cur (t.removeFixRed b (addr T)) (⟨b, d', p, S'⟩ :: c') T ∧
      RB S' false (n + 1) ∧ Fits (⟨b, d', p, S'⟩ :: c') false (n + 1) ∧
      Same t (t.removeFixRed b (addr T)) ∧ (c'.length = c.length ∨ d' = true) ∧
      (plug (⟨b, d', p, S'⟩ :: c') T).toList = (plug (⟨b, d, p, S⟩ :: c) T).toList := by
  obtain ⟨e, hS, hde⟩ := hc.sib
  cases e with
  | false =>
    rw [H.removeFixRed_black hS.isRed]
    exact ⟨d, S, c, H, hS, hc, .refl t, .inl rfl, rfl⟩
  | true =>
    obtain ⟨f, N, w, F, rfl⟩ := hS.exists_mk b
    obtain ⟨rfl, hcase⟩ := RB.of_mk hS
    obtain ⟨-, hN, hF⟩ | ⟨h, -⟩ := hcase
    · cases hc with
      | red hs _ => cases hs.isRed.symm.trans (isRed_mk ..)
      | black _ hc =>
        obtain ⟨H', hs⟩ := H.removeFixRed
        refine ⟨true, N, _, H', hN, .red hN (.black hF hc), hs, .inr rfl, ?_⟩
        simp only [plug, Frame.fill]
        exact toList_plug_congr (RBT.toList_rotate ..)
    · cases h

theorem Cur.of_at {t' : Rbtree K} {c' : Ctx K} {X : Shape K} (H : At t' c' X) (hX : X ≠ .nil) :
    Cur t' c' X := ⟨H, H.parent hX⟩

/-- A black sibling with a red far child makes the missing node good. -/
theorem Cur.removeFix_far {N F : Shape K} {w : Nat × K} {e : Bool}
    (H : Cur t (⟨b, d, p, .mk b false N w F⟩ :: c) T) (hT : RB T false n) (hN : RB N e n)
    (hF : RB F true n) (hc : Fits (⟨b, d, p, .mk b false N w F⟩ :: c) false (n + 1)) :
    ∃ T' m, At (t.removeFixFar b (addr T)) [] T' ∧ RB T' false m ∧
      Same t (t.removeFixFar b (addr T)) ∧ T' ≠ .nil ∧
      T'.toList = (plug (⟨b, d, p, .mk b false N w F⟩ :: c) T).toList := by
  obtain ⟨H', hs⟩ := H.removeFixFar
  have hX : RB (.mk b d (.mk b false T p N) w F.blacken) d (if d then n + 1 else n + 1 + 1) := by
    cases d with
    | true => exact .mk_red (.mk_black hT hN) hF.blacken
    | false => exact .mk_black (.mk_black hT hN) hF.blacken
  obtain ⟨m, hm⟩ := hc.tail.plug hX
  refine ⟨_, m, at_root.mp H', hm, hs, plug_ne_nil mk_ne_nil, ?_⟩
  apply toList_plug_congr
  cases b <;> simp [Frame.fill, RBT.mk, RBT.toList, RBT.toList_blacken]

/-- A black sibling with a red child makes the missing node good. -/
theorem Cur.removeFix_red {N F : Shape K} {w : Nat × K} {e f : Bool}
    (H : Cur t (⟨b, d, p, .mk b false N w F⟩ :: c) T) (hT : RB T false n) (hN : RB N e n)
    (hF : RB F f n) (hred : e = true ∨ f = true)
    (hc : Fits (⟨b, d, p, .mk b false N w F⟩ :: c) false (n + 1)) :
    ∃ T' m, At ((t.removeFixNear b (addr T)).removeFixFar b (addr T)) [] T' ∧ RB T' false m ∧
      Same t ((t.removeFixNear b (addr T)).removeFixFar b (addr T)) ∧ T' ≠ .nil ∧
      T'.toList = (plug (⟨b, d, p, .mk b false N w F⟩ :: c) T).toList := by
  cases f with
  | true =>
    rw [H.removeFixNear_red hF.isRed]
    exact H.removeFix_far hT hN hF hc
  | false =>
    obtain rfl : e = true := by simpa using hred
    have hne : N ≠ .nil := by
      rintro rfl
      cases hN
    obtain ⟨g, P, m, Q, rfl⟩ := RBT.exists_mk b.other hne
    obtain ⟨rfl, ⟨-, hP, hQ⟩ | ⟨h, -⟩⟩ := RB.of_mk hN
    · have hF' : RB (.mk b true P w F) true n := .mk_red hP hF
      obtain ⟨H1, hs1⟩ := H.removeFixNear hF.isRed
      obtain ⟨T', k, H2, hRB, hs2, hne', hlist⟩ :=
        H1.removeFix_far hT hQ hF' (hc.set_sib (.mk_black hQ hF'))
      refine ⟨T', k, H2, hRB, hs1.trans hs2, hne', hlist.trans ?_⟩
      rw [plug, plug]
      apply toList_plug_congr
      cases b <;> simp [Frame.fill, RBT.mk, RBT.toList, Side.other]
    · cases h

/-- The second half of a round ends the loop, or goes on at the parent. -/
theorem Cur.removeFixBlack_spec (H : Cur t (⟨b, d, p, S⟩ :: c) T) (hT : RB T false n)
    (hS : RB S false (n + 1)) (hc : Fits (⟨b, d, p, S⟩ :: c) false (n + 1)) :
    ∃ c' T' k, (t.removeFixBlack b (addr T)).2 = addr T' ∧
      Cur (t.removeFixBlack b (addr T)).1 c' T' ∧ Same t (t.removeFixBlack b (addr T)).1 ∧
      Bal T' k ∧ Fits c' false (k + 1) ∧ (c' = [] ∨ T'.isRed = true ∨ (c' = c ∧ d = false)) ∧
      (plug c' T').toList = (plug (⟨b, d, p, S⟩ :: c) T).toList := by
  obtain ⟨hp, hw, -⟩ := H.reads
  obtain ⟨g, N, w, F, rfl⟩ := hS.exists_mk b
  obtain ⟨rfl, ⟨h, -⟩ | ⟨-, k, e, f, hk, hN, hF⟩⟩ := RB.of_mk hS
  · cases h
  obtain rfl : n = k := by omega
  have Hw := at_sib.mp H.toAt
  have HN := at_up (f := ⟨b, false, w, F⟩).mpr Hw
  have hNr : (t.node (addr N)).red = e := HN.isRed.trans hN.isRed
  have hFr : (t.node (addr F)).red = f := (at_sib.mp HN).isRed.trans hF.isRed
  rw [addr_mk] at hw
  have htest : ((t.node (t.node w.1).l).red = false ∧ (t.node (t.node w.1).r).red = false) ↔
      (e = false ∧ f = false) := by
    rw [Hw.node]
    cases b with
    | l => simp [Node.mk', hNr, hFr]
    | r => simp [Node.mk', hNr, hFr, and_comm]
  by_cases hef : e = false ∧ f = false
  · obtain ⟨rfl, rfl⟩ := hef
    have H1 := at_up.mp (at_sib.mpr (Hw.setRed true))
    have hS' : RB (.mk b true N w F) true n := .mk_red hN hF
    have heq : t.removeFixBlack b (addr T) = (t.setRed w.1 true, p.1) := by
      simp [removeFixBlack, hp, hw, htest]
    rw [heq]
    have hX : RB (.mk b false T p (.mk b true N w F)) false (n + 1) := .mk_black hT hS'
    cases d with
    | true =>
      refine ⟨c, _, n, ?_, .of_at H1 mk_ne_nil, ⟨rfl, rfl⟩, .inr ⟨isRed_mk .., ?_⟩, hc.tail.of_red,
        .inr (.inl (isRed_mk ..)), ?_⟩
      · exact (addr_mk ..).symm
      · rw [Frame.fill, blacken_mk]
        exact hX
      · exact toList_plug_congr (by cases b <;> rfl)
    | false =>
      refine ⟨c, _, n + 1, ?_, .of_at H1 mk_ne_nil, ⟨rfl, rfl⟩, .inl hX, hc.tail,
        .inr (.inr ⟨rfl, rfl⟩), ?_⟩
      · exact (addr_mk ..).symm
      · exact toList_plug_congr (by cases b <;> rfl)
  · have hred : e = true ∨ f = true := by
      cases e <;> cases f <;> simp_all
    obtain ⟨T', m, H', hRB, hs, hne, hlist⟩ := H.removeFix_red hT hN hF hred hc
    have heq : t.removeFixBlack b (addr T) =
        ((t.removeFixNear b (addr T)).removeFixFar b (addr T),
          ((t.removeFixNear b (addr T)).removeFixFar b (addr T)).root) := by
      simp [removeFixBlack, hp, hw, htest, hef]
    rw [heq]
    exact ⟨[], T', m, H'.ctx, .of_at H' hne, hs, .inl hRB, .root, .inl rfl, hlist⟩

end

theorem Cur.ne_root {f : Frame (Nat × K)} (H : Cur t (f :: c) T) : addr T ≠ t.root := by
  have hroot : t.root = addr (plug (f :: c) T) := (at_root.mp H.toAt).ctx
  have hm := addr_plug_mem f c T
  rw [hroot]
  refine (ne_addr (fun h => ?_) (H.range _ (List.mem_append_right _ hm)).1).symm
  exact (List.nodup_append.mp H.nodup).2.2 _ h _ hm rfl

/-- `_remove_fixup` makes good one missing black node. -/
theorem Cur.removeFixup {n : Nat} (H : Cur t c T) (hT : Bal T n) (hc : Fits c false (n + 1))
    {fuel : Nat} (hf : c.length + 2 ≤ fuel) :
    ∃ t' T' m, removeFixup fuel t (addr T) = some t' ∧ At t' [] T' ∧ Same t t' ∧
      RB T' false m ∧ T'.toList = (plug c T).toList := by
  -- every round but the last goes up one node
  induction fuel generalizing t c T n with
  | zero => omega
  | succ fuel ih =>
    by_cases hend : c = [] ∨ T.isRed = true
    · exact H.removeFixup_end hT hc hend fuel
    obtain ⟨hc0, hred⟩ := not_or.mp hend
    have hTB : RB T false n := hT.resolve_right fun h => hred h.1
    match c, hc0 with
    | ⟨b, d, p, S⟩ :: c, _ =>
      have hgo : addr T ≠ t.root ∧ (t.node (addr T)).red = false :=
        ⟨H.ne_root, H.isRed.trans hTB.isRed⟩
      have hside : (if addr T = (t.node (t.node (addr T)).p).l then Side.l else .r) = b := by
        rw [H.parent]
        refine H.side (.inr ?_)
        rintro rfl
        obtain ⟨e, he, -⟩ := hc.sib
        cases he
      obtain ⟨d', S', c₁, H1, hS', hc1, hs1, hlen, hl1⟩ := H.removeFixRed_spec hc
      obtain ⟨c₂, T₂, k, hx, H2, hs2, hB, hc2, hcase, hl2⟩ := H1.removeFixBlack_spec hTB hS' hc1
      have hloop : Rbtree.removeFixup (fuel + 1) t (addr T) =
          Rbtree.removeFixup fuel (t.removeFix b (addr T)).1 (addr T₂) := by
        rw [Rbtree.removeFixup, if_pos hgo]
        simp only [hside]
        rw [← hx]
        rfl
      simp only [List.length_cons] at hf
      have hrec : ∃ t' T' m, Rbtree.removeFixup fuel (t.removeFix b (addr T)).1
        (addr T₂) = some t' ∧
          At t' [] T' ∧ Same (t.removeFix b (addr T)).1 t' ∧ RB T' false m ∧
          T'.toList = (plug c₂ T₂).toList := by
        obtain ⟨fuel, rfl⟩ : ∃ k, fuel = k + 1 := ⟨fuel - 1, by omega⟩
        obtain h | h | ⟨rfl, rfl⟩ := hcase
        · exact H2.removeFixup_end hB hc2 (.inl h) fuel
        · exact H2.removeFixup_end hB hc2 (.inr h) fuel
        · refine ih H2 hB hc2 ?_
          simp only [Bool.false_eq_true, or_false] at hlen
          omega
      obtain ⟨t', T', m, he, H', hs', hRB, hlist⟩ := hrec
      exact ⟨t', T', m, hloop.trans he, H', (hs1.trans hs2).trans hs', hRB,
        hlist.trans (hl2.trans hl1)⟩

/-- The tree without the node `z`, before `delete z`. -/
theorem At.remove {red : Bool} {l r : Shape K} {z : Nat × K} {m : Nat}
    (H : At t c (.node red l z r)) (hRB : RB (plug c (.node red l z r)) false m) :
    ∃ t' x d t'' T' m', t.splice z.1 = some (t', x, d) ∧
      (if d then some t' else Rbtree.removeFixup t.fresh t' x) = some t'' ∧ At t'' [] T' ∧
      Same t t'' ∧ RB T' false m' ∧ z.1 ∉ addrs T' ∧
      T'.toList = before c ++ (l.toList ++ r.toList) ++ after c := by
  obtain ⟨t', c', V, d, hsp, H', hs, hlist, hmiss, hz⟩ := H.splice hRB
  rw [← (addrs_plug c' V).mem_iff] at hz
  obtain ⟨rfl, n, hV, hc⟩ | ⟨rfl, n, e, hV, hc⟩ := hmiss
  · obtain ⟨m', hm'⟩ := hc.plug hV
    exact ⟨t', _, true, t', _, m', hsp, rfl, at_root.mp H'.toAt, hs, hm', hz, hlist⟩
  have hB : Bal V n := by
    cases e with
    | false => exact .inl hV
    | true => exact .inr ⟨hV.isRed, hV.blacken⟩
  have hf : c'.length + 2 ≤ t.fresh := by
    have h := H'.size_le
    rw [hs.fresh] at h
    omega
  obtain ⟨t'', T', m', he, H'', hs'', hRB'', hl''⟩ := H'.removeFixup hB hc hf
  refine ⟨t', _, false, t'', T', m', hsp, he, H'', hs.trans hs'', hRB'', ?_, hl''.trans hlist⟩
  rwa [addrs, hl'']

/-- `erase` takes one node out and leaves the others where they are. -/
theorem erase_spec {xs ys : List (Nat × K)} {z : Nat × K} (H : Holds t (xs ++ z :: ys)) :
    ∃ t', erase t z.1 = some t' ∧ Holds t' (xs ++ ys) ∧ t'.fresh = t.fresh := by
  have hsz := H.sz
  obtain ⟨c, red, l, r, m, Hz, hRB, rfl, rfl⟩ := H.exists_at
  obtain ⟨t', x, d, t'', T', m', hsp, hfix, H', hs, hRB', hz, hl'⟩ := Hz.remove hRB
  have hzn : z.1 ≠ nil := At.root_ne_nil (s := .l) Hz
  have hz0 : z.1 ≠ null := by
    have h := (Hz.range z.1 (List.mem_append_left _ (mem_addrs_mk (s := .l).mpr (.inl rfl)))).1
    rw [null]
    omega
  have hz' : z.1 ∉ addrs T' ++ addrsC ([] : Ctx K) := by simpa [addrsC, before, after] using hz
  have H1 := H'.modify_out (fun n => n.setChild .l null) hz' (by
    rw [show (t''.modify z.1 _).node nil = _ from setChild_node_ne t'' null .l hzn.symm]
    exact H'.sentinel)
  have H2 := H1.modify_out (fun n => n.setChild .r null) hz' (by
    rw [show ((t''.modify z.1 _).modify z.1 _).node nil = _ from
      setChild_node_ne (t''.setChild z.1 .l null) null .r hzn.symm]
    exact H1.sentinel)
  refine ⟨{ (t''.setChild z.1 .l null).setChild z.1 .r null with sz := t.sz - 1 }, ?_,
    ⟨⟨T', m', H2.setSz _, hRB', ?_⟩, ?_⟩, hs.fresh⟩
  · simp only [erase, hzn, hz0, or_self, if_false, hsp, Option.bind_some, hfix, Option.map_some]
    rw [show ((t''.setChild z.1 .l null).setChild z.1 .r null).sz = t.sz from hs.sz]
  · rw [hl']
    simp
  · simp only [List.length_append, List.length_cons] at hsz ⊢
    omega

end Sysint.Rbtree
