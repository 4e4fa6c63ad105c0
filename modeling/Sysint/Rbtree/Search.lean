import Sysint.Rbtree.Splice

/-! Reading a tree: its nodes, `begin`, `succ` and `find`. -/
namespace Sysint.Rbtree
open RedBlack
open List hiding after

variable {K : Type} {o : Order K} {t : Rbtree K} {xs ys : List (Nat × K)} {x : Nat × K} {k : K}
  {c : Ctx K} {T : Shape K}

/-! ## Nodes -/

theorem Holds.nodup (H : Holds t xs) : (xs.map Prod.fst).Nodup := by
  obtain ⟨⟨T, m, HT, -, rfl⟩, -⟩ := H
  simpa [addrs, addrsC, before, after] using HT.nodup

theorem Holds.range (H : Holds t xs) (hx : x ∈ xs) : nil < x.1 ∧ x.1 < t.fresh := by
  obtain ⟨⟨T, m, HT, -, rfl⟩, -⟩ := H
  exact HT.range _ (mem_append_left _ (mem_map_of_mem hx))

/-- A node of the tree, with what stands before and after it. -/
theorem At.exists_cut (H : At t [] T) (hT : T.toList = xs ++ x :: ys) :
    ∃ c red l r, T = plug c (.node red l x r) ∧ At t c (.node red l x r) ∧
      xs = before c ++ l.toList ∧ ys = r.toList ++ after c := by
  have hnd : (xs ++ x :: ys).Nodup := by
    have h := H.nodup
    rw [← hT]
    exact (by simpa [addrs, addrsC, before, after] using h : (T.toList.map Prod.fst).Nodup).of_map
  obtain ⟨c, red, l, r, rfl⟩ := exists_plug (t := T) (x := x) (by rw [hT]; simp)
  refine ⟨c, red, l, r, rfl, at_root.mpr H, ?_⟩
  -- `x` occurs once, so the two ways to cut the list agree
  have heq : xs ++ x :: ys = (before c ++ l.toList) ++ x :: (r.toList ++ after c) := by
    rw [← hT, toList_plug]
    simp [RBT.toList]
  have hout := (nodup_cons.mp (nodup_middle.mp hnd)).1
  rw [mem_append, not_or] at hout
  obtain ⟨hx, -, hy⟩ := (append_cons_inj_of_notMem hout.1 hout.2).mp heq
  exact ⟨hx, hy⟩

theorem Holds.exists_at (H : Holds t (xs ++ x :: ys)) :
    ∃ c red l r m, At t c (.node red l x r) ∧ RB (plug c (.node red l x r)) false m ∧
      xs = before c ++ l.toList ∧ ys = r.toList ++ after c := by
  obtain ⟨⟨T, m, HT, hRB, hlist⟩, -⟩ := H
  obtain ⟨c, red, l, r, rfl, Hc, hx, hy⟩ := HT.exists_cut hlist
  exact ⟨c, red, l, r, m, Hc, hRB, hx, hy⟩

theorem Holds.key (H : Holds t xs) (hx : x ∈ xs) : (t.node x.1).key = x.2 := by
  obtain ⟨ys, zs, rfl⟩ := append_of_mem hx
  obtain ⟨c, red, l, r, m, HT, -, -⟩ := H.exists_at
  rw [At.node (s := .l) HT, mk'_key]

/-! ## Iteration -/

/-- The first node of a sequence, or the sentinel. -/
def first : List (Nat × K) → Nat
  | [] => nil
  | x :: _ => x.1

theorem At.min_first (H : At t c T) (hT : T ≠ .nil) (ys : List (Nat × K)) :
    t.min (addr T) = some (first (T.toList ++ ys)) := by
  obtain ⟨d, red, y, V, rfl, hb, hmin⟩ := H.min hT
  rw [hmin, toList_plug, hb]
  rfl

theorem At.begin_first (H : At t [] T) : t.begin = some (first T.toList) := by
  have hroot : t.root = addr T := H.ctx
  rw [begin, hroot]
  cases T with
  | nil =>
    have hmade := H.made
    cases hf : t.fresh with
    | zero => omega
    | succ n => simp [Rbtree.min, hf, Rbtree.walk, addr, first, RBT.toList]
  | node red l x r =>
    have h := H.min_first (mk_ne_nil (s := .l)) []
    rwa [append_nil] at h

theorem begin_spec (H : Holds t xs) : t.begin = some (first xs) := by
  obtain ⟨⟨T, m, HT, -, rfl⟩, -⟩ := H
  exact HT.begin_first

/-- The way up ends at the first node after the subtree. -/
theorem At.climb (H : At t c T) (hT : T ≠ .nil) {fuel : Nat} (hf : c.length < fuel) :
    t.climb fuel (addr T) (up c) = some (first (after c)) := by
  induction c generalizing T fuel with
  | nil =>
    obtain ⟨n, rfl⟩ := Nat.exists_eq_add_of_lt hf
    simp [Rbtree.climb, up, after, first]
  | cons f c ih =>
    obtain ⟨s, d, x, S⟩ := f
    obtain ⟨n, rfl⟩ := Nat.exists_eq_add_of_lt hf
    have hne := up_ne_nil H
    have hsib := H.addr_ne_sib (.inl hT)
    have hn := H.node_up
    rw [Rbtree.climb, up, hn]
    cases s with
    | l =>
      rw [if_neg fun h => hsib h.2]
      rfl
    | r =>
      have hup := ih (at_up.mp H) mk_ne_nil (show c.length < c.length + 1 + n by omega)
      rw [Frame.fill, addr_mk] at hup
      rw [if_pos ⟨hne, rfl⟩]
      exact hup

/-- `succ` goes to the next node in order. -/
theorem At.succ_first (H : At t [] T) (hT : T.toList = xs ++ x :: ys) :
    t.succ x.1 = some (first ys) := by
  obtain ⟨c, red, l, r, -, HT, -, rfl⟩ := H.exists_cut hT
  have hne : x.1 ≠ nil := At.root_ne_nil (s := .l) HT
  have hn : t.node x.1 = ⟨x.2, red, addr l, addr r, up c⟩ := HT.tree.1
  have Hr : At t (⟨.r, red, x, l⟩ :: c) r := at_up.mpr HT
  rw [succ, if_neg hne, hn]
  cases r with
  | nil =>
    have hlen := HT.size_le
    have hclimb := HT.climb (mk_ne_nil (s := .l)) (show c.length < t.fresh by omega)
    simpa [addr, RBT.toList] using hclimb
  | node e a y b =>
    have hy : addr (.node e a y b : Shape K) ≠ nil := At.root_ne_nil (s := .l) Hr
    rw [if_pos hy]
    exact Hr.min_first (mk_ne_nil (s := .l)) (after c)

theorem succ_spec (H : Holds t (xs ++ x :: ys)) : t.succ x.1 = some (first ys) := by
  obtain ⟨⟨T, m, HT, -, hT⟩, -⟩ := H
  exact HT.succ_first hT

/-! ## find -/

theorem walk_here {here left : K → Bool} {fuel x y : Nat} {r : Nat × Nat}
    (h : t.walk here left fuel x y = some r) : r.1 = nil ∨ here (t.node r.1).key = true := by
  induction fuel generalizing x y with
  | zero => cases h
  | succ n ih =>
    rw [walk] at h
    by_cases hx : x = nil ∨ here (t.node x).key = true
    · rw [if_pos hx] at h
      cases h
      exact hx
    · rw [if_neg hx] at h
      exact ih h

/-- In any state of the tree, `find` gives a node with the key or the sentinel. -/
theorem find_key {eq lt : K → Bool} {a : Nat} (h : t.find eq lt = some a) (hne : a ≠ nil) :
    eq (t.node a).key = true := by
  obtain ⟨r, hr, rfl⟩ := Option.map_eq_some_iff.mp h
  exact (walk_here hr).resolve_left hne

/-- `find` ends at the sentinel or at a node with an equal key. -/
theorem find_found (H : Holds t xs) (eq lt : K → Bool) :
    ∃ x, t.find eq lt = some x ∧ ((x = nil ∧ ∃ c T, At t [] T ∧ T.toList = xs ∧
      RedBlack.locate (fun x => eq x.2) (fun x => !lt x.2) [] T = (c, .nil)) ∨
      ∃ a, (x, a) ∈ xs ∧ eq a = true) := by
  obtain ⟨⟨T, m, HT, -, rfl⟩, -⟩ := H
  have hroot : t.root = addr T := HT.ctx
  have hlen := HT.size_le
  have hh := T.height_le_size
  have hwalk : t.walk eq (fun a => !lt a) t.fresh (addr T) (up []) = _ := HT.walk (by omega)
  have hplug := plug_locate (fun x => eq x.2) (fun x => !lt x.2) [] T
  cases hloc : RedBlack.locate (fun x => eq x.2) (fun x => !lt x.2) [] T with
  | mk c X =>
    rw [hloc] at hwalk hplug
    refine ⟨addr X, by rw [find, hroot]; exact congrArg (Option.map Prod.fst) hwalk, ?_⟩
    cases X with
    | nil => exact .inl ⟨rfl, c, T, HT, rfl, hloc⟩
    | node red l x r =>
      have hhere := here_of_locate hloc
      refine .inr ⟨x.2, ?_, hhere⟩
      rw [show T = plug c (.node red l x r) from hplug.symm, toList_plug]
      simp [RBT.toList, addr]

/-- In a sorted tree `find` misses no key. -/
theorem find_sorted (ho : o.TotalOn {a | a = k ∨ a ∈ xs.map Prod.snd}) (H : Holds t xs)
    (hs : o.Sorted xs) : ∃ x, t.find (fun a => o.eq a k) (fun a => o.lt a k) = some x ∧
      ((x = nil ∧ k ∉ xs.map Prod.snd) ∨ (x, k) ∈ xs) := by
  have hk : k ∈ {a | a = k ∨ a ∈ xs.map Prod.snd} := .inl rfl
  have hm {x : Nat × K} (hx : x ∈ xs) : x.2 ∈ {a | a = k ∨ a ∈ xs.map Prod.snd} :=
    .inr (mem_map_of_mem hx)
  obtain ⟨x, hx, ⟨hnil, c, T, -, rfl, hloc⟩ | ⟨a, ha, he⟩⟩ :=
    find_found H (fun a => o.eq a k) (fun a => o.lt a k)
  · have hs' : T.toList.Pairwise fun x y => x ∈ T.toList ∧ y ∈ T.toList ∧ o.lt x.2 y.2 = true :=
      List.Pairwise.and_mem.mp hs
    obtain ⟨ys, zs, hT, -, -, hys, hzs⟩ := split_of_locate
      (fun x y h h1 h2 => by
        have hkx := ho.lt_of_not (hm h.1) hk (by simpa using h1) h2
        have hky := ho.trans k hk x.2 (hm h.1) y.2 (hm h.2.1) hkx h.2.2
        simp [ho.asymm hk (hm h.2.1) hky, ho.eq_false_symm hk (hm h.2.1) hky])
      (fun x y h h1 _ => by
        have hxk := ho.trans x.2 (hm h.1) y.2 (hm h.2.1) k hk h.2.2 (by simpa using h1)
        simp [hxk, ho.eq_false (hm h.1) hk hxk]) hs' hloc
    refine ⟨x, hx, .inl ⟨hnil, fun hmem => ?_⟩⟩
    obtain ⟨y, hy, rfl⟩ := mem_map.mp hmem
    have hne : o.eq y.2 y.2 = false := by
      rw [hT, mem_append] at hy
      exact hy.elim (fun h => (hys y h).2) fun h => (hzs y h).2
    rw [(ho.eq_iff y.2 hk y.2 hk).mpr rfl] at hne
    cases hne
  · obtain rfl : a = k := (ho.eq_iff a (hm ha) k hk).mp he
    exact ⟨x, hx, .inr ha⟩

end Sysint.Rbtree
