import Mathlib.Tactic.Simps.Basic
import Sysint.Lib.Dlink
import Sysint.Lib.Machine
import Sysint.Process.Model

/-! The circular list of `lib/linked_list.h`. A node is named by its address, and an
iterator by the node that it designates; `head` is the embedded node `nil`, which
`end()` designates. The address of a new node is the choice of `operator new`. -/
namespace Sysint.Container

open Dlink List
open Function
open Machine

structure LinkedList (α : Type) where
  head : Nat
  links : Links Nat
  /-- The key of a node, while it exists. -/
  key : Nat → Option α
  /-- The field `nil` of a node. -/
  nil : Nat → Nat
  sz : Nat

variable {head : Nat}

namespace LinkedList

variable {α : Type}

/-- `linked_list()`. -/
def new (head : Nat) : LinkedList α where
  head := head
  links := ⟨fun _ => head, fun _ => head⟩
  key := fun _ => none
  nil := fun _ => head
  sz := 0

def begin_ (s : LinkedList α) : Nat := s.links.next s.head

/-- `iterator::insert`, with the new node at `a`. -/
@[simps -fullyApplied]
def insert (s : LinkedList α) (n a : Nat) (k : α) : LinkedList α :=
  { s with
    links := s.links.insert n a
    key := update s.key a (some k)
    nil := update s.nil a (s.nil n)
    sz := s.sz + 1 }

/-- `iterator::erase`. -/
@[simps -fullyApplied]
def erase (s : LinkedList α) (n : Nat) : LinkedList α :=
  { s with
    links := s.links.remove n
    key := update s.key n none
    sz := s.sz - 1 }

/-- `iterator::move_after`. -/
def moveAfter (s : LinkedList α) (n it : Nat) : LinkedList α :=
  if s.links.next it ≠ n then { s with links := (s.links.remove n).insert it n } else s

/-- `push_front`. -/
def pushFront (s : LinkedList α) (a : Nat) (k : α) : LinkedList α := s.insert s.begin_ a k

/-- `push_back`. -/
def pushBack (s : LinkedList α) (a : Nat) (k : α) : LinkedList α :=
  s.insert (s.links.prev s.head) a k

/-- `pop_front`. -/
def popFront (s : LinkedList α) : LinkedList α := s.erase s.begin_

/-- `pop_back`. -/
def popBack (s : LinkedList α) : LinkedList α := s.erase (s.links.prev s.head)

/-- The nodes from `begin()` to `end()`, as `++` meets them, at most `fuel` of them. -/
def forward (s : LinkedList α) (fuel : Nat) : List Nat := s.links.toList s.head fuel

/-- The nodes from `--end()` back to `end()`. -/
def backward (s : LinkedList α) (fuel : Nat) : List Nat := s.links.flip.toList s.head fuel

inductive Op (α : Type) where
  | pushFront (a : Nat) (k : α)
  | pushBack (a : Nat) (k : α)
  | popFront
  | popBack
  | insert (n a : Nat) (k : α)
  | erase (n : Nat)
  | moveAfter (n it : Nat)

def step (s : LinkedList α) : Op α → LinkedList α
  | .pushFront a k => s.pushFront a k
  | .pushBack a k => s.pushBack a k
  | .popFront => s.popFront
  | .popBack => s.popBack
  | .insert n a k => s.insert n a k
  | .erase n => s.erase n
  | .moveAfter n it => s.moveAfter n it

/-! ## The abstract sequence -/

/-- An element of the sequence, with the node that holds it. -/
abbrev Entry (α : Type) := Nat × α

/-- The sequence with `e` directly after the entry `n`, or in front if `n` is `head`. -/
def insertAfter (head n : Nat) (e : Entry α) (l : List (Entry α)) : List (Entry α) :=
  if n = head then e :: l else l.flatMap fun x => if x.1 = n then [x, e] else [x]

def without (n : Nat) (l : List (Entry α)) : List (Entry α) := l.filter fun x => x.1 ≠ n

def seqStep (head : Nat) (l : List (Entry α)) : Op α → List (Entry α)
  | .pushFront a k => (a, k) :: l
  | .pushBack a k => l ++ [(a, k)]
  | .popFront => l.tail
  | .popBack => l.dropLast
  | .insert n a k => insertAfter head n (a, k) l
  | .erase n => without n l
  | .moveAfter n it =>
    match l.find? fun x => x.1 = n with
    | some e => insertAfter head it e (without n l)
    | none => l

/-- The node is one of the sequence, or `end()`. -/
def Valid (head : Nat) (l : List (Entry α)) (n : Nat) : Prop := n ∈ head :: l.map (·.1)

instance (head : Nat) (l : List (Entry α)) (n : Nat) : Decidable (Valid head l n) :=
  inferInstanceAs (Decidable (n ∈ head :: l.map (·.1)))

/-- The operation is applied to valid iterators, and `operator new` returns a node that is
not in use. -/
def Applies (head : Nat) (l : List (Entry α)) : Op α → Prop
  | .pushFront a _ | .pushBack a _ => ¬ Valid head l a
  | .popFront | .popBack => l.length ≠ 0
  | .insert n a _ => Valid head l n ∧ ¬ Valid head l a
  | .erase n => n ∈ l.map (·.1)
  | .moveAfter n it => n ∈ l.map (·.1) ∧ Valid head l it ∧ n ≠ it

/-- In addition, `push_front` is called on an empty list only. -/
def Ok (head : Nat) (l : List (Entry α)) (o : Op α) : Prop :=
  Applies head l o ∧ match o with
    | .pushFront _ _ => l.length = 0
    | _ => True

/-- The nodes hold the sequence. -/
structure Holds (s : LinkedList α) (l : List (Entry α)) : Prop where
  ring : Ring s.links s.head (l.map (·.1))
  key : ∀ e ∈ l, s.key e.1 = some e.2
  nil : ∀ n, Valid s.head l n → s.nil n = s.head
  sz : s.sz = l.length

variable {s : LinkedList α} {l xs ys : List (Entry α)} {e : Entry α} {n a : Nat} {k : α}

theorem Holds.new (head : Nat) : (new head : LinkedList α).Holds [] := by
  constructor
  · constructor
    · exact ⟨rfl, rfl⟩
    · simp
  · intro e he
    cases he
  · intro n _
    rfl
  · rfl

/-- The node before a place of the sequence. -/
def before (head : Nat) (xs : List (Entry α)) : Nat := (xs.map (·.1)).getLastD head

theorem before_concat (head : Nat) (xs : List (Entry α)) (e : Entry α) :
    before head (xs ++ [e]) = e.1 := by
  simp [before]

theorem valid_before (head : Nat) (xs ys : List (Entry α)) :
    Valid head (xs ++ ys) (before head xs) := by
  rcases eq_nil_or_concat xs with rfl | ⟨zs, e, rfl⟩
  · simp [Valid, before]
  · rw [concat_eq_append, before_concat]
    simp [Valid]

theorem Holds.insert (H : s.Holds (xs ++ ys)) (ha : ¬ Valid s.head (xs ++ ys) a) :
    (s.insert (before s.head xs) a k).Holds (xs ++ (a, k) :: ys) := by
  have hne : ∀ e ∈ xs ++ ys, e.1 ≠ a := by
    intro e he h
    exact ha (mem_cons_of_mem _ (h ▸ mem_map_of_mem he))
  constructor
  · have hr := H.ring
    rw [map_append] at hr
    rw [map_append, map_cons]
    exact hr.insert_at (by simpa [Valid] using ha)
  · intro e he
    rcases mem_append.mp he with h | h
    · rw [insert_key, update_of_ne (hne e (mem_append_left _ h))]
      exact H.key e (mem_append_left _ h)
    · rcases mem_cons.mp h with rfl | h
      · simp
      · rw [insert_key, update_of_ne (hne e (mem_append_right _ h))]
        exact H.key e (mem_append_right _ h)
  · intro n hn
    by_cases h : n = a
    · subst h
      rw [insert_nil, insert_head, update_self]
      exact H.nil _ (valid_before _ _ _)
    · rw [insert_nil, insert_head, update_of_ne h]
      apply H.nil
      simp only [insert_head, Valid, map_append, map_cons, mem_cons,
        mem_append] at hn ⊢
      tauto
  · simp only [insert_sz, H.sz, length_append, length_cons]
    omega

theorem Holds.nodup (H : s.Holds (xs ++ e :: ys)) : (∀ x ∈ xs ++ ys, x.1 ≠ e.1) ∧ e.1 ≠ s.head := by
  have hnd := H.ring.nodup
  simp only [map_append, map_cons, nodup_cons, mem_append, mem_cons,
    not_or] at hnd
  obtain ⟨⟨-, hhead, -⟩, hnd⟩ := hnd
  have hmid := (nodup_middle.mp hnd)
  rw [nodup_cons, ← map_append] at hmid
  refine ⟨?_, Ne.symm hhead⟩
  intro x hx h
  exact hmid.1 (h ▸ mem_map_of_mem hx)

theorem Holds.erase (H : s.Holds (xs ++ e :: ys)) : (s.erase e.1).Holds (xs ++ ys) := by
  obtain ⟨hne, -⟩ := H.nodup
  constructor
  · have hr := H.ring
    rw [map_append, map_cons] at hr
    rw [map_append]
    exact hr.remove
  · intro x hx
    rw [erase_key, update_of_ne (hne x hx)]
    apply H.key
    simp only [mem_append, mem_cons] at hx ⊢
    tauto
  · intro n hn
    apply H.nil
    simp only [erase_head, Valid, map_append, map_cons, mem_cons,
      mem_append] at hn ⊢
    tauto
  · simp only [erase_sz, H.sz, length_append, length_cons]
    omega

/-- `move_after` relinks the node, also where it has nothing to do. -/
theorem Holds.moveAfter_links (H : s.Holds l) {it : Nat} (hn : n ∈ l.map (·.1))
    (hit : Valid s.head l it) (hne : n ≠ it) :
    s.moveAfter n it = { s with links := (s.links.remove n).insert it n } := by
  unfold moveAfter
  split
  · rfl
  rename_i h
  have hnext : s.links.next it = n := not_not.mp h
  have hp : s.links.prev n = it := by
    rw [← hnext]
    exact H.ring.prev_next hit
  rw [remove_insert hnext hp (H.ring.prev_next (mem_cons_of_mem _ hn)) hne.symm]

theorem Holds.moveAfter (H : s.Holds (xs ++ e :: ys)) {us ws : List (Entry α)}
    (hl : xs ++ ys = us ++ ws) : Holds
      { s with links := (s.links.remove e.1).insert (before s.head us) e.1 } (us ++ e :: ws) := by
  obtain ⟨hne, hhead⟩ := H.nodup
  have hperm : (us ++ e :: ws).Perm (xs ++ e :: ys) := by
    apply perm_middle.trans
    rw [← hl]
    exact perm_middle.symm
  constructor
  · have hr := H.ring
    rw [map_append, map_cons] at hr
    have hr' := hr.remove
    rw [← map_append, hl, map_append] at hr'
    rw [map_append, map_cons]
    apply hr'.insert_at
    rw [← map_append, ← hl]
    simp only [mem_cons, mem_map, not_or, not_exists, not_and]
    exact ⟨hhead, hne⟩
  · intro x hx
    exact H.key x (hperm.mem_iff.mp hx)
  · intro n hn
    apply H.nil
    rcases mem_cons.mp hn with h | h
    · exact mem_cons.mpr (.inl h)
    · exact mem_cons_of_mem _ ((hperm.map _).mem_iff.mp h)
  · rw [hperm.length_eq]
    exact H.sz

/-! ## The operations -/

theorem flatMap_of_ne (h : ∀ x ∈ xs, x.1 ≠ n) :
    (xs.flatMap fun x => if x.1 = n then [x, e] else [x]) = xs := by
  induction xs with
  | nil => rfl
  | cons x xs ih =>
    simp only [mem_cons, forall_eq_or_imp] at h
    simp [h.1, ih h.2]

theorem without_of_ne (h : ∀ x ∈ xs ++ ys, x.1 ≠ e.1) : without e.1 (xs ++ e :: ys) = xs ++ ys := by
  simp only [mem_append] at h
  have hx : xs.filter (fun x => x.1 ≠ e.1) = xs := by
    apply filter_eq_self.mpr
    intro x hx
    simpa using h x (.inl hx)
  have hy : ys.filter (fun x => x.1 ≠ e.1) = ys := by
    apply filter_eq_self.mpr
    intro x hx
    simpa using h x (.inr hx)
  rw [without, filter_append, filter_cons_of_neg (by simp), hx, hy]

/-- A valid iterator is a place of the sequence, and `insertAfter` inserts there. -/
theorem insertAfter_split (hnd : (head :: l.map (·.1)).Nodup) (hn : Valid head l n) :
    ∃ us ws, l = us ++ ws ∧ before head us = n ∧
      ∀ e, insertAfter head n e l = us ++ e :: ws := by
  by_cases h : n = head
  · subst h
    exact ⟨[], l, rfl, rfl, fun e => by simp [insertAfter]⟩
  obtain ⟨x, hx, rfl⟩ := mem_map.mp ((mem_cons.mp hn).resolve_left h)
  obtain ⟨xs, ys, rfl⟩ := append_of_mem hx
  have hmid := nodup_cons.mp hnd
  rw [map_append, map_cons] at hmid
  have hmid' := nodup_middle.mp hmid.2
  rw [nodup_cons, ← map_append] at hmid'
  have hne : ∀ y ∈ xs ++ ys, y.1 ≠ x.1 := by
    intro y hy hyx
    exact hmid'.1 (hyx ▸ mem_map_of_mem hy)
  simp only [mem_append] at hne
  refine ⟨xs ++ [x], ys, by simp, before_concat _ _ _, ?_⟩
  intro e
  have h1 : (xs.flatMap fun y => if y.1 = x.1 then [y, e] else [y]) = xs :=
    flatMap_of_ne fun y hy => hne y (.inl hy)
  have h2 : (ys.flatMap fun y => if y.1 = x.1 then [y, e] else [y]) = ys :=
    flatMap_of_ne fun y hy => hne y (.inr hy)
  rw [insertAfter, if_neg h, flatMap_append, flatMap_cons, h1, h2]
  simp

theorem Holds.begin_eq (H : s.Holds l) : s.begin_ = (l.map (·.1)).headD s.head := H.ring.next_nil

theorem Holds.last_eq (H : s.Holds l) : s.links.prev s.head = before s.head l := by
  have hr := H.ring
  rw [← append_nil (l.map _)] at hr
  exact hr.prev_at

/-- `push_front` inserts after the first entry; this is the list that the process model
uses for condition variables. -/
theorem Holds.pushFront (H : s.Holds l) (ha : ¬ Valid s.head l a) :
    (s.pushFront a k).Holds (Process.Kernel.pushFront l (a, k)) := by
  unfold LinkedList.pushFront
  rw [H.begin_eq]
  cases l with
  | nil =>
    have H' : s.Holds ([] ++ []) := H
    exact H'.insert ha
  | cons x l =>
    have H' : s.Holds ([x] ++ l) := H
    exact H'.insert ha

theorem Holds.pushBack (H : s.Holds l) (ha : ¬ Valid s.head l a) :
    (s.pushBack a k).Holds (l ++ [(a, k)]) := by
  unfold LinkedList.pushBack
  rw [H.last_eq]
  rw [← append_nil l] at H ha
  exact H.insert ha

theorem Holds.popFront (H : s.Holds (e :: l)) : s.popFront.Holds l := by
  unfold LinkedList.popFront
  rw [H.begin_eq]
  have H' : s.Holds ([] ++ e :: l) := H
  exact H'.erase

theorem Holds.popBack (H : s.Holds (l ++ [e])) : s.popBack.Holds l := by
  unfold LinkedList.popBack
  rw [H.last_eq, before_concat]
  have H' := H.erase
  rwa [append_nil] at H'

theorem step_holds (H : s.Holds l) {o : Op α} (hok : Ok s.head l o) :
    (s.step o).Holds (seqStep s.head l o) := by
  obtain ⟨happ, hfront⟩ := hok
  cases o with
  | pushFront a k =>
    obtain rfl : l = [] := length_eq_zero_iff.mp hfront
    exact H.pushFront happ
  | pushBack a k => exact H.pushBack happ
  | popFront =>
    cases l with
    | nil => exact absurd rfl happ
    | cons e l => exact H.popFront
  | popBack =>
    rcases eq_nil_or_concat l with rfl | ⟨xs, e, rfl⟩
    · exact absurd rfl happ
    · rw [concat_eq_append] at H ⊢
      simpa [seqStep, step] using H.popBack
  | insert n a k =>
    obtain ⟨us, ws, rfl, rfl, hins⟩ := insertAfter_split H.ring.nodup happ.1
    rw [seqStep, hins]
    exact H.insert happ.2
  | erase n =>
    obtain ⟨e, he, rfl⟩ := mem_map.mp happ
    obtain ⟨xs, ys, rfl⟩ := append_of_mem he
    rw [seqStep, without_of_ne H.nodup.1]
    exact H.erase
  | moveAfter n it =>
    obtain ⟨hn, hit, hne⟩ := happ
    rw [step, H.moveAfter_links hn hit hne]
    obtain ⟨e, he, rfl⟩ := mem_map.mp hn
    obtain ⟨xs, ys, rfl⟩ := append_of_mem he
    obtain ⟨hdiff, -⟩ := H.nodup
    have hfind : (xs ++ e :: ys).find? (fun x => x.1 = e.1) = some e := by
      have hxs : xs.find? (fun x => x.1 = e.1) = none := by
        apply List.find?_eq_none.mpr
        intro x hx
        simpa using hdiff x (mem_append_left _ hx)
      simp [List.find?_append, hxs]
    have hit' : Valid s.head (xs ++ ys) it := by
      simp only [Valid, map_append, map_cons, mem_cons, mem_append] at hit ⊢
      have hne' : it ≠ e.1 := hne.symm
      tauto
    obtain ⟨us, ws, hl, rfl, hins⟩ := insertAfter_split H.erase.ring.nodup hit'
    simp only [seqStep, hfind, without_of_ne hdiff]
    change Holds _ (insertAfter (s.erase e.1).head _ e (xs ++ ys))
    rw [hins]
    exact H.moveAfter hl

/-! ## Runs -/

/-- A list together with the abstract sequence. -/
abbrev Pair (α : Type) := LinkedList α × List (Entry α)

def Fresh (s : Pair α) : Prop := ∃ head, s = (new head, [])

def both (s : Pair α) (o : Op α) : Option (Pair α) :=
  some (s.1.step o, seqStep s.1.head s.2 o)

def OkPair (s : Pair α) (o : Op α) : Prop := Ok s.1.head s.2 o

instance (s : Pair α) (o : Op α) : Decidable (OkPair s o) := by
  cases o <;> unfold OkPair Ok Applies <;> infer_instance

theorem reach_holds {s : Pair α} (h : Reach Fresh both OkPair s) : s.1.Holds s.2 := by
  apply h.invariant (I := fun s => s.1.Holds s.2)
  · intro s hs
    obtain ⟨head, rfl⟩ := hs
    exact .new head
  · intro s o t H hok hstep
    cases hstep
    exact step_holds H hok

/-- The operation erases the entry. -/
def Erases (l : List (Entry α)) (e : Entry α) : Op α → Prop
  | .popFront => l.head? = some e
  | .popBack => l.getLast? = some e
  | .erase n => n = e.1
  | _ => False

theorem mem_insertAfter {x : Entry α} (hx : x ∈ l) : x ∈ insertAfter head n e l := by
  unfold insertAfter
  split
  · exact mem_cons_of_mem _ hx
  · apply mem_flatMap.mpr
    refine ⟨x, hx, ?_⟩
    split <;> simp

theorem mem_insertAfter_self (hn : Valid head l n) : e ∈ insertAfter head n e l := by
  unfold insertAfter
  split
  · exact mem_cons_self
  · rename_i h
    obtain ⟨x, hx, rfl⟩ := mem_map.mp ((mem_cons.mp hn).resolve_left h)
    apply mem_flatMap.mpr
    exact ⟨x, hx, by simp⟩

theorem valid_without {it : Nat} (hit : Valid head l it) (hne : n ≠ it) :
    Valid head (without n l) it := by
  rcases mem_cons.mp hit with rfl | h
  · exact mem_cons_self
  · obtain ⟨x, hx, rfl⟩ := mem_map.mp h
    apply mem_cons_of_mem
    apply mem_map_of_mem
    exact mem_filter.mpr ⟨hx, by simpa using hne.symm⟩

/-- An entry stays in the sequence until it is erased. -/
theorem mem_seqStep {x : Entry α} {o : Op α} (hx : x ∈ l) (ho : ¬ Erases l x o)
    (happ : Applies head l o) (hnd : (l.map (·.1)).Nodup) : x ∈ seqStep head l o := by
  cases o with
  | pushFront a k => exact mem_cons_of_mem _ hx
  | pushBack a k => exact mem_append_left _ hx
  | popFront =>
    cases l with
    | nil => cases hx
    | cons y l =>
      rcases mem_cons.mp hx with rfl | hx
      · exact absurd rfl ho
      · exact hx
  | popBack =>
    rcases eq_nil_or_concat l with rfl | ⟨ys, y, rfl⟩
    · cases hx
    · rw [concat_eq_append] at hx ho ⊢
      rcases mem_append.mp hx with hx | hx
      · simpa [seqStep] using hx
      · obtain rfl := mem_singleton.mp hx
        exact absurd (by simp [Erases]) ho
  | insert n a k => exact mem_insertAfter hx
  | erase n =>
    apply mem_filter.mpr
    exact ⟨hx, by simpa using fun h => ho h.symm⟩
  | moveAfter n it =>
    simp only [seqStep]
    cases hf : l.find? (fun y => y.1 = n) with
    | none => exact hx
    | some y =>
      by_cases hxn : x.1 = n
      · -- the entry that moves is the only one at its node
        have hy : y = x := by
          have hyn : y.1 = n := by simpa using List.find?_some hf
          exact inj_on_of_nodup_map hnd (mem_of_find?_eq_some hf) hx (hyn.trans hxn.symm)
        rw [hy]
        exact mem_insertAfter_self (valid_without happ.2.1 happ.2.2)
      · exact mem_insertAfter (mem_filter.mpr ⟨hx, by simpa using hxn⟩)

/-- Both traversals show the sequence, `size()` is its length, every node finds `end()`,
and an entry keeps its node and its element until it is erased. -/
theorem linkedList_refines {s : Pair α} (h : Reach Fresh both OkPair s) :
    (∀ fuel, s.2.length ≤ fuel →
      (s.1.forward fuel).map (fun n => (n, s.1.key n)) = s.2.map (fun e => (e.1, some e.2)) ∧
      (s.1.backward fuel).map (fun n => (n, s.1.key n)) =
        (s.2.map (fun e => (e.1, some e.2))).reverse) ∧
    s.1.sz = s.2.length ∧ (∀ n, Valid s.1.head s.2 n → s.1.nil n = s.1.head) ∧
    ∀ e o t, e ∈ s.2 → OkPair s o → ¬ Erases s.2 e o → both s o = some t →
      e ∈ t.2 ∧ t.1.key e.1 = some e.2 := by
  have H := reach_holds h
  refine ⟨?_, H.sz, H.nil, ?_⟩
  · intro fuel hf
    have hkey : s.2.map (fun e => (e.1, s.1.key e.1)) = s.2.map (fun e => (e.1, some e.2)) := by
      apply map_congr_left
      intro e he
      rw [H.key e he]
    have hlen : (s.2.map (·.1)).length ≤ fuel := by
      rw [length_map]
      exact hf
    constructor
    · rw [forward, H.ring.toList hlen, map_map, ← hkey]
      rfl
    · rw [backward, H.ring.flip.toList (by rw [length_reverse]; exact hlen), map_reverse,
        map_map, ← hkey]
      rfl
  · intro e o t he hok ho hstep
    cases hstep
    have hmem := mem_seqStep he ho hok.1 (nodup_cons.mp H.ring.nodup).2
    exact ⟨hmem, (step_holds H hok).key e hmem⟩

/-- All operations, with the nodes at the addresses 2, 3, 4 and 5. -/
def mixedOps : List (Op Nat) :=
  [.pushFront 2 10, .pushBack 3 20, .pushBack 4 30, .insert 2 5 40, .moveAfter 4 2, .moveAfter 3 1,
    .popBack, .erase 2]

theorem linkedList_refines_sample : ∃ s : Pair Nat, Reach Fresh both OkPair s ∧
    s.2 = [(3, 20), (4, 30)] ∧
    (s.1.backward 2).map (fun n => (n, s.1.key n)) = [(4, some 30), (3, some 20)] := by
  have hrun : (run (guarded both OkPair) (new 1, []) mixedOps).map (·.2) =
      some [(3, 20), (4, 30)] := by
    decide +kernel
  obtain ⟨s, hs, hl⟩ := run_of_map hrun
  have h : Reach Fresh both OkPair s := Reach.runGuarded (.init ⟨1, rfl⟩) hs
  refine ⟨s, h, hl, ?_⟩
  rw [((linkedList_refines h).1 2 (by rw [hl]; decide)).2, hl]
  rfl

/-- `push_front` on a list with one element puts the new element second. -/
theorem pushFront_not_first :
    ((((new 1 : LinkedList Nat).pushFront 2 10).pushFront 3 20).forward 2).map
      (((new 1 : LinkedList Nat).pushFront 2 10).pushFront 3 20).key = [some 10, some 20] ∧
    [Op.pushFront 2 10, .pushFront 3 20].foldl (seqStep 1) [] = [(3, 20), (2, 10)] := by
  constructor
  · decide
  · decide

end LinkedList

end Sysint.Container
