import Mathlib.Data.Fintype.Card
import Mathlib.Data.List.Nodup
import Mathlib.Logic.Relation
import Sysint.Lib.Machine

/-! Depth-first search that records a node after all of its successors. A node is not recorded
while its successors are searched, so a cycle is followed without end; without one, the search
ends with every node that can be reached, each of them once. -/
namespace Postorder

open Relation Machine List Finset

variable {α σ τ : Type}

/-- Do something for each element of a list in turn. -/
def each (f : α → σ → Option σ) (as : List α) (s : σ) : Option σ := as.foldlM (fun s a => f a s) s

section

variable (f : α → σ → Option σ)

@[simp] theorem each_nil (s : σ) : each f [] s = some s := rfl

@[simp] theorem each_cons (a : α) (as : List α) (s : σ) :
    each f (a :: as) s = (f a s).bind (each f as) := rfl

theorem each_append (as bs : List α) (s : σ) :
    each f (as ++ bs) s = (each f as s).bind (each f bs) := foldlM_append

end

theorem each_below {f g : α → σ → Option σ} (h : ∀ a s, Below (f a s) (g a s)) (as : List α)
    (s : σ) :
    Below (each f as s) (each g as s) := by
  induction as generalizing s with
  | nil => exact .refl _
  | cons a as ih => exact (h a s).bind ih

/-- The same actions on two representations of the state. -/
theorem each_map {f : α → σ → Option σ} {g : α → τ → Option τ} {φ : σ → τ}
    (h : ∀ a s, g a (φ s) = (f a s).map φ) (as : List α) (s : σ) :
    each g as (φ s) = (each f as s).map φ := by
  induction as generalizing s with
  | nil => rfl
  | cons a as ih =>
    rw [each_cons, each_cons, h]
    cases hf : f a s with
    | none => rfl
    | some t => exact ih t

variable (succ : α → List α)

/-- The search from a node, with at most `n` nested calls. -/
def visit [DecidableEq α] : Nat → α → List α → Option (List α)
  | 0, _, _ => none
  | n + 1, a, seen =>
    if a ∈ seen then some seen else (each (visit n) (succ a) seen).map (· ++ [a])

def Leads (a b : α) : Prop := b ∈ succ a

/-- No cycle can be reached from the node. -/
def Acyclic (a : α) : Prop := ∀ b, ReflTransGen (Leads succ) a b → ¬ TransGen (Leads succ) b b

def Closed (l : List α) : Prop := ∀ a ∈ l, ∀ b ∈ succ a, b ∈ l

/-- What a search from the nodes `as` adds to those seen before. -/
structure Visited (as seen r : List α) : Prop where
  added : ∃ new, r = seen ++ new ∧ ∀ b ∈ new, ∃ a ∈ as, ReflTransGen (Leads succ) a b
  nodup : seen.Nodup → r.Nodup
  closed : Closed succ seen → Closed succ r
  mem : ∀ a ∈ as, a ∈ r

variable {succ} {a b : α} {as seen r : List α} {n : Nat}

theorem Visited.subset (h : Visited succ as seen r) : seen ⊆ r := by
  obtain ⟨new, rfl, -⟩ := h.added
  exact subset_append_left seen new

theorem Visited.cons {t : List α} (h : Visited succ [a] seen t) (hs : Visited succ as t r) :
    Visited succ (a :: as) seen r where
  added := by
    obtain ⟨new, rfl, hnew⟩ := h.added
    obtain ⟨more, rfl, hmore⟩ := hs.added
    refine ⟨new ++ more, append_assoc _ _ _, ?_⟩
    intro b hb
    rcases mem_append.mp hb with hb | hb
    · obtain ⟨c, hc, hreach⟩ := hnew b hb
      exact ⟨a, List.mem_cons_self, List.mem_singleton.mp hc ▸ hreach⟩
    · obtain ⟨c, hc, hreach⟩ := hmore b hb
      exact ⟨c, List.mem_cons_of_mem a hc, hreach⟩
  nodup hn := hs.nodup (h.nodup hn)
  closed hc := hs.closed (h.closed hc)
  mem := by
    intro c hc
    rcases List.mem_cons.mp hc with rfl | hc
    · exact hs.subset (h.mem _ (List.mem_singleton_self _))
    · exact hs.mem c hc

theorem each_visited {f : α → List α → Option (List α)}
    (h : ∀ a ∈ as, ∀ seen, ∃ r, f a seen = some r ∧ Visited succ [a] seen r) (seen : List α) :
    ∃ r, each f as seen = some r ∧ Visited succ as seen r := by
  induction as generalizing seen with
  | nil => exact ⟨seen, rfl, ⟨[], by simp, by simp⟩, id, id, by simp⟩
  | cons a as ih =>
    obtain ⟨t, ht, hvisit⟩ := h a List.mem_cons_self seen
    obtain ⟨r, hr, hrest⟩ := ih (fun b hb => h b (List.mem_cons_of_mem a hb)) t
    refine ⟨r, ?_, hvisit.cons hrest⟩
    rw [each_cons, ht]
    exact hr

/-- A node that is not on a cycle is recorded behind what its successors lead to. -/
theorem Visited.record (h : Visited succ (succ a) seen r) (hcycle : ¬ TransGen (Leads succ) a a)
    (hnew : a ∉ seen) : Visited succ [a] seen (r ++ [a]) := by
  obtain ⟨new, hr, hreach⟩ := h.added
  have hout : a ∉ r := by
    intro hmem
    rw [hr, mem_append] at hmem
    obtain ⟨b, hb, hba⟩ := hreach a (hmem.resolve_left hnew)
    exact hcycle (TransGen.head' hb hba)
  constructor
  · refine ⟨new ++ [a], by rw [hr, append_assoc], ?_⟩
    intro b hb
    refine ⟨a, List.mem_singleton_self a, ?_⟩
    rcases mem_append.mp hb with hb | hb
    · obtain ⟨c, hc, hcb⟩ := hreach b hb
      exact ReflTransGen.head hc hcb
    · exact List.mem_singleton.mp hb ▸ ReflTransGen.refl
  · intro hn
    exact concat_eq_append ▸ (h.nodup hn).concat hout
  · intro hc b hb c hcs
    apply mem_append_left
    rcases mem_append.mp hb with hb | hb
    · exact h.closed hc b hb c hcs
    · rw [List.mem_singleton.mp hb] at hcs
      exact h.mem c hcs
  · intro b hb
    rw [List.mem_singleton.mp hb]
    exact mem_append_right _ (List.mem_singleton_self a)

/-- A relation along which a number grows has no cycle. -/
theorem no_cycle_of_lt {r : α → α → Prop} (f : α → Nat) (h : ∀ a b, r a b → f a < f b) (a : α) :
    ¬ TransGen r a a := by
  intro hcycle
  have hlt : TransGen (· < ·) (f a) (f a) := hcycle.lift f h
  rw [transGen_eq_self] at hlt
  exact lt_irrefl _ hlt

theorem Acyclic.of_succ (h : Acyclic succ a) (hb : b ∈ succ a) : Acyclic succ b :=
  fun c hc => h c (ReflTransGen.head hb hc)

section
variable [Fintype α]

open Classical in
/-- The number of nodes that can be reached from a node in one step or more. -/
noncomputable def rank (succ : α → List α) (a : α) : Nat :=
  (Finset.univ.filter fun b => TransGen (Leads succ) a b).card

theorem rank_lt (h : ¬ TransGen (Leads succ) b b) (hb : b ∈ succ a) :
    rank succ b < rank succ a := by
  apply card_lt_card
  rw [ssubset_iff_of_subset]
  · exact ⟨b, by simpa using TransGen.single hb, by simpa using h⟩
  · intro c hc
    simp only [Finset.mem_filter, mem_univ, true_and] at hc ⊢
    exact TransGen.head hb hc

theorem rank_lt_card (h : ¬ TransGen (Leads succ) a a) : rank succ a < Fintype.card α := by
  apply card_lt_univ_of_notMem (x := a)
  simpa using h

theorem visit_visited [DecidableEq α] (h : Acyclic succ a) (hn : rank succ a < n) (seen : List α) :
    ∃ r, visit succ n a seen = some r ∧ Visited succ [a] seen r := by
  induction n generalizing a seen with
  | zero => exact absurd hn (Nat.not_lt_zero _)
  | succ n ih =>
    rw [visit]
    by_cases hmem : a ∈ seen
    · rw [if_pos hmem]
      exact ⟨seen, rfl, ⟨[], by simp, by simp⟩, id, id, by simpa using hmem⟩
    rw [if_neg hmem]
    have hcycle := h a ReflTransGen.refl
    have hsucc : ∀ b ∈ succ a, ∀ seen, ∃ r, visit succ n b seen = some r ∧
        Visited succ [b] seen r := by
      intro b hb
      have hacyc := h.of_succ hb
      have hlt := rank_lt (hacyc b ReflTransGen.refl) hb
      exact ih hacyc (by omega)
    obtain ⟨r, hr, hvisit⟩ := each_visited hsucc seen
    exact ⟨r ++ [a], by rw [hr]; rfl, hvisit.record hcycle hmem⟩

end

/-- More nested calls change nothing. -/
theorem visit_below [DecidableEq α] (succ : α → List α) (n : Nat) (a : α) (seen : List α) :
    Below (visit succ n a seen) (visit succ (n + 1) a seen) := by
  induction n generalizing a seen with
  | zero =>
    intro r hr
    cases hr
  | succ n ih =>
    rw [visit, visit]
    by_cases hmem : a ∈ seen
    · rw [if_pos hmem, if_pos hmem]
      exact .refl _
    · rw [if_neg hmem, if_neg hmem]
      exact (each_below ih (succ a) seen).map _

/-- **Search.** Where no cycle can be reached, the search from some nodes ends with at most as many
nested calls as there are nodes, however many are allowed. -/
theorem search_ends [DecidableEq α] [Fintype α] (h : ∀ a ∈ as, Acyclic succ a) (seen : List α) :
    ∃ r, (∀ n, Fintype.card α ≤ n → each (visit succ n) as seen = some r) ∧
      Visited succ as seen r := by
  have hnode : ∀ a ∈ as, ∀ seen, ∃ r, visit succ (Fintype.card α) a seen = some r ∧
      Visited succ [a] seen r := by
    intro a ha
    exact visit_visited (h a ha) (rank_lt_card (h a ha a ReflTransGen.refl))
  obtain ⟨r, hr, hvisit⟩ := each_visited hnode seen
  refine ⟨r, ?_, hvisit⟩
  intro n hn
  induction hn with
  | refl => exact hr
  | step hn ih => exact each_below (visit_below succ _) as seen r ih

theorem acyclic_of_succ (h : ∀ b ∈ succ a, Acyclic succ b) : Acyclic succ a := by
  intro c hc hcycle
  rcases hc.cases_head with rfl | ⟨b, hb, hbc⟩
  · obtain ⟨b, hb, hba⟩ := TransGen.head'_iff.mp hcycle
    exact h b hb b .refl (TransGen.tail' hba hb)
  · exact h b hb c hbc hcycle

theorem each_acyclic {f : α → List α → Option (List α)}
    (h : ∀ a seen r, (∀ c ∈ seen, Acyclic succ c) → f a seen = some r →
      Acyclic succ a ∧ ∀ c ∈ r, Acyclic succ c)
    (hseen : ∀ c ∈ seen, Acyclic succ c) (hr : each f as seen = some r) :
    (∀ a ∈ as, Acyclic succ a) ∧ ∀ c ∈ r, Acyclic succ c := by
  induction as generalizing seen with
  | nil =>
    cases hr
    exact ⟨by simp, hseen⟩
  | cons a as ih =>
    obtain ⟨t, ht, hr⟩ := Option.bind_eq_some_iff.mp hr
    obtain ⟨ha, htseen⟩ := h a seen t hseen ht
    obtain ⟨has, hrest⟩ := ih htseen hr
    exact ⟨List.forall_mem_cons.mpr ⟨ha, has⟩, hrest⟩

/-- A search from nothing finds what can be reached. -/
theorem Visited.mem_iff (h : Visited succ as [] r) :
    b ∈ r ↔ ∃ a ∈ as, ReflTransGen (Leads succ) a b := by
  constructor
  · intro hb
    obtain ⟨new, rfl, hnew⟩ := h.added
    exact hnew b hb
  · rintro ⟨a, ha, hab⟩
    induction hab with
    | refl => exact h.mem a ha
    | tail _ hbc ih => exact h.closed (fun _ hn => absurd hn not_mem_nil) _ ih _ hbc

/-- A search that ends has met no cycle. -/
theorem visit_acyclic [DecidableEq α] (n : Nat) (a : α) (seen r : List α)
    (hseen : ∀ c ∈ seen, Acyclic succ c) (hr : visit succ n a seen = some r) :
    Acyclic succ a ∧ ∀ c ∈ r, Acyclic succ c := by
  induction n generalizing a seen r with
  | zero => cases hr
  | succ n ih =>
    rw [visit] at hr
    split_ifs at hr with hmem
    · cases hr
      exact ⟨hseen a hmem, hseen⟩
    · obtain ⟨t, ht, rfl⟩ := Option.map_eq_some_iff.mp hr
      obtain ⟨hsucc, htseen⟩ := each_acyclic ih hseen ht
      have ha := acyclic_of_succ hsucc
      exact ⟨ha, forall_mem_append.mpr ⟨htseen, by simpa using ha⟩⟩

end Postorder
