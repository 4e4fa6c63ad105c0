import Sysint.Lib.Dlink

/-! Doubly linked lists that end with a null link on both sides, as the children of a
node that holds a link to the first. -/
namespace Dlink

open List

variable {α : Type} {s t : Links α} {null a x c : α} {xs ys zs : List α}

/-- From `x` on the nodes are `xs`, in both directions, and `a` comes before them. -/
def Chain (s : Links α) (null : α) : α → α → List α → Prop
  | _, x, [] => x = null
  | a, x, y :: ys => x = y ∧ y ≠ null ∧ s.prev y = a ∧ Chain s null y (s.next y) ys

section

variable (h : Chain s null a x xs)
include h

theorem Chain.congr
    (hl : ∀ y ∈ xs, t.next y = s.next y ∧ t.prev y = s.prev y) : Chain t null a x xs := by
  induction xs generalizing a x with
  | nil => exact h
  | cons y ys ih =>
    obtain ⟨hx, hne, hp, h⟩ := h
    obtain ⟨hn, hp'⟩ := hl y mem_cons_self
    refine ⟨hx, hne, hp'.trans hp, ?_⟩
    rw [hn]
    exact ih h fun z hz => hl z (mem_cons_of_mem _ hz)

theorem Chain.ne_null {y : α} (hy : y ∈ xs) : y ≠ null := by
  induction xs generalizing a x with
  | nil => cases hy
  | cons z zs ih =>
    obtain ⟨-, hne, -, h⟩ := h
    obtain rfl | hy := mem_cons.mp hy
    · exact hne
    · exact ih h hy

theorem Chain.first : x = xs.headD null := by
  cases xs with
  | nil => exact h
  | cons y ys => exact h.1

theorem Chain.first_mem (hx : x ≠ null) : x ∈ xs := by
  cases xs with
  | nil => exact absurd h hx
  | cons y ys => exact h.1 ▸ mem_cons_self

end

/-- The links of a node are its neighbours. -/
theorem Chain.at (h : Chain s null a x (xs ++ c :: ys)) :
    s.prev c = xs.getLastD a ∧ s.next c = ys.headD null := by
  induction xs generalizing a x with
  | nil =>
    obtain ⟨-, -, hp, h⟩ := h
    exact ⟨hp, h.first⟩
  | cons y ys ih =>
    obtain ⟨-, -, -, h⟩ := h
    rw [getLastD_cons]
    exact ih h

theorem Chain.neighbours (h : Chain s null a x (xs ++ c :: ys)) :
    (s.prev c = a ∨ s.prev c ∈ xs) ∧ (s.next c = null ∨ s.next c ∈ ys) := by
  obtain ⟨hp, hn⟩ := h.at
  rw [hp, hn]
  have hlast : xs.getLastD a ∈ a :: xs := getLastD_mem_cons
  refine ⟨mem_cons.mp hlast, ?_⟩
  cases ys with
  | nil => exact .inl rfl
  | cons y ys => exact .inr mem_cons_self

variable [DecidableEq α]

/-- Take `c` out: its neighbours are linked with each other. -/
def Links.unlink (s : Links α) (null c : α) : Links α where
  next y := if y = c then null else if y = s.prev c ∧ y ≠ null then s.next c else s.next y
  prev y := if y = c then null else if y = s.next c ∧ y ≠ null then s.prev c else s.prev y

theorem unlink_of_ne {y : α} (hc : y ≠ c) (hp : y ≠ s.prev c) (hn : y ≠ s.next c) :
    (s.unlink null c).next y = s.next y ∧ (s.unlink null c).prev y = s.prev y := by
  simp [Links.unlink, hc, hp, hn]

theorem Chain.unlink (h : Chain s null a x (xs ++ c :: ys)) (hnd : (a :: (xs ++ c :: ys)).Nodup) :
    Chain (s.unlink null c) null a (if xs = [] then s.next c else x) (xs ++ ys) := by
  induction xs generalizing a x with
  | nil =>
    obtain ⟨rfl, -, hp, h⟩ := h
    rw [if_pos rfl, nil_append]
    cases ys with
    | nil => exact h
    | cons y ys =>
      obtain ⟨hy, hne, -, h⟩ := h
      simp only [nil_append, nodup_cons, mem_cons, not_or] at hnd
      obtain ⟨⟨-, hay, ha⟩, ⟨hxy, hx⟩, hyy, -⟩ := hnd
      have hnext : (s.unlink null x).next y = s.next y := by
        simp [Links.unlink, Ne.symm hxy, hp, Ne.symm hay]
      refine ⟨hy, hne, ?_, ?_⟩
      · simp [Links.unlink, Ne.symm hxy, hy, hne, hp]
      · rw [hnext]
        refine h.congr fun z hz => unlink_of_ne ?_ ?_ ?_
        · exact ne_of_mem_of_not_mem hz hx
        · exact hp ▸ ne_of_mem_of_not_mem hz ha
        · exact hy ▸ ne_of_mem_of_not_mem hz hyy
  | cons y xs ih =>
    have hnc := h.neighbours.2
    have hpc := h.at.1
    obtain ⟨rfl, hne, hp, h⟩ := h
    rw [getLastD_cons] at hpc
    have hnd' := (nodup_cons.mp hnd).2
    rw [cons_append] at hnd'
    have hx := (nodup_cons.mp hnd').1
    simp only [mem_append, mem_cons, not_or] at hx
    obtain ⟨hxs, hxc, hys⟩ := hx
    have hxn : ¬ (x = s.next c ∧ x ≠ null) := by
      rintro ⟨heq, hn⟩
      rw [← heq] at hnc
      exact hnc.elim hn hys
    refine ⟨if_neg (by simp), hne, ?_, ?_⟩
    · simp [Links.unlink, hxc, hxn, hp]
    -- the node before `c` is `x` exactly if nothing is between them
    have hnext : (s.unlink null c).next x = if xs = [] then s.next c else s.next x := by
      have hiff : x = s.prev c ↔ xs = [] := by
        rw [hpc]
        cases xs with
        | nil => simp
        | cons z zs =>
          have hmem : (z :: zs).getLastD x ∈ z :: zs := by
            rw [getLastD_cons]
            exact getLastD_mem_cons
          exact iff_of_false (ne_of_mem_of_not_mem hmem hxs).symm (cons_ne_nil z zs)
      simp [Links.unlink, hxc, hiff, hne]
    rw [hnext]
    exact ih h hnd'

/-- Lists that do not hold `c` are not touched. -/
theorem Chain.unlink_other (h : Chain s null null x (xs ++ c :: ys)) {b y : α}
    (h' : Chain s null b y zs) (hd : ∀ z ∈ zs, z ∉ xs ++ c :: ys) :
    Chain (s.unlink null c) null b y zs := by
  obtain ⟨hpc, hnc⟩ := h.neighbours
  refine h'.congr fun z hz => unlink_of_ne ?_ ?_ ?_
  · exact fun heq => hd z hz (by simp [heq])
  · intro heq
    rw [← heq] at hpc
    exact hpc.elim (h'.ne_null hz) fun hm => hd z hz (mem_append_left _ hm)
  · intro heq
    rw [← heq] at hnc
    exact hnc.elim (h'.ne_null hz) fun hm => hd z hz (by simp [hm])

/-- Put `c` before the list that begins with `x`. -/
def Links.push (s : Links α) (null c x : α) : Links α where
  next y := if y = c then x else s.next y
  prev y := if y = x ∧ x ≠ null then c else s.prev y

theorem Chain.push (h : Chain s null null x xs) (hc : c ≠ null) (hp : s.prev c = null)
    (hnd : (c :: xs).Nodup) : Chain (s.push null c x) null null c (c :: xs) := by
  have hcx : ¬ (c = x ∧ x ≠ null) := by
    rintro ⟨rfl, hx⟩
    exact (nodup_cons.mp hnd).1 (h.first_mem hx)
  refine ⟨rfl, hc, ?_, ?_⟩
  · simp [Links.push, hcx, hp]
  have hnext : (s.push null c x).next c = x := by simp [Links.push]
  rw [hnext]
  cases xs with
  | nil => exact h
  | cons y ys =>
    obtain ⟨rfl, hne, -, h⟩ := h
    simp only [nodup_cons, mem_cons, not_or] at hnd
    obtain ⟨⟨hcx, hcy⟩, hxy, -⟩ := hnd
    refine ⟨rfl, hne, ?_, ?_⟩
    · simp [Links.push, hne]
    · have hnx : (s.push null c x).next x = s.next x := by simp [Links.push, Ne.symm hcx]
      rw [hnx]
      refine h.congr fun z hz => ?_
      simp [Links.push, ne_of_mem_of_not_mem hz hcy, ne_of_mem_of_not_mem hz hxy]

theorem Chain.push_other (h : Chain s null null x xs) {b y : α} (h' : Chain s null b y zs)
    (hc : c ∉ zs) (hd : ∀ z ∈ zs, z ∉ xs) : Chain (s.push null c x) null b y zs := by
  refine h'.congr fun z hz => ?_
  have hzx : ¬ (z = x ∧ x ≠ null) := by
    rintro ⟨rfl, hne⟩
    exact hd z hz (h.first_mem hne)
  simp [Links.push, ne_of_mem_of_not_mem hz hc, hzx]

end Dlink
