import Sysint.Paging.BuddyRun

/-! The accesses of the frame allocator to its bitmaps, and the agreement of lists, order fields
and bitmaps in every state of a run. The bitmap of order `x` has one bit for each block that lies
in memory as a whole. -/
namespace Sysint.Paging

open Dlink Dyadic List Nat
open Bool hiding and_true
open Machine

/-- A bit of the bitmap of an order. -/
structure Access where
  order : Nat
  pos : Nat

/-- The bits that the splitting loop of `alloc_frames` sets. -/
def splitAccesses (idx order : Nat) : Nat → List Access
  | 0 => []
  | n + 1 => ⟨order + n, getBuddy idx (order + n) >>> (order + n)⟩ :: splitAccesses idx order n

def allocAccesses (s : Buddy) (order : Nat) : List Access :=
  if order ≤ buddyMaxOrder then
    let x := s.firstAvail (buddyMaxOrder + 1 - order) order
    if buddyMaxOrder < x then []
    else
      let idx := (s.links.next (.nil x)).idx
      splitAccesses idx order (x - order) ++ [⟨order, idx >>> order⟩]
  else []

/-- The bits that the merging loop of `free_frames` reads and clears. A bit is read only after the
two other tests have succeeded. -/
def Buddy.mergeAccesses (s : Buddy) (idx x : Nat) : Nat → List Access
  | 0 => []
  | n + 1 =>
    let b := getBuddy idx x
    if b < s.memorySize >>> pageShift ∧ s.order b = x then
      ⟨x, b >>> x⟩ ::
        if (s.map x).get (b >>> x) then
          ⟨x, b >>> x⟩ :: ((s.unlink (.entry b) x).clearBit x (b >>> x)).mergeAccesses
            (if b < idx then b else idx) (x + 1) n
        else []
    else []

def freeAccesses (s : Buddy) (p : Nat) : List Access :=
  let idx := p >>> pageShift
  if p < s.memorySize ∧ s.order idx ≤ buddyMaxOrder then
    let n := buddyMaxOrder + 1 - s.order idx
    let (_, i, x) := s.merge idx (s.order idx) n
    s.mergeAccesses idx (s.order idx) n ++ [⟨min x buddyMaxOrder, i >>> min x buddyMaxOrder⟩]
  else []

/-- The bits that `init` sets. -/
def makeAccesses (n : Nat) : Nat → Nat → Nat → List Access
  | 0, _, _ => []
  | fuel + 1, i, x =>
    if i < n then
      let x := fitOrder i n x
      ⟨x, i >>> x⟩ :: makeAccesses n fuel (i + (1 <<< x)) x
    else []

def Op.accesses (s : Frames) : Op → List Access
  | .alloc order => allocAccesses s.buddy order
  | .free c => freeAccesses s.buddy (c.idx <<< pageShift)

/-- The bit is in the bitmap; the size of a bitmap never changes. -/
def Access.InRange (s : Buddy) (a : Access) : Prop := a.pos < (s.map a.order).n

/-! ## Order fields -/

/-- The size of each bitmap, and that the block recorded at an entry ends in memory. Order fields
of blocks that have been merged or split stay behind, so this is more than what is known of the
blocks that exist. -/
structure Recorded (b : Boot) (s : Buddy) : Prop where
  memory : s.memorySize = b.memSize
  sizes : ∀ x, (s.map x).n = b.frames >>> x
  fits : ∀ i, s.order i ≤ buddyMaxOrder → i + 2 ^ s.order i ≤ b.frames

variable {b : Boot} {s : Buddy} {i idx x order : Nat}

section

variable (h : Recorded b s)
include h

section

variable (hi : i + 2 ^ x ≤ b.frames)
include hi

theorem Recorded.inRange :
    Access.InRange s ⟨x, i >>> x⟩ := by
  have hpos := Nat.two_pow_pos x
  have hdiv := Nat.div_le_div_right (c := 2 ^ x) hi
  rw [add_div_right _ hpos] at hdiv
  rw [Access.InRange, h.sizes, shiftRight_eq_div_pow, shiftRight_eq_div_pow]
  exact hdiv

theorem Recorded.setOrder :
    Recorded b { s with order := Function.update s.order i x } where
  memory := h.memory
  sizes := h.sizes
  fits := by
    intro j hj
    by_cases hji : j = i
    · subst hji
      simpa using hi
    · simpa [hji] using h.fits j (by simpa [hji] using hj)

theorem Recorded.addBlock :
    Recorded b (s.addBlock i x) where
  memory := h.memory
  sizes := by
    intro y
    by_cases hyx : y = x
    · subst hyx
      simp [Buddy.addBlock, h.sizes]
    · simp [Buddy.addBlock, hyx, h.sizes]
  fits := (h.setOrder hi).fits

end

theorem Recorded.clearBit (x pos : Nat) : Recorded b (s.clearBit x pos) where
  memory := h.memory
  sizes := by
    intro y
    by_cases hyx : y = x
    · subst hyx
      simp [Buddy.clearBit, h.sizes]
    · simp [Buddy.clearBit, hyx, h.sizes]
  fits := h.fits

theorem Recorded.unlink (e : Node) (x : Nat) : Recorded b (s.unlink e x) :=
  ⟨h.memory, h.sizes, h.fits⟩

/-- All maps keep their sizes, so an access may be checked in any state. -/
theorem Recorded.inRange_of {t : Buddy} {a : Access} (ht : Recorded b t)
    (ha : a.InRange t) : a.InRange s := by
  rw [Access.InRange, h.sizes]
  rw [Access.InRange, ht.sizes] at ha
  exact ha

end

/-! ## The loops -/

/-- The upper halves of a block in memory lie in memory. -/
theorem Recorded.split (n : Nat) (h : Recorded b s) (hd : 2 ^ (order + n) ∣ idx)
    (hi : idx + 2 ^ (order + n) ≤ b.frames) : Recorded b (s.split idx order n) ∧
      ∀ a ∈ splitAccesses idx order n, a.InRange s := by
  induction n generalizing s with
  | zero =>
    refine ⟨h, ?_⟩
    intro a ha
    cases ha
  | succ n ih =>
    have hbud : getBuddy idx (order + n) = idx + 2 ^ (order + n) := by
      rw [getBuddy_eq]
      exact xor_of_even hd
    have hpow : 2 ^ (order + (n + 1)) = 2 ^ (order + n) * 2 := Nat.pow_succ 2 (order + n)
    have hupper : idx + 2 ^ (order + n) + 2 ^ (order + n) ≤ b.frames := by omega
    obtain ⟨hrec, hin⟩ := ih (h.addBlock hupper) ((pow_dvd_pow 2 (by omega)).trans hd) (by omega)
    rw [Buddy.split, splitAccesses, hbud]
    refine ⟨hrec, ?_⟩
    intro a ha
    rcases mem_cons.mp ha with rfl | ha
    · exact h.inRange hupper
    · exact h.inRange_of (h.addBlock hupper) (hin a ha)

/-- The pair of a block and its buddy, both in memory. -/
theorem pair_fits {m : Nat} (hd : 2 ^ x ∣ idx) (hi : idx + 2 ^ x ≤ m)
    (hb : getBuddy idx x + 2 ^ x ≤ m) :
    2 ^ (x + 1) ∣ (if getBuddy idx x < idx then getBuddy idx x else idx) ∧
      (if getBuddy idx x < idx then getBuddy idx x else idx) + 2 ^ (x + 1) ≤ m := by
  have hpos := Nat.two_pow_pos x
  rw [getBuddy_eq] at hb ⊢
  rcases half_cases hd with heven | ⟨y, rfl, hy⟩
  · rw [xor_of_even heven] at hb ⊢
    rw [if_neg (by omega), Nat.pow_succ]
    exact ⟨heven, by omega⟩
  · rw [xor_of_odd hy] at hb ⊢
    rw [if_pos (by omega), Nat.pow_succ]
    exact ⟨hy, by omega⟩

theorem Recorded.merge (n : Nat) (h : Recorded b s) (hn : x + n = buddyMaxOrder + 1)
    (hd : 2 ^ x ∣ idx) (hi : idx + 2 ^ x ≤ b.frames) : Recorded b (s.merge idx x n).1 ∧
      (s.merge idx x n).2.1 + 2 ^ (s.merge idx x n).2.2 ≤ b.frames ∧
      ∀ a ∈ s.mergeAccesses idx x n, a.InRange s := by
  induction n generalizing s idx x with
  | zero =>
    refine ⟨h, hi, ?_⟩
    intro a ha
    cases ha
  | succ n ih =>
    rw [Buddy.merge, Buddy.mergeAccesses]
    by_cases htest : getBuddy idx x < s.memorySize >>> pageShift ∧ s.order (getBuddy idx x) = x
    · have hfit : getBuddy idx x + 2 ^ x ≤ b.frames := by
        have hfits := h.fits (getBuddy idx x) (by omega)
        rwa [htest.2] at hfits
      have hbit := h.inRange hfit
      rw [if_pos htest]
      cases hget : (s.map x).get (getBuddy idx x >>> x) with
      | true =>
        have hcan : s.canMerge idx x = true := by simp [Buddy.canMerge, htest, hget]
        obtain ⟨hd', hi'⟩ := pair_fits hd hi hfit
        have hnext := (h.unlink (.entry (getBuddy idx x)) x).clearBit x (getBuddy idx x >>> x)
        obtain ⟨hrec, hend, hin⟩ := ih hnext (by omega) hd' hi'
        simp only [hcan, ↓reduceIte]
        refine ⟨hrec, hend, ?_⟩
        intro a ha
        simp only [mem_cons] at ha
        rcases ha with rfl | rfl | ha
        · exact hbit
        · exact hbit
        · exact h.inRange_of hnext (hin a ha)
      | false =>
        have hcan : s.canMerge idx x = false := by simp [Buddy.canMerge, hget]
        simp only [hcan, false_eq_true, ↓reduceIte]
        refine ⟨h, hi, ?_⟩
        intro a ha
        rw [mem_singleton.mp ha]
        exact hbit
    · have hcan : s.canMerge idx x = false := by
        rw [eq_false_iff]
        intro hcan
        simp only [Buddy.canMerge, and_eq_true, decide_eq_true_eq, beq_iff_eq] at hcan
        exact htest hcan.1
      simp only [hcan, false_eq_true, ↓reduceIte, if_neg htest]
      refine ⟨h, hi, ?_⟩
      intro a ha
      cases ha

theorem Recorded.makeBlocks (fuel : Nat) (h : Recorded b s) :
    Recorded b (makeBlocks b.frames fuel i x s) ∧
      ∀ a ∈ makeAccesses b.frames fuel i x, a.InRange s := by
  induction fuel generalizing i x s with
  | zero =>
    refine ⟨h, ?_⟩
    intro a ha
    cases ha
  | succ fuel ih =>
    rw [Paging.makeBlocks, makeAccesses]
    by_cases hlt : i < b.frames
    · obtain ⟨-, hend, -⟩ := fitOrder_spec hlt x
      obtain ⟨hrec, hin⟩ := ih (i := i + (1 <<< fitOrder i b.frames x)) (x := fitOrder i b.frames x)
        (h.addBlock hend)
      rw [if_pos hlt, if_pos hlt]
      refine ⟨hrec, ?_⟩
      intro a ha
      rcases mem_cons.mp ha with rfl | ha
      · exact h.inRange hend
      · exact h.inRange_of (h.addBlock hend) (hin a ha)
    · rw [if_neg hlt, if_neg hlt]
      refine ⟨h, ?_⟩
      intro a ha
      cases ha

theorem recorded_empty (b : Boot) : Recorded b b.empty where
  memory := rfl
  sizes _ := rfl
  fits := by
    intro i hi
    have hmax : (0xff : Nat) ≤ buddyMaxOrder := hi
    exact absurd hmax (by decide)

/-! ## The calls -/

section
variable {held : List Block} {lists : Nat → List Nat}

theorem Recorded.alloc (h : Recorded b s) (hi : Inv b ⟨s, held⟩ lists) (order : Nat) :
    (∀ t p, allocFrames s order = some (t, p) → Recorded b t) ∧
      ∀ a ∈ allocAccesses s order, a.InRange s := by
  by_cases ho : order ≤ buddyMaxOrder
  · obtain ⟨hx1, hx2, hx3, -⟩ := firstAvail_spec s (buddyMaxOrder + 1 - order) order
    simp only [allocFrames, allocAccesses, ho, ↓reduceIte]
    generalize s.firstAvail (buddyMaxOrder + 1 - order) order = y at *
    by_cases hmax : buddyMaxOrder < y
    · simp only [hmax, ↓reduceIte]
      refine ⟨?_, ?_⟩
      · intro t p heq
        cases heq
        exact h
      · intro a ha
        cases ha
    · have hy : y ≤ buddyMaxOrder := by omega
      obtain ⟨n, rfl⟩ := Nat.exists_eq_add_of_le hx1
      -- the list is not empty: its first block lies in memory
      have hring := hi.book.ring (order + n) hy
      obtain ⟨idx, m, hl⟩ : ∃ idx m, lists (order + n) = idx :: m := by
        cases hc : lists (order + n) with
        | nil =>
          rw [hc] at hring
          exact absurd (hring.next_nil_iff.mpr rfl) (hx3 (by omega))
        | cons idx m => exact ⟨idx, m, rfl⟩
      have hnext : s.links.next (.nil (order + n)) = .entry idx := by
        have hfirst := hring.next_nil
        simpa [hl] using hfirst
      have hmem : (⟨idx, order + n⟩ : Block) ∈ held ++ blocksOf lists :=
        mem_append_right _ ((mem_blocksOf _ _).mpr ⟨hy, by simp [hl]⟩)
      have hal : 2 ^ (order + n) ∣ idx := hi.family.aligned _ hmem
      have hend : idx + 2 ^ (order + n) ≤ b.frames := (hi.family.inside _ hmem).2
      have hle : 2 ^ order ≤ 2 ^ (order + n) := Nat.pow_le_pow_right (by decide) (by omega)
      simp only [hmax, ↓reduceIte, hnext, Node.idx, Nat.add_sub_cancel_left]
      obtain ⟨hrec, hin⟩ := (h.unlink (.entry idx) (order + n)).split n hal hend
      refine ⟨?_, ?_⟩
      · intro t p heq
        cases heq
        exact (hrec.setOrder (by omega)).clearBit _ _
      · intro a ha
        rcases mem_append.mp ha with ha | ha
        · exact hin a ha
        · rw [mem_singleton.mp ha]
          exact h.inRange (by omega)
  · simp [allocFrames, allocAccesses, ho]

theorem Recorded.free (h : Recorded b s) (hi : Inv b ⟨s, held⟩ lists) {c : Block} (hc : c ∈ held) :
    (∀ t n, freeFrames s (c.idx <<< pageShift) = some (t, n) → Recorded b t) ∧
      ∀ a ∈ freeAccesses s (c.idx <<< pageShift), a.InRange s := by
  obtain ⟨hco, hcr⟩ := hi.recorded c hc
  have hord : s.order c.idx = c.order := hcr
  have hmem : c ∈ held ++ blocksOf lists := mem_append_left _ hc
  have hal : 2 ^ c.order ∣ c.idx := hi.family.aligned c hmem
  have hend : c.idx + 2 ^ c.order ≤ b.frames := (hi.family.inside c hmem).2
  obtain ⟨hrec, hfit, hin⟩ :=
    h.merge (buddyMaxOrder + 1 - c.order) (by omega) hal hend
  simp only [freeFrames, freeAccesses, shiftLeft_shiftRight, hord, hco, and_true, ↓reduceIte]
  generalize s.merge c.idx c.order (buddyMaxOrder + 1 - c.order) = r at *
  obtain ⟨u, i, x⟩ := r
  have hmin : 2 ^ min x buddyMaxOrder ≤ 2 ^ x :=
    Nat.pow_le_pow_right (by decide) (Nat.min_le_left _ _)
  simp only at hrec hfit
  by_cases hlt : c.idx <<< pageShift < s.memorySize
  · simp only [hlt, ↓reduceIte]
    refine ⟨?_, ?_⟩
    · intro t n heq
      cases heq
      exact hrec.addBlock (by omega)
    · intro a ha
      rcases mem_append.mp ha with ha | ha
      · exact hin a ha
      · rw [mem_singleton.mp ha]
        exact h.inRange (by omega)
  · simp [hlt]

end

/-- The calls of a caller that frees only what it holds. -/
def Op.Legal (s : Frames) : Op → Prop
  | .alloc _ => True
  | .free c => c ∈ s.allocated

theorem Recorded.step {s t : Frames} {lists : Nat → List Nat} {a : Op} (h : Recorded b s.buddy)
    (hi : Inv b s lists) (hs : s.step a = some t) : Recorded b t.buddy := by
  cases a with
  | alloc order =>
    obtain ⟨⟨u, p⟩, hrun, rfl⟩ := Option.map_eq_some_iff.mp hs
    exact (h.alloc hi order).1 u p hrun
  | free c =>
    simp only [Frames.step] at hs
    split at hs
    · rename_i hc
      obtain ⟨⟨u, n⟩, hrun, rfl⟩ := Option.map_eq_some_iff.mp hs
      exact (h.free hi hc).1 u n hrun
    · cases hs

theorem reachable_recorded {s : Frames} (h : Reachable b always s) :
    (∃ lists, Inv b s lists) ∧ Recorded b s.buddy := by
  apply Reach.invariant (I := fun s => (∃ lists, Inv b s lists) ∧ Recorded b s.buddy) _ _ h
  · rintro s rfl
    obtain ⟨lists, hi, -⟩ := inv_init b
    exact ⟨⟨lists, hi⟩, ((recorded_empty b).makeBlocks b.frames).1⟩
  · rintro s a t ⟨⟨lists, hi⟩, hrec⟩ - hs
    obtain ⟨lists', hi', -⟩ := step_inv hi hs
    exact ⟨⟨lists', hi'⟩, hrec.step hi hs⟩

/-- What lists, order fields and bitmaps say about each other, and that the next call stays within
the bitmaps. -/
structure Agrees (s : Frames) : Prop where
  free_iff : ∀ x i, x ≤ buddyMaxOrder → (i * 2 ^ x ∈ s.buddy.freeList x ↔
    s.buddy.order (i * 2 ^ x) = x ∧ (s.buddy.map x).get i = true)
  aligned : ∀ x, x ≤ buddyMaxOrder → ∀ j ∈ s.buddy.freeList x, 2 ^ x ∣ j
  avail : ∀ x, x ≤ buddyMaxOrder → s.buddy.numAvail x = (s.buddy.freeList x).length
  links : ∀ x, x ≤ buddyMaxOrder → Ring s.buddy.links (.nil x) ((s.buddy.freeList x).map .entry)
  recorded : ∀ c ∈ s.allocated, s.buddy.order c.idx = c.order
  inRange : ∀ op : Op, op.Legal s → ∀ a ∈ op.accesses s, a.InRange s.buddy

/-- **Bookkeeping.** The lists, the order fields and the bitmaps agree in every state of every run,
and no access leaves its bitmap, nor does one of `init`. -/
theorem buddy_agrees (b : Boot) :
    (∀ a ∈ makeAccesses b.frames b.frames b.start buddyMaxOrder, a.InRange b.empty) ∧
      ∀ s, Reachable b always s → Agrees s := by
  refine ⟨((recorded_empty b).makeBlocks b.frames).2, ?_⟩
  intro s h
  obtain ⟨⟨lists, hi⟩, hrec⟩ := reachable_recorded h
  refine ⟨?_, ?_, ?_, ?_, fun c hc => (hi.recorded c hc).2, ?_⟩
  · intro x i hx
    have hshift : (i * 2 ^ x) >>> x = i := by
      rw [shiftRight_eq_div_pow]
      exact Nat.mul_div_cancel _ (Nat.two_pow_pos x)
    rw [hi.freeList hx, hi.book.free_iff x _ hx (fun h => h) (Dvd.intro_left i rfl), hshift]
  · intro x hx j hj
    rw [hi.freeList hx] at hj
    exact hi.family.aligned ⟨j, x⟩ (mem_append_right _ ((mem_blocksOf _ _).mpr ⟨hx, hj⟩))
  · intro x hx
    rw [hi.freeList hx]
    exact hi.book.avail x hx
  · intro x hx
    rw [hi.freeList hx]
    exact hi.book.ring x hx
  · intro op hlegal
    cases op with
    | alloc order => exact (hrec.alloc hi order).2
    | free c => exact (hrec.free hi hlegal).2

/-- Two blocks are allocated and one of them is freed. -/
theorem buddy_agrees_one :
    ∃ s, run Frames.step (.init bootOne) [.alloc 0, .alloc 3, .free ⟨7168, 0⟩] = some s ∧
      Agrees s := by
  have hrun : (run Frames.step (.init bootOne)
      [.alloc 0, .alloc 3, .free ⟨7168, 0⟩]).isSome = true := by decide +kernel
  obtain ⟨s, hs⟩ := Option.isSome_iff_exists.mp hrun
  exact ⟨s, hs, (buddy_agrees bootOne).2 s (Reach.run (.init rfl) hs)⟩

end Sysint.Paging
