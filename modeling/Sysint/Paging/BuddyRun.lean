import Mathlib.Algebra.BigOperators.Ring.Finset
import Sysint.Paging.BuddyInv

/-! Runs of the frame allocator from `paging::init`. No frame is ever in two
blocks. Frames can get lost, in one way only: `free_frames` also merges at the
largest order, where the merged pair has no list to go to, and puts back only
its lower half. -/
namespace Sysint.Paging

open Dlink Dyadic List Option Nat
open Machine

/-! ## The initial blocks -/

theorem start_aligned (b : Boot) : 2 ^ buddyMaxOrder ∣ b.start := by
  rw [Boot.start, alignAddr4m_eq b.placement_lt, shiftRight_eq_div_pow]
  simp only [buddyMaxOrder, pageShift, kernelVirtualBase, sub32, u32]
  omega

theorem start_pos (b : Boot) : 0 < b.start := by
  have h1 := b.placement_min
  have h2 := b.placement_lt
  rw [Boot.start, alignAddr4m_eq b.placement_lt, shiftRight_eq_div_pow]
  simp only [pageShift, kernelVirtualBase, sub32, u32] at h1 ⊢
  omega

theorem fitOrder_spec {i n : Nat} (h : i < n) (x : Nat) :
    fitOrder i n x ≤ x ∧ i + 2 ^ fitOrder i n x ≤ n ∧
      (fitOrder i n x < x → n < i + 2 ^ (fitOrder i n x + 1)) := by
  induction x with
  | zero => simp [fitOrder]; omega
  | succ x ih =>
    rw [fitOrder, one_shiftLeft]
    split
    · rename_i hlt
      refine ⟨by omega, ih.2.1, ?_⟩
      intro _
      by_cases he : fitOrder i n x = x
      · rwa [he]
      · exact ih.2.2 (by omega)
    · exact ⟨Nat.le_refl _, by omega, fun h => absurd h (Nat.lt_irrefl _)⟩

variable {lists : Nat → List Nat} {b : Boot} {s : Buddy} {held : List Block}

theorem makeBlocks_spec {lo n : Nat} (fuel : Nat) {i x : Nat}
    (hb : Book s lists fun _ => False) (hx : x ≤ buddyMaxOrder)
    (hd : 2 ^ x ∣ i) (hlo : lo ≤ i) (hi : i ≤ n) (hfuel : n - i ≤ fuel)
    (hf : Family lo i (blocksOf lists)) (hc : Covers lo i (blocksOf lists))
    (hj : Joined buddyMaxOrder (blocksOf lists)) (hbig : ∀ c ∈ blocksOf lists, x ≤ c.order)
    (hrest : x < buddyMaxOrder → n < i + 2 ^ x) :
    ∃ lists', Book (makeBlocks n fuel i x s) lists' (fun _ => False) ∧
      Family lo n (blocksOf lists') ∧ Covers lo n (blocksOf lists') ∧
      (makeBlocks n fuel i x s).memorySize = s.memorySize ∧
      Joined buddyMaxOrder (blocksOf lists') := by
  induction fuel generalizing i x s lists with
  | zero =>
    have he : i = n := by omega
    subst he
    exact ⟨lists, hb, hf, hc, rfl, hj⟩
  | succ fuel ih =>
    unfold makeBlocks
    split
    · rename_i hlt
      obtain ⟨hfit, hend, hnext⟩ := fitOrder_spec hlt x
      generalize fitOrder i n x = o at hfit hend hnext
      have ho : o ≤ buddyMaxOrder := by omega
      have hdo : 2 ^ o ∣ i := (pow_dvd_pow 2 hfit).trans hd
      have hpos := Nat.two_pow_pos o
      have hext : Family lo (i + 2 ^ o) (⟨i, o⟩ :: ([] ++ blocksOf lists)) :=
        hf.extend hlo hdo (Nat.le_refl _)
      have hput := (blocksOf_add lists i ho).symm
      simp only [one_shiftLeft]
      -- below the largest order the blocks get smaller from one to the next
      have hless : o < buddyMaxOrder → o < x := by
        intro hlt
        by_contra hge
        have he : o = x := by omega
        have := hrest (by omega)
        rw [← he] at this
        omega
      refine ih ?_ ho ?_ (by omega) hend (by omega) (hext.perm hput) ?_ ?_ ?_ ?_
      · exact hb.addBlock (lists_separate hext.tail) ho hdo fun y hy =>
          held_not_mem hext hy
      · exact (Nat.dvd_add_right hdo).mpr (dvd_refl _)
      · apply Covers.perm _ hput
        intro f hf1 hf2
        by_cases hfi : f < i
        · obtain ⟨d, hd', hdf⟩ := hc f hf1 hfi
          exact ⟨d, mem_cons_of_mem _ hd', hdf⟩
        · exact ⟨⟨i, o⟩, mem_cons_self, by simp only [Block.Mem]; omega⟩
      · apply Joined.subset (Joined.cons hj (b := ⟨i, o⟩) ?_) fun c hc => hput.mem_iff.mpr hc
        intro hlt hbud
        have hle := hbig _ hbud
        have := hless hlt
        simp only [Block.buddy] at hle
        omega
      · intro c hc
        rcases mem_cons.mp (hput.mem_iff.mpr hc) with rfl | hc
        · exact Nat.le_refl _
        · exact Nat.le_trans hfit (hbig c hc)
      · intro hlt
        have := hnext (hless hlt)
        rw [Nat.pow_succ] at this
        omega
    · have he : i = n := by omega
      subst he
      exact ⟨lists, hb, hf, hc, rfl, hj⟩

theorem book_empty (b : Boot) : Book b.empty (fun _ => []) fun _ => False := by
  refine ⟨fun x _ => ⟨⟨rfl, rfl⟩, by simp⟩, ?_, fun _ _ => rfl⟩
  intro x i hx _ _
  have : (255 : Nat) ≠ x := by
    rintro rfl
    simp [buddyMaxOrder] at hx
  simp [Boot.empty, this]

theorem inv_init (b : Boot) :
    ∃ lists, Inv b (.init b) lists ∧ Covers b.start b.frames (blocksOf lists) ∧
      Joined buddyMaxOrder (blocksOf lists) := by
  have hnil : blocksOf (fun _ => []) = [] := by simp [blocksOf]
  have hnone : Joined buddyMaxOrder (blocksOf fun _ => []) := by
    rw [hnil]
    exact fun c hc => absurd hc not_mem_nil
  by_cases hlt : b.start ≤ b.frames
  · have hf : Family b.start b.start (blocksOf fun _ => []) := by
      rw [hnil]
      exact ⟨by simp, by simp, List.Pairwise.nil⟩
    obtain ⟨lists, h1, h2, h3, h4, h5⟩ := makeBlocks_spec b.frames (book_empty b) (Nat.le_refl _)
      (start_aligned b) (Nat.le_refl _) hlt (sub_le _ _) hf (fun f h1 h2 => by omega) hnone
      (by simp [hnil]) (fun h => absurd h (Nat.lt_irrefl _))
    exact ⟨lists, ⟨h4, h1, h2, by simp [Frames.init]⟩, h3, h5⟩
  · have hrun : Paging.init b = b.empty := by
      have hge : ¬ b.start < b.frames := by omega
      unfold Paging.init
      cases hc : b.frames with
      | zero => rfl
      | succ n => simp [makeBlocks, ← hc, hge]
    refine ⟨fun _ => [], ⟨?_, ?_, ?_, by simp [Frames.init]⟩, fun f h1 h2 => by omega, hnone⟩
    · simp [Frames.init, hrun, Boot.empty]
    · rw [show (Frames.init b).buddy = b.empty from hrun]
      exact book_empty b
    · rw [hnil]
      exact ⟨by simp [Frames.init], by simp [Frames.init], List.Pairwise.nil⟩

/-- The address of a managed frame is not the null pointer. -/
theorem frame_ne_zero {idx : Nat} (h : b.start ≤ idx) : idx <<< pageShift ≠ 0 := by
  have hpos := start_pos b
  rw [shiftLeft_eq]
  simp only [pageShift]
  omega

/-! ## Every step -/

theorem step_inv {s t : Frames} {a : Op} (hi : Inv b s lists) (h : s.step a = some t) :
    ∃ lists', Inv b t lists' ∧
      ((∀ c, a = .free c → ¬ Fills (blocksOf lists) c) →
        Covers b.start b.frames (s.allocated ++ blocksOf lists) →
        Covers b.start b.frames (t.allocated ++ blocksOf lists')) ∧
      (Joined buddyMaxOrder (blocksOf lists) → Joined buddyMaxOrder (blocksOf lists')) := by
  cases a with
  | alloc order =>
    obtain ⟨⟨u, p⟩, run, rfl⟩ := map_eq_some_iff.mp h
    rcases allocFrames_spec hi run with ⟨rfl, rfl, -⟩ | ⟨idx, lists', rfl, h1, -, -, h3, h4, h5, -⟩
    · exact ⟨lists, by simpa using hi, by simp, id⟩
    · refine ⟨lists', ?_⟩
      simp only [frame_ne_zero h1, ↓reduceIte, shiftLeft_shiftRight]
      exact ⟨h3, fun _ => h4, h5⟩
  | free c =>
    simp only [Frames.step] at h
    split at h
    · rename_i hc
      obtain ⟨⟨u, n⟩, run, rfl⟩ := map_eq_some_iff.mp h
      obtain ⟨t', n', lists', h1, h2, h3, h4⟩ := freeFrames_spec hi hc
      rw [run] at h1
      obtain ⟨rfl, rfl⟩ := Prod.mk.inj (Option.some.inj h1)
      exact ⟨lists', h2, fun hn => h3 (hn c rfl), h4⟩
    · cases h

theorem reachable_inv {ok : Frames → Op → Prop} {s : Frames} (h : Reachable b ok s) :
    ∃ lists, Inv b s lists ∧ Joined buddyMaxOrder (blocksOf lists) := by
  apply Reach.invariant _ _ h
  · rintro s rfl
    obtain ⟨lists, hi, -, hj⟩ := inv_init b
    exact ⟨lists, hi, hj⟩
  · rintro s a t ⟨lists, hi, hj⟩ _ hs
    obtain ⟨lists', hi', -, hj'⟩ := step_inv hi hs
    exact ⟨lists', hi', hj' hj⟩

theorem Inv.freeList {s : Frames} (hi : Inv b s lists) {x : Nat}
    (hx : x ≤ buddyMaxOrder) : s.buddy.freeList x = lists x := by
  have hring := hi.book.ring x hx
  have hnd : (lists x).Nodup := (nodup_cons.mp hring.nodup).2.of_map
  have hsub : lists x ⊆ List.range b.frames := by
    intro i him
    have hm : (⟨i, x⟩ : Block) ∈ s.allocated ++ blocksOf lists :=
      mem_append_right _ ((mem_blocksOf _ _).mpr ⟨hx, him⟩)
    have hin := hi.family.inside _ hm
    have hpos := Nat.two_pow_pos x
    simp only [Block.Inside] at hin
    exact mem_range.mpr (by omega)
  have hlen := (subperm_of_subset hnd hsub).length_le
  rw [Buddy.freeList, hring.toList]
  · simp [Function.comp_def, Node.idx]
  · rw [length_map, hi.size]
    simpa [Boot.frames] using hlen

theorem Inv.freeBlocks {s : Frames} (hi : Inv b s lists) : s.buddy.freeBlocks = blocksOf lists := by
  apply flatMap_congr
  intro x hx
  have hx' : x ≤ buddyMaxOrder := by
    have := mem_range.mp hx
    omega
  rw [hi.freeList hx']

/-- **No frame is handed out twice.** The blocks callers hold and the blocks on
the lists are pairwise disjoint, aligned to their size and inside the managed
range, in every state of every run. -/
theorem blocks_pairwise_apart {b : Boot} {s : Frames} (h : Reachable b always s) :
    (s.allocated ++ s.buddy.freeBlocks).Pairwise Block.Apart ∧
      ∀ c ∈ s.allocated ++ s.buddy.freeBlocks, 2 ^ c.order ∣ c.idx ∧
        b.start ≤ c.idx ∧ c.idx + 2 ^ c.order ≤ b.memSize >>> pageShift := by
  obtain ⟨lists, hi, -⟩ := reachable_inv h
  rw [hi.freeBlocks]
  refine ⟨hi.family.apart, fun c hc => ⟨hi.family.aligned c hc, ?_⟩⟩
  exact hi.family.inside c hc

/-- Memory of 32 MiB whose last 4 MiB go to the allocator. -/
def bootOne : Boot where
  memSize := 0x2000000
  placement := 0xC1B00000
  junk := ⟨id, id⟩
  memSize_min := by decide
  memSize_lt := by decide
  placement_min := by decide
  placement_lt := by decide

theorem blocks_pairwise_apart_one :
    ∃ s, run Frames.step (.init bootOne) [.alloc 3, .alloc 0, .free ⟨7168, 3⟩] = some s ∧
      s.allocated = [⟨7176, 0⟩] ∧ (s.allocated ++ s.buddy.freeBlocks).Pairwise Block.Apart := by
  have hrun : (run Frames.step (.init bootOne) [.alloc 3, .alloc 0, .free ⟨7168, 3⟩]).map
      Frames.allocated = some [⟨7176, 0⟩] := by decide +kernel
  obtain ⟨s, hs, ha⟩ := run_of_map hrun
  have hr : Reachable bootOne always s := Reach.run (.init rfl) hs
  exact ⟨s, hs, ha, (blocks_pairwise_apart hr).1⟩

/-! ## Completeness -/

theorem allocFrames_isSome {order : Nat} (h : order ≤ buddyMaxOrder) :
    ∃ t p, allocFrames s order = some (t, p) := by
  simp only [allocFrames, h, ↓reduceIte]
  split
  · exact ⟨_, _, rfl⟩
  · exact ⟨_, _, rfl⟩

/-- While there is a free frame, one frame is allocated. -/
theorem Inv.allocFrame (hi : Inv b ⟨s, held⟩ lists) (hfree : 0 < cells (blocksOf lists)) :
    ∃ t idx lists', allocFrames s 0 = some (t, idx <<< pageShift) ∧ b.start ≤ idx ∧
      idx < b.frames ∧ Inv b ⟨t, ⟨idx, 0⟩ :: held⟩ lists' ∧
      cells (blocksOf lists') + 1 = cells (blocksOf lists) ∧
      (∃ c ∈ blocksOf lists, c.Mem idx) ∧
      ∀ c ∈ blocksOf lists', ∀ f, c.Mem f → ∃ c ∈ blocksOf lists, c.Mem f := by
  obtain ⟨t, p, run⟩ := allocFrames_isSome (s := s) (Nat.zero_le buddyMaxOrder)
  rcases allocFrames_spec hi run with
    ⟨-, -, hnone⟩ | ⟨idx, lists', rfl, h1, h2, ⟨x, -, hx⟩, h3, -, -, h4, h5⟩
  · have hnil : blocksOf lists = [] :=
      eq_nil_iff_forall_not_mem.mpr fun c hc => Nat.not_lt_zero _ (hnone c hc)
    simp [hnil, cells] at hfree
  · exact ⟨t, idx, lists', run, h1, h2, h3, h4, ⟨_, hx, Block.mem_start _⟩, h5⟩

/-- **Allocation is complete.** No two buddies below the largest order are both
on their list, so an aligned run of free frames is never held in pieces only:
the null pointer is returned just when there is no such run. -/
theorem alloc_complete {b : Boot} {s : Frames} (h : Reachable b always s) :
    (∀ x i, x < buddyMaxOrder → ¬ (i ∈ s.buddy.freeList x ∧ getBuddy i x ∈ s.buddy.freeList x)) ∧
    ∀ order ≤ buddyMaxOrder, ∃ t p, allocFrames s.buddy order = some (t, p) ∧
      (p = 0 ↔ ¬ ∃ i, 2 ^ order ∣ i ∧
        ∀ f, i ≤ f → f < i + 2 ^ order → ∃ c ∈ s.buddy.freeBlocks, c.Mem f) := by
  obtain ⟨lists, hi, hj⟩ := reachable_inv h
  have hal : ∀ c ∈ blocksOf lists, c.Aligned := fun c hc =>
    hi.family.aligned c (mem_append_right _ hc)
  rw [hi.freeBlocks]
  constructor
  · rintro x i hx ⟨h1, h2⟩
    have hm : ∀ j ∈ s.buddy.freeList x, (⟨j, x⟩ : Block) ∈ blocksOf lists := by
      intro j hj
      rw [← hi.freeBlocks]
      exact (mem_blocksOf _ _).mpr ⟨hx.le, hj⟩
    apply hj _ (hm i h1) hx
    have := hm _ h2
    rwa [getBuddy_eq] at this
  · intro order ho
    obtain ⟨t, p, run⟩ := allocFrames_isSome (s := s.buddy) ho
    refine ⟨t, p, run, ?_⟩
    rcases allocFrames_spec hi run with ⟨rfl, -, hnone⟩ | ⟨idx, _, rfl, hlo, -, ⟨x, hx, hm⟩, -⟩
    · refine ⟨fun _ => ?_, fun _ => rfl⟩
      rintro ⟨i, hd, hrun⟩
      obtain ⟨c, hc, hle, -⟩ := hj.holds hal i order ho hd fun f hf => hrun f hf.1 hf.2
      have := hnone c hc
      omega
    refine ⟨fun he => absurd he (frame_ne_zero hlo), fun hno => absurd ?_ hno⟩
    have hpow : 2 ^ order ∣ 2 ^ x := pow_dvd_pow 2 hx
    refine ⟨idx, hpow.trans (hal _ hm), fun f h1 h2 => ⟨_, hm, h1, ?_⟩⟩
    have := le_of_dvd (Nat.two_pow_pos x) hpow
    show f < idx + 2 ^ x
    omega

theorem alloc_complete_one : ∃ s, run Frames.step (.init bootOne) [.alloc 10] = some s ∧
      ∃ t p, allocFrames s.buddy 0 = some (t, p) ∧
        (p = 0 ↔ ¬ ∃ i, 2 ^ 0 ∣ i ∧
          ∀ f, i ≤ f → f < i + 2 ^ 0 → ∃ c ∈ s.buddy.freeBlocks, c.Mem f) := by
  have hrun : (run Frames.step (.init bootOne) [.alloc 10]).map
      Frames.allocated = some [⟨7168, 10⟩] := by decide +kernel
  obtain ⟨s, hs, -⟩ := run_of_map hrun
  have hr : Reachable bootOne always s := Reach.run (.init rfl) hs
  exact ⟨s, hs, (alloc_complete hr).2 0 (by decide)⟩

/-! ## Counting frames -/

theorem cells_flatMap (xs : List Nat) (f : Nat → List Block) :
    cells (xs.flatMap f) = (xs.map fun x => cells (f x)).sum := by
  induction xs with
  | nil => rfl
  | cons x xs ih =>
    have : cells (f x ++ xs.flatMap f) = cells (f x) + cells (xs.flatMap f) := by
      simp [cells]
    rw [flatMap_cons, this, ih]
    simp

theorem cells_order (l : List Nat) (x : Nat) :
    cells (l.map fun i => ⟨i, x⟩) = l.length * 2 ^ x := by
  induction l with
  | nil => simp [cells]
  | cons i l ih =>
    have : cells ((i :: l).map fun i => ⟨i, x⟩) = 2 ^ x + cells (l.map fun i => ⟨i, x⟩) := by
      simp [cells]
    rw [this, ih, length_cons]
    ring

/-- `num_avail` counts the frames on the lists. -/
theorem Book.available {out : Nat → Prop}
    (h : Book s lists out) : s.available = (cells (blocksOf lists) : Nat) := by
  have hx : (List.range (buddyMaxOrder + 1)).map (fun x => s.numAvail x * 2 ^ x) =
      ((List.range (buddyMaxOrder + 1)).map fun x => cells ((lists x).map fun i => ⟨i, x⟩)).map
        Nat.cast := by
    rw [List.map_map]
    apply map_congr_left
    intro x hx
    have hx' : x ≤ buddyMaxOrder := by
      have := mem_range.mp hx
      omega
    simp [h.avail x hx', cells_order]
  rw [Buddy.available, hx, blocksOf, cells_flatMap, cast_list_sum]

/-! ## Single frames -/

section

variable (h : Reachable b always ⟨s, held⟩)
include h

/-- While a frame is available, `alloc_frames` gives one. -/
theorem Reachable.allocFrame (hfree : 0 < s.available) :
    ∃ t f, allocFrames s 0 = some (t, f <<< pageShift) ∧ 0 < f ∧ f < 2 ^ 20 ∧
      Reachable b always ⟨t, ⟨f, 0⟩ :: held⟩ ∧ t.available + 1 = s.available ∧
      (∃ c ∈ s.freeBlocks, c.Mem f) ∧
      ∀ c ∈ t.freeBlocks, ∀ g, c.Mem g → ∃ c ∈ s.freeBlocks, c.Mem g := by
  obtain ⟨lists, hi, -⟩ := reachable_inv h
  have hcount : s.available = (cells (blocksOf lists) : Nat) := hi.book.available
  obtain ⟨t, f, lists', hrun, hlo, hlt, hi', hcells, hdrawn⟩ := hi.allocFrame (by omega)
  have hstep : Frames.step ⟨s, held⟩ (.alloc 0) = some ⟨t, ⟨f, 0⟩ :: held⟩ := by
    simp [Frames.step, hrun, frame_ne_zero hlo]
  refine ⟨t, f, hrun, ?_, ?_, Reach.step h trivial hstep, ?_, ?_⟩
  · have := start_pos b
    omega
  · have := b.memSize_lt
    rw [Boot.frames, shiftRight_eq_div_pow, pageShift] at hlt
    omega
  · have hcount' : t.available = (cells (blocksOf lists') : Nat) := hi'.book.available
    omega
  · rw [hi.freeBlocks, show t.freeBlocks = _ from hi'.freeBlocks]
    exact hdrawn

/-- Without a free frame, `alloc_frames` returns the null pointer. -/
theorem Reachable.allocFrame_none (hnone : s.available ≤ 0) :
    allocFrames s 0 = some (s, 0) := by
  obtain ⟨lists, hi, -⟩ := reachable_inv h
  have hcount : s.available = (cells (blocksOf lists) : Nat) := hi.book.available
  obtain ⟨t, p, run⟩ := allocFrames_isSome (s := s) (Nat.zero_le buddyMaxOrder)
  rcases allocFrames_spec hi run with
    ⟨rfl, rfl, -⟩ | ⟨idx, lists', rfl, -, -, -, -, -, -, hcells, -⟩
  · exact run
  · omega

/-- `free_frames` takes back what a caller holds. -/
theorem Reachable.freeFrame {c : Block} (hc : c ∈ held) :
    ∃ t n, freeFrames s (c.idx <<< pageShift) = some (t, n) ∧
      Reachable b always ⟨t, held.erase c⟩ := by
  obtain ⟨lists, hi, -⟩ := reachable_inv h
  obtain ⟨t, n, -, hrun, -⟩ := freeFrames_spec hi hc
  have hstep : Frames.step ⟨s, held⟩ (.free c) = some ⟨t, held.erase c⟩ := by
    simp [Frames.step, hc, hrun]
  exact ⟨t, n, hrun, Reach.step h trivial hstep⟩

end

/-! ## Lost frames -/

/-- A free that does not fill up a block of the largest order next to a free
block of that order. -/
def keepsFrames (s : Frames) : Op → Prop
  | .alloc _ => True
  | .free c => ¬ Fills s.buddy.freeBlocks c

theorem reachable_covers {s : Frames} (h : Reachable b keepsFrames s) :
    ∃ lists, Inv b s lists ∧ Covers b.start b.frames (s.allocated ++ blocksOf lists) := by
  apply Reach.invariant _ _ h
  · rintro s rfl
    obtain ⟨lists, hi, hc, -⟩ := inv_init b
    exact ⟨lists, hi, hc⟩
  rintro s a t ⟨lists, hi, hc⟩ hok hs
  obtain ⟨lists', hi', hkeep, -⟩ := step_inv hi hs
  refine ⟨lists', hi', hkeep ?_ hc⟩
  rintro c rfl
  rw [← hi.freeBlocks]
  exact hok

/-- **No frame gets lost** in a run without such frees: every managed frame is
in a block on a list or in a block a caller holds. Once nothing is held, the
lists count as many frames as right after `init`. -/
theorem frames_covered {b : Boot} {s : Frames} (h : Reachable b keepsFrames s) :
    Covers b.start b.frames (s.allocated ++ s.buddy.freeBlocks) ∧
      (s.allocated = [] → s.buddy.available = (init b).available) := by
  obtain ⟨lists, hi, hc⟩ := reachable_covers h
  obtain ⟨lists₀, hi₀, hc₀, -⟩ := inv_init b
  rw [hi.freeBlocks]
  refine ⟨hc, fun hnil => ?_⟩
  have hf := hi.family
  rw [hnil, nil_append] at hf hc
  have h1 : s.buddy.available = _ := hi.book.available
  have h0 : (init b).available = _ := hi₀.book.available
  have hf₀ : Family b.start b.frames (blocksOf lists₀) := hi₀.family
  rw [h1, h0, hf.cells_eq hc, hf₀.cells_eq hc₀]

theorem frames_covered_one : ∃ s, Reachable bootOne keepsFrames s ∧ s.allocated = [] ∧
      s.buddy.available = (init bootOne).available := by
  have halloc : ((Frames.init bootOne).step (.alloc 0)).map (fun s => (s.allocated,
      s.buddy.freeBlocks.all fun d => d.order != buddyMaxOrder)) = some ([⟨7168, 0⟩], true) := by
    decide +kernel
  have hfree : (run Frames.step (.init bootOne) [.alloc 0, .free ⟨7168, 0⟩]).map
      Frames.allocated = some [] := by decide +kernel
  obtain ⟨s, hs, ha⟩ := run_of_map halloc
  obtain ⟨t, ht, hnil⟩ := run_of_map hfree
  simp only [run, hs, bind_some] at ht
  obtain ⟨u, hu, htu⟩ := bind_eq_some_iff.mp ht
  cases htu
  have hok : keepsFrames s (.free ⟨7168, 0⟩) := by
    rintro ⟨j, _, _, hbud, _⟩
    have := List.all_eq_true.mp (Prod.mk.inj ha).2 _ hbud
    simp at this
  have h0 : Reachable bootOne keepsFrames (.init bootOne) := .init rfl
  have h1 : Reachable bootOne keepsFrames s := h0.step (a := .alloc 0) trivial hs
  have hr : Reachable bootOne keepsFrames t := h1.step hok hu
  exact ⟨t, hr, hnil, (frames_covered hr).2 hnil⟩

/-- Memory of 32 MiB whose last 8 MiB, one pair of largest blocks, go to the
allocator. -/
def bootPair : Boot where
  memSize := 0x2000000
  placement := 0xC1700000
  junk := ⟨id, id⟩
  memSize_min := by decide
  memSize_lt := by decide
  placement_min := by decide
  placement_lt := by decide

/-- Allocating one block of the largest order and freeing it again loses it. -/
theorem top_block_lost : ¬ ∀ (b : Boot) (s : Frames), Reachable b always s →
      Covers b.start b.frames (s.allocated ++ s.buddy.freeBlocks) ∧
        (s.allocated = [] → s.buddy.available = (init b).available) := by
  intro h
  have hrun : (run Frames.step (.init bootPair) [.alloc 10, .free ⟨7168, 10⟩]).map
      (fun s => s.allocated ++ s.buddy.freeBlocks) = some [⟨6144, 10⟩] := by decide +kernel
  obtain ⟨s, hs, hb⟩ := run_of_map hrun
  have hr : Reachable bootPair always s := Reach.run (.init rfl) hs
  obtain ⟨d, hd, hm⟩ := (h bootPair s hr).1 7168 (by decide +kernel) (by decide +kernel)
  rw [hb, mem_singleton] at hd
  subst hd
  exact absurd hm (by decide)

end Sysint.Paging
