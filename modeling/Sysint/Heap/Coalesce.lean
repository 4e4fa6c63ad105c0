import Sysint.Heap.Run

/-! What `heap::free` leaves behind: unused blocks are merged with their neighbours, and what
was freed cannot be freed again. -/
namespace Sysint.Heap
open Tiling Dlink Option
open Machine

variable {nil : Sentinel} {s : Run} {bs : List Blk} {free : List Nat}

/-! ## Complete merging -/

/-- Unused blocks that are apart and fill an interval are one block. -/
theorem Parted.single {a e : Nat} (hp : Parted bs) (ht : Fills a bs e) (hlt : a < e)
    (hu : ∀ b ∈ bs, b.used = false) : ∃ b, bs = [b] ∧ b.h = a ∧ b.fin = e := by
  match bs, ht with
  | [], ht =>
    have ht : a = e := ht
    omega
  | [b], ⟨hh, hfin⟩ => exact ⟨b, rfl, hh, by rw [Blk.fin, hh]; exact hfin⟩
  | b :: c :: _, _ =>
    rcases hp.rel with hb | hc
    · simp [hu b (by simp)] at hb
    · simp [hu c (by simp)] at hc

/-- **Merging is complete.** In every state of every run no two neighbours are both unused;
once nothing is live the heap is one unused block. -/
theorem heap_coalesced (nil : Sentinel) {s : Run} (h : Reachable nil.addr s) :
    ∃ bs free, WellFormed nil.addr s.heap bs free ∧
      bs.IsChain (fun b c => b.used = true ∨ c.used = true) ∧
      (s.live = [] → ∃ b, bs = [b] ∧ b.h = heapBase ∧ b.fin = s.heap.heapEnd ∧ b.used = false) := by
  obtain ⟨bs, free, R⟩ := reachable_inv h
  refine ⟨bs, free, R.toInv.wellFormed, R.parted, fun hlive => ?_⟩
  have hunused (b : Blk) (hb : b ∈ bs) : b.used = false := by
    by_contra hu
    have hm : b.h + headerSize ∈ s.live.map Live.ptr := by
      rw [R.held.mem_iff]
      have hu : b.used = true := by simpa using hu
      exact List.mem_map.mpr ⟨b, List.mem_filter.mpr ⟨hb, hu⟩, rfl⟩
    simp [hlive] at hm
  have hlt : heapBase < s.heap.heapEnd := by
    have := R.ends.init
    have : heapInitSize = 0x100000 := rfl
    omega
  obtain ⟨b, rfl, hh, hfin⟩ := R.parted.single R.tiles hlt hunused
  exact ⟨b, rfl, hh, hfin, hunused b (by simp)⟩

/-- Three blocks, freed in an order that needs both merges. -/
def freeAllOps : List Op :=
  [.alloc 100 false fun _ => 0, .alloc 0x2000 true fun _ => 0, .alloc 0x180000 false fun _ => 1,
    .free 0xD0000014, .free 0xD000301C, .free 0xD0001000]

theorem heap_coalesced_sample : ∃ s, Reachable dataWord.addr s ∧ s.live = [] ∧
    ∃ b free, WellFormed dataWord.addr s.heap [b] free ∧ b.h = heapBase ∧
      b.fin = s.heap.heapEnd := by
  have hrun : ((init dataWord.addr fun _ => 5).bind fun k =>
      run (guarded (Run.step dataWord.addr) (sizesFit dataWord.addr)) ⟨k, []⟩
        freeAllOps).map Run.live = some [] := by
    decide +kernel
  obtain ⟨s, hs, hlive⟩ := run_of_map hrun
  obtain ⟨k, hk, hr⟩ := bind_eq_some_iff.mp hs
  have h0 : Reachable dataWord.addr ⟨k, []⟩ := .init ⟨_, hk, rfl⟩
  have h := h0.runGuarded hr
  obtain ⟨bs, free, hwf, -, hone⟩ := heap_coalesced dataWord h
  obtain ⟨b, rfl, hh, hfin, -⟩ := hone hlive
  exact ⟨s, h, hlive, b, free, hwf, hh, hfin⟩

/-! ## Double frees -/

/-- **An immediate double free is caught.** After `free` of a live payload has returned, the
checks of a second `free` fail, which come before anything is written. -/
theorem double_free_caught (nil : Sentinel) {s : Run} (h : Reachable nil.addr s) {p : Nat}
    {k : Kheap}
    (hp : p ∈ s.live.map Live.ptr) (hf : Heap.free nil.addr s.heap p = some k) :
    checkBlock k p = false ∧ Heap.free nil.addr k p = none := by
  obtain ⟨bs, free, R⟩ := reachable_inv h
  have hs : s.step nil.addr (.free p) = some ⟨k, s.live.filter (·.ptr ≠ p)⟩ := by
    simp only [Run.step, if_pos hp, hf, map_some]
  obtain ⟨-, -, -, -, hc, -⟩ := R.freed hs
  have hc : checkBlock k p = false := hc
  exact ⟨hc, by simp [Heap.free, hc]⟩

theorem double_free_caught_sample : ∃ s k, sampleRun = some s ∧
    Heap.free dataWord.addr s.heap 0xD0003020 = some k ∧
    Heap.free dataWord.addr k 0xD0003020 = none := by
  have hrun : sampleRun.map (fun s => (s.live.map Live.ptr,
      (Heap.free dataWord.addr s.heap 0xD0003020).isSome)) =
        some ([0xD0003020, 0xD0001000], true) := by
    decide +kernel
  obtain ⟨s, hs, hv⟩ := run_of_map hrun
  obtain ⟨hlive, hsome⟩ := Prod.mk.inj hv
  obtain ⟨k, hk⟩ := isSome_iff_exists.mp hsome
  exact ⟨s, k, hs, hk, (double_free_caught dataWord (sampleRun_reachable hs)
    (by simp [hlive]) hk).2⟩

/-- A request whose size wraps gets a block without payload, so its owner's words include the
records of the blocks behind it. Here it leads the list of unused blocks to a node whose `prev`
field is the flag `used` of the second block. -/
def wrappedOps : List Op :=
  [.alloc 0xFFFFFFFF false fun _ => 0, .alloc 100 false fun _ => 0, .alloc 100 false fun _ => 0,
    .write 0xD0000124 0xD0001000, .write 0xD000100C 0xD0000024]

/-- After a request whose size wraps a second `free` can go through: `insert_list` writes over
the flag that `free` has just cleared. -/
theorem double_free_missed : ∃ s k t, Reach
      (fun s => ∃ junk, init dataWord.addr junk = some s.heap ∧ s.live = [])
      (Run.step dataWord.addr) always s ∧
    0xD0000030 ∈ s.live.map Live.ptr ∧ Heap.free dataWord.addr s.heap 0xD0000030 = some k ∧
    Heap.free dataWord.addr k 0xD0000030 = some t := by
  have hrun : ((init dataWord.addr fun _ => 5).bind fun k =>
      run (Run.step dataWord.addr) ⟨k, []⟩ wrappedOps).map (fun s =>
        (decide (0xD0000030 ∈ s.live.map Live.ptr),
          ((Heap.free dataWord.addr s.heap 0xD0000030).bind fun k =>
            Heap.free dataWord.addr k 0xD0000030).isSome)) = some (true, true) := by
    decide +kernel
  obtain ⟨s, hs, hv⟩ := run_of_map hrun
  obtain ⟨k, hk, hr⟩ := bind_eq_some_iff.mp hs
  obtain ⟨hlive, hsome⟩ := Prod.mk.inj hv
  obtain ⟨t, ht⟩ := isSome_iff_exists.mp hsome
  obtain ⟨k', hk', ht⟩ := bind_eq_some_iff.mp ht
  exact ⟨s, k', t, Reach.run (.init ⟨_, hk, rfl⟩) hr, of_decide_eq_true hlive, hk', ht⟩

end Sysint.Heap
