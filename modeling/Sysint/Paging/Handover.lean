import Sysint.Paging.BuddyRun

/-! The memory that `kmalloc` hands out before the heap is online, from the end of the kernel
image on, next to the frames that `paging::init` gives to the allocator. -/
namespace Sysint.Paging

open Dyadic

/-- Memory that `kmalloc` has handed out. -/
structure Chunk where
  addr : Nat
  size : Nat
  deriving DecidableEq

/-- `placement_addr`, and the memory handed out so far. -/
structure Placement where
  addr : Nat
  chunks : List Chunk

namespace Placement

/-- `kmalloc` before the heap is online. -/
def kmalloc (s : Placement) (sz : Nat) (align : Bool) : Placement :=
  let p := if align then alignAddr s.addr else s.addr
  ⟨u32 (p + sz), ⟨p, sz⟩ :: s.chunks⟩

/-- `new bitmap(count)`: the object, and its words if there are any. -/
def newBitmap (s : Placement) (count : Nat) : Placement :=
  let s := s.kmalloc 16 false
  let sz := (count + 31) >>> 5
  if sz = 0 then s else s.kmalloc (4 * sz) false

/-- The bitmaps of `n` orders from order `i` on. -/
def newBitmaps (frames : Nat) : Nat → Nat → Placement → Placement
  | 0, _, s => s
  | n + 1, i, s => newBitmaps frames n (i + 1) (s.newBitmap (frames >>> i))

def newTables : Nat → Placement → Placement
  | 0, s => s
  | n + 1, s => newTables n (s.kmalloc 4096 true)

/-- The constructors of the global objects, which `_init` runs before `kmain`: each `new` in them
takes memory of its size. -/
def runConstructors : List Nat → Placement → Placement
  | [], s => s
  | sz :: news, s => runConstructors news (s.kmalloc sz false)

/-- `_init`, and `paging::init` up to the blocks: the entries of the frames, the bitmaps, and the
tables of the kernel from `HEAP_BASE` on. -/
def initTables (kernelEnd : Nat) (news : List Nat) (memSize : Nat) : Placement :=
  let frames := memSize >>> pageShift
  let s := (runConstructors news ⟨kernelEnd, []⟩).kmalloc (12 * frames) false
  newTables (0x400 - 0x340) (newBitmaps frames (buddyMaxOrder + 1) 0 s)

/-- `kernel_page_dir.clone()`: the directory, and the table of the kernel stack. -/
def cloneDir (s : Placement) : Placement := (s.kmalloc 8196 true).kmalloc 4096 true

end Placement

/-- All that is handed out before the heap is online. -/
def placed (kernelEnd : Nat) (news : List Nat) (memSize : Nat) : Placement :=
  (Placement.initTables kernelEnd news memSize).cloneDir

/-! ## How much is handed out -/

variable {s : Placement} {lo : Nat}

/-- The memory handed out lies between `lo` and the placement address. -/
structure Placement.From (lo : Nat) (s : Placement) : Prop where
  le : lo ≤ s.addr
  chunks : ∀ c ∈ s.chunks, lo ≤ c.addr ∧ c.addr + c.size ≤ s.addr

theorem Placement.kmalloc_spec (h : s.From lo) (sz : Nat) (hfit : s.addr + sz < 2 ^ 32) :
    (s.kmalloc sz false).From lo ∧ (s.kmalloc sz false).addr = s.addr + sz := by
  have haddr : (s.kmalloc sz false).addr = s.addr + sz := u32_of_lt hfit
  refine ⟨⟨?_, ?_⟩, haddr⟩
  · rw [haddr]
    exact Nat.le_trans h.le (Nat.le_add_right _ _)
  intro c hc
  rw [haddr]
  rcases List.mem_cons.mp hc with rfl | hc
  · exact ⟨h.le, Nat.le_refl _⟩
  · have := h.chunks c hc
    omega

theorem Placement.kmalloc_aligned (h : s.From lo) (sz : Nat)
    (hfit : (s.addr + 4095) / 4096 * 4096 + sz < 2 ^ 32) : (s.kmalloc sz true).From lo ∧
      (s.kmalloc sz true).addr = (s.addr + 4095) / 4096 * 4096 + sz ∧
      (s.kmalloc sz true).chunks = ⟨(s.addr + 4095) / 4096 * 4096, sz⟩ :: s.chunks := by
  have halign : alignAddr s.addr = (s.addr + 4095) / 4096 * 4096 := by
    have hlt : s.addr < 2 ^ 32 := by omega
    have hup : (s.addr + 4095) / 4096 * 4096 < 2 ^ 32 :=
      Nat.lt_of_le_of_lt (Nat.le_add_right _ sz) hfit
    rw [alignAddr_eq hlt, u32_of_lt hup]
  have haddr : (s.kmalloc sz true).addr = (s.addr + 4095) / 4096 * 4096 + sz := by
    simp only [Placement.kmalloc, ↓reduceIte, halign]
    exact u32_of_lt hfit
  have hchunks : (s.kmalloc sz true).chunks =
      ⟨(s.addr + 4095) / 4096 * 4096, sz⟩ :: s.chunks := by
    simp [Placement.kmalloc, halign]
  have hle := h.le
  refine ⟨⟨by omega, ?_⟩, haddr, hchunks⟩
  intro c hc
  rw [hchunks] at hc
  rw [haddr]
  rcases List.mem_cons.mp hc with rfl | hc
  · simp only [Nat.le_refl, and_true]
    omega
  · have := h.chunks c hc
    omega

theorem Placement.runConstructors_spec (news : List Nat) (h : s.From lo)
    (hfit : s.addr + news.sum < 2 ^ 32) :
    (runConstructors news s).From lo ∧ (runConstructors news s).addr = s.addr + news.sum := by
  induction news generalizing s with
  | nil => exact ⟨h, rfl⟩
  | cons sz news ih =>
    rw [List.sum_cons] at hfit ⊢
    obtain ⟨h₁, ha₁⟩ := kmalloc_spec h sz (by omega)
    obtain ⟨h₂, ha₂⟩ := ih h₁ (by omega)
    exact ⟨h₂, by rw [runConstructors, ha₂, ha₁, Nat.add_assoc]⟩

/-- The bytes of the bitmaps. -/
def bitmapBytes (frames : Nat) : Nat → Nat → Nat
  | 0, _ => 0
  | n + 1, i => 16 + 4 * ((frames >>> i + 31) >>> 5) + bitmapBytes frames n (i + 1)

theorem Placement.newBitmap_spec (h : s.From lo) (count : Nat)
    (hfit : s.addr + (16 + 4 * ((count + 31) >>> 5)) < 2 ^ 32) : (s.newBitmap count).From lo ∧
      (s.newBitmap count).addr = s.addr + (16 + 4 * ((count + 31) >>> 5)) := by
  obtain ⟨h₁, ha₁⟩ := kmalloc_spec h 16 (by omega)
  unfold Placement.newBitmap
  dsimp only
  split
  · rename_i hzero
    rw [hzero]
    exact ⟨h₁, ha₁⟩
  · obtain ⟨h₂, ha₂⟩ := kmalloc_spec h₁ (4 * ((count + 31) >>> 5)) (by omega)
    exact ⟨h₂, by omega⟩

theorem Placement.newBitmaps_spec (frames n i : Nat) (h : s.From lo)
    (hfit : s.addr + bitmapBytes frames n i < 2 ^ 32) : (newBitmaps frames n i s).From lo ∧
      (newBitmaps frames n i s).addr = s.addr + bitmapBytes frames n i := by
  induction n generalizing i s with
  | zero => exact ⟨h, rfl⟩
  | succ n ih =>
    rw [bitmapBytes] at hfit ⊢
    obtain ⟨h₁, ha₁⟩ := newBitmap_spec h (frames >>> i) (by omega)
    obtain ⟨h₂, ha₂⟩ := ih (i + 1) h₁ (by omega)
    exact ⟨h₂, by rw [newBitmaps, ha₂, ha₁, Nat.add_assoc]⟩

theorem Placement.newTables_spec (n : Nat) (h : s.From lo)
    (hfit : (s.addr + 4095) / 4096 * 4096 + (n + 1) * 4096 < 2 ^ 32) :
    (newTables (n + 1) s).From lo ∧
      (newTables (n + 1) s).addr = (s.addr + 4095) / 4096 * 4096 + (n + 1) * 4096 := by
  induction n generalizing s with
  | zero =>
    rw [Nat.zero_add, Nat.one_mul] at *
    obtain ⟨h₁, ha₁, -⟩ := kmalloc_aligned h 4096 hfit
    exact ⟨h₁, ha₁⟩
  | succ n ih =>
    have hone : (s.addr + 4095) / 4096 * 4096 + 4096 < 2 ^ 32 :=
      Nat.lt_of_le_of_lt (Nat.add_le_add_left (by omega) _) hfit
    obtain ⟨h₁, ha₁, -⟩ := kmalloc_aligned h 4096 hone
    have hnext : ((s.kmalloc 4096 true).addr + 4095) / 4096 * 4096 + (n + 1) * 4096 =
        (s.addr + 4095) / 4096 * 4096 + (n + 1 + 1) * 4096 := by
      rw [ha₁]
      omega
    rw [← hnext] at hfit ⊢
    rw [newTables]
    exact ih h₁ hfit

/-- Where the placement address stands when the blocks are made, if it stands at `start` when
`paging::init` is called. -/
def tablesEnd (start memSize : Nat) : Nat :=
  (start + 12 * (memSize >>> pageShift) +
    bitmapBytes (memSize >>> pageShift) (buddyMaxOrder + 1) 0 + 4095) / 4096 * 4096 + 192 * 4096

variable {kernelEnd memSize : Nat} {news : List Nat}

theorem Placement.initTables_spec (hfit : tablesEnd (kernelEnd + news.sum) memSize < 2 ^ 32) :
    (initTables kernelEnd news memSize).From kernelEnd ∧
      (initTables kernelEnd news memSize).addr = tablesEnd (kernelEnd + news.sum) memSize := by
  unfold tablesEnd at *
  have hnone : Placement.From kernelEnd ⟨kernelEnd, []⟩ :=
    ⟨Nat.le_refl _, fun c hc => absurd hc List.not_mem_nil⟩
  obtain ⟨h₀, ha₀⟩ := runConstructors_spec news hnone (by simp only; omega)
  simp only at ha₀
  obtain ⟨h₁, ha₁⟩ := kmalloc_spec h₀ (12 * (memSize >>> pageShift)) (by omega)
  obtain ⟨h₂, ha₂⟩ := newBitmaps_spec (memSize >>> pageShift) (buddyMaxOrder + 1) 0 h₁ (by omega)
  obtain ⟨h₃, ha₃⟩ := newTables_spec 191 h₂ (by rw [ha₂, ha₁, ha₀]; omega)
  refine ⟨h₃, ?_⟩
  rw [ha₂, ha₁, ha₀] at ha₃
  exact ha₃

theorem tablesEnd_mod (start memSize : Nat) : tablesEnd start memSize % 4096 = 0 := by
  unfold tablesEnd
  omega

theorem roundUp_of_mod {n : Nat} (h : n % 4096 = 0) : (n + 4095) / 4096 * 4096 = n := by
  omega

/-- The directory of the clone takes three pages behind the tables, and its table one. -/
theorem Placement.cloneDir_spec (h : s.From lo) (hpage : s.addr % 4096 = 0)
    (hfit : s.addr + 0x4000 < 2 ^ 32) : s.cloneDir.From lo ∧ s.cloneDir.addr = s.addr + 0x4000 ∧
      ⟨s.addr, 8196⟩ ∈ s.cloneDir.chunks ∧ ⟨s.addr + 0x3000, 4096⟩ ∈ s.cloneDir.chunks := by
  have htable : (s.addr + 8196 + 4095) / 4096 * 4096 = s.addr + 0x3000 := by omega
  obtain ⟨h₁, ha₁, hc₁⟩ := kmalloc_aligned h 8196 (by omega)
  obtain ⟨h₂, ha₂, hc₂⟩ := kmalloc_aligned h₁ 4096 (by omega)
  rw [roundUp_of_mod hpage] at ha₁ hc₁
  rw [ha₁, htable] at ha₂ hc₂
  rw [cloneDir, hc₂, hc₁]
  refine ⟨h₂, ?_, List.mem_cons_of_mem _ List.mem_cons_self, List.mem_cons_self⟩
  rw [ha₂, Nat.add_assoc]

/-! ## Next to the free lists -/

/-- Nothing that `kmalloc` hands out before the heap is online lies in a frame on a free list. -/
def HandedApart (kernelEnd : Nat) (news : List Nat) (b : Boot) : Prop :=
  ∀ c ∈ (placed kernelEnd news b.memSize).chunks, ∀ x, c.addr ≤ x → x < c.addr + c.size →
    ∀ f ∈ (init b).freeBlocks, ¬ f.Mem (sub32 x kernelVirtualBase >>> pageShift)

/-- The four pages of the clone fit between the end `top` of the tables and the next boundary of
4 MiB, or no frame lies behind that boundary. -/
def Room (top frames : Nat) : Prop :=
  top % 0x400000 ≠ 0 ∧ top % 0x400000 + 0x4000 ≤ 0x400000 ∨
    frames ≤ ((top + 0x3FFFFF) / 0x400000 * 0x400000 - kernelVirtualBase) / 4096

theorem init_inside (b : Boot) {c : Block} (hc : c ∈ (init b).freeBlocks) :
    b.start ≤ c.idx ∧ c.idx + 2 ^ c.order ≤ b.frames := by
  obtain ⟨lists, hi, -⟩ := inv_init b
  have hfree : (init b).freeBlocks = blocksOf lists := hi.freeBlocks
  rw [hfree] at hc
  exact hi.family.inside c (List.mem_append_right _ hc)

theorem init_covers (b : Boot) : Covers b.start b.frames (init b).freeBlocks := by
  obtain ⟨lists, hi, hcovers, -⟩ := inv_init b
  have hfree : (init b).freeBlocks = blocksOf lists := hi.freeBlocks
  rw [hfree]
  exact hcovers

theorem start_eq (b : Boot) :
    b.start = ((b.placement + 0x3FFFFF) / 0x400000 * 0x400000 - kernelVirtualBase) / 4096 := by
  have hlt := b.placement_lt
  have hmin := b.placement_min
  unfold kernelVirtualBase at *
  rw [Boot.start, alignAddr4m_eq hlt, Nat.shiftRight_eq_div_pow]
  simp only [pageShift, sub32, u32, kernelVirtualBase]
  omega

theorem frame_of_addr {x : Nat} (hlo : kernelVirtualBase ≤ x) (hhi : x < 2 ^ 32) :
    sub32 x kernelVirtualBase >>> pageShift = (x - kernelVirtualBase) / 4096 := by
  rw [sub32_of_le hhi hlo, Nat.shiftRight_eq_div_pow]
  rfl

/-- **The handover keeps apart** exactly if the clone of the kernel's directory has room below the
boundary, wherever the constructors of the global objects have left the placement address. -/
theorem handover_apart {kernelEnd : Nat} {news : List Nat} {b : Boot}
    (hplace : b.placement = (Placement.initTables kernelEnd news b.memSize).addr)
    (hend : kernelVirtualBase + 0x100000 ≤ kernelEnd)
    (hfit : tablesEnd (kernelEnd + news.sum) b.memSize + 0x4000 < 2 ^ 32) :
    HandedApart kernelEnd news b ↔ Room (tablesEnd (kernelEnd + news.sum) b.memSize) b.frames := by
  obtain ⟨hinit, htop⟩ := Placement.initTables_spec (Nat.lt_of_le_of_lt (Nat.le_add_right _ _) hfit)
  have hpage := tablesEnd_mod (kernelEnd + news.sum) b.memSize
  have hle : kernelEnd ≤ tablesEnd (kernelEnd + news.sum) b.memSize := by
    unfold tablesEnd
    omega
  rw [← htop] at hpage hle hfit ⊢
  obtain ⟨hfrom, haddr, hdir, htable⟩ := Placement.cloneDir_spec hinit hpage hfit
  have hbase : kernelVirtualBase ≤ kernelEnd := Nat.le_trans (Nat.le_add_right _ _) hend
  have hstart := start_eq b
  rw [hplace] at hstart
  unfold Room
  rw [← hstart]
  unfold HandedApart placed
  generalize Placement.initTables kernelEnd news b.memSize = s at *
  constructor
  · -- without room the byte at the boundary is handed out, and its frame is the first free one
    intro hapart
    by_contra hroom
    obtain ⟨f, hf, hmem⟩ := init_covers b b.start (Nat.le_refl _) (by omega)
    have hbyte : ∃ c ∈ s.cloneDir.chunks, c.addr ≤ (s.addr + 0x3FFFFF) / 0x400000 * 0x400000 ∧
        (s.addr + 0x3FFFFF) / 0x400000 * 0x400000 < c.addr + c.size := by
      by_cases hthree : s.addr % 0x400000 = 0x3FD000
      · exact ⟨_, htable, by simp only; omega, by simp only; omega⟩
      · exact ⟨_, hdir, by simp only; omega, by simp only; omega⟩
    obtain ⟨c, hc, hlo, hhi⟩ := hbyte
    refine hapart c hc _ hlo hhi f hf ?_
    rwa [frame_of_addr (hbase.trans (by omega)) (by omega), ← hstart]
  · intro hroom c hc x hlo hhi f hf hmem
    obtain ⟨h1, h2⟩ := hfrom.chunks c hc
    obtain ⟨hin1, hin2⟩ := init_inside b hf
    rw [haddr] at h2
    rw [frame_of_addr (hbase.trans (h1.trans hlo)) (by omega)] at hmem
    obtain ⟨hm1, hm2⟩ := hmem
    have hpos := Nat.two_pow_pos f.order
    unfold kernelVirtualBase at *
    rcases hroom with hfits | hsmall
    · omega
    · omega

/-- Memory of 32 MiB whose tables end at `placement`. -/
def boot32 (placement : Nat)
    (h : 1 <<< 25 ≤ 0x2000000 ∧ 0x2000000 < 2 ^ 32 ∧
      kernelVirtualBase + 0x100000 ≤ placement ∧ placement < 2 ^ 32) : Boot where
  memSize := 0x2000000
  placement := placement
  junk := ⟨id, id⟩
  memSize_min := h.1
  memSize_lt := h.2.1
  placement_min := h.2.2.1
  placement_lt := h.2.2.2

/-- What the sentinels of `proc_list`, `run_queue` and `sleep_queue` and `devfs_sb` take. -/
def sampleNews : List Nat := [24, 24, 32, 104]

/-- Under a kernel that ends at `0xC0200000`. -/
def bootNear : Boot := boot32 0xC02D9000 (by decide)

theorem handover_apart_sample :
    Room (tablesEnd (0xC0200000 + sampleNews.sum) bootNear.memSize) bootNear.frames ∧
      HandedApart 0xC0200000 sampleNews bootNear :=
  have hroom : Room (tablesEnd (0xC0200000 + sampleNews.sum) bootNear.memSize) bootNear.frames :=
    Or.inl ⟨by decide +kernel, by decide +kernel⟩
  ⟨hroom, (handover_apart (by decide +kernel) (by decide) (by decide +kernel)).mpr hroom⟩

/-- Under a kernel whose tables end at the boundary itself. -/
def bootFlush : Boot := boot32 0xC0400000 (by decide)

/-- The rounding leaves no room, and the directory of the clone lies in the first free frame. -/
theorem handover_overlaps :
    bootFlush.placement = (Placement.initTables 0xC0327000 sampleNews bootFlush.memSize).addr ∧
      (⟨0xC0400000, 8196⟩ : Chunk) ∈ (placed 0xC0327000 sampleNews bootFlush.memSize).chunks ∧
      ∃ f ∈ (init bootFlush).freeBlocks, f.Mem (sub32 0xC0400000 kernelVirtualBase >>> pageShift) :=
  ⟨by decide +kernel, by decide +kernel, ⟨1024, 10⟩, by decide +kernel, by decide +kernel⟩

end Sysint.Paging
