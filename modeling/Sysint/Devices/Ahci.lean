import Sysint.Lib.Tiling

/-! `ahci_driver::transfer` of `kernel/devices/ahci.cpp`. Numbers are natural
numbers, reduced where a variable is narrower; the fields of the command have their
own width. -/
namespace Sysint.Devices.Ahci
open List BitVec
open Tiling (Tiles)

def ebusy : Int := 16

def eio : Int := 5

def numCmdSlots : Nat := 32

def numPrdtEntries : Nat := 8

/-- `prdt_entry::MAX_SIZE`. -/
def maxSize : Nat := 2 ^ 22 - 1

def sectorSize : Nat := 512

def maxSectors : Nat := maxSize / sectorSize

theorem maxSectors_eq : maxSectors = 8191 := by decide

/-- `sizeof(fis_reg_h2d)`. -/
def sizeofFisRegH2d : Nat := 20

def fisTypeRegH2d : BitVec 8 := 0x27

def ataCmdReadDmaEx : BitVec 8 := 0x25

def ataCmdWriteDmaEx : BitVec 8 := 0x35

structure PrdtEntry where
  dataBase : BitVec 64
  size : BitVec 22
  intOnComplete : Bool

/-- A command as the device gets it: the fields that `transfer` sets in its header,
its FIS and its table. The entries behind `prdt` are zero. -/
structure Command where
  cfl : BitVec 5
  write : Bool
  prefetch : Bool
  clearROk : Bool
  prdtEntries : BitVec 16
  fisType : BitVec 8
  cmd : Bool
  command : BitVec 8
  lbal : BitVec 24
  lbah : BitVec 24
  device : BitVec 8
  count : BitVec 16
  prdt : List PrdtEntry

/-- What the device does when it gets a command. -/
inductive Reply where
  /-- It stays busy for `MAX_CYCLES` polls before the command is issued. -/
  | hung
  | done
  /-- It reports a read or write error. -/
  | error
  /-- It never clears `command_issue`. -/
  | stuck
  deriving DecidableEq

/-- `find_slot`, with `sata_active | command_issue`. -/
def findSlot (slots : BitVec 32) : Option Nat :=
  (List.range numCmdSlots).find? fun i => !slots.getLsbD i

/-- What the inner loop leaves: the entries and `nblks`, `buf` and `total_sects`. -/
structure Fill where
  prdt : List PrdtEntry
  nblks : Nat
  buf : Nat
  totalSects : Nat

/-- The inner loop with room for some entries. The compiler extends the sign of a pointer that is
converted to 64 bits. -/
def fillPrdt : Nat → Nat → Nat → Fill
  | 0, nblks, buf => ⟨[], nblks, buf, 0⟩
  | room + 1, nblks, buf =>
    if nblks > 0 then
      let nsects := min nblks maxSectors
      let sz := nsects * sectorSize % 2 ^ 32
      let f := fillPrdt room (nblks - nsects) ((buf + sz) % 2 ^ 32)
      { f with
        prdt := ⟨(BitVec.ofNat 32 buf).signExtend 64, BitVec.ofNat 22 sz, true⟩ :: f.prdt
        totalSects := (nsects + f.totalSects) % 2 ^ 32 }
    else ⟨[], nblks, buf, 0⟩

def command (write : Bool) (blk : Nat) (f : Fill) : Command where
  cfl := BitVec.ofNat 5 (sizeofFisRegH2d / 4)
  write := write
  prefetch := true
  clearROk := true
  prdtEntries := BitVec.ofNat 16 f.prdt.length
  fisType := fisTypeRegH2d
  cmd := true
  command := if write then ataCmdWriteDmaEx else ataCmdReadDmaEx
  lbal := BitVec.ofNat 24 blk
  lbah := BitVec.ofNat 24 (blk >>> 24)
  device := 0xE0
  count := BitVec.ofNat 16 f.totalSects
  prdt := f.prdt

variable {nblks : Nat}

theorem fillPrdt_nblks_lt (room buf : Nat) (h : nblks > 0) :
    (fillPrdt (room + 1) nblks buf).nblks < nblks := by
  have hle (room nblks buf : Nat) : (fillPrdt room nblks buf).nblks ≤ nblks := by
    induction room generalizing nblks buf with
    | zero => exact Nat.le_refl _
    | succ room ih =>
      rw [fillPrdt]
      split
      · exact Nat.le_trans (ih _ _) (Nat.sub_le _ _)
      · exact Nat.le_refl _
  rw [fillPrdt, if_pos h]
  refine Nat.lt_of_le_of_lt (hle _ _ _) ?_
  have : 0 < maxSectors := by decide
  omega

/-- The outer loop of `transfer` from the command `i` of the call on, with the
commands that it issues. -/
def transferLoop (reply : Nat → Reply) (write : Bool) (i blk nblks buf : Nat) :
    Option (List Command × Int) :=
  if h : nblks > 0 then
    let f := fillPrdt numPrdtEntries nblks buf
    match reply i with
    | .hung => some ([], -eio)
    | .error => some ([command write blk f], -eio)
    | .stuck => none
    | .done =>
      have : f.nblks < nblks := fillPrdt_nblks_lt _ buf h
      (transferLoop reply write (i + 1) ((blk + f.totalSects) % 2 ^ 64) f.nblks f.buf).map
        fun r => (command write blk f :: r.1, r.2)
  else some ([], 0)
termination_by nblks

/-- `transfer`; `none` if it does not return. -/
def transfer (reply : Nat → Reply) (slots : BitVec 32) (blk nblks buf : Nat) (write : Bool) :
    Option (List Command × Int) :=
  match findSlot slots with
  | none => some ([], -ebusy)
  | some _ => transferLoop reply write 0 blk nblks buf

/-! ## What the commands cover -/

/-- The address of the piece. -/
def PrdtEntry.address (e : PrdtEntry) : Nat := e.dataBase.toNat

/-- The lower half of it, which is the pointer. -/
def PrdtEntry.pointer (e : PrdtEntry) : Nat := e.address % 2 ^ 32

/-- What becomes of a pointer. -/
def extended (p : Nat) : Nat := if p < 2 ^ 31 then p else p + (2 ^ 64 - 2 ^ 32)

theorem toNat_extended {p : Nat} (h : p < 2 ^ 32) :
    ((BitVec.ofNat 32 p).signExtend 64).toNat = extended p := by
  have hp : (BitVec.ofNat 32 p).toNat = p := Nat.mod_eq_of_lt h
  rw [toNat_signExtend, toNat_setWidth, msb_eq_decide, hp, extended]
  simp only [decide_eq_true_eq]
  split_ifs <;> omega

/-- The first block of a command. -/
def Command.lba (c : Command) : Nat := c.lbal.toNat + c.lbah.toNat * 2 ^ 24

/-- The entries are announced, and they hold what the command moves. -/
structure Command.Sound (c : Command) : Prop where
  announced : c.prdtEntries.toNat = c.prdt.length
  entries : 1 ≤ c.prdtEntries.toNat ∧ c.prdtEntries.toNat ≤ numPrdtEntries
  count : 0 < c.count.toNat
  sizes : (c.prdt.map fun e => e.size.toNat).sum = sectorSize * c.count.toNat
  pieces : ∀ e ∈ c.prdt, 0 < e.size.toNat

/-- A piece of a buffer of `nblks` sectors at `a` starts at `x`, and there are `room` of them. -/
def Start (room nblks a x : Nat) : Prop :=
  ∃ k < room, maxSectors * k < nblks ∧ x = a + sectorSize * (maxSectors * k)

/-- What the inner loop has done, for a buffer at `a`. -/
structure Filled (room nblks a : Nat) (f : Fill) : Prop where
  total : f.totalSects + f.nblks = nblks
  bound : f.totalSects ≤ room * maxSectors
  buf : f.nblks > 0 → f.buf = a + sectorSize * f.totalSects ∧ f.totalSects = room * maxSectors
  length : f.prdt.length ≤ room
  tiles : Tiles PrdtEntry.pointer (fun e => e.size.toNat) a f.prdt
    (a + sectorSize * f.totalSects)
  pieces : ∀ e ∈ f.prdt, 0 < e.size.toNat ∧ e.address = extended e.pointer
  starts : ∀ x, (∃ e ∈ f.prdt, e.pointer = x) ↔ Start room nblks a x

/-- One more entry, before the others. -/
theorem Filled.cons {room a n : Nat} {f : Fill}
    (h : Filled room (nblks - n) (a + sectorSize * n) f) (hpos : 0 < nblks)
    (hn : n = min nblks maxSectors) (ha : a + sectorSize * nblks ≤ 2 ^ 32) :
    Filled (room + 1) nblks a
      { f with
        prdt := ⟨(BitVec.ofNat 32 a).signExtend 64, BitVec.ofNat 22 (sectorSize * n), true⟩ ::
          f.prdt
        totalSects := (n + f.totalSects) % 2 ^ 32 } := by
  obtain ⟨htotal, hbound, hbuf, hlen, htiles, hpieces, hstarts⟩ := h
  simp only [maxSectors_eq, sectorSize] at *
  have hsum : (n + f.totalSects) % 2 ^ 32 = n + f.totalSects := by omega
  have hsize : (BitVec.ofNat 22 (512 * n)).toNat = 512 * n := by
    rw [toNat_ofNat]
    omega
  have haddr := toNat_extended (p := a) (by omega)
  have hpointer : ((BitVec.ofNat 32 a).signExtend 64).toNat % 2 ^ 32 = a := by
    rw [haddr, extended]
    split_ifs <;> omega
  rw [hsum]
  constructor
  · simp only
    omega
  · simp only [maxSectors_eq]
    omega
  · intro hleft
    have := hbuf hleft
    simp only [maxSectors_eq, sectorSize] at hleft ⊢
    omega
  · simp only [length_cons]
    omega
  · refine ⟨hpointer, ?_⟩
    simp only [hsize, sectorSize, Nat.mul_add]
    rwa [Nat.add_assoc] at htiles
  · intro e he
    obtain rfl | he := mem_cons.mp he
    · refine ⟨by simp only [hsize]; omega, ?_⟩
      rw [PrdtEntry.pointer, PrdtEntry.address, hpointer, haddr]
    · exact hpieces e he
  · intro x
    simp only [mem_cons, or_and_right, exists_or, exists_eq_left, hstarts]
    simp only [Start, PrdtEntry.pointer, PrdtEntry.address, hpointer, maxSectors_eq, sectorSize]
    constructor
    · rintro (rfl | ⟨k, hk⟩)
      · exact ⟨0, by omega⟩
      · exact ⟨k + 1, by omega⟩
    · rintro ⟨_ | k, hk⟩
      · exact .inl (by omega)
      · exact .inr ⟨k, by omega⟩

theorem Filled.empty {room a buf : Nat} (h : nblks = 0 ∨ room = 0)
    (hbuf : nblks > 0 → buf = a) : Filled room nblks a ⟨[], nblks, buf, 0⟩ := by
  refine ⟨Nat.zero_add _, Nat.zero_le _, fun hpos => ⟨hbuf hpos, ?_⟩, Nat.zero_le _, rfl, nofun,
    fun x => ⟨fun ⟨_, he, _⟩ => absurd he not_mem_nil, ?_⟩⟩
  · simp [h.resolve_left (Nat.ne_of_gt hpos)]
  · rintro ⟨k, hk, hlt, -⟩
    omega

/-- The inner loop keeps what it has filled. -/
theorem filled (room : Nat) {a buf : Nat} (ha : a + sectorSize * nblks ≤ 2 ^ 32)
    (hbuf : nblks > 0 → buf = a) : Filled room nblks a (fillPrdt room nblks buf) := by
  induction room generalizing nblks a buf with
  | zero => exact .empty (.inr rfl) hbuf
  | succ room ih =>
    rw [fillPrdt]
    split
    · rename_i hpos
      obtain ⟨n, hn⟩ : ∃ n, n = min nblks maxSectors := ⟨_, rfl⟩
      have hmax := maxSectors_eq
      have hsz : n * sectorSize % 2 ^ 32 = sectorSize * n := by
        rw [sectorSize]
        omega
      -- one entry, and the loop from the next one on
      have hrest : Filled room (nblks - n) (a + sectorSize * n)
          (fillPrdt room (nblks - n) ((buf + sectorSize * n) % 2 ^ 32)) := by
        rw [sectorSize] at ha ⊢
        exact ih (by rw [sectorSize]; omega) (by omega)
      simp only [← hn, hsz]
      generalize fillPrdt room (nblks - n) ((buf + sectorSize * n) % 2 ^ 32) = f at hrest
      rw [hbuf hpos]
      exact hrest.cons hpos hn ha
    · exact .empty (.inl (by omega)) hbuf

section
variable {nblks a blk : Nat} {f : Fill} {write : Bool}

/-- The two halves of 24 bits hold a block number of 48 bits. -/
theorem command_lba (hblk : blk < 2 ^ 48) : (command write blk f).lba = blk := by
  have hlow : (BitVec.ofNat 24 blk).toNat = blk % 2 ^ 24 := toNat_ofNat _ _
  have hhigh : (BitVec.ofNat 24 (blk >>> 24)).toNat = blk / 2 ^ 24 := by
    rw [toNat_ofNat, Nat.shiftRight_eq_div_pow]
    omega
  simp only [Command.lba, command, hlow, hhigh]
  omega

section

variable (h : Filled numPrdtEntries nblks a f)
include h

/-- Eight full entries are 65528 sectors, which 16 bits hold. -/
theorem Filled.count :
    (command write blk f).count.toNat = f.totalSects := by
  have hbound : f.totalSects ≤ 65528 := h.bound
  simp only [command, toNat_ofNat]
  omega

theorem Filled.announced :
    (command write blk f).prdtEntries.toNat = f.prdt.length := by
  have hlen : f.prdt.length ≤ 8 := h.length
  simp only [command, toNat_ofNat]
  omega

theorem Filled.sound (hlt : f.nblks < nblks) :
    (command write blk f).Sound := by
  have htotal := h.total
  have hsum := h.tiles.sum
  have hcount : (command write blk f).count.toNat = f.totalSects := h.count
  have hann : (command write blk f).prdtEntries.toNat = f.prdt.length := h.announced
  constructor
  · exact hann
  · rw [hann]
    refine ⟨?_, h.length⟩
    -- without an entry no sector would be gone
    by_contra hno
    rw [length_eq_zero_iff.mp (by omega : f.prdt.length = 0)] at hsum
    simp only [map_nil, sum_nil, sectorSize] at hsum
    omega
  · omega
  · rw [hcount]
    simp only [command]
    omega
  · exact fun e he => (h.pieces e he).1

end

end

/-- The commands take the blocks from `blk` and the bytes from `a` on, `nblks` sectors, in order;
`addr` is where the bytes of an entry start. -/
structure Covers (addr : PrdtEntry → Nat) (write : Bool) (blk nblks a : Nat) (cmds : List Command) :
    Prop where
  blocks : Tiles Command.lba (fun c => c.count.toNat) blk cmds (blk + nblks)
  buffer : Tiles addr (fun e => e.size.toNat) a (cmds.flatMap (·.prdt)) (a + sectorSize * nblks)
  sound : ∀ c ∈ cmds, c.Sound ∧ c.write = write

/-- The pointers cover the buffer, each piece with as many sectors as an entry holds. -/
structure Points (write : Bool) (blk nblks a : Nat) (cmds : List Command) : Prop extends
    Covers PrdtEntry.pointer write blk nblks a cmds where
  extend : ∀ e ∈ cmds.flatMap (·.prdt), e.address = extended e.pointer
  starts : ∀ x, (∃ e ∈ cmds.flatMap (·.prdt), e.pointer = x) ↔ Start nblks nblks a x

theorem Points.nil {write : Bool} {blk a : Nat} : Points write blk 0 a [] := by
  refine ⟨⟨rfl, rfl, nofun⟩, nofun, fun x => ⟨fun ⟨_, he, _⟩ => absurd he not_mem_nil, ?_⟩⟩
  rintro ⟨k, hk, -⟩
  exact absurd hk (Nat.not_lt_zero k)

theorem Points.cons {write : Bool} {blk a : Nat} {f : Fill} {cmds : List Command}
    (h : Points write (blk + f.totalSects) f.nblks (a + sectorSize * f.totalSects) cmds)
    (hf : Filled numPrdtEntries nblks a f) (hlt : f.nblks < nblks) (hblk : blk + nblks ≤ 2 ^ 48) :
    Points write blk nblks a (command write blk f :: cmds) := by
  have htotal := hf.total
  have hblocks := h.blocks
  have hbuffer := h.buffer
  rw [Nat.add_assoc, htotal] at hblocks
  rw [Nat.add_assoc, ← Nat.mul_add, htotal] at hbuffer
  refine ⟨⟨⟨command_lba (by omega), ?_⟩, ?_, ?_⟩, ?_, ?_⟩
  · simp only [hf.count]
    exact hblocks
  · rw [flatMap_cons]
    exact Tiling.tiles_append.mpr ⟨_, hf.tiles, hbuffer⟩
  · exact forall_mem_cons.mpr ⟨⟨hf.sound hlt, rfl⟩, h.sound⟩
  · rw [flatMap_cons]
    exact forall_mem_append.mpr ⟨fun e he => (hf.pieces e he).2, h.extend⟩
  · intro x
    simp only [flatMap_cons, mem_append, or_and_right, exists_or]
    rw [h.starts, command, hf.starts]
    have hbuf := hf.buf
    have hbound := hf.bound
    simp only [Start, maxSectors_eq, sectorSize, numPrdtEntries] at hbuf hbound ⊢
    constructor
    · rintro (⟨k, hk⟩ | ⟨k, hk⟩)
      · exact ⟨k, by omega⟩
      · exact ⟨k + 8, by omega⟩
    · rintro ⟨k, hk⟩
      by_cases hfirst : k < 8
      · exact .inl ⟨k, by omega⟩
      · exact .inr ⟨k - 8, by omega⟩

section
variable {reply : Nat → Reply} (hdone : ∀ i, reply i = .done)
include hdone

/-- The outer loop, from any command of the call on. -/
theorem transferLoop_points (write : Bool) (i blk nblks a buf : Nat)
    (hblk : blk + nblks ≤ 2 ^ 48) (ha : a + sectorSize * nblks ≤ 2 ^ 32)
    (hbuf : nblks > 0 → buf = a) :
    ∃ cmds, transferLoop reply write i blk nblks buf = some (cmds, 0) ∧
      Points write blk nblks a cmds := by
  -- on the blocks that are left, of which every command takes some
  induction nblks using Nat.strongRecOn generalizing i blk a buf with
  | _ nblks ih =>
    rw [transferLoop]
    split
    · rename_i hpos
      have hf := filled numPrdtEntries ha hbuf
      have hlt : (fillPrdt numPrdtEntries nblks buf).nblks < nblks := fillPrdt_nblks_lt _ buf hpos
      simp only [hdone]
      generalize fillPrdt numPrdtEntries nblks buf = f at hf hlt
      have htotal := hf.total
      rw [sectorSize] at ha
      have hmod : (blk + f.totalSects) % 2 ^ 64 = blk + f.totalSects := by omega
      obtain ⟨cmds, hrun, hcov⟩ := ih f.nblks hlt (i + 1) (blk + f.totalSects)
        (a + sectorSize * f.totalSects) f.buf (by omega) (by rw [sectorSize]; omega)
        fun hleft => (hf.buf hleft).1
      refine ⟨command write blk f :: cmds, ?_, hcov.cons hf hlt hblk⟩
      simp only [hmod, hrun, Option.map_some]
    · rename_i hpos
      obtain rfl : nblks = 0 := by omega
      exact ⟨[], rfl, Points.nil⟩

/-- A transfer whose commands the device completes returns, and its commands cover the blocks and
the buffer exactly if no piece of the buffer starts in the upper half of memory. -/
theorem transfer_covers {slots : BitVec 32} (hslot : (findSlot slots).isSome)
    (blk nblks buf : Nat) (write : Bool) (hblk : blk + nblks ≤ 2 ^ 48)
    (hbuf : buf + sectorSize * nblks ≤ 2 ^ 32) :
    (∃ cmds, transfer reply slots blk nblks buf write = some (cmds, 0) ∧
      Covers PrdtEntry.address write blk nblks buf cmds) ↔
    ∀ k, maxSectors * k < nblks → buf + sectorSize * (maxSectors * k) < 2 ^ 31 := by
  obtain ⟨slot, hslot⟩ := Option.isSome_iff_exists.mp hslot
  obtain ⟨cmds, hrun, hpoints⟩ :=
    transferLoop_points hdone write 0 blk nblks buf buf hblk hbuf fun _ => rfl
  rw [transfer, hslot, hrun]
  constructor
  · rintro ⟨_, ⟨⟩, hcovers⟩ k hk
    obtain ⟨e, he, hpointer⟩ :=
      (hpoints.starts _).mpr ⟨k, by rw [maxSectors_eq] at hk; omega, hk, rfl⟩
    have hbound := (hcovers.buffer.bounds he).2
    rw [hpoints.extend e he, extended, hpointer] at hbound
    split_ifs at hbound with hlow
    · exact hlow
    · omega
  · intro hlow
    refine ⟨cmds, rfl, hpoints.blocks, hpoints.buffer.congr fun e he => ?_, hpoints.sound⟩
    obtain ⟨k, -, hk, hpointer⟩ := (hpoints.starts _).mp ⟨e, he, rfl⟩
    rw [hpoints.extend e he, extended, if_pos (hpointer ▸ hlow k hk)]

end

/-- The last sector of a disk of 48 bits into the last bytes of the lower half of memory. -/
theorem transfer_covers_last :
    ∃ cmds, transfer (fun _ => .done) 0 (2 ^ 48 - 1) 1 (2 ^ 31 - 512) false = some (cmds, 0) ∧
      Covers PrdtEntry.address false (2 ^ 48 - 1) 1 (2 ^ 31 - 512) cmds := by
  apply (transfer_covers (fun _ => rfl) (by decide) _ 1 _ false (by decide) (by decide)).mpr
  intro k hk
  obtain rfl : k = 0 := by
    rw [maxSectors_eq] at hk
    omega
  decide

/-- A buffer of the kernel: the address that the device gets is not that of the buffer. -/
theorem transfer_misses :
    ∃ cmds, transfer (fun _ => .done) 0 0 1 0xC0200000 false = some (cmds, 0) ∧
      ∃ e ∈ cmds.flatMap (·.prdt), e.address = 0xFFFFFFFFC0200000 := by
  have hdone : ∀ i, (fun _ => Reply.done : Nat → Reply) i = .done := fun _ => rfl
  obtain ⟨cmds, hrun, hpoints⟩ := transferLoop_points hdone false 0 0 1 0xC0200000 _ (by decide)
    (by decide) fun _ => rfl
  obtain ⟨e, he, hpointer⟩ := (hpoints.starts _).mpr ⟨0, by decide, by decide, rfl⟩
  refine ⟨cmds, hrun, e, he, ?_⟩
  rw [hpoints.extend e he, hpointer]
  decide

end Sysint.Devices.Ahci
