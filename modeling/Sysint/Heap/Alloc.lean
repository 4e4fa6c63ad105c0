import Sysint.Lib.Dlink
import Sysint.Lib.Machine
import Sysint.Memory

/-! The kernel heap of `kernel/mem/heap.cpp`. Memory is a map from addresses to
32-bit words; every record of the heap starts at a multiple of 4 and its fields
are words (the flag `used` has a word to itself), so words at different
addresses never overlap. A result `none` is a panic, a failed halting assertion
or a page fault: the kernel stops. -/
namespace Sysint.Heap

abbrev Mem := Nat → Nat

abbrev set (m : Mem) (a v : Nat) : Mem := Function.update m a v

def heapBase : Nat := kernelVirtualBase + 0x10000000

def heapInitSize : Nat := 0x100000

def headerMagic : Nat := 0x50414548

def footerMagic : Nat := 0x48454150

def headerRmMagic : Nat := 0x48455252

def footerRmMagic : Nat := 0x52524548

def minBlockSize : Nat := 8

def minSrelSize : Nat := 0x100000

/-- `sizeof(boundary_header)`: magic, size, prev, next, used. -/
def headerSize : Nat := 20

/-- `sizeof(boundary_footer)`: magic, header. -/
def footerSize : Nat := 8

/-- The smallest block: both records and `MIN_BLOCK_SIZE` bytes. -/
def minBlock : Nat := headerSize + footerSize + minBlockSize

section
variable (m : Mem) (h : Nat)

def magic : Nat := m h

def size : Nat := m (h + 4)

def prev : Nat := m (h + 8)

def next : Nat := m (h + 12)

def used : Bool := m (h + 16) != 0

/-- The footer of the block whose header is at `h`. -/
def footer : Nat := sub32 (u32 (h + size m h)) footerSize

/-- The `header` field of the footer at `f`. -/
def footerHeader (f : Nat) : Nat := m (f + 4)

end

def setSize (m : Mem) (h v : Nat) : Mem := set m (h + 4) v

def setUsed (m : Mem) (h : Nat) (b : Bool) : Mem := set m (h + 16) b.toNat

/-- Write a header for an unused block; its links stay as they were. -/
def writeHeader (m : Mem) (h sz : Nat) : Mem := setUsed (setSize (set m h headerMagic) h sz) h false

def writeFooter (m : Mem) (f h : Nat) : Mem := set (set m f footerMagic) (f + 4) h

/-- `boundary_header::insert`: insert `x` after `n`. -/
def insert (m : Mem) (n x : Nat) : Mem :=
  let m := set m (next m n + 8) x
  let m := set m (x + 8) n
  let m := set m (x + 12) (next m n)
  set m (n + 12) x

/-- `boundary_header::remove`, which also clears the links of `x`. -/
def remove (m : Mem) (x : Nat) : Mem :=
  let m := set m (prev m x + 12) (next m x)
  let m := set m (next m x + 8) (prev m x)
  let m := set m (x + 8) 0
  set m (x + 12) 0

/-- Where `insert_list` stops: at the list's sentinel or at a block that is not
smaller than `x`. -/
def insertPos (m : Mem) (nil x : Nat) : Nat → Nat → Option Nat
  | 0, _ => none
  | fuel + 1, l =>
    if l ≠ nil ∧ size m l < size m x then
      if magic m l ≠ headerMagic ∨ used m l = true then none
      else insertPos m nil x fuel (next m l)
    else some l

def insertList (m : Mem) (nil x fuel : Nat) : Option Mem :=
  if used m x then none
  else (insertPos m nil x fuel (next m nil)).map fun l => insert m (prev m l) x

structure Kheap where
  mem : Mem
  heapEnd : Nat
  /-- The pages of `kernel_page_dir` that are present. -/
  mapped : Nat → Bool

/-- `alloc_pages` on the kernel directory, whose tables exist for the whole
heap. Pages that were not present get fresh frames, with contents `fill`. -/
def allocPages (s : Kheap) (start n : Nat) (fill : Mem) : Kheap :=
  let new := fun p => decide (start ≤ p) && decide (p < start + n)
  { s with
    mem := fun a => if new (a / 4096) && !s.mapped (a / 4096) then fill a else s.mem a
    mapped := fun p => s.mapped p || new p }

def sbrk (s : Kheap) (inc : Nat) (fill : Mem) : Kheap × Nat :=
  let newEnd := alignAddr (u32 (s.heapEnd + inc))
  let inc := sub32 newEnd s.heapEnd
  let s := allocPages s (s.heapEnd >>> pageShift) (inc >>> pageShift) fill
  ({ s with heapEnd := newEnd }, inc)

/-- `srel` gives back the pages from the new end to the old one. -/
def srel (s : Kheap) (dec : Nat) : Kheap :=
  let newEnd := alignAddr (sub32 s.heapEnd dec)
  { s with
    mapped := fun p => s.mapped p && !(decide (newEnd ≤ p * 4096) && decide (p * 4096 < s.heapEnd))
    heapEnd := newEnd }

/-! ## alloc -/

/-- The block size for a request: the minimum, the records, rounded to words. -/
def blockSize (size : Nat) : Nat :=
  let size := if size < minBlockSize then minBlockSize else size
  let size := u32 (size + (headerSize + footerSize))
  u32 (size + if size % 4 ≠ 0 then 4 - size % 4 else 0)

/-- How far the payload of the block at `h` is from the next page boundary. -/
def alignOffset (h : Nat) : Nat :=
  let start := u32 (h + headerSize)
  sub32 (alignAddr start) start

def fits (m : Mem) (sz : Nat) (align : Bool) (h : Nat) : Bool :=
  if align then
    (alignOffset h == 0 || decide (minBlock ≤ alignOffset h)) &&
      decide (u32 (sz + alignOffset h) ≤ size m h)
  else decide (sz ≤ size m h)

/-- The search for an unused block that fits; `some none` if there is none. -/
def searchFree (m : Mem) (nil sz : Nat) (align : Bool) : Nat → Nat → Option (Option Nat)
  | 0, _ => none
  | fuel + 1, h =>
    if h = nil then some none
    else if magic m h ≠ headerMagic ∨ used m h = true then none
    else if fits m sz align h then some (some h)
    else searchFree m nil sz align fuel (next m h)

/-- No unused block fits: get new pages, for a new block at the old end or for
the last block if that is unused. -/
def extend (s : Kheap) (sz : Nat) (align : Bool) (fill : Mem) : Option (Kheap × Nat) :=
  let oldEnd := s.heapEnd
  let f := sub32 s.heapEnd footerSize
  if s.mem f = footerMagic then
    let (s, allocsz) := sbrk s (u32 (sz + if align then 0x1000 else 0)) fill
    let last := footerHeader s.mem f
    let (m, h) :=
      if used s.mem last then (writeHeader s.mem oldEnd allocsz, oldEnd)
      else (remove (setSize s.mem last (u32 (size s.mem last + allocsz))) last, last)
    some ({ s with mem := writeFooter m (sub32 s.heapEnd footerSize) h }, h)
  else none

def acquire (nil : Nat) (s : Kheap) (sz : Nat) (align : Bool) (fill : Mem) : Option (Kheap × Nat) :=
  (searchFree s.mem nil sz align s.heapEnd (next s.mem nil)).bind fun found =>
    match found with
    | some h => some ({ s with mem := remove s.mem h }, h)
    | none => extend s sz align fill

/-- Split the block so that the payload of its second part is page aligned; the
first part goes on the list. -/
def alignSplit (nil : Nat) (s : Kheap) (h : Nat) : Option (Kheap × Nat) :=
  let start := u32 (h + headerSize)
  let offset := alignOffset h
  if 0 < offset then
    if minBlock ≤ offset then
      let m := s.mem
      let oldFooter := footer m h
      if m oldFooter = footerMagic then
        let oldsize := size m h
        let m := setUsed (setSize m h offset) h false
        let f := sub32 (sub32 (u32 (start + offset)) footerSize) headerSize
        let m := writeFooter m f h
        (insertList m nil h s.heapEnd).map fun m =>
          let h := u32 (f + footerSize)
          let m := writeHeader m h (sub32 oldsize offset)
          let m := set m (oldFooter + 4) h
          ({ s with mem := m }, h)
      else none
    else none
  else some (s, h)

/-- Cut the block down to `sz` if the rest can be a block of its own. -/
def splitRest (nil : Nat) (s : Kheap) (h sz : Nat) : Option Kheap :=
  if u32 (sz + minBlock) ≤ size s.mem h then
    let m := s.mem
    let oldFooter := footer m h
    let oldsize := size m h
    let m := setSize m h sz
    let m := writeFooter m (sub32 (u32 (h + sz)) footerSize) h
    let p := u32 (h + sz)
    let m := writeHeader m p (sub32 oldsize sz)
    let m := set m (oldFooter + 4) p
    (insertList m nil p s.heapEnd).map fun m => { s with mem := m }
  else some s

/-- `heap::alloc`. `nil` is the address of the list's sentinel. -/
def alloc (nil : Nat) (s : Kheap) (sz : Nat) (align : Bool) (fill : Mem) : Option (Kheap × Nat) :=
  let sz := blockSize sz
  (acquire nil s sz align fill).bind fun (s, h) =>
  (if align then alignSplit nil s h else some (s, h)).bind fun (s, h) =>
  (splitRest nil s h sz).map fun s =>
    ({ s with mem := setUsed s.mem h true }, u32 (h + headerSize))

/-! ## free -/

/-- Take the block to the right into the one at `header`, if it is unused.
Returns the memory and the footer of the result. -/
def mergeRight (m : Mem) (heapEnd header f : Nat) : Mem × Nat :=
  let right := u32 (header + size m header)
  if right < heapEnd ∧ magic m right = headerMagic ∧ prev m right ≠ 0 then
    let rightFooter := footer m right
    if m rightFooter = footerMagic ∧ footerHeader m rightFooter = right ∧ used m right = false then
      let m := setSize m header (u32 (size m header + size m right))
      let m := remove m right
      (set m right headerRmMagic, rightFooter)
    else (m, f)
  else (m, f)

/-- Give the block at `header` to the one to its left, if that is unused. -/
def mergeLeft (m : Mem) (header : Nat) : Mem × Nat :=
  if heapBase + minBlock ≤ header then
    let leftFooter := sub32 header footerSize
    if m leftFooter = footerMagic then
      let left := footerHeader m leftFooter
      if magic m left = headerMagic ∧ used m left = false ∧ prev m left ≠ 0 ∧
          u32 (left + size m left) = header then
        let m := remove m left
        let m := setSize m left (u32 (size m left + size m header))
        (set m leftFooter footerRmMagic, left)
      else (m, header)
    else (m, header)
  else (m, header)

/-- Release the pages of a large last block: all of them if the block starts on
a page boundary (`none`: the block is gone), else those behind a rest that still
holds a block. Returns the footer of that rest. -/
def release (s : Kheap) (header f : Nat) : Kheap × Option Nat :=
  if s.heapEnd = u32 (f + footerSize) ∧ minSrelSize ≤ size s.mem header ∧
      heapBase + heapInitSize < header then
    if header % 0x1000 ≠ 0 then
      let offset := alignOffset header
      let start := u32 (u32 (header + headerSize) + offset)
      let start := if offset < minBlockSize + footerSize then u32 (start + 0x1000) else start
      let relsize := sub32 s.heapEnd start
      if minSrelSize ≤ relsize then
        let s := srel s relsize
        let m := setSize s.mem header (sub32 s.heapEnd header)
        let f := sub32 s.heapEnd footerSize
        ({ s with mem := writeFooter m f header }, some f)
      else (s, some f)
    else (srel s (size s.mem header), none)
  else (s, some f)

/-- The checks `free` makes on its argument. -/
def checkBlock (s : Kheap) (p : Nat) : Bool :=
  let header := sub32 p headerSize
  let f := footer s.mem header
  decide (heapBase ≤ p) && decide (p < s.heapEnd) && s.mapped (f / 4096) &&
    magic s.mem header == headerMagic && s.mem f == footerMagic &&
    footerHeader s.mem f == header && used s.mem header

/-- Correct the footer, mark the block unused and put it on the list. -/
def putBack (nil : Nat) (s : Kheap) (header f : Nat) : Option Kheap :=
  let m := set s.mem (f + 4) header
  let m := setUsed m header false
  (insertList m nil header s.heapEnd).map fun m => { s with mem := m }

def free (nil : Nat) (s : Kheap) (p : Nat) : Option Kheap :=
  if checkBlock s p then
    let header := sub32 p headerSize
    let right := mergeRight s.mem s.heapEnd header (footer s.mem header)
    let left := mergeLeft right.1 header
    let rest := release { s with mem := left.1 } left.2 right.2
    rest.2.elim (some rest.1) (putBack nil rest.1 left.2)
  else none

/-- `heap::init`: one unused block. `junk` is what memory held before. -/
def init (nil : Nat) (junk : Mem) : Option Kheap :=
  let s := allocPages ⟨junk, heapBase + heapInitSize, fun _ => false⟩ (heapBase >>> pageShift)
    (heapInitSize >>> pageShift) junk
  let m := set (setSize (set s.mem nil headerMagic) nil 0) (nil + 8) nil
  let m := set m (nil + 12) nil
  let m := writeHeader m heapBase heapInitSize
  let m := writeFooter m (heapBase + heapInitSize - footerSize) heapBase
  (insertList m nil heapBase s.heapEnd).map fun m => { s with mem := m }

end Sysint.Heap
