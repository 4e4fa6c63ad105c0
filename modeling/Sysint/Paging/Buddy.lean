import Sysint.Bitmap
import Sysint.Lib.Dlink
import Sysint.Lib.Dyadic
import Sysint.Lib.Machine
import Sysint.Memory

/-! The frame allocator of `kernel/mem/paging.cpp`: `alloc_frames`,
`free_frames` and the part of `init` that makes the first blocks. Free blocks of
each order hang on a circular list threaded through `page_entries`, next to a
bitmap with one bit for each block of that order. -/
namespace Sysint.Paging

open Dlink Dyadic
open Function

def buddyMaxOrder : Nat := 10

/-- A list node is the sentinel of one of the lists or a page entry. -/
inductive Node where
  | nil (x : Nat)
  | entry (i : Nat)
  deriving DecidableEq

/-- `entry - page_entries`. -/
def Node.idx : Node → Nat
  | .nil _ => 0
  | .entry i => i

structure Buddy where
  memorySize : Nat
  /-- `page_entries[i].order` -/
  order : Nat → Nat
  links : Links Node
  map : Nat → Bitmap
  numAvail : Nat → Int

def getBuddy (x order : Nat) : Nat := x ^^^ (1 <<< order)

/-- Record the order of the block at `i` and put it on its list: the four
writes made for a split-off buddy, for a freed block and for an initial one. -/
def Buddy.addBlock (s : Buddy) (i x : Nat) : Buddy :=
  { s with
    order := update s.order i x
    links := s.links.insert (.nil x) (.entry i)
    map := update s.map x ((s.map x).set (i >>> x) true)
    numAvail := update s.numAvail x (s.numAvail x + 1) }

/-- Take an entry off list `x`. -/
def Buddy.unlink (s : Buddy) (e : Node) (x : Nat) : Buddy :=
  { s with
    links := s.links.remove e
    numAvail := update s.numAvail x (s.numAvail x - 1) }

def Buddy.clearBit (s : Buddy) (x pos : Nat) : Buddy :=
  { s with map := update s.map x ((s.map x).clear pos) }

/-- The first order from `x` on whose list is not empty; `n` orders are left. -/
def Buddy.firstAvail (s : Buddy) : Nat → Nat → Nat
  | 0, x => x
  | n + 1, x => if s.links.next (.nil x) = .nil x then s.firstAvail n (x + 1) else x

/-- Give back the upper halves of the orders `order + n - 1` down to `order`. -/
def Buddy.split (s : Buddy) (idx order : Nat) : Nat → Buddy
  | 0 => s
  | n + 1 => (s.addBlock (getBuddy idx (order + n)) (order + n)).split idx order n

/-- Allocate `2 ^ order` frames. `none` is the halting assertion; the address 0
is the null pointer returned when no list has a block. -/
def allocFrames (s : Buddy) (order : Nat) : Option (Buddy × Nat) :=
  if order ≤ buddyMaxOrder then
    let x := s.firstAvail (buddyMaxOrder + 1 - order) order
    if buddyMaxOrder < x then some (s, 0)
    else
      let e := s.links.next (.nil x)
      let idx := e.idx
      let s := s.unlink e x
      let s := s.split idx order (x - order)
      let s := { s with order := update s.order idx order }
      let s := s.clearBit order (idx >>> order)
      some (s, u32 (idx <<< pageShift))
  else none

/-- The test made on the buddy before merging at order `x`. -/
def Buddy.canMerge (s : Buddy) (idx x : Nat) : Bool :=
  getBuddy idx x < s.memorySize >>> pageShift && s.order (getBuddy idx x) == x &&
    (s.map x).get (getBuddy idx x >>> x)

/-- The merging loop; `n` orders are left, the last of them being
`BUDDY_MAX_ORDER` itself. Returns the state, the block's frame and the order
the loop stopped at. -/
def Buddy.merge (s : Buddy) (idx x : Nat) : Nat → Buddy × Nat × Nat
  | 0 => (s, idx, x)
  | n + 1 =>
    if s.canMerge idx x then
      let b := getBuddy idx x
      ((s.unlink (.entry b) x).clearBit x (b >>> x)).merge (if b < idx then b else idx) (x + 1) n
    else (s, idx, x)

def freeFrames (s : Buddy) (p : Nat) : Option (Buddy × Nat) :=
  if p < s.memorySize then
    let idx := p >>> pageShift
    if s.order idx ≤ buddyMaxOrder then
      let (s, idx, x) := s.merge idx (s.order idx) (buddyMaxOrder + 1 - s.order idx)
      let order := min x buddyMaxOrder
      some (s.addBlock idx order, 1 <<< order)
    else none
  else none

/-- Lower the order until the block at `i` ends within `n` frames. -/
def fitOrder (i n : Nat) : Nat → Nat
  | 0 => 0
  | x + 1 => if n < i + (1 <<< (x + 1)) then fitOrder i n x else x + 1

def makeBlocks (n : Nat) : Nat → Nat → Nat → Buddy → Buddy
  | 0, _, _, s => s
  | fuel + 1, i, x, s =>
    if i < n then
      let x := fitOrder i n x
      makeBlocks n fuel (i + (1 <<< x)) x (s.addBlock i x)
    else s

/-- What `paging::init` is given: the memory size, which `memory::init` has
checked, and the placement address, which starts at the end of the kernel image
(linked at `0xC0100000`). The links of the page entries are not initialised. -/
structure Boot where
  memSize : Nat
  placement : Nat
  junk : Links Node
  memSize_min : 1 <<< 25 ≤ memSize
  memSize_lt : memSize < 2 ^ 32
  placement_min : kernelVirtualBase + 0x100000 ≤ placement
  placement_lt : placement < 2 ^ 32

/-- The first frame given to the allocator. -/
def Boot.start (b : Boot) : Nat := sub32 (alignAddr4m b.placement) kernelVirtualBase >>> pageShift

def Boot.frames (b : Boot) : Nat := b.memSize >>> pageShift

/-- All entries without an order, all lists empty. -/
def Boot.empty (b : Boot) : Buddy where
  memorySize := b.memSize
  order := fun _ => 0xff
  links :=
    { prev := fun e => match e with | .nil x => .nil x | .entry i => b.junk.prev (.entry i)
      next := fun e => match e with | .nil x => .nil x | .entry i => b.junk.next (.entry i) }
  map := fun x => Bitmap.new (b.frames >>> x)
  numAvail := fun _ => 0

def init (b : Boot) : Buddy :=
  makeBlocks b.frames b.frames b.start buddyMaxOrder b.empty

/-! ## What the state holds -/

/-- The frames on free list `x`, as met by following the links. -/
def Buddy.freeList (s : Buddy) (x : Nat) : List Nat :=
  (s.links.toList (.nil x) (s.memorySize >>> pageShift)).map Node.idx

def blocksOf (lists : Nat → List Nat) : List Block :=
  (List.range (buddyMaxOrder + 1)).flatMap fun x => (lists x).map fun i => ⟨i, x⟩

def Buddy.freeBlocks (s : Buddy) : List Block := blocksOf s.freeList

/-- The sum of `num_avail[x] * 2 ^ x` over the orders. -/
def Buddy.available (s : Buddy) : Int :=
  ((List.range (buddyMaxOrder + 1)).map fun x => s.numAvail x * 2 ^ x).sum

/-- The allocator and the blocks its callers hold. -/
structure Frames where
  buddy : Buddy
  allocated : List Block

def Frames.init (b : Boot) : Frames := ⟨Paging.init b, []⟩

inductive Op where
  | alloc (order : Nat)
  | free (c : Block)

/-- A caller allocates a block, or frees one of the blocks it holds. -/
def Frames.step (s : Frames) : Op → Option Frames
  | .alloc order =>
    (allocFrames s.buddy order).map fun (t, p) =>
      ⟨t, if p = 0 then s.allocated else ⟨p >>> pageShift, order⟩ :: s.allocated⟩
  | .free c =>
    if c ∈ s.allocated then
      (freeFrames s.buddy (c.idx <<< pageShift)).map fun (t, _) => ⟨t, s.allocated.erase c⟩
    else none

/-- The states of runs whose steps all satisfy `ok`. -/
def Reachable (b : Boot) (ok : Frames → Op → Prop) : Frames → Prop :=
  Machine.Reach (· = Frames.init b) Frames.step ok

end Sysint.Paging
