import Mathlib.Tactic.Simps.Basic
import Sysint.Lib.Hoare
import Sysint.Paging.Buddy
import Sysint.Paging.PageDir

/-! Page directories, page tables and frames of `kernel/mem/paging.cpp`. Page tables and
directories are known by the frame they start in; a directory holds, next to each entry,
the table that the entry leads to. -/
namespace Sysint.Paging
open Function

/-- How the kernel can stop. -/
inductive Stop where
  /-- A failed assertion, a `PANIC`, or a page fault of the kernel. -/
  | halt
  /-- An access outside of an array or through a null pointer. -/
  | wild
  /-- The kernel heap has to grow (`sbrk`), which is not followed: it takes frames and changes
  the kernel's page tables. -/
  | grow
  deriving DecidableEq

def pagePresent : BitVec 32 := 1

def pageRw : BitVec 32 := 2

def pageUs : BitVec 32 := 4

def pageDir4m : BitVec 32 := 128

def Page.addr (p : Page) : Nat := p.value.toNat >>> pageShift

/-- The entry with these flags and this frame. -/
def Page.make (flags : BitVec 32) (addr : Nat) : Page :=
  ⟨(flags &&& 0xFFF) ||| BitVec.ofNat 32 (addr <<< pageShift)⟩

/-- The flags of a present page are set; flags above the lower twelve bits get into its
frame. -/
def Page.reflag (p : Page) (flags : BitVec 32) : Page :=
  ⟨BitVec.ofNat 32 (p.addr <<< pageShift) ||| flags⟩

def Page.setAddr (p : Page) (addr : Nat) : Page := Page.make p.value addr

structure Dir where
  entries : Nat → BitVec 32
  tables : Nat → Option Nat

/-- Where a page table entry lies. -/
structure Slot where
  table : Nat
  idx : Nat
  deriving DecidableEq

structure Vm where
  buddy : Buddy
  /-- The bytes of each frame. -/
  frame : Nat → Nat → BitVec 8
  table : Nat → PageTable
  dir : Nat → Dir
  /-- What `kmalloc` returns next, for page tables and directories, while the heap does not
  grow. -/
  spare : List Nat
  /-- `cur_dir` -/
  curDir : Nat

abbrev Kernel := EStateM Stop Vm

namespace Vm

@[simps -fullyApplied]
def setBuddy (vm : Vm) (b : Buddy) : Vm := { vm with buddy := b }

@[simps -fullyApplied]
def setSpare (vm : Vm) (ts : List Nat) : Vm := { vm with spare := ts }

@[simps -fullyApplied]
def setByte (vm : Vm) (f o : Nat) (v : BitVec 8) : Vm :=
  { vm with frame := update vm.frame f (update (vm.frame f) o v) }

@[simps -fullyApplied]
def setTable (vm : Vm) (t : Nat) (x : PageTable) : Vm :=
  { vm with table := update vm.table t x }

@[simps -fullyApplied]
def setEntry (vm : Vm) (d i : Nat) (e : BitVec 32) (t : Option Nat) : Vm :=
  let x : Dir :=
    ⟨update (vm.dir d).entries i e, update (vm.dir d).tables i t⟩
  { vm with dir := update vm.dir d x }

@[simps -fullyApplied]
def setCurDir (vm : Vm) (d : Nat) : Vm := { vm with curDir := d }

def page (vm : Vm) (p : Slot) : Page := (vm.table p.table).pages p.idx

def setPage (vm : Vm) (p : Slot) (v : Page) : Vm :=
  vm.setTable p.table ⟨update (vm.table p.table).pages p.idx v⟩

/-- The page table entry of page `n`; without a table it is not present. -/
def pte (vm : Vm) (d n : Nat) : Page :=
  match (vm.dir d).tables (n >>> 10) with
  | some t => vm.page ⟨t, n &&& 1023⟩
  | none => ⟨0⟩

/-- The frame and the offset in it that an address leads to in a directory. -/
def translate (vm : Vm) (d a : Nat) : Option (Nat × Nat) :=
  let e := (vm.dir d).entries (a >>> 22)
  if e &&& pagePresent = 0 then none
  else if e &&& pageDir4m ≠ 0 then
    some ((e.toNat >>> pageShift) + ((a >>> pageShift) &&& 1023), a &&& 0xFFF)
  else
    let p := vm.pte d (a >>> pageShift)
    if p.present then some (p.addr, a &&& 0xFFF) else none

end Vm

/-! ## The functions -/

/-- A page table or a directory from a free block of the kernel heap. -/
def kmalloc : Kernel Nat := do
  match (← get).spare with
  | [] => throw .grow
  | t :: ts =>
    modify (·.setSpare ts)
    return t

def allocFrame : Kernel Nat := do
  match allocFrames (← get).buddy 0 with
  | none => throw .halt
  | some (b, p) =>
    modify (·.setBuddy b)
    return p

def freeFrame (p : Nat) : Kernel Unit := do
  match freeFrames (← get).buddy p with
  | none => throw .halt
  | some (b, _) => modify (·.setBuddy b)

/-- `page_dir::get_page`; `addr` is a page number. -/
def getPage (d addr : Nat) : Kernel (Option Slot) := do
  if 1024 ≤ addr >>> 10 then throw .wild
  let vm ← get
  return ((vm.dir d).tables (addr >>> 10)).map (⟨·, addr &&& 1023⟩)

/-- `page_dir::get_page` with `make_table`. -/
def makePage (d addr : Nat) (flags : BitVec 32) : Kernel Slot := do
  match ← getPage d addr with
  | some p => return p
  | none =>
    let t ← kmalloc
    modify (·.setTable t ⟨fun _ => ⟨0⟩⟩)
    modify (·.setEntry d (addr >>> 10) (Page.make flags t).value (some t))
    return ⟨t, addr &&& 1023⟩

/-- The loop of `page_dir::alloc_pages`, with `n` pages left from page `i` on. -/
def allocPages (d : Nat) (flags : BitVec 32) : Nat → Nat → Kernel Bool
  | 0, _ => return true
  | n + 1, i => do
    let p ← getPage d i
    let vm ← get
    match p.filter fun p => (vm.page p).present with
    | some p =>
      -- it is already present: only the flags are set
      modify (·.setPage p ((vm.page p).reflag flags))
      allocPages d flags n (i + 1)
    | none =>
      let p ← makePage d i flags
      modify (·.setPage p (Page.make flags 0))
      let addr ← allocFrame
      modify (·.setPage p (Page.make flags (addr >>> pageShift)))
      if addr >>> pageShift = 0 then return false
      allocPages d flags n (i + 1)

/-- `page_dir::alloc_block`. -/
def allocBlock (d start sz : Nat) (flags : BitVec 32) : Kernel Bool :=
  allocPages d flags (sz >>> pageShift) (start >>> pageShift)

/-- `page_dir::free_page`. -/
def freePage (d a : Nat) : Kernel Unit := do
  match ← getPage d (a >>> pageShift) with
  | none => return
  | some p =>
    let pg := (← get).page p
    if pg.present then
      freeFrame (u32 (pg.addr <<< pageShift))
      modify (·.setPage p ⟨0⟩)

/-- The kernel writes a byte; a page that is not there is a page fault. -/
def storeByte (d a : Nat) (v : BitVec 8) : Kernel Unit := do
  match (← get).translate d a with
  | none => throw .halt
  | some (f, o) => modify (·.setByte f o v)

end Sysint.Paging
