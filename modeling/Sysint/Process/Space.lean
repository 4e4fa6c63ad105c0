import Sysint.Paging.Release
import Sysint.Process.Model

/-! Processes and their address spaces: what `clone`, `exit` and the destructor of `proc` of
`kernel/proc/proc.cpp` do with page directories, and when a `shared_page_dir` of
`kernel/include/paging.h` is destroyed. Which process runs and when a process is deleted is left
open; a process is deleted once, after it has ended. -/
namespace Sysint.Process

open Paging Hoare

/-- A `shared_page_dir` is named by the process that it was made for. -/
structure World where
  vm : Vm
  /-- The heap, the stack and the directory of a process, and `kernel_page_dir` of 0. -/
  space : Nat → Memory.Proc
  /-- `cloned_dir`, or 0. -/
  clonedDir : Nat → Nat
  /-- The `shared_page_dir`s that exist. -/
  shared : List Nat
  /-- The processes whose destructor has not run. Each refers to its `shared_page_dir`. -/
  holders : List Nat
  /-- The processes that have not ended. -/
  alive : List Nat
  /-- `_tmp_dir`, or 0. -/
  tmpDir : Nat
  /-- `cur_proc`, or 0. -/
  cur : Nat
  nextTid : Nat
  /-- A record that no function reads: with `CLONE_VM`, a new process is of the family of its
  maker. -/
  family : Nat → Nat

namespace World

@[simps]
def shares (w : World) : Shares where
  list := w.shared
  dir p := (w.space p).dir
  base p := if w.clonedDir p = 0 then p else w.clonedDir p
  family := w.family

def dir (w : World) (p : Nat) : Dir := w.vm.dir (w.space p).dir

/-- The result of a program and the state that it leaves. -/
def exec {α : Type} (x : Paging.Kernel α) (vm : Vm) : Option (α × Vm) := outcome x vm Prod.mk

/-- There is a reference to the `shared_page_dir`. -/
def Referred (w : World) (p : Nat) : Prop :=
  p ∈ w.holders ∨ w.tmpDir = p ∨ ∃ q ∈ w.shared, w.clonedDir q = p

instance decidableReferred (w : World) (p : Nat) : Decidable (w.Referred p) :=
  inferInstanceAs (Decidable (_ ∨ _ ∨ ∃ q ∈ w.shared, _))

/-- A reference to a `shared_page_dir` has gone away, or one to nothing. -/
def release : Nat → Nat → World → Option World
  | 0, _, _ => none
  | fuel + 1, p, w =>
    if p = 0 ∨ w.Referred p then some w
    else do
      let base := w.clonedDir p
      let (_, vm) ← exec (destroyDir (w.space p).dir (w.space base).dir) w.vm
      -- the destructor ends with that of the member `cloned_dir`
      release fuel base { w with vm := vm, shared := w.shared.filter (· ≠ p) }

/-- `delete p`. -/
def delete (w : World) (p : Nat) : Option World :=
  release (p + 1) p { w with holders := w.holders.filter (· ≠ p) }

/-- `_tmp_dir = cur_proc->dir`. -/
def keepDir (w : World) (p : Nat) : Option World :=
  release (w.tmpDir + 1) w.tmpDir { w with tmpDir := p }

/-- `exit` after its loop over the children, up to `schedule`. -/
def exit (w : World) : Option World := do
  let w ← w.keepDir w.cur
  let q := w.space w.cur
  let pages := (kernelVirtualBase - q.stackBot + (pageSize - 1)) / pageSize
  let (_, vm) ← exec (Memory.freePages q.dir pages q.stackBot) w.vm
  let (_, vm) ← exec (freeKstackTables q.dir) vm
  return { w with
    vm := vm.setCurDir (w.space 0).dir
    alive := w.alive.filter (· ≠ w.cur)
    cur := 0 }

def stackTable : Nat := (kernelVirtualBase - 0x1000) >>> 22

def cloneArgs (flags : Nat) : CloneArgs := ⟨flags, stackTable, stackTable⟩

/-- A process of the family `r` has been made, with the directory `e`. -/
def born (w : World) (vm : Vm) (e base r : Nat) : World :=
  { w with
    vm := vm
    space := Function.update w.space w.nextTid { w.space w.cur with dir := e }
    clonedDir := Function.update w.clonedDir w.nextTid base
    shared := w.nextTid :: w.shared
    holders := w.nextTid :: w.holders
    alive := w.nextTid :: w.alive
    nextTid := w.nextTid + 1
    family := Function.update w.family w.nextTid r }

/-- `clone`, as far as memory goes. -/
def clone (w : World) (flags : Nat) : Option World :=
  if flags &&& cloneCsignalMask ≥ 32 then some w
  else do
    let (e, vm) ← exec (cloneDir (w.space 0).dir (w.space w.cur).dir (cloneArgs flags)) w.vm
    return if flags &&& cloneVm ≠ 0 then w.born vm e w.cur (w.family w.cur)
      else w.born vm e 0 w.nextTid

/-- The process that runs has worked on its own memory. -/
def work (w : World) (vm : Vm) (x : Memory.Proc) : World :=
  { w with vm := vm, space := Function.update w.space w.cur x }

/-- The system call `brk` of the current process. If memory runs out, it leaves an entry that is
present and has no frame; no step follows that. -/
def brk (w : World) (addr : Nat) : Option World :=
  if (w.space w.cur).Refuses addr then some w
  else do
    let ((q, result), vm) ← exec (Memory.brk (w.space w.cur) addr) w.vm
    if result = addr then some (w.work vm q) else none

end World

/-- The processor lets user code read the page, or write it if `write`. A 4 MiB page has no entry in
a table, and is not for users. -/
def UserMay (e : BitVec 32) (pg : Page) (write : Bool) : Prop :=
  e &&& pagePresent ≠ 0 ∧ e &&& pageUs ≠ 0 ∧ e &&& pageDir4m = 0 ∧ pg.present = true ∧
    pg.user = true ∧ (write = true → e &&& pageRw ≠ 0 ∧ pg.rw = true)

instance decidableUserMay (e : BitVec 32) (pg : Page) (write : Bool) :
    Decidable (UserMay e pg write) := inferInstanceAs (Decidable (_ ∧ _ ∧ _ ∧ _ ∧ _ ∧ _))

namespace World

/-- The frame and the offset in it that code of a process reaches below the kernel in user mode. -/
def access (w : World) (p a : Nat) (write : Bool) : Option (Nat × Nat) :=
  if a < kernelVirtualBase ∧ UserMay ((w.dir p).entries (a >>> 22))
      (w.vm.pte (w.space p).dir (a >>> pageShift)) write then
    some ((w.vm.pte (w.space p).dir (a >>> pageShift)).addr, a &&& 0xFFF)
  else none

/-- What code of a process reads in user mode. -/
def byte (w : World) (p a : Nat) : Option (BitVec 8) :=
  (w.access p a false).map fun x => w.vm.frame x.1 x.2

/-- The current process stores a byte in user mode. -/
def store (w : World) (a : Nat) (v : BitVec 8) : Option World :=
  (w.access w.cur a true).map fun x => { w with vm := w.vm.setByte x.1 x.2 v }

end World

inductive Action where
  | switch (p : Nat)
  | reap (p : Nat)
  | exit
  | clone (flags : Nat)
  | brk (addr : Nat)
  | store (a : Nat) (v : BitVec 8)
  /-- The kernel heap gives out its free blocks in another order. -/
  | shuffle (ts : List Nat)

namespace World

/-- The process that runs does something. -/
def act (w : World) : Action → Option World
  | .exit => w.exit
  | .clone flags => w.clone flags
  | .brk addr => w.brk addr
  | .store a v => w.store a v
  | _ => none

def step (w : World) : Action → Option World
  | .switch p =>
    if p ∈ w.alive then some { w with cur := p, vm := w.vm.setCurDir (w.space p).dir } else none
  | .reap p => if p ∈ w.holders ∧ p ∉ w.alive then w.delete p else none
  | .shuffle ts => if ts.Perm w.vm.spare then some { w with vm := w.vm.setSpare ts } else none
  | a => if w.cur = 0 then none else w.act a

/-- A step that no process of the family `r` takes. -/
def Foreign (r : Nat) (w : World) : Action → Prop
  | .switch _ | .reap _ | .shuffle _ => True
  | _ => w.family w.cur ≠ r

instance decidableForeign (r : Nat) (w : World) : (a : Action) → Decidable (w.Foreign r a)
  | .switch _ | .reap _ | .shuffle _ => .isTrue trivial
  | .exit | .clone _ | .brk _ | .store _ _ => inferInstanceAs (Decidable (_ ≠ _))

end World

end Sysint.Process
