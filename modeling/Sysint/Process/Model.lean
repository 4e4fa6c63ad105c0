import Sysint.Bitmap
import Sysint.Rbtree.Insert

/-! The scheduler and the process system calls of `kernel/proc/proc.cpp`. A
process is named by its `tid`, and 0 is the null pointer. The kernel runs with
interrupts off, so a system call or an interrupt is one step up to the point where
`schedule` waits for a process to run; `none` is a crash, a failed `ASSERTH` or
undefined behaviour. -/
namespace Sysint.Process

inductive Status where
  | created
  | ready
  | running
  | waiting
  | waitingNoInterrupt
  | zombie
deriving DecidableEq

/-- The values of `cur_queue`. -/
inductive QueueId where
  | noQueue
  | runQueue
  | sleepQueue
  | eventQueue
deriving DecidableEq

/-- Where a process goes on when it is switched to: in user mode, or in the
function that called `__schedule` or `save_state`. -/
inductive Cont where
  | user
  | clone
  | nanosleep
  | wait
  | waitpid (pid : Int)
deriving DecidableEq

/-- The 512 bytes of `fpu_buf_t`. -/
abbrev Fpu := BitVec 4096

structure Proc where
  pid : Nat
  uid : Nat
  status : Status
  /-- What `state` holds of the registers, with `flags.user`. -/
  cont : Cont
  fpuBuf : Fpu
  fpuUsed : Bool
  interrupted : Bool
  vruntime : Nat
  nice : Int
  cloneFlags : Nat
  exitStatus : Int
  parent : Nat
  lastChild : Nat
  nextSibling : Nat
  prevSibling : Nat
  curQueue : QueueId
  queueHandle : Nat
  signals : Bitmap
  waitPid : Int
  /-- The destructor has run. -/
  deleted : Bool

/-- The constructor, with `tid` for `pid`. -/
def Proc.new (pid uid : Nat) : Proc where
  pid := pid
  uid := uid
  status := .created
  cont := .user
  fpuBuf := 0
  fpuUsed := false
  interrupted := false
  vruntime := 0
  nice := 0
  cloneFlags := 0
  exitStatus := 0
  parent := 0
  lastChild := 0
  nextSibling := 0
  prevSibling := 0
  curQueue := .noQueue
  queueHandle := 0
  signals := .new 32
  waitPid := 0
  deleted := false

@[simps]
def Proc.setStatus (q : Proc) (st : Status) : Proc := { q with status := st }

@[simps]
def Proc.setCont (q : Proc) (cont : Cont) : Proc := { q with cont := cont }

@[simps]
def Proc.setInterrupted (q : Proc) (b : Bool) : Proc := { q with interrupted := b }

@[simps]
def Proc.setWaitPid (q : Proc) (pid : Int) : Proc := { q with waitPid := pid }

@[simps]
def Proc.setHandle (q : Proc) (a : Nat) : Proc := { q with queueHandle := a }

/-- Out of all queues. -/
@[simps]
def Proc.leave (q : Proc) : Proc := { q with curQueue := .noQueue, queueHandle := 0 }

/-- A process that has called `exit`. -/
@[simps]
def Proc.ended (q : Proc) (status : Int) : Proc :=
  { q with status := .zombie, curQueue := .noQueue, exitStatus := status }

/-- `sigs_pending.set`. -/
@[simps]
def Proc.setSignal (q : Proc) (sig : Nat) (b : Bool) : Proc :=
  { q with signals := q.signals.set sig b }

@[simps]
def Proc.setParent (q : Proc) (p : Nat) : Proc := { q with parent := p }

@[simps]
def Proc.setLast (q : Proc) (p : Nat) : Proc := { q with lastChild := p }

@[simps]
def Proc.setNext (q : Proc) (p : Nat) : Proc := { q with nextSibling := p }

@[simps]
def Proc.setPrev (q : Proc) (p : Nat) : Proc := { q with prevSibling := p }

/-- What `schedule` saves of the process that was running, and charges it with. -/
@[simps]
def Proc.save (q : Proc) (v : Nat) (regs : Bool) (fpu : Fpu) : Proc :=
  { q with
    vruntime := v
    cont := if regs then .user else q.cont
    fpuBuf := if q.fpuUsed then fpu else q.fpuBuf
    fpuUsed := false }

structure SleepProc where
  p : Nat
  wakeupNs : Nat
deriving Inhabited

/-- `operator<` and `operator==` of `proc_ptr`, which read the process. -/
def procOrder (proc : Nat → Proc) : Rbtree.Order Nat where
  lt a b :=
    if (proc a).vruntime ≠ (proc b).vruntime then decide ((proc a).vruntime < (proc b).vruntime)
    else if (proc a).nice ≠ (proc b).nice then decide ((proc a).nice < (proc b).nice)
    else decide (a < b)
  eq a b := a == b

def sleepOrder : Rbtree.Order SleepProc where
  lt a b :=
    if a.wakeupNs ≠ b.wakeupNs then decide (a.wakeupNs < b.wakeupNs) else decide (a.p < b.p)
  eq a b := a.p == b.p

/-- Outside the kernel's own code interrupts are on: a process runs in user mode,
or, before the first one does, `kmain`. In `schedule`, `now` and `pold` are its
local variables. -/
inductive Mode where
  | outside
  | select (now pold : Nat)
deriving DecidableEq

/-- A return of `waitpid(pid, &status, 0)` to `caller` with `result` after it
deleted `child`. -/
structure Reap where
  caller : Nat
  pid : Int
  child : Nat
  result : Nat
  status : Int

/-- What happened so far. No function of the kernel reads it. -/
structure History where
  /-- The FPU registers of a process when it was switched out, until it is
  dispatched again. -/
  fpuOut : Nat → Option Fpu
  /-- The largest delta that `schedule` has charged. -/
  maxDelta : Nat
  /-- The processes killed by a page fault. -/
  killed : Nat → Bool
  reaps : List Reap

structure Kernel where
  proc : Nat → Proc
  nextTid : Nat
  procList : Rbtree Nat
  runQueue : Rbtree Nat
  sleepQueue : Rbtree SleepProc
  /-- The entries of `waiting_procs` of every condition variable: a list node and
  its process. -/
  waiting : Nat → List (Nat × Nat)
  freshEntry : Nat
  curProc : Nat
  minVruntime : Nat
  online : Bool
  lastSched : Nat
  tick : Nat
  ticklen : Nat
  /-- The FPU registers, and CR0.TS. -/
  fpu : Fpu
  ts : Bool
  mode : Mode
  history : History

/-- `wrap` is the arithmetic of `uint64_t`. With `guard`, an insertion into a tree
fails when `_insert_fixup` would leave a red node below a red node. -/
structure Config where
  guard : Bool
  wrap : Nat → Nat

def Config.code (wrap : Nat → Nat) : Config := ⟨false, wrap⟩

def Config.checked (wrap : Nat → Nat) : Config := ⟨true, wrap⟩

def schedLatency : Nat := 20000000

def scheduleMinDelta : Nat := 1000000

def cloneCsignalMask : Nat := 0xff

def cloneParent : Nat := 0x1000

def cloneThread : Nat := 0x2000

def sigkill : Nat := 9

def sigsegv : Nat := 11

def sigchld : Nat := 20

/-- The signals whose default is to end the process: `SIGKILL`, and the cases of
the `switch` in `schedule`, by newlib's numbers. -/
def fatal (sig : Nat) : Bool :=
  sig ∈ [sigkill, 6, 14, 10, 8, 4, 2, 13, 23, 27, 3, sigsegv, 12, 15, 5, 30, 31, 26, 24, 25]

/-- The signal that a process sends to its parent when it ends. -/
def exitSignal (flags : Nat) : Nat :=
  let csig := flags &&& cloneCsignalMask
  if csig ≠ 0 then csig else sigchld

namespace Kernel

@[simps -fullyApplied]
def modify (s : Kernel) (p : Nat) (f : Proc → Proc) : Kernel :=
  { s with proc := Function.update s.proc p (f (s.proc p)) }

@[simps -fullyApplied]
def setProcs (s : Kernel) (proc : Nat → Proc) : Kernel := { s with proc := proc }

@[simps -fullyApplied]
def clts (s : Kernel) : Kernel := { s with ts := false }

@[simps -fullyApplied]
def setOnline (s : Kernel) (b : Bool) : Kernel := { s with online := b }

@[simps -fullyApplied]
def setCur (s : Kernel) (p : Nat) : Kernel := { s with curProc := p }

@[simps -fullyApplied]
def setProcList (s : Kernel) (t : Rbtree Nat) : Kernel := { s with procList := t }

@[simps -fullyApplied]
def putQueues (s : Kernel) (rq : Rbtree Nat) (sq : Rbtree SleepProc)
    (w : Nat → List (Nat × Nat)) : Kernel :=
  { s with runQueue := rq, sleepQueue := sq, waiting := w }

@[simps -fullyApplied]
def setFpuOut (s : Kernel) (p : Nat) (v : Option Fpu) : Kernel :=
  { s with history.fpuOut := Function.update s.history.fpuOut p v }

@[simps -fullyApplied]
def logDelta (s : Kernel) (delta : Nat) : Kernel :=
  { s with history.maxDelta := max s.history.maxDelta delta }

@[simps -fullyApplied]
def logKill (s : Kernel) (p : Nat) : Kernel :=
  { s with history.killed := Function.update s.history.killed p true }

@[simps -fullyApplied]
def logReap (s : Kernel) (r : Reap) : Kernel := { s with history.reaps := r :: s.history.reaps }

/-- `get_ns_passed`. -/
def ns (s : Kernel) : Nat := s.tick * s.ticklen

/-! ## Queues -/

def removeFromQueue (s : Kernel) (p : Nat) : Option Kernel :=
  let handle := (s.proc p).queueHandle
  (match (s.proc p).curQueue with
  | .runQueue => (s.runQueue.erase handle).map fun t => s.putQueues t s.sleepQueue s.waiting
  | .sleepQueue => (s.sleepQueue.erase handle).map fun t => s.putQueues s.runQueue t s.waiting
  | .eventQueue => some (s.putQueues s.runQueue s.sleepQueue fun cv =>
      (s.waiting cv).filter fun e => e.1 ≠ handle)
  | .noQueue => some s).map fun s : Kernel => s.modify p Proc.leave

end Kernel

/-- `rbtree::insert`. -/
def Config.insert {K : Type} (cfg : Config) (o : Rbtree.Order K) (t : Rbtree K) (k : K) :
    Option (Rbtree K × Nat) :=
  if cfg.guard && !Rbtree.insertOk o t k then none else Rbtree.insert o t k

namespace Kernel
variable (cfg : Config)

/-- `queue_handle = run_queue.insert(p).handle()`. -/
def insertRun (s : Kernel) (p : Nat) : Option Kernel :=
  (cfg.insert (procOrder s.proc) s.runQueue p).map fun r =>
    (s.putQueues r.1 s.sleepQueue s.waiting).modify p fun q => q.setHandle r.2

/-- The part of `add_proc_run` after its test of `interrupted`. -/
def makeReady (s : Kernel) (p : Nat) : Option Kernel := do
  let s ← s.removeFromQueue p
  let s := s.modify p fun q =>
    { q with vruntime := cfg.wrap (q.vruntime + s.minVruntime), curQueue := .runQueue }
  let s ← s.insertRun cfg p
  return s.modify p (·.setStatus .ready)

/-- `add_proc_run`. Its result is false only for an interrupted process that may
not be interrupted, and no caller that interrupts reads it. -/
def addProcRun (s : Kernel) (p : Nat) (interrupted : Bool) : Option Kernel :=
  if interrupted && (s.proc p).status == .waiting then
    (s.modify p (·.setInterrupted true)).makeReady cfg p
  else if interrupted && (s.proc p).status == .waitingNoInterrupt then some s
  else s.makeReady cfg p

def removeProcRun (s : Kernel) (p : Nat) : Option Kernel := do
  let s ← s.removeFromQueue p
  return s.modify p fun q =>
    { q with
      vruntime := if s.minVruntime ≤ q.vruntime then q.vruntime - s.minVruntime else q.vruntime
      status := .ready }

/-- The loop of `timer_tick`. The iterator moves on before its node is erased. -/
def wakeSleepers (now : Nat) : Nat → Kernel → Nat → Option Kernel
  | 0, _, _ => none
  | fuel + 1, s, it =>
    let key := (s.sleepQueue.node it).key
    if it ≠ Rbtree.nil ∧ key.wakeupNs ≤ now then do
      let next ← s.sleepQueue.succ it
      let s ← s.addProcRun cfg key.p false
      wakeSleepers now fuel s next
    else some s

/-! ## schedule -/

/-- The end of the first half of `schedule`: from here on it waits for a process
to run, in `idle_loop` if there is none. -/
@[simps -fullyApplied]
def toSelect (s : Kernel) (now pold : Nat) : Kernel :=
  { s with mode := .select now pold, online := s.runQueue.sz != 0 }

/-- What `schedule` does to the process that was running: charge it, save its
state, and put it back into the run queue if it is there. -/
def switchOut (s : Kernel) (p : Nat) (delta : Nat) (regs : Bool) : Option Kernel :=
  let save := fun q : Proc => q.save (cfg.wrap (q.vruntime + delta)) regs s.fpu
  let s := (s.setFpuOut p s.fpu).logDelta delta
  if (s.proc p).curQueue = .runQueue then do
    let s ← s.removeFromQueue p
    (s.modify p fun q => { save q with curQueue := .runQueue, status := .ready }).insertRun cfg p
  else some (s.modify p save)

/-- How long the current process may run. -/
def curLatency (s : Kernel) : Nat :=
  max scheduleMinDelta (if s.runQueue.sz > 0 then schedLatency / s.runQueue.sz else 0)

/-- The first half of `schedule`; `regs` says if it has the registers of an
interrupt. -/
def schedule (s : Kernel) (regs : Bool) : Option Kernel :=
  if !s.online then some s
  else
    let s := s.clts
    let delta := s.ns - s.lastSched
    if s.curProc = 0 then some (s.toSelect s.ns 0)
    else if delta < s.curLatency ∧ regs then some s
    else (s.switchOut cfg s.curProc delta regs).map fun s' => s'.toSelect s.ns s.curProc

/-- `__schedule` of the current process, which will go on at `cont`. -/
def scheduleFrom (s : Kernel) (cont : Cont) : Option Kernel :=
  ((s.modify s.curProc (·.setCont cont)).setOnline true).schedule cfg false

@[simps -fullyApplied]
def addTick (s : Kernel) : Kernel := { s with tick := s.tick + 1 }

/-- `timer_tick`, called by the callback of the timer. -/
def timerTick (s : Kernel) : Option Kernel := do
  let s := s.clts.addTick
  let it ← s.sleepQueue.begin
  let s ← wakeSleepers cfg s.ns s.sleepQueue.fresh s it
  s.schedule cfg true

/-! ## Condition variables and signals -/

/-- `push_front` inserts after the first entry. -/
def pushFront {α : Type} (xs : List α) (x : α) : List α :=
  match xs with
  | [] => [x]
  | y :: ys => y :: x :: ys

/-- A new entry for the process in the list of a condition variable. -/
@[simps -fullyApplied]
def pushWaiting (s : Kernel) (cv p : Nat) : Kernel :=
  { s with
    waiting := Function.update s.waiting cv (pushFront (s.waiting cv) (s.freshEntry, p))
    freshEntry := s.freshEntry + 1 }

/-- `condvar::wait`. -/
def wait (s : Kernel) (cv : Nat) : Option Kernel := do
  let s ← (s.setOnline false).removeProcRun s.curProc
  let s := s.modify s.curProc fun q =>
    { q with status := .waiting, curQueue := .eventQueue, queueHandle := s.freshEntry }
  (s.pushWaiting cv s.curProc).scheduleFrom cfg .wait

/-- The loop of `condvar::wake` over the entries. -/
def wakeEntries (tid : Int) : List (Nat × Nat) → Kernel → Option Kernel
  | [], s => some s
  | e :: es, s =>
    if (e.2 : Int) = tid then s.addProcRun cfg e.2 false
    else if tid = -1 then (s.addProcRun cfg e.2 false).bind (wakeEntries tid es)
    else wakeEntries tid es s

/-- `condvar::wake`. -/
def wake (s : Kernel) (cv : Nat) (tid : Int) : Option Kernel := wakeEntries cfg tid (s.waiting cv) s

/-- `_tkill`. The pending set has 32 bits, and `bitmap::set` writes outside of it
for larger numbers. -/
def tkillProc (s : Kernel) (p sig : Nat) : Option Kernel :=
  if sig ≠ 0 ∧ (s.proc p).status ≠ .zombie then
    if sig < 32 then
      (s.modify p (·.setSignal sig true)).addProcRun cfg p true
    else none
  else some s

/-! ## The process tree -/

/-- `proc::remove`. -/
def unlink (s : Kernel) (p : Nat) : Kernel :=
  let next := (s.proc p).nextSibling
  let prev := (s.proc p).prevSibling
  let parent := (s.proc p).parent
  let s := if next ≠ 0 then s.modify next (·.setPrev prev) else s
  let s :=
    if prev ≠ 0 then s.modify prev (·.setNext next)
    else if parent ≠ 0 ∧ (s.proc parent).lastChild = p then s.modify parent (·.setLast next)
    else s
  s.modify p fun q => (q.setNext 0).setPrev 0

/-- `delete p`, with the destructor. -/
def delete (s : Kernel) (p : Nat) : Kernel :=
  (s.unlink p).modify p fun q => { q with deleted := true }

/-- The loops along the siblings: the first process with `test`, or null. -/
def findSibling (s : Kernel) (test : Nat → Bool) : Nat → Nat → Option Nat
  | 0, _ => none
  | fuel + 1, p =>
    if p = 0 ∨ test p then some p else s.findSibling test fuel (s.proc p).nextSibling

/-- The first child of the current process with `test`, or null. -/
def findChild (s : Kernel) (test : Nat → Bool) : Option Nat :=
  s.findSibling test (s.nextTid + 1) (s.proc s.curProc).lastChild

/-- The loop of `exit` over the children. -/
def exitChildren (cur : Nat) : Nat → Kernel → Nat → Option Kernel
  | 0, _, _ => none
  | fuel + 1, s, child =>
    if child = 0 then some s
    else if (s.proc child).parent ≠ cur then none
    else
      let next := (s.proc child).nextSibling
      let s :=
        if (s.proc child).status = .zombie then s.delete child
        else s.modify child (·.setParent 0)
      exitChildren cur fuel s next

/-- How `exit` tells the parent of `p`. -/
def notifyParent (s : Kernel) (p : Nat) : Option Kernel :=
  let parent := (s.proc p).parent
  if parent = 0 then some s
  else if (s.proc parent).status = .waiting ∧
      ((s.proc parent).waitPid < 0 ∨ (s.proc parent).waitPid = (s.proc p).pid) then
    s.addProcRun cfg parent false
  else
    s.tkillProc cfg parent (exitSignal (s.proc p).cloneFlags)

/-- `proc_list.erase(proc_list.find(tid))`. -/
def eraseProcList (s : Kernel) (tid : Nat) : Option Kernel := do
  let a ← s.procList.find (fun q => q == tid) (fun q => decide (q < tid))
  let t ← s.procList.erase a
  return s.setProcList t

/-- `exit`, up to the switch. -/
def exit (s : Kernel) (status : Int) : Option Kernel := do
  let p := s.curProc
  let s ← exitChildren p (s.nextTid + 1) s.clts (s.proc p).lastChild
  let s ← s.removeFromQueue p
  let s ← (s.setCur 0).eraseProcList p
  let s := s.modify p (·.ended status)
  let s ← s.notifyParent cfg p
  if s.online then s.schedule cfg false else none

/-- `newproc->parent = ...` and the lines that link the new process. -/
def linkChild (s : Kernel) (p parent : Nat) : Kernel :=
  let next := (s.proc parent).lastChild
  let s := s.modify p fun q => (q.setParent parent).setNext next
  let s := if next ≠ 0 then s.modify next (·.setPrev p) else s
  s.modify parent (·.setLast p)

/-- `next_tid++`. -/
@[simps -fullyApplied]
def takeTid (s : Kernel) : Kernel := { s with nextTid := s.nextTid + 1 }

/-- The process that `clone` makes. -/
@[simps! -isSimp]
def cloned (s : Kernel) (flags : Nat) : Proc :=
  let caller := s.proc s.curProc
  { Proc.new s.nextTid caller.uid with
    pid := if flags &&& cloneThread ≠ 0 then caller.pid else s.nextTid
    cont := .clone
    nice := caller.nice
    cloneFlags := flags
    fpuBuf := if caller.fpuUsed then s.fpu else caller.fpuBuf }

/-- Its parent. -/
def clonedParent (s : Kernel) (flags : Nat) : Nat :=
  if flags &&& cloneParent ≠ 0 then (s.proc s.curProc).parent else s.curProc

/-- The end of `clone`: the new process gets its place. -/
def register (s : Kernel) (p parent : Nat) (q : Proc) : Option Kernel := do
  let s ← ((s.modify p fun _ => q).linkChild p parent).addProcRun cfg p false
  let r ← cfg.insert (procOrder s.proc) s.procList p
  return s.setProcList r.1

/-- `clone`; `mem` says if the page directory can be allocated, without which the
new process is deleted again. A caller without a parent that asks for
`CLONE_PARENT` makes the kernel follow a null pointer. -/
def clone (s : Kernel) (flags : Nat) (mem : Bool) : Option Kernel :=
  let s' := s.takeTid.setFpuOut s.nextTid none
  if flags &&& cloneCsignalMask ≥ 32 then some s
  else if mem = false then some s'
  else if s.clonedParent flags = 0 then none
  else s'.register cfg s.nextTid (s.clonedParent flags) (s.cloned flags)

/-- `_waitpid_ret`. -/
def reap (s : Kernel) (pid : Int) (child : Nat) : Kernel :=
  let q := s.proc child
  (s.delete child).logReap ⟨s.curProc, pid, child, q.pid, q.exitStatus⟩

/-- The children that the first loops of `waitpid` look for. -/
def waitTest (s : Kernel) (pid : Int) (c : Nat) : Bool :=
  if pid ≤ 0 then (s.proc c).status == .zombie else (s.proc c).pid == pid

/-- `waitpid` goes to sleep. -/
def waitpidSleep (s : Kernel) (pid : Int) : Option Kernel := do
  let p := s.curProc
  let s := s.modify p (·.setWaitPid (if pid ≤ 0 then -1 else pid))
  let s ← s.removeProcRun p
  (s.modify p (·.setStatus .waiting)).scheduleFrom cfg (.waitpid pid)

/-- `waitpid`, up to the switch; `ptr` says if the status pointer is good. -/
def waitpid (s : Kernel) (pid : Int) (ptr : Bool) (options : Int) : Option Kernel :=
  if options ≠ 0 ∨ ptr = false ∨ pid < -1 then some s
  else if (s.proc s.curProc).waitPid ≠ 0 then none
  else if pid ≤ 0 ∧ (s.proc s.curProc).lastChild = 0 then some s
  else do
    let c ← s.findChild (s.waitTest pid)
    if pid > 0 ∧ c = 0 then return s
    else if c ≠ 0 ∧ (s.proc c).status = .zombie then return s.reap pid c
    else s.waitpidSleep cfg pid

/-- The children that the last loop of `waitpid` looks for. -/
def wokenTest (s : Kernel) (pid : Int) (c : Nat) : Bool :=
  !((decide (pid < 1) || (s.proc c).pid != pid) && (s.proc c).status != .zombie)

/-- The end of `waitpid`, after the switch back. -/
def waitpidWoken (s : Kernel) (pid : Int) : Option Kernel := do
  let c ← s.findChild (s.wokenTest pid)
  if c = 0 then none
  else return (s.modify s.curProc (·.setWaitPid 0)).reap pid c

/-- The process switched to goes on where it was; in `__schedule` that is
`check_interrupted`. -/
def resume (s : Kernel) : Option Kernel :=
  let q := s.proc s.curProc
  let woken := s.modify s.curProc (·.setInterrupted false)
  match q.cont with
  | .user | .clone => some s
  | .nanosleep | .wait => some woken
  | .waitpid pid => if q.interrupted then some woken else woken.waitpidWoken pid

/-- The last lines of `schedule`, which load the state of the process; its FPU
registers only if another process ran before. -/
@[simps -fullyApplied]
def load (s : Kernel) (p pold : Nat) : Kernel :=
  { s with
    fpu := if p ≠ pold then (s.proc p).fpuBuf else s.fpu
    ts := true
    mode := .outside }

/-- The end of `schedule`. -/
def dispatch (s : Kernel) (pold : Nat) : Option Kernel :=
  let p := s.curProc
  (((s.modify p (·.setStatus .running)).load p pold).setFpuOut p none).resume

/-- `cur_proc` is the process chosen to run. -/
@[simps -fullyApplied]
def choose (s : Kernel) (p now : Nat) : Kernel :=
  { s with
    online := true
    lastSched := now
    curProc := p
    minVruntime := (s.proc p).vruntime }

/-- The second half of `schedule`, when there is a process to run. To read a freed
process is undefined. -/
def select (s : Kernel) (now pold : Nat) : Option Kernel := do
  let a ← s.runQueue.begin
  let p := (s.runQueue.node a).key
  if s.runQueue.sz = 0 ∨ p = 0 ∨ (s.proc p).deleted then none
  else
    let s := s.choose p now
    match (s.proc p).signals.firstOne with
    | none => s.dispatch pold
    | some sig =>
      let s := s.modify p (·.setSignal sig false)
      if fatal sig then s.exit cfg (128 + sig) else s.dispatch pold

/-! ## Other system calls -/

def nanosleep (s : Kernel) (ns : Nat) : Option Kernel :=
  if ns < 10 then some s
  else do
    let s ← s.removeProcRun s.curProc
    let s := (s.modify s.curProc fun q =>
      { q with status := .waiting, curQueue := .sleepQueue }).clts
    let r ← cfg.insert sleepOrder s.sleepQueue ⟨s.curProc, cfg.wrap (s.ns + ns)⟩
    ((s.putQueues s.runQueue r.1 s.waiting).modify s.curProc fun q => q.setHandle r.2).scheduleFrom
      cfg .nanosleep

def tkill (s : Kernel) (tid sig : Int) : Option Kernel :=
  if sig < 0 then some s
  else do
    let a ← s.procList.find (fun q => (q : Int) == tid) (fun q => decide ((q : Int) < tid))
    if a = Rbtree.nil then return s else s.tkillProc cfg (s.procList.node a).key sig.toNat

/-- `setnice`. The process is back in the run queue, but `cur_queue` is not set. -/
def setnice (s : Kernel) (inc : Int) : Option Kernel :=
  let p := s.curProc
  if inc < 0 ∧ (s.proc p).uid ≠ 0 then some s
  else if inc = 0 then some s
  else do
    let s ← s.removeFromQueue p
    (s.modify p fun q => { q with nice := max (-20) (min 19 (q.nice + inc)) }).insertRun cfg p

/-- `_kill_current(SIGSEGV)`, called for a page fault in user mode. -/
def fault (s : Kernel) : Option Kernel := do
  let s' ← s.tkillProc cfg s.curProc sigsegv
  ((s'.logKill s.curProc).setCur 0).schedule cfg false

@[simps -fullyApplied]
def setFpu (s : Kernel) (v : Fpu) : Kernel := { s with fpu := v }

/-- An instruction of the current process writes the FPU registers; with CR0.TS it
traps first. -/
def useFpu (s : Kernel) (v : Fpu) : Kernel :=
  (if s.ts then (s.modify s.curProc fun q => { q with fpuUsed := true }).clts else s).setFpu v

end Kernel

/-! ## The machine -/

inductive Event where
  | tick
  | select
  | fpu (v : Fpu)
  | fault
  | clone (flags : Nat) (mem : Bool)
  | exit (status : Int)
  | waitpid (pid : Int) (ptr : Bool) (options : Int)
  | nanosleep (ns : Nat)
  | wait (cv : Nat)
  | wake (cv : Nat) (tid : Int)
  | tkill (tid sig : Int)
  | setnice (inc : Int)

namespace Kernel

/-- Interrupts are on: in `schedule` only in `idle_loop`, which serves what is pending before it
looks at the run queue again. -/
def interruptible (s : Kernel) : Bool :=
  match s.mode with
  | .outside => true
  | .select _ _ => !s.online

/-- What the current process does in user mode, or by a system call. -/
def userStep (cfg : Config) (s : Kernel) : Event → Option Kernel
  | .fpu v => some (s.useFpu v)
  | .fault => s.fault cfg
  | .clone flags mem => s.clone cfg flags mem
  | .exit status => s.exit cfg status
  | .waitpid pid ptr options => s.waitpid cfg pid ptr options
  | .nanosleep ns => s.nanosleep cfg ns
  | .wait cv => s.wait cfg cv
  | .tkill tid sig => s.tkill cfg tid sig
  | .setnice inc => s.setnice cfg inc
  | .tick | .select | .wake _ _ => none

def step (cfg : Config) (s : Kernel) (e : Event) : Option Kernel :=
  match e, s.mode with
  | .tick, _ => if s.interruptible then s.timerTick cfg else none
  | .wake cv tid, _ => if s.interruptible then s.wake cfg cv tid else none
  | .select, .select now pold => s.select cfg now pold
  | _, .outside => if s.curProc = 0 then none else s.userStep cfg e
  | _, _ => none

/-- The state before `init` makes its processes. -/
def boot (tick ticklen : Nat) (fpu : Fpu) : Kernel where
  proc _ := .new 0 0
  nextTid := 1
  procList := .empty
  runQueue := .empty
  sleepQueue := .empty
  waiting _ := []
  freshEntry := 1
  curProc := 0
  minVruntime := 0
  online := false
  lastSched := 0
  tick := tick
  ticklen := ticklen
  fpu := fpu
  ts := false
  mode := .outside
  history := ⟨fun _ => none, 0, fun _ => false, []⟩

/-- One round of the loop of `init`; `uid` is whatever was in memory. -/
def add (cfg : Config) (s : Kernel) (uid : Nat) : Option Kernel :=
  let p := s.nextTid
  let s := s.takeTid.modify p fun _ => { Proc.new p uid with fpuBuf := s.fpu, status := .ready }
  (s.insertRun cfg p).map fun s => s.modify p fun q => { q with curQueue := .runQueue }

def init (cfg : Config) (tick ticklen : Nat) (fpu : Fpu) (uid uid' : Nat) : Option Kernel := do
  let s ← (boot tick ticklen fpu).add cfg uid
  let s ← s.add cfg uid'
  return s.setOnline true

end Kernel

end Sysint.Process
