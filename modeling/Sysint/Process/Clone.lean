import Sysint.Process.Elf
import Sysint.Process.Family
import Sysint.Process.Wake

/-! What a call of `clone` comes to. -/
namespace Sysint.Process
open Elf (einval enomem)
open Rbtree (Linked)
open Kernel
open Machine

variable {w : Nat → Nat} {s s' : Kernel} {flags p parent : Nat} {mem : Bool}

/-- Nobody's relatives change, and no queue does. -/
structure Untouched (s s' : Kernel) : Prop where
  proc : s'.proc = s.proc
  run : s'.runQueue = s.runQueue
  sleep : s'.sleepQueue = s.sleepQueue
  waiting : s'.waiting = s.waiting
  list : s'.procList = s.procList

/-- The process `p` is the first child of `parent` now. -/
structure LinkedUnder (s s' : Kernel) (p parent : Nat) : Prop where
  up : (s'.proc p).parent = parent
  last : (s'.proc parent).lastChild = p
  next : (s'.proc p).nextSibling = (s.proc parent).lastChild
  prev : (s.proc parent).lastChild ≠ 0 → (s'.proc (s.proc parent).lastChild).prevSibling = p

/-- To become READY changes no relatives. -/
theorem LinkedUnder.readied {s0 s1 : Kernel} {rq rq' : List (Nat × Nat)} {ps : List Nat}
    (L : LinkedUnder s s0 p parent) (R : Readied w s0 s1 rq rq' ps) :
    LinkedUnder s s1 p parent := by
  have hrel (x : Nat) : (s1.proc x).parent = (s0.proc x).parent ∧
      (s1.proc x).lastChild = (s0.proc x).lastChild ∧
      (s1.proc x).nextSibling = (s0.proc x).nextSibling ∧
      (s1.proc x).prevSibling = (s0.proc x).prevSibling := by
    by_cases hx : x ∈ ps
    · obtain ⟨a, -, hproc⟩ := R.ready x hx
      rw [hproc]
      exact ⟨rfl, rfl, rfl, rfl⟩
    · rw [R.same x hx]
      exact ⟨rfl, rfl, rfl, rfl⟩
  constructor
  · rw [(hrel _).1, L.up]
  · rw [(hrel _).2.1, L.last]
  · rw [(hrel _).2.2.1, L.next]
  · intro hne
    rw [(hrel _).2.2.2, L.prev hne]

end Sysint.Process
