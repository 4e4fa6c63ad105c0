import Mathlib.Data.Int.Basic
import Sysint.Sync.Mutex

/-! The counting semaphore of `lib/semaphore.h`. -/
namespace Sysint.Sync

open Monitor Machine
open Process.Kernel (pushFront)
open Machine

/-- The integral type of the count, by its least and its greatest value. -/
structure Counter where
  lo : Int
  hi : Int
  lo_le : lo ≤ 0
  le_hi : 0 ≤ hi

/-- A result that does not fit wraps around. -/
def Counter.wrap (c : Counter) (x : Int) : Int := c.lo + (x - c.lo) % (c.hi - c.lo + 1)

theorem Counter.wrap_of_fits (c : Counter) {x : Int} (h : c.lo ≤ x) (h' : x ≤ c.hi) :
    c.wrap x = x := by
  unfold wrap
  rw [Int.emod_eq_of_lt (by omega) (by omega)]
  omega

def Counter.unsignedInt : Counter := ⟨0, 2 ^ 32 - 1, by decide, by decide⟩

inductive SemaphoreOp where
  | up
  | tryUp
  | down
  | tryDown
  deriving DecidableEq

def SemaphoreOp.raises : SemaphoreOp → Bool
  | .up | .tryUp => true
  | .down | .tryDown => false

inductive SemaphoreCond where
  | notmax
  | notmin
  deriving DecidableEq

/-- The arguments of a constructed semaphore. -/
structure Semaphore where
  counter : Counter
  val : Int
  maxval : Int
  val_nonneg : 0 ≤ val
  val_le : val ≤ maxval
  maxval_le : maxval ≤ counter.hi

namespace Semaphore

variable {P : Type} (S : Semaphore)

/-- `semaphore::up`. The value is `count`. -/
def up : Call P SemaphoreCond Int where
  busy _ count := count ≥ S.maxval
  onBusy := .wait .notmax
  update _ count := S.counter.wrap (count + 1)
  wakes := some .notmin

/-- `semaphore::try_up`. -/
def tryUp : Call P SemaphoreCond Int where
  busy _ count := count ≥ S.maxval
  onBusy := .fail (-ebusy)
  update _ count := S.counter.wrap (count + 1)
  wakes := some .notmin

/-- `semaphore::down`. -/
def down : Call P SemaphoreCond Int where
  busy _ count := count ≤ 0
  onBusy := .wait .notmin
  update _ count := S.counter.wrap (count - 1)
  wakes := some .notmax

/-- `semaphore::try_down`. -/
def tryDown : Call P SemaphoreCond Int where
  busy _ count := count ≤ 0
  onBusy := .fail (-ebusy)
  update _ count := S.counter.wrap (count - 1)
  wakes := some .notmax

def call : SemaphoreOp → Call P SemaphoreCond Int
  | .up => S.up
  | .tryUp => S.tryUp
  | .down => S.down
  | .tryDown => S.tryDown

def semaphore (P : Type) [DecidableEq P] : Monitor P SemaphoreCond SemaphoreOp Int where
  call := S.call
  eintr := -eintr
  push := pushFront
  mem_push := mem_pushFront

abbrev State (P : Type) := Monitor.State P SemaphoreCond SemaphoreOp Int

/-- The semaphore as constructed. -/
def Fresh (s : State P) : Prop := s = .fresh S.val

/-! ## The count and the sleepers -/

/-- The number of successful calls that raise (or lower) the count. -/
def successes (raising : Bool) (h : List (P × SemaphoreOp × Int)) : Nat :=
  h.countP fun x => x.2.1.raises = raising ∧ x.2.2 = 0

theorem successes_cons (raising : Bool) (p : P) (o : SemaphoreOp) (r : Int)
    (h : List (P × SemaphoreOp × Int)) : successes raising ((p, o, r) :: h) =
      successes raising h + if o.raises = raising ∧ r = 0 then 1 else 0 := by
  simp [successes, List.countP_cons]

/-- What holds of a semaphore whenever its spinlock is free. -/
structure Counted (count : Int) (w : SemaphoreCond → List P) (h : List (P × SemaphoreOp × Int)) :
    Prop where
  nonneg : 0 ≤ count
  le : count ≤ S.maxval
  balance : count = S.val + successes true h - successes false h
  notmin : 0 < count → w .notmin = []
  notmax : count < S.maxval → w .notmax = []

variable {S} {count : Int} {w : SemaphoreCond → List P} {h : List (P × SemaphoreOp × Int)} {p : P}
  {o : SemaphoreOp}

section

variable (H : Counted S count w h)
include H

theorem Counted.fail {r : Int} (hr : r ≠ 0) :
    Counted S count w ((p, o, r) :: h) where
  nonneg := H.nonneg
  le := H.le
  balance := by simpa [successes_cons, hr] using H.balance
  notmin := H.notmin
  notmax := H.notmax

theorem Counted.without [DecidableEq P] (c : SemaphoreCond) :
    Counted S count (Monitor.without w c p) h where
  nonneg := H.nonneg
  le := H.le
  balance := H.balance
  notmin := by
    intro hc
    cases c <;> simp [Monitor.without, H.notmin hc]
  notmax := by
    intro hc
    cases c <;> simp [Monitor.without, H.notmax hc]

/-- A sleeper on `notmax` has found the count at its bound. -/
theorem Counted.sleep_notmax (hc : S.maxval ≤ count) (xs : List P) :
    Counted S count (Function.update w .notmax xs) h where
  nonneg := H.nonneg
  le := H.le
  balance := H.balance
  notmin := by
    intro h0
    simpa using H.notmin h0
  notmax := by
    intro hlt
    omega

theorem Counted.sleep_notmin (hc : count ≤ 0) (xs : List P) :
    Counted S count (Function.update w .notmin xs) h where
  nonneg := H.nonneg
  le := H.le
  balance := H.balance
  notmin := by
    intro h0
    omega
  notmax := by
    intro hlt
    simpa using H.notmax hlt

/-- A raise wakes everybody who waits for a positive count. -/
theorem Counted.raise (ho : o.raises = true) (hc : count < S.maxval) :
    Counted S (S.counter.wrap (count + 1)) (wakeAll w (some .notmin)) ((p, o, 0) :: h) := by
  have hlo := S.counter.lo_le
  have hhi := S.maxval_le
  have hn := H.nonneg
  rw [S.counter.wrap_of_fits (by omega) (by omega)]
  constructor
  · omega
  · omega
  · have hb := H.balance
    simp only [successes_cons, ho, and_self, if_true, Bool.true_eq_false, false_and, if_false]
    omega
  · intro _
    simp [wakeAll]
  · intro _
    simpa [wakeAll] using H.notmax hc

theorem Counted.lower (ho : o.raises = false) (hc : 0 < count) :
    Counted S (S.counter.wrap (count - 1)) (wakeAll w (some .notmax)) ((p, o, 0) :: h) := by
  have hlo := S.counter.lo_le
  have hhi := S.maxval_le
  have hle := H.le
  rw [S.counter.wrap_of_fits (by omega) (by omega)]
  constructor
  · omega
  · omega
  · have hb := H.balance
    simp only [successes_cons, ho, and_self, if_true, Bool.false_eq_true, false_and, if_false]
    omega
  · intro _
    simpa [wakeAll] using H.notmin hc
  · intro _
    simp [wakeAll]

end

variable (S) [DecidableEq P]

theorem keeps_counted : Keeps (S.semaphore P) (fun _ _ _ _ => True) (Counted S) where
  signal := by
    intro v w h c p H
    exact H.without c
  guard := by
    intro _ _ _ _ _ _ _
    trivial
  sleep := by
    intro v w h p o c H hb hw
    cases o
    · cases hw
      exact H.sleep_notmax (by simpa [semaphore, call, up] using hb) _
    · cases hw
    · cases hw
      exact H.sleep_notmin (by simpa [semaphore, call, down] using hb) _
    · cases hw
  interrupt := by
    intro v w h p o r H hr
    exact H.fail hr
  refuse := by
    intro v w h p o r H _ hw
    have hr : r ≠ 0 := by cases o <;> cases hw <;> decide
    exact H.fail hr
  finish := by
    intro v w h p o H hb _
    cases o
    · exact H.raise rfl (by simpa [semaphore, call, up] using hb)
    · exact H.raise rfl (by simpa [semaphore, call, tryUp] using hb)
    · exact H.lower rfl (by simpa [semaphore, call, down] using hb)
    · exact H.lower rfl (by simpa [semaphore, call, tryDown] using hb)

/-- The count stays within its bounds; whenever the spinlock is free, it is the balance
of the successful calls, and nobody sleeps for what is already there. -/
theorem semaphore_safe {s : State P} (h : Reach S.Fresh (step (S.semaphore P)) always s) :
    (0 ≤ s.value ∧ s.value ≤ S.maxval) ∧ (s.lock = none →
      s.value = S.val + successes true s.returns - successes false s.returns ∧
      (0 < s.value → s.waiting .notmin = []) ∧
      (s.value < S.maxval → s.waiting .notmax = [])) := by
  have I : Inv (S.semaphore P) (fun _ _ _ _ => True) (Counted S) s := by
    apply reach_inv S.keeps_counted _ _ h
    · intro s hs
      refine ⟨S.val, hs, S.val_nonneg, S.val_le, ?_, fun _ => rfl, fun _ => rfl⟩
      simp [successes]
    · intro _ _ _ _ _
      trivial
  constructor
  · obtain ⟨w, h', H⟩ := (I.parts S.keeps_counted).1
    exact ⟨H.nonneg, H.le⟩
  · intro hl
    have H := I.free hl
    exact ⟨H.balance, H.notmin, H.notmax⟩

/-- A binary semaphore that starts at 0. -/
def binary : Semaphore where
  counter := .unsignedInt
  val := 0
  maxval := 1
  val_nonneg := by decide
  val_le := by decide
  maxval_le := by decide

/-- Process 1 sleeps in `down`, and the `up` of process 2 takes it off the list. -/
theorem semaphore_safe_sample : ∃ s : State Nat,
    Reach binary.Fresh (step (binary.semaphore Nat)) always s ∧
      s.point 1 = .asleep .down .notmin ∧ s.value = 1 ∧ s.waiting .notmin = [] := by
  have hrun : (run (step (binary.semaphore Nat)) (.fresh 0)
      (.call 1 .down :: List.replicate 4 (.run 1) ++
        .call 2 .up :: List.replicate 5 (.run 2))).map
        (fun s => (s.point 1, s.lock, s.returns)) =
          some (.asleep .down .notmin, none, [(2, .up, 0)]) := by
    decide +kernel
  obtain ⟨s, hs, hv⟩ := run_of_map hrun
  simp only [Prod.mk.injEq] at hv
  obtain ⟨hp, hl, hret⟩ := hv
  have h : Reach binary.Fresh (step (binary.semaphore Nat)) always s := Reach.run (.init rfl) hs
  obtain ⟨hbal, hmin, -⟩ := (semaphore_safe binary h).2 hl
  have hcount : s.value = 1 := by
    rw [hbal, hret]
    decide
  exact ⟨s, h, hp, hcount, hmin (by omega)⟩

end Semaphore

/-! ## Results and the spinlock -/

/-- In a run in which no signal reaches a sleeper, every call of a mutex or of a
semaphore returns with the spinlock released. -/
theorem calls_release (P : Type) [DecidableEq P] :
    (∀ (s t : Mutex.State P) (p : P) (o : MutexOp) (r : Int),
      Reach Mutex.Fresh (step (Mutex.mutex P)) Undisturbed s →
      step (Mutex.mutex P) s (.run p) = some t → t.returns = (p, o, r) :: s.returns →
      t.lock ≠ some p) ∧
    (∀ (S : Semaphore) (s t : Semaphore.State P) (p : P) (o : SemaphoreOp) (r : Int),
      Reach S.Fresh (step (S.semaphore P)) Undisturbed s →
      step (S.semaphore P) s (.run p) = some t → t.returns = (p, o, r) :: s.returns →
      t.lock ≠ some p) := by
  constructor
  · intro s t p o r h hstep hr
    exact released (fun _ hs => ⟨none, hs⟩) h hstep hr
  · intro S s t p o r h hstep hr
    exact released (fun _ hs => ⟨S.val, hs⟩) h hstep hr

/-- A process returns from `lock`, and one sleeps in `down` until an `up` wakes it and
returns. -/
theorem calls_release_sample :
    (∃ s t : Mutex.State Nat, Reach Mutex.Fresh (step (Mutex.mutex Nat)) Undisturbed s ∧
      t.returns = (1, .lock, 0) :: s.returns ∧ t.lock ≠ some 1) ∧
    ∃ s t : Semaphore.State Nat,
      Reach Semaphore.binary.Fresh (step (Semaphore.binary.semaphore Nat)) Undisturbed s ∧
      t.returns = (1, .down, 0) :: s.returns ∧ t.lock ≠ some 1 := by
  constructor
  · have hrun : (run (guarded (step (Mutex.mutex Nat)) Undisturbed) (.fresh none)
        (.call 1 .lock :: List.replicate 4 (.run 1))).map (fun s => s.point 1) =
          some (.leave .lock 0) := by
      decide +kernel
    obtain ⟨s, hs, hp⟩ := run_of_map hrun
    have h : Reach Mutex.Fresh (step (Mutex.mutex Nat)) Undisturbed s :=
      Reach.runGuarded (.init rfl) hs
    have hstep : step (Mutex.mutex Nat) s (.run 1) = some ((s.hold none).result 1 .lock 0) := by
      simp [step, Monitor.run, hp]
    exact ⟨s, _, h, rfl, (calls_release Nat).1 s _ 1 .lock 0 h hstep rfl⟩
  · have hrun : (run (guarded (step (Semaphore.binary.semaphore Nat)) Undisturbed) (.fresh 0)
        (.call 1 .down :: List.replicate 4 (.run 1) ++
          .call 2 .up :: List.replicate 5 (.run 2) ++ List.replicate 6 (.run 1))).map
          (fun s => s.point 1) = some (.leave .down 0) := by
      decide +kernel
    obtain ⟨s, hs, hp⟩ := run_of_map hrun
    have h : Reach Semaphore.binary.Fresh (step (Semaphore.binary.semaphore Nat)) Undisturbed s :=
      Reach.runGuarded (.init rfl) hs
    have hstep : step (Semaphore.binary.semaphore Nat) s (.run 1) =
        some ((s.hold none).result 1 .down 0) := by
      simp [step, Monitor.run, hp]
    exact ⟨s, _, h, rfl, (calls_release Nat).2 _ s _ 1 .down 0 h hstep rfl⟩

/-- A signal interrupts a sleeper in `lock`, and one in `down`: both calls return
`-EINTR` with the spinlock held. -/
theorem interrupted_calls_hold :
    (∃ s : Mutex.State Nat, Reach Mutex.Fresh (step (Mutex.mutex Nat)) always s ∧
      s.returns = [(2, .lock, -eintr), (1, .lock, 0)] ∧ s.lock = some 2) ∧
    ∃ s : Semaphore.State Nat,
      Reach Semaphore.binary.Fresh (step (Semaphore.binary.semaphore Nat)) always s ∧
      s.returns = [(1, .down, -eintr)] ∧ s.lock = some 1 := by
  constructor
  · have hrun : (run (step (Mutex.mutex Nat)) (.fresh none)
        (Mutex.through 1 .lock ++ Mutex.intoSleep 2 ++ .signal 2 :: List.replicate 3 (.run 2))).map
          (fun s => (s.returns, s.lock)) = some ([(2, .lock, -eintr), (1, .lock, 0)], some 2) := by
      decide +kernel
    obtain ⟨s, hs, hv⟩ := run_of_map hrun
    simp only [Prod.mk.injEq] at hv
    exact ⟨s, Reach.run (.init rfl) hs, hv⟩
  · have hrun : (run (step (Semaphore.binary.semaphore Nat)) (.fresh 0)
        (.call 1 .down :: List.replicate 4 (.run 1) ++ .signal 1 :: List.replicate 3 (.run 1))).map
          (fun s => (s.returns, s.lock)) = some ([(1, .down, -eintr)], some 1) := by
      decide +kernel
    obtain ⟨s, hs, hv⟩ := run_of_map hrun
    simp only [Prod.mk.injEq] at hv
    exact ⟨s, Reach.run (.init rfl) hs, hv⟩

end Sysint.Sync
