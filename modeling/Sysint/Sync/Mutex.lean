import Sysint.Lib.Monitor
import Sysint.Process.Model

/-! The sleeping mutex of `lib/mutex.h`. -/
namespace Sysint.Sync

open Monitor Machine
open Process.Kernel (pushFront)

def eintr : Int := 4

def eacces : Int := 13

def ebusy : Int := 16

theorem mem_pushFront {α : Type} (xs : List α) (x y : α) : y ∈ pushFront xs x ↔ y = x ∨ y ∈ xs := by
  cases xs with
  | nil => simp [pushFront]
  | cons z zs =>
    simp only [pushFront, List.mem_cons]
    tauto

inductive MutexOp where
  | lock
  | tryLock
  | unlock
  deriving DecidableEq

inductive MutexCond where
  | unlocked
  deriving DecidableEq

namespace Mutex

section Model

variable {P : Type} [DecidableEq P]

/-- `mutex::lock`. The value is `lockproc`. -/
def lock : Call P MutexCond (Option P) where
  busy _ lockproc := lockproc.isSome
  onBusy := .wait .unlocked
  update p _ := some p
  wakes := none

/-- `mutex::try_lock`. -/
def tryLock : Call P MutexCond (Option P) where
  busy _ lockproc := lockproc.isSome
  onBusy := .fail (-ebusy)
  update p _ := some p
  wakes := none

/-- `mutex::unlock`. It does not wake the processes waiting on `unlocked`. -/
def unlock : Call P MutexCond (Option P) where
  busy p lockproc := lockproc ≠ some p
  onBusy := .fail (-eacces)
  update _ _ := none
  wakes := none

end Model

def call {P : Type} [DecidableEq P] : MutexOp → Call P MutexCond (Option P)
  | .lock => lock
  | .tryLock => tryLock
  | .unlock => unlock

def mutex (P : Type) [DecidableEq P] : Monitor P MutexCond MutexOp (Option P) where
  call := call
  eintr := -eintr
  push := pushFront
  mem_push := mem_pushFront

variable {P : Type} [DecidableEq P] {p : P}

abbrev State (P : Type) := Monitor.State P MutexCond MutexOp (Option P)

/-- A mutex that nobody has used yet. -/
def Fresh (s : State P) : Prop := s = .fresh none

/-! ## Sleepers on a free mutex -/

/-- An `unlock` of the owner goes through only while nobody waits. -/
def UnlockAlone (s : State P) : Event P MutexOp → Prop
  | .run p => s.point p = .update .unlock → s.waiting .unlocked = []
  | _ => True

theorem keeps_alone : Keeps (mutex P) (fun _ o _ w => o = .unlock → w .unlocked = [])
    (fun lockproc w _ => lockproc = none → w .unlocked = []) where
  signal := by
    intro v w _ c p hj hv
    cases c
    simp [without, hj hv]
  guard := by
    intro p o v w c q hg ho
    cases c
    simp [without, hg ho]
  sleep := by
    -- only `lock` waits, and it does so while there is an owner
    intro v w _ p o c _ hb hw hv
    subst hv
    cases o
    · cases hb
    · cases hw
    · cases hw
  interrupt := by
    intro v w _ _ _ _ hj _
    exact hj
  refuse := by
    intro v w _ _ _ _ hj _ _
    exact hj
  finish := by
    intro v w _ p o _ _ hg hv
    cases o
    · cases hv
    · cases hv
    · exact hg rfl

/-- Nobody sleeps on a free mutex if every `unlock` finds the list empty. -/
theorem no_sleeper_on_free {s : State P} (h : Reach Fresh (step (mutex P)) UnlockAlone s)
    (hl : s.lock = none) (hv : s.value = none) : s.waiting .unlocked = [] := by
  have I := reach_inv keeps_alone ?_ ?_ h
  · exact I.free hl hv
  · intro s hs
    exact ⟨none, hs, fun _ => rfl⟩
  · intro s p o hok hp ho
    subst ho
    exact hok hp

/-- The steps of process `p` through a call that does not wait. -/
def through (p : Nat) (o : MutexOp) : List (Event Nat MutexOp) :=
  .call p o :: List.replicate 5 (.run p)

/-- The steps of process `p` into `lock` up to its sleep. -/
def intoSleep (p : Nat) : List (Event Nat MutexOp) :=
  .call p .lock :: List.replicate 4 (.run p)

instance (s : State P) (e : Event P MutexOp) : Decidable (UnlockAlone s e) := by
  cases e <;> unfold UnlockAlone <;> infer_instance

/-- A process goes to sleep in `lock`, a signal takes it off the list, and the owner
unlocks. -/
theorem no_sleeper_on_free_sample : ∃ s : State Nat,
    Reach Fresh (step (mutex Nat)) UnlockAlone s ∧ s.point 2 = .asleep .lock .unlocked ∧
      s.lock = none ∧ s.value = none ∧ s.waiting .unlocked = [] := by
  have hrun : (Machine.run (guarded (step (mutex Nat)) UnlockAlone) (.fresh none)
      (through 1 .lock ++ intoSleep 2 ++ [.signal 2] ++ through 1 .unlock)).map
        (fun s => (s.point 2, s.lock, s.value)) = some (.asleep .lock .unlocked, none, none) := by
    decide +kernel
  obtain ⟨s, hs, hv⟩ := run_of_map hrun
  simp only [Prod.mk.injEq] at hv
  obtain ⟨hp, hl, hv⟩ := hv
  have h : Reach Fresh (step (mutex Nat)) UnlockAlone s := Reach.runGuarded (.init rfl) hs
  exact ⟨s, h, hp, hl, hv, no_sleeper_on_free h hl hv⟩

/-- The owner unlocks while another process sleeps in `lock`: the mutex is free, and
the sleeper stays on the list. -/
theorem sleeper_on_free : ∃ s : State Nat, Reach Fresh (step (mutex Nat)) always s ∧
    s.lock = none ∧ s.value = none ∧ s.waiting .unlocked = [2] := by
  have hrun : (Machine.run (step (mutex Nat)) (.fresh none)
      (through 1 .lock ++ intoSleep 2 ++ through 1 .unlock)).map
        (fun s => (s.lock, s.value, s.waiting .unlocked)) = some (none, none, [2]) := by
    decide +kernel
  obtain ⟨s, hs, hv⟩ := run_of_map hrun
  simp only [Prod.mk.injEq] at hv
  exact ⟨s, Reach.run (.init rfl) hs, hv⟩

/-! ## Mutual exclusion -/

/-- The last successful call of the process took the mutex. -/
def owns (p : P) : List (P × MutexOp × Int) → Bool
  | [] => false
  | (q, o, r) :: h => if q = p ∧ r = 0 then o ≠ .unlock else owns p h

theorem owns_cons_other {q : P} (hq : q ≠ p) (o : MutexOp) (r : Int)
    (h : List (P × MutexOp × Int)) : owns p ((q, o, r) :: h) = owns p h := by
  simp [owns, hq]

theorem owns_cons_fail (p q : P) (o : MutexOp) {r : Int} (hr : r ≠ 0)
    (h : List (P × MutexOp × Int)) : owns p ((q, o, r) :: h) = owns p h := by
  simp [owns, hr]

/-- `lockproc` is the process that owns the mutex. -/
def Owner (lockproc : Option P) (_ : MutexCond → List P) (h : List (P × MutexOp × Int)) : Prop :=
  ∀ p, owns p h = true ↔ lockproc = some p

theorem owner_taken {o : MutexOp} {w : MutexCond → List P} {h : List (P × MutexOp × Int)}
    (ho : o ≠ .unlock) (H : Owner none w h) : Owner (some p) w ((p, o, 0) :: h) := by
  intro q
  by_cases hq : p = q
  · simp [owns, hq, ho]
  · have hn := H q
    simp [owns, hq, hn]

theorem owner_released {w : MutexCond → List P} {h : List (P × MutexOp × Int)}
    (H : Owner (some p) w h) : Owner none w ((p, .unlock, 0) :: h) := by
  intro q
  by_cases hq : p = q
  · simp [owns, hq]
  · have hn := H q
    simp [owns, hq, hn]

theorem keeps_owner : Keeps (mutex P) (fun _ _ _ _ => True) Owner where
  signal := by
    intro v w h c p H
    exact H
  guard := by
    intro _ _ _ _ _ _ _
    trivial
  sleep := by
    intro v w h p o c H _ _
    exact H
  interrupt := by
    intro v w h p o r H hr q
    rw [owns_cons_fail q p o hr]
    exact H q
  refuse := by
    intro v w h p o r H _ hw q
    have hr : r ≠ 0 := by cases o <;> cases hw <;> decide
    rw [owns_cons_fail q p o hr]
    exact H q
  finish := by
    intro v w h p o H hb _
    cases o with
    | lock =>
      obtain rfl : v = none := by simpa [mutex, call, lock] using hb
      exact owner_taken (by decide) H
    | tryLock =>
      obtain rfl : v = none := by simpa [mutex, call, tryLock] using hb
      exact owner_taken (by decide) H
    | unlock =>
      obtain rfl : v = some p := by simpa [mutex, call, unlock] using hb
      exact owner_released H

abbrev Reachable (s : State P) : Prop := Reach Fresh (step (mutex P)) always s

variable {s : State P}

theorem reach_owner (h : Reachable s) : Inv (mutex P) (fun _ _ _ _ => True) Owner s := by
  apply reach_inv keeps_owner _ _ h
  · intro s hs
    refine ⟨none, hs, ?_⟩
    intro p
    simp [owns]
  · intro _ _ _ _ _
    trivial

/-- Whether a process owns the mutex changes only with its own results. -/
theorem owns_during {t : State P} {o : MutexOp} {changed : Prop}
    (D : During (mutex P) p o s t changed) : owns p t.returns = owns p s.returns := by
  induction D with
  | start => rfl
  | own D hstep hidle ih =>
    obtain ⟨-, hret, -⟩ | ⟨hi, -⟩ := (moves_of_run hstep).within D.committed.1
    · rw [hret, ih]
    · exact absurd hi hidle
  | other D he hstep ih =>
    obtain hret | ⟨q, o', r, rfl, hret⟩ := step_returns hstep
    · rw [hret, ih]
    · have hq : q ≠ p := fun hqp => he (hqp ▸ rfl)
      rw [hret, owns_cons_other hq, ih]

/-- An `unlock` that is about to return 0 is one of the owner. -/
theorem owns_of_unlocked {t : State P} (h : Reachable t)
    (hp : t.point p = .leave .unlock 0) : owns p t.returns = true := by
  have I := reach_owner h
  have hl : t.lock = some p := I.inside p (by rw [hp]; rfl)
  have H := I.held p hl
  rw [hp] at H
  obtain ⟨v0, w0, H, E⟩ := H
  obtain ⟨-, hw⟩ | ⟨hb, -⟩ := E.result
  · cases hw
  · rw [H p]
    simpa [mutex, call, unlock] using hb

theorem foreign_unlock {t u : State P} {changed : Prop} {r : Int} (h : Reachable s)
    (hown : owns p s.returns = false) (D : During (mutex P) p .unlock s t changed)
    (hstep : step (mutex P) t (.run p) = some u) (hr : u.returns = (p, .unlock, r) :: t.returns) :
    r = -eacces := by
  have ht := D.reach h
  obtain ⟨-, hret, -⟩ | ⟨-, -, r', hret, hpt⟩ := (moves_of_run hstep).within D.committed.1
  · rw [hret] at hr
    simp at hr
  obtain rfl : r' = r := by
    rw [hr] at hret
    simpa using hret.symm
  have hok := reach_ok (fun s hs => ⟨none, hs⟩) ht p
  obtain hp | ⟨hp, -⟩ := hpt
  · rw [hp] at hok
    obtain rfl | hw := hok
    · have ho := owns_of_unlocked ht hp
      rw [owns_during D, hown] at ho
      cases ho
    · cases hw
      rfl
  · rw [hp] at hok
    obtain ⟨-, c, hw⟩ := hok
    cases hw

/-- Where the spinlock is free, an `unlock` of a process that does not own the mutex
returns after three steps. -/
theorem foreign_unlock_free (h : Reachable s) (hl : s.lock = none)
    (hp : s.point p = .start .unlock) (hown : owns p s.returns = false) :
    ∃ t, Machine.run (step (mutex P)) s [.run p, .run p, .run p] = some t ∧
      t.returns = (p, .unlock, -eacces) :: s.returns ∧ t.value = s.value := by
  have hv : s.value ≠ some p := by
    intro hv
    have ho := ((reach_owner h).free hl p).mpr hv
    rw [hown] at ho
    cases ho
  simp [Machine.run, step, Monitor.run, hp, hl, mutex, call, unlock, hv]

/-- The `unlock` of `p` returns `-EACCES` once a process that holds the spinlock has taken at most
five steps. -/
def Returns (p : P) (s : State P) : Prop :=
  ∃ q, ∃ k ≤ 5, ∃ u t, Machine.run (step (mutex P)) s (List.replicate k (.run q)) = some u ∧
    Machine.run (step (mutex P)) u [.run p, .run p, .run p] = some t ∧
      t.returns = (p, .unlock, -eacces) :: u.returns ∧ t.value = u.value

theorem foreign_unlock_returns (h : Reach Fresh (step (mutex P)) Undisturbed s)
    (hp : s.point p = .start .unlock) (hown : owns p s.returns = false) : Returns p s := by
  have hs : Reachable s := h.of_ok
  cases hl : s.lock with
  | none =>
    obtain ⟨t, ht⟩ := foreign_unlock_free hs hl hp hown
    exact ⟨p, 0, by decide, s, t, rfl, ht⟩
  | some q =>
    have T := reach_tidy (fun _ hs => ⟨none, hs⟩) h
    obtain ⟨k, hk, u, hu, hfree, hpu, D⟩ := T.frees (.start hp) hp hl (Point.left_lt _)
    obtain ⟨t, ht⟩ := foreign_unlock_free (D.reach hs) hfree hpu ((owns_during D).trans hown)
    exact ⟨q, k, hk, u, t, hu, ht⟩

/-- At most one process owns the mutex, `lockproc` is that process whenever the
spinlock is free, an `unlock` of any other process has no result but `-EACCES`, and no call
that fails changes the owner. As long as no sleeper has been interrupted, such an `unlock`
returns. -/
theorem mutual_exclusion {s : State P} (h : Reachable s) :
    (∀ p q, owns p s.returns = true → owns q s.returns = true → p = q) ∧
    (s.lock = none → ∀ p, owns p s.returns = true ↔ s.value = some p) ∧
    (∀ p t changed u r, owns p s.returns = false → During (mutex P) p .unlock s t changed →
      step (mutex P) t (.run p) = some u → u.returns = (p, .unlock, r) :: t.returns →
      r = -eacces ∧ ¬ changed ∧ u.value = t.value) ∧
    (Reach Fresh (step (mutex P)) Undisturbed s → ∀ p, s.point p = .start .unlock →
      owns p s.returns = false → Returns p s) ∧
    (∀ p o t changed u r, o ≠ .unlock → During (mutex P) p o s t changed →
      step (mutex P) t (.run p) = some u → u.returns = (p, o, r) :: t.returns → r ≠ 0 →
      ¬ changed ∧ u.value = t.value ∧ ∀ q, owns q u.returns = owns q t.returns) := by
  have I := reach_owner h
  refine ⟨?_, ?_, ?_, ?_, ?_⟩
  · intro p q hp hq
    obtain ⟨v, w, H⟩ := (I.parts keeps_owner).2
    have hv := (H p).mp hp
    rw [(H q).mp hq] at hv
    exact (Option.some.inj hv).symm
  · intro hl p
    exact I.free hl p
  · intro p t changed u r hown D hstep hr
    have hres := foreign_unlock h hown D hstep hr
    exact ⟨hres, D.unchanged hstep hr (by rw [hres]; decide)⟩
  · intro hquiet p hp hown
    exact foreign_unlock_returns hquiet hp hown
  · intro p o t changed u r _ D hstep hr h0
    obtain ⟨hc, hv⟩ := D.unchanged hstep hr h0
    refine ⟨hc, hv, ?_⟩
    intro q
    rw [hr, owns_cons_fail q p o h0]

/-- Process 2 calls `unlock` while process 1 owns the mutex. -/
theorem mutual_exclusion_sample : ∃ s : State Nat, Reachable s ∧ owns 1 s.returns = true ∧
    s.value = some 1 ∧ Returns 2 s := by
  have hrun : (Machine.run (guarded (step (mutex Nat)) Undisturbed) (.fresh none)
      (through 1 .lock ++ [.call 2 .unlock])).map
        (fun s => (s.lock, s.point 2, owns 1 s.returns, owns 2 s.returns)) =
          some (none, .start .unlock, true, false) := by
    decide +kernel
  obtain ⟨s, hs, hv⟩ := run_of_map hrun
  simp only [Prod.mk.injEq] at hv
  obtain ⟨hl, hp, h1, h2⟩ := hv
  have h : Reach Fresh (step (mutex Nat)) Undisturbed s := Reach.runGuarded (.init rfl) hs
  obtain ⟨-, howner, -, hforeign, -⟩ := mutual_exclusion h.of_ok
  exact ⟨s, h.of_ok, h1, (howner hl 1).mp h1, hforeign h 2 hp h2⟩

/-- A signal has interrupted process 2 in `lock`, which has returned with the spinlock held: the
`unlock` of process 3 never returns. -/
theorem foreign_unlock_hangs : ∃ s : State Nat, Reachable s ∧ s.point 3 = .start .unlock ∧
    owns 3 s.returns = false ∧
    ∀ t, Reach (· = s) (step (mutex Nat)) always t → t.returns = s.returns := by
  have hrun : (Machine.run (step (mutex Nat)) (.fresh none) (through 1 .lock ++ intoSleep 2 ++
      .signal 2 :: List.replicate 3 (.run 2) ++ [.call 3 .unlock])).map
        (fun s => (s.lock, s.point 2, s.point 3, owns 3 s.returns)) =
          some (some 2, .idle, .start .unlock, false) := by
    decide +kernel
  obtain ⟨s, hs, hv⟩ := run_of_map hrun
  simp only [Prod.mk.injEq] at hv
  obtain ⟨hl, hidle, hp, hown⟩ := hv
  have h : Reachable s := Reach.run (.init rfl) hs
  have hin : ∀ p, (s.point p).inside = false := by
    intro p
    by_contra hc
    have heq := (reach_owner h).inside p (Bool.not_eq_false _ ▸ hc)
    obtain rfl : 2 = p := Option.some.inj (hl.symm.trans heq)
    exact hc (by rw [hidle]; rfl)
  exact ⟨s, h, hp, hown, fun t ht => stuck hl hin ht⟩

end Mutex

end Sysint.Sync
