import Mathlib.Logic.Function.Basic
import Mathlib.Tactic.Simps.Basic
import Sysint.Lib.Machine

/-! Objects that guard a value by a spinlock and let processes sleep on condition
variables until the value suits them. Every call has one shape: take the
spinlock, wait or fail while the call is busy, update the value, wake sleepers,
release the spinlock. Processes are interleaved between any two of these steps,
and a signal may take a sleeper off its list at any time. -/

/-- What a call does when it finds itself busy. -/
inductive Monitor.Busy (C : Type) where
  | wait (c : C)
  | fail (error : Int)

structure Monitor.Call (P C σ : Type) where
  busy : P → σ → Bool
  onBusy : Monitor.Busy C
  update : P → σ → σ
  wakes : Option C

/-- The calls of an object, the result of an interrupted wait, and how a process
enters a list of waiting processes. -/
structure Monitor (P C O σ : Type) where
  call : O → Monitor.Call P C σ
  eintr : Int
  push : List P → P → List P
  mem_push : ∀ xs p q, q ∈ push xs p ↔ q = p ∨ q ∈ xs

namespace Monitor
open Function
open Machine

/-- Where a process stands in a call. -/
inductive Point (C O : Type) where
  | idle
  /-- Spins on the lock. -/
  | start (o : O)
  /-- Tests whether the call is busy. -/
  | test (o : O)
  /-- Found the call busy and is about to enter the list. -/
  | sleep (o : O) (c : C)
  /-- On the list, with the lock still held. -/
  | queued (o : O) (c : C)
  | asleep (o : O) (c : C)
  /-- Runs again and spins on the lock; `r` is the result of the wait. -/
  | woken (o : O) (r : Int)
  /-- Back from the wait with the lock held. -/
  | back (o : O) (r : Int)
  | update (o : O)
  | wake (o : O)
  /-- About to release the lock and to return `r`. -/
  | leave (o : O) (r : Int)
  deriving DecidableEq

/-- The stretch of a call that runs with the lock held. -/
def Point.inside {C O : Type} : Point C O → Bool
  | .test _ | .sleep .. | .queued .. | .back .. | .update _ | .wake _ | .leave .. => true
  | .idle | .start _ | .asleep .. | .woken .. => false

structure State (P C O σ : Type) where
  /-- The process that set the flag of the spinlock; `none` while it is clear. -/
  lock : Option P
  value : σ
  waiting : C → List P
  interrupted : P → Bool
  point : P → Point C O
  /-- The results of all calls so far, the latest first. -/
  returns : List (P × O × Int)

inductive Event (P O : Type) where
  | call (p : P) (o : O)
  | run (p : P)
  | signal (p : P)

variable {P C O σ : Type} [DecidableEq P] [DecidableEq C]

namespace State

def fresh (v : σ) : State P C O σ where
  lock := none
  value := v
  waiting := fun _ => []
  interrupted := fun _ => false
  point := fun _ => .idle
  returns := []

@[simps -fullyApplied]
def goto (s : State P C O σ) (p : P) (pt : Point C O) : State P C O σ :=
  { s with point := update s.point p pt }

@[simps -fullyApplied]
def hold (s : State P C O σ) (l : Option P) : State P C O σ := { s with lock := l }

@[simps -fullyApplied]
def setValue (s : State P C O σ) (v : σ) : State P C O σ := { s with value := v }

@[simps -fullyApplied]
def setWaiting (s : State P C O σ) (w : C → List P) : State P C O σ := { s with waiting := w }

@[simps -fullyApplied]
def setInterrupted (s : State P C O σ) (p : P) (b : Bool) : State P C O σ :=
  { s with interrupted := update s.interrupted p b }

@[simps -fullyApplied]
def result (s : State P C O σ) (p : P) (o : O) (r : Int) : State P C O σ :=
  { s with
    point := update s.point p .idle
    returns := (p, o, r) :: s.returns }

end State

/-- The lists after the process has left that of `c`. -/
def without (w : C → List P) (c : C) (p : P) : C → List P :=
  update w c ((w c).filter (· ≠ p))

/-- The lists after all processes waiting on the condition have been woken. -/
def wakeAll (w : C → List P) : Option C → C → List P
  | none => w
  | some c => update w c []

theorem without_wakeAll (w : C → List P) (x : Option C) (c : C) (p : P) :
    without (wakeAll w x) c p = wakeAll (without w c p) x := by
  cases x with
  | none => rfl
  | some d =>
    funext e
    by_cases hd : e = d
    · subst hd
      by_cases hc : e = c
      · subst hc
        simp [without, wakeAll]
      · simp [without, wakeAll, hc]
    · by_cases hc : e = c
      · subst hc
        simp [without, wakeAll, hd]
      · simp [without, wakeAll, hd, hc]

variable (M : Monitor P C O σ)

/-- The next step of a process. A process that spins on a lock that is held stays
where it is, and one that is on a list does not run. -/
def run (s : State P C O σ) (p : P) : Option (State P C O σ) :=
  match s.point p with
  | .idle => none
  | .start o => some (if s.lock.isNone then (s.hold (some p)).goto p (.test o) else s)
  | .test o =>
    some (s.goto p (if (M.call o).busy p s.value then
      match (M.call o).onBusy with
      | .wait c => .sleep o c
      | .fail r => .leave o r
    else .update o))
  | .sleep o c =>
    some ((s.setWaiting (update s.waiting c (M.push (s.waiting c) p))).goto p (.queued o c))
  | .queued o c => some ((s.hold none).goto p (.asleep o c))
  | .asleep o c =>
    if p ∈ s.waiting c then none
    else some ((s.setInterrupted p false).goto p
      (.woken o (if s.interrupted p then M.eintr else 0)))
  | .woken o r => some (if s.lock.isNone then (s.hold (some p)).goto p (.back o r) else s)
  -- an interrupted wait ends the call at once, with the lock held
  | .back o r => some (if r = 0 then s.goto p (.test o) else s.result p o r)
  | .update o => some ((s.setValue ((M.call o).update p s.value)).goto p (.wake o))
  | .wake o => some ((s.setWaiting (wakeAll s.waiting (M.call o).wakes)).goto p (.leave o 0))
  | .leave o r => some ((s.hold none).result p o r)

/-- The list that the process is on. -/
def waitsOn (s : State P C O σ) (p : P) : Option C :=
  match s.point p with
  | .queued _ c | .asleep _ c => if p ∈ s.waiting c then some c else none
  | _ => none

/-- A signal takes a waiting process off its list. -/
def signal (s : State P C O σ) (p : P) : State P C O σ :=
  match waitsOn s p with
  | some c => (s.setWaiting (without s.waiting c p)).setInterrupted p true
  | none => s

def step (s : State P C O σ) : Event P O → Option (State P C O σ)
  | .call p o =>
    match s.point p with
    | .idle => some (s.goto p (.start o))
    | _ => none
  | .run p => run M s p
  | .signal p => some (signal s p)

/-! ## The steps by name -/

/-- What the next step of a process can be. -/
inductive Moves (p : P) (s : State P C O σ) : State P C O σ → Prop
  | spin : (s.point p).inside = false → s.lock ≠ none → Moves p s s
  | enter {o : O} : s.point p = .start o → s.lock = none →
      Moves p s ((s.hold (some p)).goto p (.test o))
  | busy {o : O} {c : C} : s.point p = .test o → (M.call o).busy p s.value = true →
      (M.call o).onBusy = .wait c → Moves p s (s.goto p (.sleep o c))
  | refuse {o : O} {r : Int} : s.point p = .test o → (M.call o).busy p s.value = true →
      (M.call o).onBusy = .fail r → Moves p s (s.goto p (.leave o r))
  | pass {o : O} : s.point p = .test o → (M.call o).busy p s.value = false →
      Moves p s (s.goto p (.update o))
  | sleep {o : O} {c : C} : s.point p = .sleep o c →
      Moves p s ((s.setWaiting (update s.waiting c (M.push (s.waiting c) p))).goto p
        (.queued o c))
  | release {o : O} {c : C} : s.point p = .queued o c →
      Moves p s ((s.hold none).goto p (.asleep o c))
  | resume {o : O} {c : C} : s.point p = .asleep o c → p ∉ s.waiting c →
      Moves p s ((s.setInterrupted p false).goto p
        (.woken o (if s.interrupted p then M.eintr else 0)))
  | reenter {o : O} {r : Int} : s.point p = .woken o r → s.lock = none →
      Moves p s ((s.hold (some p)).goto p (.back o r))
  | again {o : O} : s.point p = .back o 0 → Moves p s (s.goto p (.test o))
  | interrupt {o : O} {r : Int} : s.point p = .back o r → r ≠ 0 → Moves p s (s.result p o r)
  | update {o : O} : s.point p = .update o →
      Moves p s ((s.setValue ((M.call o).update p s.value)).goto p (.wake o))
  | wake {o : O} : s.point p = .wake o →
      Moves p s ((s.setWaiting (wakeAll s.waiting (M.call o).wakes)).goto p (.leave o 0))
  | leave {o : O} {r : Int} : s.point p = .leave o r → Moves p s ((s.hold none).result p o r)

variable {M} {s t u : State P C O σ} {p q : P} {o : O} {init : State P C O σ → Prop} {e : Event P O}
  {changed : Prop} {r : Int} {w' : C → List P}

theorem moves_of_run (h : run M s p = some t) : Moves M p s t := by
  unfold run at h
  split at h
  · cases h
  · rename_i o hp
    cases h
    split
    · rename_i hl
      exact .enter hp (Option.isNone_iff_eq_none.mp hl)
    · rename_i hl
      exact .spin (by rw [hp]; rfl) fun hn => hl (by rw [hn]; rfl)
  · rename_i o hp
    cases h
    cases hb : (M.call o).busy p s.value with
    | false => exact .pass hp hb
    | true =>
      cases hw : (M.call o).onBusy with
      | wait c => exact .busy hp hb hw
      | fail r => exact .refuse hp hb hw
  · rename_i o c hp
    cases h
    exact .sleep hp
  · rename_i o c hp
    cases h
    exact .release hp
  · rename_i o c hp
    split at h
    · cases h
    · rename_i hm
      cases h
      exact .resume hp hm
  · rename_i o r hp
    cases h
    split
    · rename_i hl
      exact .reenter hp (Option.isNone_iff_eq_none.mp hl)
    · rename_i hl
      exact .spin (by rw [hp]; rfl) fun hn => hl (by rw [hn]; rfl)
  · rename_i o r hp
    cases h
    split
    · rename_i hr
      subst hr
      exact .again hp
    · rename_i hr
      exact .interrupt hp hr
  · rename_i o hp
    cases h
    exact .update hp
  · rename_i o hp
    cases h
    exact .wake hp
  · rename_i o r hp
    cases h
    exact .leave hp

theorem signal_cases (s : State P C O σ) (p : P) :
    (waitsOn s p = none ∧ signal s p = s) ∨ ∃ c, waitsOn s p = some c ∧
      signal s p = (s.setWaiting (without s.waiting c p)).setInterrupted p true := by
  unfold signal
  cases h : waitsOn s p with
  | none => exact .inl ⟨rfl, rfl⟩
  | some c => exact .inr ⟨c, rfl, rfl⟩

theorem call_cases (h : step M s (.call p o) = some t) :
    s.point p = .idle ∧ t = s.goto p (.start o) := by
  simp only [step] at h
  split at h
  · rename_i hp
    cases h
    exact ⟨hp, rfl⟩
  · cases h

/-! ## What holds while the lock is free -/

section Rule

variable (M) (G : P → O → σ → (C → List P) → Prop)
  (J : σ → (C → List P) → List (P × O × Int) → Prop)

/-- Every call keeps `J`; an update may assume `G` of the state it starts from. -/
structure Keeps : Prop where
  signal : ∀ v w h c p, J v w h → J v (without w c p) h
  guard : ∀ p o v w c q, G p o v w → G p o v (without w c q)
  sleep : ∀ v w h p o c, J v w h → (M.call o).busy p v = true → (M.call o).onBusy = .wait c →
    J v (update w c (M.push (w c) p)) h
  interrupt : ∀ v w h p o r, J v w h → r ≠ 0 → J v w ((p, o, r) :: h)
  refuse : ∀ v w h p o r, J v w h → (M.call o).busy p v = true → (M.call o).onBusy = .fail r →
    J v w ((p, o, r) :: h)
  finish : ∀ v w h p o, J v w h → (M.call o).busy p v = false → G p o v w →
    J ((M.call o).update p v) (wakeAll w (M.call o).wakes) ((p, o, 0) :: h)

/-- What a call that found `v` and `w` has made of them when it is about to return. -/
inductive Ends (p : P) (o : O) (v : σ) (w : C → List P) : Int → σ → (C → List P) → Prop
  | refused {r : Int} : (M.call o).busy p v = true → (M.call o).onBusy = .fail r →
    Ends p o v w r v w
  | done : (M.call o).busy p v = false → G p o v w →
      Ends p o v w 0 ((M.call o).update p v) (wakeAll w (M.call o).wakes)

/-- What the holder of the lock knows at a point. -/
def Holds (p : P) (v : σ) (w : C → List P) (h : List (P × O × Int)) : Point C O → Prop
  | .sleep o c => J v w h ∧ (M.call o).busy p v = true ∧ (M.call o).onBusy = .wait c
  | .update o => J v w h ∧ (M.call o).busy p v = false
  | .wake o => ∃ v0, J v0 w h ∧ (M.call o).busy p v0 = false ∧ G p o v0 w ∧
      v = (M.call o).update p v0
  | .leave o r => ∃ v0 w0, J v0 w0 h ∧ Ends M G p o v0 w0 r v w
  | _ => J v w h

structure Inv (s : State P C O σ) : Prop where
  inside : ∀ p, (s.point p).inside = true → s.lock = some p
  free : s.lock = none → J s.value s.waiting s.returns
  held : ∀ p, s.lock = some p → Holds M G J p s.value s.waiting s.returns (s.point p)

variable {M G J} {v : σ} {w : C → List P} {h : List (P × O × Int)} {pt : Point C O}

omit [DecidableEq P] in
theorem holds_outside (hp : pt.inside = false) : Holds M G J p v w h pt ↔ J v w h := by
  cases pt <;> first | rfl | cases hp

theorem Ends.without {v' : σ} (K : Keeps M G J) (E : Ends M G p o v w r v' w') (c : C) (q : P) :
    Ends M G p o v (without w c q) r v' (without w' c q) := by
  cases E with
  | refused hb hw => exact .refused hb hw
  | done hb hg =>
    rw [without_wakeAll]
    exact .done hb (K.guard _ _ _ _ _ _ hg)

omit [DecidableEq P] in
theorem Ends.result {v' : σ} (E : Ends M G p o v w r v' w') :
    ((M.call o).busy p v = true ∧ (M.call o).onBusy = .fail r) ∨
      ((M.call o).busy p v = false ∧ r = 0) := by
  cases E with
  | refused hb hw => exact .inl ⟨hb, hw⟩
  | done hb _ => exact .inr ⟨hb, rfl⟩

theorem Ends.keeps {v' : σ} (K : Keeps M G J)
    (E : Ends M G p o v w r v' w') (hj : J v w h) : J v' w' ((p, o, r) :: h) := by
  cases E with
  | refused hb hw => exact K.refuse _ _ _ _ _ _ hj hb hw
  | done hb hg => exact K.finish _ _ _ _ _ hj hb hg

/-- A signal leaves the holder of the lock with what it knows. -/
theorem Holds.without (K : Keeps M G J) (H : Holds M G J p v w h pt) (c : C) (q : P) :
    Holds M G J p v (without w c q) h pt := by
  cases pt with
  | sleep o d => exact ⟨K.signal _ _ _ _ _ H.1, H.2⟩
  | update o => exact ⟨K.signal _ _ _ _ _ H.1, H.2⟩
  | wake o =>
    obtain ⟨v0, hj, hb, hg, hv⟩ := H
    exact ⟨v0, K.signal _ _ _ _ _ hj, hb, K.guard _ _ _ _ _ _ hg, hv⟩
  | leave o r =>
    obtain ⟨v0, w0, hj, E⟩ := H
    exact ⟨v0, Monitor.without w0 c q, K.signal _ _ _ _ _ hj, E.without K c q⟩
  | _ => exact K.signal _ _ _ _ _ H

/-- A process moves between points that do not hold the lock. -/
theorem Inv.outside (I : Inv M G J s) (hp : (s.point p).inside = false) (hpt : pt.inside = false) :
    Inv M G J (s.goto p pt) := by
  constructor
  · intro q hq
    by_cases h : q = p
    · subst h
      simp [hpt] at hq
    · exact I.inside q (by simpa [h] using hq)
  · exact I.free
  · intro q hq
    have H := I.held q hq
    by_cases h : q = p
    · subst h
      simpa [holds_outside hpt] using (holds_outside hp).mp H
    · simpa [h] using H

/-- A process moves to a point at which it holds the lock. -/
theorem Inv.inner (I : Inv M G J s) (hl : ∀ q, q ≠ p → s.lock ≠ some q) (hl' : t.lock = some p)
    (hp : t.point = update s.point p pt)
    (H : Holds M G J p t.value t.waiting t.returns pt) : Inv M G J t := by
  constructor
  · intro q hq
    by_cases h : q = p
    · rw [h, hl']
    · rw [hp, update_of_ne h] at hq
      exact absurd (I.inside q hq) (hl q h)
  · intro hn
    rw [hl'] at hn
    cases hn
  · intro q hq
    rw [hl'] at hq
    cases hq
    rw [hp, update_self]
    exact H

/-- The holder of the lock releases it. -/
theorem Inv.release (I : Inv M G J s) (hl : s.lock = some p) (hl' : t.lock = none)
    (hp : t.point = update s.point p pt) (hpt : pt.inside = false)
    (H : J t.value t.waiting t.returns) : Inv M G J t := by
  constructor
  · intro q hq
    by_cases h : q = p
    · rw [hp, h, update_self, hpt] at hq
      cases hq
    · rw [hp, update_of_ne h] at hq
      have hq' := I.inside q hq
      rw [hl] at hq'
      exact absurd (Option.some.inj hq').symm h
  · exact fun _ => H
  · intro q hq
    rw [hl'] at hq
    cases hq

omit [DecidableEq P] in
theorem Inv.fresh {v : σ} (hj : J v (fun _ => []) []) : Inv M G J (State.fresh v) := by
  constructor
  · intro p hp
    cases hp
  · exact fun _ => hj
  · intro p hp
    cases hp

section

variable (K : Keeps M G J)
include K

theorem Inv.signal (I : Inv M G J s) (p : P) : Inv M G J (signal s p) := by
  obtain ⟨-, h⟩ | ⟨c, -, h⟩ := signal_cases s p
  · rw [h]
    exact I
  · rw [h]
    constructor
    · exact I.inside
    · exact fun hl => K.signal _ _ _ _ _ (I.free hl)
    · exact fun q hq => (I.held q hq).without K c p

theorem Inv.moves (I : Inv M G J s)
    (hg : ∀ o, s.point p = .update o → G p o s.value s.waiting) (h : Moves M p s t) :
    Inv M G J t := by
  -- at the points inside, the process holds the lock and nobody else does
  have hin : ∀ {pt}, s.point p = pt → pt.inside = true →
      s.lock = some p ∧ (∀ q, q ≠ p → s.lock ≠ some q) ∧
        Holds M G J p s.value s.waiting s.returns pt := by
    intro pt hp hpt
    have hl := I.inside p (hp ▸ hpt)
    refine ⟨hl, ?_, hp ▸ I.held p hl⟩
    intro q hq hlq
    rw [hl] at hlq
    exact hq (Option.some.inj hlq).symm
  cases h with
  | spin => exact I
  | enter hp hn =>
    apply I.inner (p := p) _ rfl rfl
    · exact I.free hn
    · intro q _ hq
      rw [hn] at hq
      cases hq
  | reenter hp hn =>
    apply I.inner (p := p) _ rfl rfl
    · exact I.free hn
    · intro q _ hq
      rw [hn] at hq
      cases hq
  | busy hp hb hw =>
    obtain ⟨hl, ho, H⟩ := hin hp rfl
    exact I.inner ho hl rfl ⟨H, hb, hw⟩
  | refuse hp hb hw =>
    obtain ⟨hl, ho, H⟩ := hin hp rfl
    exact I.inner ho hl rfl ⟨_, _, H, .refused hb hw⟩
  | pass hp hb =>
    obtain ⟨hl, ho, H⟩ := hin hp rfl
    exact I.inner ho hl rfl ⟨H, hb⟩
  | sleep hp =>
    obtain ⟨hl, ho, H, hb, hw⟩ := hin hp rfl
    exact I.inner ho hl rfl (K.sleep _ _ _ _ _ _ H hb hw)
  | release hp =>
    obtain ⟨hl, -, H⟩ := hin hp rfl
    exact I.release hl rfl rfl rfl H
  | resume hp _ =>
    have I' : Inv M G J (s.setInterrupted p false) := ⟨I.inside, I.free, I.held⟩
    exact I'.outside (by rw [State.setInterrupted_point, hp]; rfl) rfl
  | again hp =>
    obtain ⟨hl, ho, H⟩ := hin hp rfl
    exact I.inner ho hl rfl H
  | interrupt hp hr =>
    -- the caller is gone, and the lock stays with it
    obtain ⟨hl, ho, H⟩ := hin hp rfl
    exact I.inner ho hl rfl (K.interrupt _ _ _ _ _ _ H hr)
  | update hp =>
    obtain ⟨hl, ho, H, hb⟩ := hin hp rfl
    exact I.inner ho hl rfl ⟨_, H, hb, hg _ hp, rfl⟩
  | wake hp =>
    obtain ⟨hl, ho, v0, H, hb, hg, hv⟩ := hin hp rfl
    have E := Ends.done hb hg
    rw [← hv] at E
    exact I.inner ho hl rfl ⟨v0, s.waiting, H, E⟩
  | leave hp =>
    obtain ⟨hl, -, v0, w0, H, E⟩ := hin hp rfl
    exact I.release hl rfl rfl rfl (E.keeps K H)

theorem Inv.step (I : Inv M G J s)
    (hg : ∀ p o, e = .run p → s.point p = .update o → G p o s.value s.waiting)
    (h : step M s e = some t) : Inv M G J t := by
  cases e with
  | call p o =>
    obtain ⟨hp, rfl⟩ := call_cases h
    exact I.outside (by rw [hp]; rfl) rfl
  | run p => exact I.moves K (fun o => hg p o rfl) (moves_of_run h)
  | signal p =>
    cases h
    exact I.signal K p

/-- The rule: `J` holds whenever the lock is free if every call keeps it. -/
theorem reach_inv {ok : State P C O σ → Event P O → Prop}
    (hinit : ∀ s, init s → ∃ v, s = State.fresh v ∧ J v (fun _ => []) [])
    (hg : ∀ s p o, ok s (.run p) → s.point p = .update o → G p o s.value s.waiting)
    (h : Reach init (step M) ok s) : Inv M G J s := by
  apply h.invariant
  · intro s hs
    obtain ⟨v, rfl, hj⟩ := hinit s hs
    exact .fresh hj
  · intro s e t I hok hstep
    exact I.step K (fun p o he hp => hg s p o (he ▸ hok) hp) hstep

/-- Also in the middle of a call, the value and the results so far are those of
states that satisfy `J`. -/
theorem Inv.parts (I : Inv M G J s) :
    (∃ w h, J s.value w h) ∧ ∃ v w, J v w s.returns := by
  cases hl : s.lock with
  | none => exact ⟨⟨_, _, I.free hl⟩, _, _, I.free hl⟩
  | some p =>
    have H := I.held p hl
    generalize s.point p = pt at H
    cases pt with
    | sleep o c => exact ⟨⟨_, _, H.1⟩, _, _, H.1⟩
    | update o => exact ⟨⟨_, _, H.1⟩, _, _, H.1⟩
    | wake o =>
      obtain ⟨v0, hj, hb, hg, hv⟩ := H
      have hj' := K.finish _ _ _ _ _ hj hb hg
      exact ⟨⟨_, _, hv ▸ hj'⟩, _, _, hj⟩
    | leave o r =>
      obtain ⟨v0, w0, hj, E⟩ := H
      exact ⟨⟨_, _, E.keeps K hj⟩, _, _, hj⟩
    | _ => exact ⟨⟨_, _, H⟩, _, _, H⟩

end

end Rule

/-! ## One call of one process -/

def Point.op {C O : Type} : Point C O → Option O
  | .idle => none
  | .start o | .test o | .sleep o _ | .queued o _ | .asleep o _ | .woken o _ | .back o _
  | .update o | .wake o | .leave o _ => some o

theorem Moves.other (h : Moves M p s t) (hq : q ≠ p) : t.point q = s.point q := by
  cases h <;> simp [hq]

theorem step_other (h : step M s e = some t) (he : e ≠ .run q)
    (hq : s.point q ≠ .idle) : t.point q = s.point q := by
  cases e with
  | call p o =>
    obtain ⟨hp, rfl⟩ := call_cases h
    have hne : q ≠ p := fun hqp => hq (hqp ▸ hp)
    simp [hne]
  | run p => exact (moves_of_run h).other fun hqp => he (hqp ▸ rfl)
  | signal p =>
    cases h
    obtain ⟨-, h⟩ | ⟨c, -, h⟩ := signal_cases s p
    · rw [h]
    · rw [h]
      rfl

theorem step_returns (h : step M s e = some t) :
    t.returns = s.returns ∨ ∃ p o r, e = .run p ∧ t.returns = (p, o, r) :: s.returns := by
  cases e with
  | call p o =>
    obtain ⟨-, rfl⟩ := call_cases h
    exact .inl rfl
  | run p =>
    cases moves_of_run h with
    | interrupt => exact .inr ⟨p, _, _, rfl, rfl⟩
    | leave => exact .inr ⟨p, _, _, rfl, rfl⟩
    | _ => exact .inl rfl
  | signal p =>
    cases h
    obtain ⟨-, h⟩ | ⟨c, -, h⟩ := signal_cases s p <;> rw [h] <;> exact .inl rfl

/-- Results that the code after a wait or after the test can have. -/
def Point.Ok (M : Monitor P C O σ) : Point C O → Prop
  | .sleep o c | .queued o c | .asleep o c => (M.call o).onBusy = .wait c
  | .woken o r | .back o r => (r = 0 ∨ r = M.eintr) ∧ ∃ c, (M.call o).onBusy = .wait c
  | .leave o r => r = 0 ∨ (M.call o).onBusy = .fail r
  | .idle | .start _ | .test _ | .update _ | .wake _ => True

theorem Moves.ok (h : Moves M p s t) (hs : (s.point p).Ok M) : (t.point p).Ok M := by
  cases h with
  | spin => exact hs
  | busy _ _ hw => simpa [Point.Ok] using hw
  | refuse _ _ hw => simpa [Point.Ok] using Or.inr hw
  | sleep hp =>
    rw [hp] at hs
    simpa [Point.Ok] using hs
  | release hp =>
    rw [hp] at hs
    simpa [Point.Ok] using hs
  | @resume _ c hp _ =>
    rw [hp] at hs
    have hw : ∃ c, (M.call _).onBusy = .wait c := ⟨c, hs⟩
    cases hi : s.interrupted p <;> simpa [Point.Ok, hi] using hw
  | reenter hp _ =>
    rw [hp] at hs
    simpa [Point.Ok] using hs
  | _ => simp [Point.Ok]

theorem step_ok (h : step M s e = some t) (hs : ∀ q, (s.point q).Ok M) (q : P) :
    (t.point q).Ok M := by
  by_cases he : e = .run q
  · subst he
    exact (moves_of_run h).ok (hs q)
  by_cases hq : s.point q = .idle
  · cases e with
    | call p o =>
      obtain ⟨-, rfl⟩ := call_cases h
      by_cases hqp : q = p
      · subst hqp
        simp [Point.Ok]
      · simpa [hqp] using hs q
    | run p =>
      rw [(moves_of_run h).other fun hqp => he (hqp ▸ rfl)]
      exact hs q
    | signal p =>
      cases h
      obtain ⟨-, h⟩ | ⟨c, -, h⟩ := signal_cases s p <;> rw [h] <;> exact hs q
  · rw [step_other h he hq]
    exact hs q

theorem reach_ok {ok : State P C O σ → Event P O → Prop}
    (hinit : ∀ s, init s → ∃ v, s = State.fresh v) (h : Reach init (step M) ok s) (q : P) :
    (s.point q).Ok M := by
  have hall : ∀ q, (s.point q).Ok M := by
    apply h.invariant
    · intro s hs q
      obtain ⟨v, rfl⟩ := hinit s hs
      trivial
    · intro s e t hs _ hstep
      exact step_ok hstep hs
  exact hall q

/-- A run from `s`, where the process has just called `o`, to `t`, where it is
still in that call. `changed` tells whether its own steps have changed the value. -/
inductive During (M : Monitor P C O σ) (p : P) (o : O) (s : State P C O σ) :
    State P C O σ → Prop → Prop
  | start : s.point p = .start o → During M p o s s False
  | own {t u : State P C O σ} {changed : Prop} : During M p o s t changed →
      step M t (.run p) = some u → u.point p ≠ .idle →
      During M p o s u (changed ∨ u.value ≠ t.value)
  | other {t u : State P C O σ} {changed : Prop} {e : Event P O} : During M p o s t changed →
      e ≠ .run p → step M t e = some u → During M p o s u changed

/-- The value has been updated, and the call is going to succeed. -/
def Point.committed {C O : Type} : Point C O → Bool
  | .wake _ => true
  | .leave _ r => r == 0
  | _ => false

/-- A process in a call of `o` stays in it, or returns. -/
theorem Moves.within (h : Moves M p t u) (hop : (t.point p).op = some o) :
    ((u.point p).op = some o ∧ u.returns = t.returns ∧
      ((t.point p).committed = true ∨ u.value ≠ t.value → (u.point p).committed = true)) ∨
    (u.point p = .idle ∧ u.value = t.value ∧ ∃ r, u.returns = (p, o, r) :: t.returns ∧
      (t.point p = .leave o r ∨ (t.point p = .back o r ∧ r ≠ 0))) := by
  cases h with
  | spin hin _ =>
    refine .inl ⟨hop, rfl, ?_⟩
    rintro (hc | hv)
    · exact hc
    · exact absurd rfl hv
  | interrupt hp hr =>
    rw [hp] at hop
    cases hop
    exact .inr ⟨by simp, rfl, _, rfl, .inr ⟨hp, hr⟩⟩
  | leave hp =>
    rw [hp] at hop
    cases hop
    exact .inr ⟨by simp, rfl, _, rfl, .inl hp⟩
  | _ hp =>
    rw [hp] at hop
    cases hop
    exact .inl (by simp [Point.op, Point.committed, hp])

section

variable (D : During M p o s t changed)
include D

theorem During.committed :
    (t.point p).op = some o ∧ (changed → (t.point p).committed = true) := by
  induction D with
  | start hp => exact ⟨by rw [hp]; rfl, False.elim⟩
  | own _ hstep hidle ih =>
    obtain ⟨hop, -, hc⟩ | ⟨hi, -⟩ := (moves_of_run hstep).within ih.1
    · exact ⟨hop, fun h => hc (h.imp_left ih.2)⟩
    · exact absurd hi hidle
  | @other t u _ e _ he hstep ih =>
    have hne : t.point p ≠ .idle := by
      intro hi
      rw [hi] at ih
      cases ih.1
    rw [step_other hstep he hne]
    exact ih

theorem During.reach (h : Reach init (Monitor.step M) always s) :
    Reach init (Monitor.step M) always t := by
  induction D with
  | start => exact h
  | own _ hstep _ ih => exact ih.step trivial hstep
  | other _ _ hstep ih => exact ih.step trivial hstep

/-- A call that fails has not changed the value. -/
theorem During.unchanged (h : step M t (.run p) = some u)
    (hr : u.returns = (p, o, r) :: t.returns) (h0 : r ≠ 0) : ¬ changed ∧ u.value = t.value := by
  obtain ⟨hop, hc⟩ := D.committed
  obtain ⟨-, hret, -⟩ | ⟨-, hv, r', hr', hpt⟩ := (moves_of_run h).within hop
  · rw [hret] at hr
    simp at hr
  obtain rfl : r' = r := by
    rw [hr] at hr'
    simpa using hr'.symm
  refine ⟨fun hch => ?_, hv⟩
  have hcom := hc hch
  obtain hp | ⟨hp, -⟩ := hpt
  · rw [hp] at hcom
    exact h0 (by simpa [Point.committed] using hcom)
  · rw [hp] at hcom
    cases hcom

end

/-! ## Runs without an interrupted sleeper -/

/-- No signal reaches a process on a list. -/
def Undisturbed (s : State P C O σ) : Event P O → Prop
  | .signal p => waitsOn s p = none
  | _ => True

instance (s : State P C O σ) (e : Event P O) : Decidable (Undisturbed s e) := by
  cases e <;> unfold Undisturbed <;> infer_instance

/-- The lock is held from inside a call only, and every wait ends with 0. -/
structure Tidy (s : State P C O σ) : Prop where
  holder : ∀ p, s.lock = some p → (s.point p).inside = true
  quiet : ∀ p, s.interrupted p = false
  result : ∀ p o r, s.point p = .woken o r ∨ s.point p = .back o r → r = 0

theorem Moves.lock_other (h : Moves M p s t) (hq : q ≠ p) (hl : t.lock = some q) :
    s.lock = some q := by
  cases h with
  | spin => exact hl
  | enter => exact absurd (Option.some.inj hl).symm hq
  | reenter => exact absurd (Option.some.inj hl).symm hq
  | release => cases hl
  | leave => cases hl
  | _ => exact hl

theorem Tidy.moves (T : Tidy s) (h : Moves M p s t) : Tidy t := by
  constructor
  · intro q hq
    by_cases hqp : q = p
    · subst hqp
      cases h with
      | spin => exact T.holder q hq
      | release => cases hq
      | leave => cases hq
      | resume hp _ =>
        have hin := T.holder q hq
        rw [hp] at hin
        cases hin
      | interrupt hp hr => exact absurd (T.result q _ _ (.inr hp)) hr
      | _ => simp [Point.inside]
    · rw [h.other hqp]
      exact T.holder q (h.lock_other hqp hq)
  · intro q
    cases h with
    | resume =>
      by_cases hqp : q = p
      · simp [hqp]
      · simpa [hqp] using T.quiet q
    | _ => exact T.quiet q
  · intro q o r hq
    by_cases hqp : q = p
    · subst hqp
      cases h with
      | spin => exact T.result q o r hq
      | @resume o' _ _ _ =>
        have hr : o = o' ∧ r = 0 := by simpa [T.quiet q, eq_comm] using hq
        exact hr.2
      | reenter hp _ => exact T.result q o r (by simpa [hp] using hq)
      | _ => simp at hq
    · rw [h.other hqp] at hq
      exact T.result q o r hq

theorem Tidy.step (T : Tidy s) (he : Undisturbed s e) (h : step M s e = some t) : Tidy t := by
  cases e with
  | call p o =>
    obtain ⟨hp, rfl⟩ := call_cases h
    constructor
    · intro q hq
      by_cases hqp : q = p
      · subst hqp
        have hin := T.holder q hq
        rw [hp] at hin
        cases hin
      · simpa [hqp] using T.holder q hq
    · exact T.quiet
    · intro q o' r hq
      by_cases hqp : q = p
      · simp [hqp] at hq
      · exact T.result q o' r (by simpa [hqp] using hq)
  | run p => exact T.moves (moves_of_run h)
  | signal p =>
    cases h
    obtain ⟨-, h⟩ | ⟨c, hc, -⟩ := signal_cases s p
    · rw [h]
      exact T
    · have hn : waitsOn s p = none := he
      rw [hn] at hc
      cases hc

/-- In a run without an interrupted sleeper no call returns with the lock held. -/
theorem reach_tidy (hinit : ∀ s, init s → ∃ v, s = State.fresh v)
    (h : Reach init (step M) Undisturbed s) : Tidy s := by
  apply h.invariant
  · intro s hs
    obtain ⟨v, rfl⟩ := hinit s hs
    constructor
    · intro p hp
      cases hp
    · intro p
      rfl
    · intro p o r hp
      simp [State.fresh] at hp
  · intro s e t T he hstep
    exact T.step he hstep

theorem released (hinit : ∀ s, init s → ∃ v, s = State.fresh v)
    (h : Reach init (step M) Undisturbed s) (hstep : step M s (.run p) = some t)
    (hr : t.returns = (p, o, r) :: s.returns) : t.lock ≠ some p := by
  have hok : Undisturbed s (.run p : Event P O) := trivial
  have T := reach_tidy hinit (h.step hok hstep)
  have hidle : t.point p = .idle := by
    cases moves_of_run hstep with
    | interrupt => simp
    | leave => simp
    | _ => simp at hr
  intro hl
  have hin := T.holder p hl
  rw [hidle] at hin
  cases hin

/-- How many steps a process that holds the lock takes before the one that releases it. -/
def Point.left {C O : Type} : Point C O → Nat
  | .back .. => 4
  | .test _ => 3
  | .update _ => 2
  | .wake _ | .sleep .. => 1
  | _ => 0

theorem Point.left_lt {C O : Type} (pt : Point C O) : pt.left < 5 := by
  cases pt <;> simp [left]

/-- The holder of the lock comes closer to its release, and depends on nobody. -/
theorem Tidy.advances (T : Tidy s) (hl : s.lock = some p) :
    ∃ t, Monitor.step M s (.run p) = some t ∧
    (t.lock = none ∨ t.lock = some p ∧ (t.point p).left < (s.point p).left) := by
  have hin := T.holder p hl
  cases hp : s.point p with
  | test o =>
    simp only [Monitor.step, run, hp]
    refine ⟨_, rfl, .inr ⟨hl, ?_⟩⟩
    rw [State.goto_point, update_self]
    split
    · split <;> simp [Point.left]
    · simp [Point.left]
  | back o r =>
    obtain rfl := T.result p o r (.inr hp)
    simp [Monitor.step, run, hp, hl, Point.left]
  | idle | start | asleep | woken => simp [hp, Point.inside] at hin
  | _ => simp [Monitor.step, run, hp, hl, Point.left]

/-- The process `q` that holds the lock releases it after a few steps of its own, while `p`
spins. -/
theorem Tidy.frees {n : Nat} (T : Tidy s)
    (D : During M p o u s changed) (hp : s.point p = .start o) (hl : s.lock = some q)
    (hn : (s.point q).left < n) : ∃ k ≤ n, ∃ t,
      Machine.run (Monitor.step M) s (List.replicate k (.run q)) = some t ∧ t.lock = none ∧
        t.point p = .start o ∧ During M p o u t changed := by
  induction n generalizing s with
  | zero => exact absurd hn (Nat.not_lt_zero _)
  | succ n ih =>
    have hother : (.run q : Event P O) ≠ .run p := by
      intro h
      have hin := T.holder q hl
      rw [Event.run.inj h, hp] at hin
      cases hin
    obtain ⟨t, ht, hnext⟩ := T.advances (M := M) hl
    have D' := D.other hother ht
    have hp' : t.point p = .start o := (step_other ht hother (by simp [hp])).trans hp
    rcases hnext with hfree | ⟨hheld, hless⟩
    · exact ⟨1, by omega, t, by simp [Machine.run, ht], hfree, hp', D'⟩
    · obtain ⟨k, hk, v, hv, hrest⟩ := ih (T.moves (moves_of_run ht)) D' hp' hheld (by omega)
      refine ⟨k + 1, by omega, v, ?_, hrest⟩
      rw [List.replicate_succ, Machine.run, ht]
      exact hv

/-- Once a call has returned with the lock held, no call returns any more. -/
theorem stuck (hl : s.lock = some q) (hin : ∀ p, (s.point p).inside = false)
    (h : Reach (· = s) (step M) always t) : t.returns = s.returns := by
  have hinv : t.lock = some q ∧ (∀ p, (t.point p).inside = false) ∧ t.returns = s.returns := by
    refine h.invariant (I := fun t => t.lock = some q ∧ (∀ p, (t.point p).inside = false) ∧
      t.returns = s.returns) ?_ ?_
    · rintro _ rfl
      exact ⟨hl, hin, rfl⟩
    rintro x e y ⟨hlx, hx, hret⟩ - hy
    cases e with
    | call p o =>
      obtain ⟨-, rfl⟩ := call_cases hy
      refine ⟨hlx, fun r => ?_, hret⟩
      by_cases hr : r = p
      · simp [hr, Point.inside]
      · simpa [hr] using hx r
    | run p =>
      have hxp := hx p
      cases moves_of_run hy with
      | spin => exact ⟨hlx, hx, hret⟩
      | resume =>
        refine ⟨hlx, fun r => ?_, hret⟩
        by_cases hr : r = p
        · simp [hr, Point.inside]
        · simpa [hr] using hx r
      | enter _ hfree | reenter _ hfree => simp [hlx] at hfree
      | _ hp => simp [hp, Point.inside] at hxp
    | signal p =>
      cases hy
      obtain ⟨-, h⟩ | ⟨c, -, h⟩ := signal_cases x p <;> rw [h] <;> exact ⟨hlx, hx, hret⟩
  exact hinv.2.2

end Monitor
