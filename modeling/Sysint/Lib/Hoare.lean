import Mathlib.Logic.Basic

/-! Pre- and postconditions for programs that change a state and may stop with an error.
What holds when a program stops is part of its triple. -/
namespace Hoare

variable {ε σ α β : Type} {x : EStateM ε σ α} {f : α → EStateM ε σ β}

/-! ## Runs -/

theorem bind_of_ok {s t : σ} {a : α} (h : x s = .ok a t) : (x >>= f) s = f a t := by
  change EStateM.bind x f s = f a t
  rw [EStateM.bind, h]

theorem bind_of_error {s t : σ} {e : ε} (h : x s = .error e t) : (x >>= f) s = .error e t := by
  change EStateM.bind x f s = .error e t
  rw [EStateM.bind, h]

@[simp] theorem pure_run (a : α) (s : σ) : (pure a : EStateM ε σ α) s = .ok a s := rfl

@[simp] theorem get_bind (f : σ → EStateM ε σ β) (s : σ) : (get >>= f) s = f s s := rfl

@[simp] theorem modify_bind (g : σ → σ) (f : PUnit → EStateM ε σ β) (s : σ) :
    (modify g >>= f) s = f ⟨⟩ (g s) := rfl

@[simp] theorem modify_run (g : σ → σ) (s : σ) :
    (modify g : EStateM ε σ PUnit) s = .ok ⟨⟩ (g s) := rfl

/-! ## Triples -/

/-- Started with `P`, the program returns with `Q` or stops with `E`. -/
def Triple (P : σ → Prop) (x : EStateM ε σ α) (Q : α → σ → Prop) (E : ε → σ → Prop) : Prop :=
  ∀ s, P s → match x s with
    | .ok a t => Q a t
    | .error e t => E e t

variable {P P' : σ → Prop} {Q Q' : α → σ → Prop} {E E' : ε → σ → Prop}

theorem Triple.ok (h : Triple P x Q E) {s t : σ} {a : α} (hs : P s)
    (hx : x s = .ok a t) : Q a t := by
  have hr := h s hs
  rwa [hx] at hr

/-- Where it cannot stop, the program returns. -/
theorem Triple.returns (h : Triple P x Q E) {s : σ} (hs : P s)
    (hE : ∀ e t, ¬ E e t) : ∃ a t, x s = .ok a t ∧ Q a t := by
  have hr := h s hs
  cases hx : x s with
  | ok a t =>
    rw [hx] at hr
    exact ⟨a, t, rfl, hr⟩
  | error e t =>
    rw [hx] at hr
    exact absurd hr (hE e t)

theorem Triple.weaken (h : Triple P x Q E) (hP : ∀ s, P' s → P s)
    (hQ : ∀ a s, Q a s → Q' a s) (hE : ∀ e s, E e s → E' e s) : Triple P' x Q' E' := by
  intro s hs
  have hx := h s (hP s hs)
  cases hr : x s with
  | ok a t =>
    rw [hr] at hx
    exact hQ a t hx
  | error e t =>
    rw [hr] at hx
    exact hE e t hx

theorem Triple.pre (h : Triple P x Q E) (hP : ∀ s, P' s → P s) : Triple P' x Q E :=
  fun s hs => h s (hP s hs)

theorem Triple.post (h : Triple P x Q E) (hQ : ∀ a s, Q a s → Q' a s) : Triple P x Q' E :=
  h.weaken (fun _ h => h) hQ fun _ _ h => h

theorem Triple.stop (h : Triple P x Q E) (hE : ∀ e s, E e s → E' e s) : Triple P x Q E' :=
  h.weaken (fun _ h => h) (fun _ _ h => h) hE

theorem Triple.pure {a : α} (h : ∀ s, P s → Q a s) : Triple P (pure a : EStateM ε σ α) Q E := h

theorem Triple.throw {e : ε} (h : ∀ s, P s → E e s) : Triple P (throw e : EStateM ε σ α) Q E := h

/-- A program that is known to return. -/
theorem Triple.call (h : ∀ s, P s → ∃ a t, x s = .ok a t ∧ Q a t) : Triple P x Q E := by
  intro s hs
  obtain ⟨a, t, hr, hq⟩ := h s hs
  rw [hr]
  exact hq

theorem Triple.bind {R : β → σ → Prop}
    (hx : Triple P x Q E) (hf : ∀ a, Triple (Q a) (f a) R E) : Triple P (x >>= f) R E := by
  intro s hs
  have h := hx s hs
  cases hr : x s with
  | ok a t =>
    rw [hr] at h
    rw [bind_of_ok hr]
    exact hf a t h
  | error e t =>
    rw [hr] at h
    rw [bind_of_error hr]
    exact h

/-- The program may look at the state. -/
theorem Triple.get {f : σ → EStateM ε σ β} {R : β → σ → Prop}
    (hf : ∀ s, P s → Triple (fun t => P t ∧ t = s) (f s) R E) : Triple P (get >>= f) R E := by
  intro s hs
  exact hf s hs s ⟨hs, rfl⟩

theorem Triple.modify {g : σ → σ} {R : PUnit → σ → Prop} (h : ∀ s, P s → R ⟨⟩ (g s)) :
    Triple P (modify g : EStateM ε σ PUnit) R E := h

theorem Triple.ite {c : Prop} [Decidable c] {y : EStateM ε σ α}
    (hx : c → Triple P x Q E) (hy : ¬ c → Triple P y Q E) : Triple P (if c then x else y) Q E := by
  split
  · exact hx ‹_›
  · exact hy ‹_›

/-- What `f` makes of the result of a run, if there is one. -/
def outcome (x : EStateM ε σ α) (s : σ) (f : α → σ → β) : Option β :=
  match x s with
  | .ok a t => some (f a t)
  | .error _ _ => none

theorem ok_of_outcome {s : σ} {f : α → σ → β} {v : β}
    (h : outcome x s f = some v) : ∃ a t, x s = .ok a t ∧ f a t = v := by
  unfold outcome at h
  cases hx : x s with
  | ok a t =>
    rw [hx] at h
    exact ⟨a, t, rfl, Option.some.inj h⟩
  | error e t =>
    rw [hx] at h
    cases h

end Hoare
