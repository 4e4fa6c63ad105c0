/-! Runs of a machine whose steps may fail. `Reach init step ok` collects the
states of the runs in which every step, taken at its state, satisfies `ok`;
with `ok` always true these are all reachable states. -/
namespace Machine

open Option

variable {σ ι : Type}

inductive Reach (init : σ → Prop) (step : σ → ι → Option σ) (ok : σ → ι → Prop) : σ → Prop where
  | init {s : σ} : init s → Reach init step ok s
  | step {s t : σ} {a : ι} : Reach init step ok s → ok s a → step s a = some t →
      Reach init step ok t

def always : σ → ι → Prop := fun _ _ => True

instance (s : σ) (a : ι) : Decidable (always s a) := inferInstanceAs (Decidable True)

/-- Take the steps of a list in turn. -/
def run (step : σ → ι → Option σ) : σ → List ι → Option σ
  | s, [] => some s
  | s, a :: as => (step s a).bind fun t => run step t as

variable {init : σ → Prop} {step : σ → ι → Option σ} {ok : σ → ι → Prop} {α : Type}

/-- What holds initially and is kept by every step holds in every state. -/
theorem Reach.invariant {I : σ → Prop} (hinit : ∀ s, init s → I s)
    (hstep : ∀ s a t, I s → ok s a → step s a = some t → I t) {s : σ}
    (h : Reach init step ok s) : I s := by
  induction h with
  | init h => exact hinit _ h
  | step _ hok hs ih => exact hstep _ _ _ ih hok hs

theorem Reach.of_ok {s : σ} (h : Reach init step ok s) : Reach init step always s := by
  induction h with
  | init h => exact .init h
  | step _ _ hs ih => exact ih.step trivial hs

theorem Reach.run {s t : σ} (h : Reach init step always s) {as : List ι}
    (hr : Machine.run step s as = some t) : Reach init step always t := by
  induction as generalizing s with
  | nil => exact Option.some.inj hr ▸ h
  | cons a as ih =>
    obtain ⟨u, hu, hr⟩ := bind_eq_some_iff.mp hr
    exact ih (h.step trivial hu) hr

/-- Take only steps that satisfy `ok`. -/
def guarded (step : σ → ι → Option σ) (ok : σ → ι → Prop) [∀ s a, Decidable (ok s a)]
    (s : σ) (a : ι) : Option σ := if ok s a then step s a else none

theorem Reach.runGuarded [∀ s a, Decidable (ok s a)] {s t : σ} (h : Reach init step ok s)
    {as : List ι} (hr : Machine.run (guarded step ok) s as = some t) : Reach init step ok t := by
  induction as generalizing s with
  | nil => exact Option.some.inj hr ▸ h
  | cons a as ih =>
    obtain ⟨u, hu, hr⟩ := bind_eq_some_iff.mp hr
    unfold guarded at hu
    split at hu
    · rename_i hok
      exact ih (h.step hok hu) hr
    · cases hu

/-- The machine with a record of its run, which no step reads. -/
def recorded {γ : Type} (step : σ → ι → Option σ) (log : σ → ι → σ → γ → γ) (x : σ × γ) (a : ι) :
    Option (σ × γ) := (step x.1 a).map fun t => (t, log x.1 a t x.2)

/-- What is kept by every step, with its record, holds of every state and its record. -/
theorem Reach.invariantRecorded {γ : Type} {log : σ → ι → σ → γ → γ} {I : σ → γ → Prop}
    {init : σ × γ → Prop} {ok : σ × γ → ι → Prop} (hinit : ∀ s g, init (s, g) → I s g)
    (hstep : ∀ s g a t, I s g → ok (s, g) a → step s a = some t → I t (log s a t g)) {x : σ × γ}
    (h : Reach init (recorded step log) ok x) : I x.1 x.2 := by
  refine h.invariant (I := fun x => I x.1 x.2) (fun x => hinit x.1 x.2) fun x a y hI hok hxy => ?_
  obtain ⟨t, ht, rfl⟩ := map_eq_some_iff.mp hxy
  exact hstep x.1 x.2 a t hI hok ht

/-- What `x` gives, `y` gives too. -/
def Below {α : Type} (x y : Option α) : Prop := ∀ a, x = some a → y = some a

theorem Below.refl (x : Option α) : Below x x := fun _ => id

theorem Below.bind {β : Type} {x y : Option α} {f g : α → Option β} (h : Below x y)
    (hf : ∀ a, Below (f a) (g a)) : Below (x.bind f) (y.bind g) := by
  intro b hb
  obtain ⟨a, ha, hb⟩ := bind_eq_some_iff.mp hb
  rw [h a ha]
  exact hf a b hb

theorem Below.map {β : Type} {x y : Option α} (f : α → β) (h : Below x y) :
    Below (x.map f) (y.map f) := by
  intro b hb
  obtain ⟨a, ha, rfl⟩ := map_eq_some_iff.mp hb
  rw [h a ha]
  rfl

/-- Where the lower machine steps, the two machines agree. -/
theorem Below.agree {x y : Option α} {a : α} (h : Below x y) (hx : x.isSome)
    (hy : y = some a) : x = some a := by
  obtain ⟨b, hb⟩ := isSome_iff_exists.mp hx
  rw [hb, ← h b hb, hy]

/-- A value read off the end of a run tells where the run ends. -/
theorem run_of_map {f : σ → α} {v : α} {o : Option σ} (h : o.map f = some v) :
    ∃ t, o = some t ∧ f t = v := map_eq_some_iff.mp h

/-- A run goes on where its first part has led. -/
theorem run_append (s : σ) (as bs : List ι) :
    run step s (as ++ bs) = (run step s as).bind fun t => run step t bs := by
  induction as generalizing s with
  | nil => rfl
  | cons a as ih =>
    rw [List.cons_append, run, run, bind_assoc]
    exact Option.bind_congr fun t _ => ih t

end Machine
