import Mathlib.Logic.Function.Basic
import Mathlib.Logic.Relation
import Mathlib.Order.WellFounded

/-! Directories that share tables. Each directory has a base, and owns those of its tables that its
base does not have at the same place: comparing the two tells what a directory may free. -/
namespace Sharing

variable {D I T : Type}

structure Store (D I T : Type) where
  live : D → Prop
  /-- A directory that is not built on another is its own base. -/
  base : D → D
  /-- The places at which nothing is shared. -/
  own : I → Prop
  tab : D → I → Option T

namespace Store

def Owns (s : Store D I T) (d : D) (i : I) (t : T) : Prop :=
  s.tab d i = some t ∧ (s.own i ∨ s.base d = d ∨ s.tab (s.base d) i ≠ some t)

/-- Some live directory owns the table. -/
def Used (s : Store D I T) (t : T) : Prop := ∃ d i, s.live d ∧ s.Owns d i t

/-- Bases come before what is built on them, and no table has two owners. -/
structure Ok [LT D] (s : Store D I T) : Prop where
  base_live : ∀ d, s.live d → s.live (s.base d)
  base_lt : ∀ d, s.live d → s.base d ≠ d → s.base d < d
  unique : ∀ d e i j t, s.live d → s.live e → s.Owns d i t → s.Owns e j t → d = e ∧ i = j

/-- No other live directory is built on `d`. -/
def Leaf (s : Store D I T) (d : D) : Prop := ∀ e, s.live e → s.base e = d → e = d

variable {s : Store D I T} {d e : D} {i j : I} {t u : T} {o : Option T}

/-- Whatever table a live directory has, it or one of its bases owns it, at the same place. A
property that bases hand on holds of the owner. -/
theorem Ok.owner [LT D] [WellFoundedLT D] (hs : s.Ok) {P : D → Prop}
    (hP : ∀ d, s.live d → P d → P (s.base d)) (hd : s.live d) (hPd : P d)
    (ht : s.tab d i = some t) :
    ∃ e, s.live e ∧ P e ∧ s.Owns e i t := by
  induction d using WellFoundedLT.induction with
  | ind d ih =>
    by_cases howns : s.Owns d i t
    · exact ⟨d, hd, hPd, howns⟩
    · obtain ⟨-, hne, hbase⟩ : ¬ s.own i ∧ s.base d ≠ d ∧ s.tab (s.base d) i = some t := by
        simpa [Owns, ht] using howns
      exact ih _ (hs.base_lt d hd hne) (hs.base_live d hd) (hP d hd hPd) hbase

theorem used_congr {s' : Store D I T} (hlive : s'.live = s.live)
    (h : ∀ e j u, s.live e → (s'.Owns e j u ↔ s.Owns e j u)) : s'.Used t ↔ s.Used t := by
  unfold Used
  rw [hlive]
  exact exists_congr fun e => exists_congr fun j => and_congr_right (h e j t)

theorem Ok.used [LT D] [WellFoundedLT D] (hs : s.Ok) (hd : s.live d) (ht : s.tab d i = some t) :
    s.Used t := by
  obtain ⟨e, he, -, howns⟩ := hs.owner (P := fun _ => True) (fun _ _ _ => trivial) hd trivial ht
  exact ⟨e, i, he, howns⟩

/-! ## Changing one place -/

section
variable [DecidableEq D] [DecidableEq I]

@[simps live base own]
def set (s : Store D I T) (d : D) (i : I) (o : Option T) : Store D I T :=
  { s with tab := Function.update s.tab d (Function.update (s.tab d) i o) }

theorem set_tab (s : Store D I T) (d e : D) (i j : I) (o : Option T) :
    (s.set d i o).tab e j = if e = d ∧ j = i then o else s.tab e j := by
  by_cases he : e = d
  · subst he
    by_cases hj : j = i
    · simp [set, hj]
    · simp [set, hj]
  · simp [set, he]

/-- What is built on `d` does not share its table at the place, before and after it becomes `o`. -/
def Steady (s : Store D I T) (d : D) (i : I) (o : Option T) : Prop :=
  ∀ e t, s.live e → s.base e = d → e ≠ d → s.tab e i = some t → s.tab d i ≠ some t ∧ o ≠ some t

theorem owns_set (h : s.Steady d i o) (he : s.live e) (hat : ¬ (e = d ∧ j = i)) :
    (s.set d i o).Owns e j u ↔ s.Owns e j u := by
  rw [Owns, Owns, set_own, set_base, set_tab, set_tab, if_neg hat]
  refine and_congr_right fun hu => or_congr_right ?_
  by_cases hbase : s.base e = d ∧ j = i
  · obtain ⟨hb, rfl⟩ := hbase
    have hne : e ≠ d := fun h => hat ⟨h, rfl⟩
    obtain ⟨h1, h2⟩ := h e u he hb hne hu
    simp [hb, hne.symm, h1, h2]
  · rw [if_neg hbase]

theorem owns_set_self : (s.set d i o).Owns d i u ↔
    o = some u ∧ (s.own i ∨ s.base d = d ∨ s.tab (s.base d) i ≠ some u) := by
  rw [Owns, set_own, set_base, set_tab, set_tab, if_pos ⟨rfl, rfl⟩]
  by_cases hb : s.base d = d
  · simp [hb]
  · simp [hb]

/-- What the new table needs: that its only owner is the place itself. -/
theorem Ok.set [LT D] (hs : s.Ok) (h : s.Steady d i o)
    (hnew : ∀ u e j, (s.set d i o).Owns d i u → s.live e → s.Owns e j u → e = d ∧ j = i) :
    (s.set d i o).Ok := by
  refine ⟨hs.base_live, hs.base_lt, ?_⟩
  intro a b x y v ha hb hx hy
  by_cases hax : a = d ∧ x = i
  · by_cases hby : b = d ∧ y = i
    · exact ⟨hax.1.trans hby.1.symm, hax.2.trans hby.2.symm⟩
    · obtain ⟨rfl, rfl⟩ := hax
      exact absurd (hnew v b y hx hb ((owns_set h hb hby).mp hy)) hby
  · by_cases hby : b = d ∧ y = i
    · obtain ⟨rfl, rfl⟩ := hby
      exact absurd (hnew v a x hy ha ((owns_set h ha hax).mp hx)) hax
    · exact hs.unique a b x y v ha hb ((owns_set h ha hax).mp hx) ((owns_set h hb hby).mp hy)

variable [LT D]

/-- An unused table has one owner. -/
theorem Ok.add [WellFoundedLT D] (hs : s.Ok) (hd : s.live d) (hnone : s.tab d i = none)
    (hnew : ¬ s.Used t) :
    (s.set d i (some t)).Ok ∧ ∀ e j u, s.live e →
      ((s.set d i (some t)).Owns e j u ↔ s.Owns e j u ∨ (e = d ∧ j = i ∧ u = t)) := by
  have hnot : ∀ x y, s.live x → s.tab x y ≠ some t := fun x y hx hxy => hnew (hs.used hx hxy)
  have hsteady : s.Steady d i (some t) := by
    intro e u he _ _ hu
    rw [hnone]
    refine ⟨nofun, fun heq => ?_⟩
    obtain rfl := Option.some.inj heq
    exact hnot e i he hu
  constructor
  · refine hs.set hsteady fun u e j hself he howns => ?_
    obtain rfl := Option.some.inj (owns_set_self.mp hself).1
    exact absurd ⟨e, j, he, howns⟩ hnew
  intro e j u he
  by_cases hat : e = d ∧ j = i
  · obtain ⟨rfl, rfl⟩ := hat
    have hno : ¬ s.Owns e j u := fun howns => nomatch hnone.symm.trans howns.1
    rw [owns_set_self, Option.some.injEq]
    constructor
    · exact fun h => .inr ⟨rfl, rfl, h.1.symm⟩
    · rintro (howns | ⟨-, -, rfl⟩)
      · exact absurd howns hno
      · exact ⟨rfl, .inr (.inr (hnot _ _ (hs.base_live e he)))⟩
  · rw [owns_set hsteady he hat, or_iff_left fun h => hat ⟨h.1, h.2.1⟩]

/-- A table that no other directory has from `d` is taken away from its owner. -/
theorem Ok.remove (hs : s.Ok) (hd : s.live d) (howns : s.Owns d i t)
    (halone : ∀ e, s.live e → s.base e = d → e ≠ d → s.tab e i ≠ some t) :
    (s.set d i none).Ok ∧ ∀ e j u, s.live e →
      ((s.set d i none).Owns e j u ↔ s.Owns e j u ∧ u ≠ t) := by
  have hsteady : s.Steady d i none := by
    intro e u he hb hne hu
    refine ⟨fun heq => ?_, nofun⟩
    obtain rfl := Option.some.inj (howns.1.symm.trans heq)
    exact halone e he hb hne hu
  constructor
  · exact hs.set hsteady fun u e j hself => nomatch (owns_set_self.mp hself).1
  intro e j u he
  by_cases hat : e = d ∧ j = i
  · obtain ⟨rfl, rfl⟩ := hat
    rw [owns_set_self]
    refine ⟨fun h => (nomatch h.1), fun h => ?_⟩
    exact absurd (Option.some.inj (h.1.1.symm.trans howns.1)) h.2
  · rw [owns_set hsteady he hat]
    refine ⟨fun h => ⟨h, ?_⟩, fun h => h.1⟩
    rintro rfl
    exact hat (hs.unique e d j i u he hd h howns)

/-- A directory that nothing is built on takes over what its base has. -/
theorem Ok.link (hs : s.Ok) (hleaf : s.Leaf d) (hi : ¬ s.own i) (hne : s.base d ≠ d)
    (hnone : s.tab d i = none) : (s.set d i (s.tab (s.base d) i)).Ok ∧ ∀ e j u, s.live e →
      ((s.set d i (s.tab (s.base d) i)).Owns e j u ↔ s.Owns e j u) := by
  have hsteady : s.Steady d i (s.tab (s.base d) i) := fun e u he hb hed =>
    absurd (hleaf e he hb) hed
  have hself : ∀ u, ¬ (s.set d i (s.tab (s.base d) i)).Owns d i u := by
    intro u hu
    obtain ⟨hu, hor⟩ := owns_set_self.mp hu
    exact (hor.resolve_left hi).elim hne fun h => h hu
  constructor
  · exact hs.set hsteady fun u e j h => absurd h (hself u)
  · intro e j u he
    by_cases hat : e = d ∧ j = i
    · obtain ⟨rfl, rfl⟩ := hat
      exact ⟨fun h => absurd h (hself u), fun h => (nomatch hnone.symm.trans h.1)⟩
    · exact owns_set hsteady he hat

end

/-! ## One more directory -/

/-- `s'` has the directory `d` that `s` has not. -/
structure Extends (s : Store D I T) (d : D) (s' : Store D I T) : Prop where
  live : ∀ e, s'.live e ↔ e = d ∨ s.live e
  new : ¬ s.live d
  own : s'.own = s.own
  base : ∀ e, s.live e → s'.base e = s.base e ∧ s.live (s.base e)
  tab : ∀ e, s.live e → s'.tab e = s.tab e

variable {s' : Store D I T}

section

variable (h : s.Extends d s')
include h

theorem Extends.owns (he : s.live e) : s'.Owns e i t ↔ s.Owns e i t := by
  obtain ⟨hb, hlive⟩ := h.base e he
  rw [Owns, Owns, h.own, hb, h.tab e he, h.tab _ hlive]

theorem Extends.used : s'.Used t ↔ s.Used t ∨ ∃ i, s'.Owns d i t := by
  constructor
  · rintro ⟨e, i, he, howns⟩
    rcases (h.live e).mp he with rfl | he
    · exact .inr ⟨i, howns⟩
    · exact .inl ⟨e, i, he, (h.owns he).mp howns⟩
  · rintro (⟨e, i, he, howns⟩ | ⟨i, howns⟩)
    · exact ⟨e, i, (h.live e).mpr (.inr he), (h.owns he).mpr howns⟩
    · exact ⟨d, i, (h.live d).mpr (.inl rfl), howns⟩

theorem Extends.ok [LT D] (hs : s.Ok) (hbase : s'.live (s'.base d))
    (hlt : s'.base d ≠ d → s'.base d < d)
    (hnew : ∀ i j t, s'.Owns d i t → ¬ s.Used t ∧ (s'.Owns d j t → i = j)) : s'.Ok := by
  refine ⟨?_, ?_, ?_⟩
  · intro e he
    rcases (h.live e).mp he with rfl | he
    · exact hbase
    · exact (h.live _).mpr (.inr ((h.base e he).1 ▸ (h.base e he).2))
  · intro e he
    rcases (h.live e).mp he with rfl | he
    · exact hlt
    · rw [(h.base e he).1]
      exact hs.base_lt e he
  · intro a b i j t ha hb hi hj
    rcases (h.live a).mp ha with rfl | ha
    · rcases (h.live b).mp hb with rfl | hb
      · exact ⟨rfl, (hnew i j t hi).2 hj⟩
      · exact absurd ⟨b, j, hb, (h.owns hb).mp hj⟩ (hnew i i t hi).1
    · rcases (h.live b).mp hb with rfl | hb
      · exact absurd ⟨a, i, ha, (h.owns ha).mp hi⟩ (hnew j j t hj).1
      · exact hs.unique a b i j t ha hb ((h.owns ha).mp hi) ((h.owns hb).mp hj)

theorem Extends.ok_of [LT D] (hs : s'.Ok) : s.Ok := by
  refine ⟨fun e he => (h.base e he).2, ?_, ?_⟩
  · intro e he
    rw [← (h.base e he).1]
    exact hs.base_lt e ((h.live e).mpr (.inr he))
  · intro a b i j t ha hb hi hj
    exact hs.unique a b i j t ((h.live a).mpr (.inr ha)) ((h.live b).mpr (.inr hb))
      ((h.owns ha).mpr hi) ((h.owns hb).mpr hj)

end

end Store

end Sharing
