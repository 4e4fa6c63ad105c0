import Sysint.Lib.Budget
import Sysint.Process.Fair

/-! `min_vruntime` and the time. What a process holds above `min_vruntime` it was charged with, so
that the runtimes of the 64-bit code do not wrap as long as the time itself is far from it. -/
namespace Sysint.Process

open Budget (Within)
open Function
open Machine

/-- How far a process is ahead of `min_vruntime`. -/
def Standing.ahead (min : Nat) : Standing → Nat
  | .queued v => v - min
  | .away v => v
  | .gone => 0

namespace Cfs

variable {wrap : Nat → Nat} {c c' : Cfs} {B : Nat}

/-- The processes in the run queue are not behind, and together the processes are ahead by no more
than has been charged. -/
structure Paced (c : Cfs) : Prop where
  queued : ∀ p v, c.standing p = .queued v → c.min ≤ v
  total : Within c.min (fun p => (c.standing p).ahead c.min) c.clock

theorem Paced.le_clock {p v : Nat} (P : c.Paced) (hp : c.standing p = .queued v) : v ≤ c.clock := by
  have hle := P.queued p v hp
  have hone := P.total.member p
  rw [hp, Standing.ahead] at hone
  omega

theorem Paced.away_le {p v : Nat} (P : c.Paced) (hp : c.standing p = .away v) :
    v + c.min ≤ c.clock := by
  have hone := P.total.member p
  rw [hp, Standing.ahead] at hone
  omega

/-- A change of one process, which gains no more than it is charged with. -/
theorem Paced.put {p : Nat} {x : Standing} (P : c.Paced) (hmin : c'.min = c.min)
    (hstand : c'.standing = update c.standing p x) (hqueued : ∀ v, x = .queued v → c.min ≤ v)
    (hx : x.ahead c.min + c.clock ≤ (c.standing p).ahead c.min + c'.clock) : c'.Paced := by
  constructor
  · intro q v hq
    rw [hmin]
    by_cases hqp : q = p
    · rw [hstand, hqp, update_self] at hq
      exact hqueued v hq
    · rw [hstand, update_of_ne hqp] at hq
      exact P.queued q v hq
  · rw [hmin, hstand]
    refine P.total.shift (i := p) (fun q hq => ?_) ?_
    · rw [update_of_ne hq]
    · rw [update_self]
      omega

theorem Paced.move (hw : ∀ n, n ≤ B → wrap n = n) (F : c.CurFirst) (h : Move wrap c c')
    (hB : c'.clock ≤ B) (P : c.Paced) : c'.Paced := by
  cases h with
  | @ready p v hp =>
    have hsum : wrap (v + c.min) = v + c.min := hw _ ((P.away_le hp).trans hB)
    rw [hsum] at hB ⊢
    refine P.put rfl rfl (fun u hu => ?_) ?_
    · obtain rfl := Standing.queued.inj hu
      exact Nat.le_add_left _ _
    · rw [hp, Standing.ahead, Standing.ahead, Nat.add_sub_cancel]
      rfl
  | @preempt v delta hne hcur =>
    obtain rfl := Standing.queued.inj (hcur.symm.trans (F hne))
    have hclock : c.clock + delta ≤ B := hB
    have hle := P.le_clock hcur
    have hsum : wrap (c.min + delta) = c.min + delta := hw _ (by omega)
    refine P.put rfl rfl (fun u hu => ?_) ?_
    · obtain rfl := Standing.queued.inj hu
      rw [hsum]
      exact Nat.le_add_right _ _
    · rw [hcur, hsum]
      simp only [Standing.ahead, Cfs.charge]
      omega
  | @block v delta hne hcur =>
    obtain rfl := Standing.queued.inj (hcur.symm.trans (F hne))
    have hclock : c.clock + delta ≤ B := hB
    have hsum : wrap delta = delta := hw _ (by omega)
    refine P.put rfl rfl nofun ?_
    rw [hcur, if_pos le_rfl, Nat.sub_self, Nat.zero_add, hsum]
    simp only [Standing.ahead, Cfs.charge]
    omega
  | finish p =>
    refine P.put rfl rfl nofun ?_
    rw [Standing.ahead, Nat.zero_add]
    exact Nat.le_add_left _ _
  | create hp =>
    refine P.put rfl rfl nofun ?_
    rw [Standing.ahead, Nat.zero_add]
    exact Nat.le_add_left _ _
  | @choose p v hp hmin =>
    refine ⟨hmin, P.total.shift (i := p) (fun q _ => ?_) ?_⟩
    · -- `min_vruntime` grows, so that nobody is further ahead than before
      have hle := P.queued p v hp
      change (c.standing q).ahead v ≤ (c.standing q).ahead c.min
      cases c.standing q with
      | queued u => exact Nat.sub_le_sub_left hle u
      | away u => exact le_rfl
      | gone => exact le_rfl
    · have hle := P.queued p v hp
      change v + (c.standing p).ahead v + c.clock ≤ c.min + (c.standing p).ahead c.min + c.clock
      rw [hp, Standing.ahead, Standing.ahead]
      omega
  | stop => exact ⟨P.queued, P.total⟩
  | pass delta => exact ⟨P.queued, P.total.mono (Nat.le_add_right _ _)⟩

theorem Paced.min_le_move (h : Move wrap c c') (P : c.Paced) : c.min ≤ c'.min := by
  cases h with
  | choose hp => exact P.queued _ _ hp
  | _ => exact le_rfl

/-- Moves keep the pace and do not take `min_vruntime` back. -/
theorem Paced.moves (hw : ∀ n, n ≤ B → wrap n = n) (F : c.CurFirst) (h : Moves wrap c c')
    (hB : c'.clock ≤ B) (P : c.Paced) : c'.Paced ∧ c.min ≤ c'.min := by
  refine h.invariant (P := fun c' => c'.Paced ∧ c.min ≤ c'.min)
    (fun d d' F h hB ⟨P, hle⟩ => ?_) F hB
    ⟨P, le_rfl⟩
  exact ⟨P.move hw F h hB, hle.trans (P.min_le_move h)⟩

end Cfs

/-! ## Runs -/

variable {s s' : Kernel}

theorem Started.paced {w : Nat → Nat} (h : Started w s) : s.cfs.Paced := by
  obtain ⟨hmin, hzero⟩ := h.cfs
  refine ⟨fun p v _ => hmin ▸ Nat.zero_le v, fun S => ?_⟩
  have hahead (p : Nat) : (s.cfs.standing p).ahead s.cfs.min = 0 := by
    cases hp : s.cfs.standing p with
    | queued v => rw [Standing.ahead, hzero p v (.inl hp), Nat.zero_sub]
    | away v => rw [Standing.ahead, hzero p v (.inr hp)]
    | gone => rfl
  rw [Finset.sum_eq_zero fun p _ => hahead p, hmin]
  exact Nat.zero_le _

/-- No process ends while its parent is in the run queue. -/
def PaceOk (s : Kernel) (e : Event) : Prop :=
  QueueOk uint64 s e ∧ schedEvent e = true ∧ ∀ p ∈ s.ending e, ParentAway s p

instance (s : Kernel) (e : Event) : Decidable (PaceOk s e) :=
    inferInstanceAs (Decidable (_ ∧ _ ∧ _))

theorem uint64_of_lt (n : Nat) (h : n < 2 ^ 64) : uint64 n = n := Nat.mod_eq_of_lt h

theorem uint64_of_le (n : Nat) (h : n ≤ 2 ^ 63) : uint64 n = n := uint64_of_lt n (by omega)

theorem reach_paced (h : Reach (Started uint64) (Kernel.step (.code uint64)) PaceOk s) :
    Scheduled s ∧ (s.charged ≤ 2 ^ 63 → s.cfs.Paced) := by
  refine h.invariant (I := fun s => Scheduled s ∧ (s.charged ≤ 2 ^ 63 → s.cfs.Paced))
    (fun s hs => ⟨hs.scheduled, fun _ => hs.paced⟩) ?_
  rintro s e s' ⟨S, hP⟩ ⟨hq, hok⟩ hstep
  obtain ⟨S', hmoves⟩ := S.step hq hok hstep
  refine ⟨S', fun hB => ?_⟩
  have P := hP (hmoves.clock_le.trans hB)
  exact (P.moves uint64_of_le S.cur hmoves hB).1

/-- With 64-bit arithmetic, in every run of at most 2^63 ns in which no process ends while its
parent is in the run queue, no process in the run queue is behind `min_vruntime`, and no step
takes `min_vruntime` back. -/
theorem min_vruntime_monotone {s : Kernel}
    (h : Reach (Started uint64) (Kernel.step (.code uint64)) PaceOk s) (hns : s.ns ≤ 2 ^ 63) :
    (∀ a p, Member s a p .runQueue → s.minVruntime ≤ (s.proc p).vruntime) ∧
    ∀ e s', PaceOk s e → s.step (.code uint64) e = some s' → s'.ns ≤ 2 ^ 63 →
      s.minVruntime ≤ s'.minVruntime := by
  obtain ⟨S, hP⟩ := reach_paced h
  have P := hP (S.charged.trans hns)
  refine ⟨fun a p hp => ?_, fun e s' hok hstep hns' => ?_⟩
  · obtain ⟨-, hq, -⟩ := (S.sane.intact.member p a .runQueue).mp hp
    exact P.queued p _ (Proc.standing_queued hq)
  · obtain ⟨S', hmoves⟩ := S.step hok.1 hok.2 hstep
    exact (P.moves uint64_of_le S.cur hmoves (S'.charged.trans hns')).2

/-- Process 1 runs for 12 ms, and process 2 waits for an event. -/
def otherWaits : List Event := [.tick, .select, .tick, .tick, .tick, .select, .wait 0]

theorem min_vruntime_monotone_sample : ∃ s s',
    Reach (Started uint64) (Kernel.step (.code uint64)) PaceOk s ∧ s.ns = 16000000 ∧
    (∀ a p, Member s a p .runQueue → s.minVruntime ≤ (s.proc p).vruntime) ∧
    s.step (.code uint64) .select = some s' ∧ s.minVruntime = 0 ∧ s'.minVruntime = 12000000 ∧
    s.minVruntime ≤ s'.minVruntime := by
  have hrun : (runOf uint64 PaceOk otherWaits).map (fun s => ((s.ns, s.minVruntime),
      decide (PaceOk s .select), (s.step (.code uint64) .select).map fun s' =>
        (s'.ns, s'.minVruntime))) =
      some ((16000000, 0), true, some (16000000, 12000000)) := by decide +kernel
  obtain ⟨s, hs, he⟩ := run_of_map hrun
  obtain ⟨hnum, he⟩ := Prod.mk.inj he
  obtain ⟨hns, hmin⟩ := Prod.mk.inj hnum
  obtain ⟨hok, he⟩ := Prod.mk.inj he
  obtain ⟨s', hs', he⟩ := run_of_map he
  obtain ⟨hns', hmin'⟩ := Prod.mk.inj he
  have hreach := runOf_reach hs
  have hle : s.ns ≤ 2 ^ 63 := by
    rw [hns]
    decide
  have hle' : s'.ns ≤ 2 ^ 63 := by
    rw [hns']
    decide
  obtain ⟨hqueue, hmono⟩ := min_vruntime_monotone hreach hle
  exact ⟨s, s', hreach, hns, hqueue, hs', hmin, hmin',
    hmono .select s' (of_decide_eq_true hok) hs' hle'⟩

/-! ## Children that end while their parent is ready

The signal of such a child readies its parent again, and `add_proc_run` adds `min_vruntime` to a
runtime that has it already: with every child `min_vruntime` doubles. -/

/-- A step of the scheduler that keeps the queues. -/
def KeptOk (w : Nat → Nat) (s : Kernel) (e : Event) : Prop := QueueOk w s e ∧ schedEvent e = true

instance {w : Nat → Nat} (s : Kernel) (e : Event) : Decidable (KeptOk w s e) :=
  inferInstanceAs (Decidable (_ ∧ _))

/-- Process 1 makes a child and is preempted after three ticks, and the child ends. -/
def childEnds : List Event := [.clone 0 true, .tick, .tick, .tick, .select, .exit 0]

/-- `k s`, with the runtime of process 1 as a number: a run that doubles it again and again would
otherwise compute it anew wherever it is read. -/
def Kernel.evaluated {β : Type} (s : Kernel) (k : Kernel → β) : β :=
  match (s.proc 1).vruntime with
  | 0 => k (s.modify 1 fun q => { q with vruntime := 0 })
  | v + 1 => k (s.modify 1 fun q => { q with vruntime := v + 1 })

theorem Kernel.evaluated_eq {β : Type} (s : Kernel) (k : Kernel → β) : s.evaluated k = k s := by
  have hsame (v : Nat) (hv : (s.proc 1).vruntime = v) :
      s.modify 1 (fun q => { q with vruntime := v }) = s := by
    subst hv
    simp [Kernel.modify]
  unfold Kernel.evaluated
  split
  · rename_i hv
    rw [hsame 0 hv]
  · rename_i v hv
    rw [hsame (v + 1) hv]

/-- So many children end, and after each of them process 1 goes on. -/
def childrenEnd : Nat → Kernel → Option Kernel
  | 0, s => some s
  | n + 1, s => (run (guarded (Kernel.step (.code uint64)) (KeptOk uint64)) s
      (childEnds ++ [.select])).bind fun s => s.evaluated (childrenEnd n)

theorem childrenEnd_reach {n : Nat} (h : Reach (Started uint64) (Kernel.step (.code uint64))
    (KeptOk uint64) s) (hrun : childrenEnd n s = some s') :
    Reach (Started uint64) (Kernel.step (.code uint64)) (KeptOk uint64) s' := by
  induction n generalizing s with
  | zero => exact Option.some.inj hrun ▸ h
  | succ n ih =>
    obtain ⟨t, ht, hrun⟩ := Option.bind_eq_some_iff.mp hrun
    rw [Kernel.evaluated_eq] at hrun
    exact ih (h.runGuarded ht) hrun

/-- After 40 children, in half a second, the runtime of the parent has wrapped: it is in the run
queue behind `min_vruntime`, which the next `schedule` takes back. -/
theorem min_vruntime_wraps : ∃ s,
    Reach (Started uint64) (Kernel.step (.code uint64)) (KeptOk uint64) s ∧ s.ns = 496000000 ∧
    (∃ a, Member s a 1 .runQueue) ∧ (s.proc 1).vruntime < s.minVruntime ∧
    ∃ s', s.step (.code uint64) .select = some s' ∧ s'.minVruntime < s.minVruntime := by
  have hrun : ((runOf uint64 (KeptOk uint64) (otherWaits ++ [.select])).bind fun s =>
      (childrenEnd 39 s).bind fun s => run (guarded (Kernel.step (.code uint64)) (KeptOk uint64)) s
        childEnds).map (fun s => (s.ns, (s.proc 1).curQueue,
      decide ((s.proc 1).vruntime < s.minVruntime), (s.step (.code uint64) .select).map fun s' =>
        decide (s'.minVruntime < s.minVruntime))) =
      some (496000000, .runQueue, true, some true) := by decide +kernel
  obtain ⟨s, hs, he⟩ := run_of_map hrun
  obtain ⟨s₀, h₀, hs⟩ := Option.bind_eq_some_iff.mp hs
  obtain ⟨s₁, h₁, hs⟩ := Option.bind_eq_some_iff.mp hs
  have hreach := (childrenEnd_reach (runOf_reach h₀) h₁).runGuarded hs
  have H : Sane s := reach_sane (fun _ _ hok => hok.1) hreach
  obtain ⟨hns, he⟩ := Prod.mk.inj he
  obtain ⟨hq, he⟩ := Prod.mk.inj he
  obtain ⟨hlt, he⟩ := Prod.mk.inj he
  obtain ⟨s', hs', hlt'⟩ := run_of_map he
  exact ⟨s, hreach, hns, ⟨_, (H.intact.member 1 _ .runQueue).mpr ⟨by decide, hq, rfl⟩⟩,
    of_decide_eq_true hlt, s', hs', of_decide_eq_true hlt'⟩

end Sysint.Process
