import Sysint.Process.Cfs

/-! The virtual runtimes. In the run queue `vruntime` is absolute and at most the
largest delta above `min_vruntime`; elsewhere it is relative to `min_vruntime`. -/
namespace Sysint.Process
open Kernel
open Function
open Machine

variable {s : Kernel}

structure Fair (s : Kernel) : Prop where
  run : ∀ p, (s.proc p).curQueue = .runQueue → s.minVruntime ≤ (s.proc p).vruntime ∧
    (s.proc p).vruntime ≤ s.minVruntime + s.history.maxDelta
  rest : ∀ p, (s.proc p).curQueue ≠ .runQueue → (s.proc p).status ≠ .zombie →
    (s.proc p).vruntime ≤ s.history.maxDelta

/-- The process that runs is in the run queue, and `min_vruntime` is its own. -/
def CurFirst (s : Kernel) : Prop :=
  s.mode = .outside → s.curProc ≠ 0 →
    (s.proc s.curProc).curQueue = .runQueue ∧ (s.proc s.curProc).vruntime = s.minVruntime

/-- The state of the scheduler between two steps. -/
structure CfsInv (s : Kernel) : Prop where
  fair : Fair s
  cur : CurFirst s

namespace Cfs

variable {wrap : Nat → Nat} {c c' : Cfs}

/-- What `Fair` says of the moves. -/
structure Balanced (c : Cfs) : Prop where
  queued : ∀ p v, c.standing p = .queued v → c.min ≤ v ∧ v ≤ c.min + c.maxDelta
  away : ∀ p v, c.standing p = .away v → v ≤ c.maxDelta

/-- A change of one process, with a delta that has been charged. -/
theorem Balanced.put {p : Nat} {x : Standing} (V : c.Balanced) (hmin : c'.min = c.min)
    (hmax : c.maxDelta ≤ c'.maxDelta) (hstand : c'.standing = update c.standing p x)
    (hqueued : ∀ v, x = .queued v → c.min ≤ v ∧ v ≤ c.min + c'.maxDelta)
    (haway : ∀ v, x = .away v → v ≤ c'.maxDelta) : c'.Balanced := by
  constructor
  · intro q v hq
    rw [hmin]
    by_cases hqp : q = p
    · rw [hstand, hqp, update_self] at hq
      exact hqueued v hq
    · rw [hstand, update_of_ne hqp] at hq
      have h := V.queued q v hq
      omega
  · intro q v hq
    by_cases hqp : q = p
    · rw [hstand, hqp, update_self] at hq
      exact haway v hq
    · rw [hstand, update_of_ne hqp] at hq
      exact (V.away q v hq).trans hmax

theorem Balanced.move (hw : ∀ n, wrap n = n) (F : c.CurFirst) (h : Move wrap c c')
    (V : c.Balanced) :
    c'.Balanced := by
  cases h with
  | @ready p v hp =>
    have hle := V.away p v hp
    refine V.put rfl le_rfl rfl (fun u hu => ?_) nofun
    obtain rfl := Standing.queued.inj hu
    change c.min ≤ wrap (v + c.min) ∧ wrap (v + c.min) ≤ c.min + c.maxDelta
    rw [hw]
    omega
  | @preempt v delta hne hcur =>
    obtain rfl := Standing.queued.inj (hcur.symm.trans (F hne))
    refine V.put rfl (le_max_left _ _) rfl (fun u hu => ?_) nofun
    obtain rfl := Standing.queued.inj hu
    have hle : delta ≤ max c.maxDelta delta := le_max_right _ _
    change c.min ≤ wrap (c.min + delta) ∧ wrap (c.min + delta) ≤ c.min + max c.maxDelta delta
    rw [hw]
    omega
  | @block v delta hne hcur =>
    obtain rfl := Standing.queued.inj (hcur.symm.trans (F hne))
    refine V.put rfl (le_max_left _ _) rfl nofun fun u hu => ?_
    obtain rfl := Standing.away.inj hu
    rw [if_pos le_rfl, Nat.sub_self, Nat.zero_add, hw]
    exact le_max_right _ _
  | finish p => exact V.put rfl le_rfl rfl nofun nofun
  | create _ =>
    refine V.put rfl le_rfl rfl nofun fun u hu => ?_
    obtain rfl := Standing.away.inj hu
    exact Nat.zero_le _
  | @choose p v hp hmin =>
    refine ⟨fun q u hq => ⟨hmin q u hq, ?_⟩, V.away⟩
    have h1 := V.queued p v hp
    have h2 := V.queued q u hq
    change u ≤ v + c.maxDelta
    omega
  | stop => exact ⟨V.queued, V.away⟩
  | pass _ => exact ⟨V.queued, V.away⟩

theorem Balanced.moves (hw : ∀ n, wrap n = n) (F : c.CurFirst) (h : Moves wrap c c')
    (V : c.Balanced) : c'.Balanced :=
  h.invariant (P := Balanced) (fun _ _ F h _ V => V.move hw F h) F le_rfl V

theorem Balanced.cfsInv (V : s.cfs.Balanced) (F : s.cfs.CurFirst) : CfsInv s := by
  refine ⟨⟨fun p hq => ?_, fun p hq hz => ?_⟩, fun hm hne => ?_⟩
  · exact V.queued p _ (Proc.standing_queued hq)
  · exact V.away p _ (Proc.standing_away hq hz)
  · have hcur : s.cfs.cur = s.curProc := by rw [cfs, running, hm]
    have hfirst := F (hcur ▸ hne)
    rw [hcur] at hfirst
    exact Proc.curQueue_of_queued hfirst

end Cfs

/-! ## Runs -/

/-- No process ends while its parent is in the run queue. -/
def FairOk (s : Kernel) (e : Event) : Prop :=
  QueueOk id s e ∧ schedEvent e = true ∧ ∀ p ∈ s.ending e, ParentAway s p

instance (s : Kernel) (e : Event) : Decidable (FairOk s e) :=
    inferInstanceAs (Decidable (_ ∧ _ ∧ _))

theorem Started.cfs_balanced {w : Nat → Nat} (h : Started w s) : s.cfs.Balanced := by
  obtain ⟨hmin, hzero⟩ := h.cfs
  refine ⟨fun p v hq => ?_, fun p v hq => ?_⟩
  · rw [hzero p v (.inl hq), hmin]
    exact ⟨le_rfl, Nat.zero_le _⟩
  · rw [hzero p v (.inr hq)]
    exact Nat.zero_le _

theorem reach_cfs (h : Reach (Started id) (step (.code id)) FairOk s) :
    Sane s ∧ s.ModeOk ∧ CfsInv s := by
  have hinv : Scheduled s ∧ s.cfs.Balanced := by
    refine h.invariant (I := fun s => Scheduled s ∧ s.cfs.Balanced)
      (fun s hs => ⟨hs.scheduled, hs.cfs_balanced⟩) ?_
    rintro s e s' ⟨S, V⟩ ⟨hq, hok⟩ hstep
    obtain ⟨S', hmoves⟩ := S.step hq hok hstep
    exact ⟨S', V.moves (fun _ => rfl) S.cur hmoves⟩
  obtain ⟨S, V⟩ := hinv
  exact ⟨S.sane, S.modeOk, V.cfsInv S.cur⟩

/-- In exact arithmetic, in every run in which no process ends while its parent is in
the run queue, every process in the run queue is at most the largest delta charged so
far ahead of `min_vruntime`, and not behind it. -/
theorem vruntime_bounded {s : Kernel} {D : Nat}
    (h : Reach (Started id) (step (.code id)) FairOk s) (hD : s.history.maxDelta ≤ D)
    {a p : Nat} (hp : Member s a p .runQueue) :
    s.minVruntime ≤ (s.proc p).vruntime ∧ (s.proc p).vruntime ≤ s.minVruntime + D := by
  obtain ⟨H, -, I⟩ := reach_cfs h
  obtain ⟨-, hq, -⟩ := (H.intact.member p a .runQueue).mp hp
  have hb := I.fair.run p hq
  omega

/-- The sleeping parent's child ends, then the other process runs on. -/
def childEndsAlone : List Event :=
  [.tick, .select, .clone 0 true, .nanosleep 1000000000, .select, .tick, .tick, .tick, .select,
  .exit 0,
    .select]

theorem vruntime_bounded_sample :
    ∃ s, Reach (Started id) (step (.code id)) FairOk s ∧ s.history.maxDelta = 12000000 ∧
      ∀ a p, Member s a p .runQueue → s.minVruntime ≤ (s.proc p).vruntime ∧
        (s.proc p).vruntime ≤ s.minVruntime + 12000000 := by
  have hrun : (runOf id FairOk childEndsAlone).map
    (fun s => s.history.maxDelta) = some 12000000 := by
    decide +kernel
  obtain ⟨s, hs, he⟩ := run_of_map hrun
  exact ⟨s, runOf_reach hs, he, fun a p hp => vruntime_bounded (runOf_reach hs) he.le hp⟩

/-- The event is one of the scheduler's. -/
def SchedOnly (_ : Kernel) (e : Event) : Prop := schedEvent e = true

instance (s : Kernel) (e : Event) : Decidable (SchedOnly s e) :=
  inferInstanceAs (Decidable (schedEvent e = true))

/-- Processes 1, 2 and the child 3 of 1 take turns, and 3 ends while 1 is ready. -/
def childEndsBesideParent : List Event :=
  [.tick, .select, .clone 0 true, .tick, .tick, .select, .tick, .tick, .select, .tick, .tick,
  .select,
    .tick, .tick, .select, .tick, .tick, .select, .exit 0]

/-- The signal of a child that ends readies its parent once more: with deltas of 8 ms,
`vruntime` goes from 16 ms to 24 ms while `min_vruntime` is 8 ms. -/
theorem vruntime_added_twice : ∃ s, Reach (Started id) (step (.code id)) SchedOnly s ∧
      s.history.maxDelta ≤ 8000000 ∧ ∃ a, Member s a 1 .runQueue ∧
        s.minVruntime + 8000000 < (s.proc 1).vruntime := by
  have hrun : (runOf id SchedOnly childEndsBesideParent).map (fun s => ((s.history.maxDelta,
      s.minVruntime, (s.proc 1).vruntime), [s.runQueue.root, (s.runQueue.node 9).l,
        (s.runQueue.node 9).r, (s.runQueue.node 10).l, (s.runQueue.node 10).r,
        (s.runQueue.node 10).key])) =
      some ((8000000, 8000000, 24000000), [9, Rbtree.nil, 10, Rbtree.nil, Rbtree.nil, 1]) := by
    decide +kernel
  obtain ⟨s, hs, he⟩ := run_of_map hrun
  obtain ⟨he, ht⟩ := Prod.mk.inj he
  simp only [Prod.mk.injEq] at he
  refine ⟨s, runOf_reach hs, he.1.le, 10, member_second (by decide) (by decide) ht, ?_⟩
  rw [he.2.1, he.2.2]
  decide

end Sysint.Process
