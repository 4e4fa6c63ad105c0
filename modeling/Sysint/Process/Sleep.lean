import Sysint.Process.Wake

/-! How long a process sleeps. `nanosleep` adds the duration to the clock in the arithmetic of
`uint64_t`; what it should be is recorded beside the kernel, over the natural numbers. -/
namespace Sysint.Process
open Option
open Rbtree (Holds)
open Kernel
open Function
open Machine

/-- What `syscall::_nanosleep` passes on. -/
def sleepTime (nsLow nsHigh : BitVec 32) : Nat :=
  (nsLow.setWidth 64 + nsHigh.setWidth 64 <<< 32).toNat

theorem sleepTime_eq (nsLow nsHigh : BitVec 32) :
    sleepTime nsLow nsHigh = nsLow.toNat + nsHigh.toNat * 2 ^ 32 := by
  have hl := nsLow.isLt
  have hh := nsHigh.isLt
  simp only [sleepTime, BitVec.toNat_add, BitVec.toNat_shiftLeft, BitVec.toNat_setWidth,
    Nat.shiftLeft_eq]
  omega

variable {cfg : Config} {s s' : Kernel} {p t : Nat} {i : Input}

/-- The process sleeps, with `t` in its entry. -/
def Sleeps (s : Kernel) (p t : Nat) : Prop :=
  (s.proc p).curQueue = .sleepQueue ∧
    ∃ sq, Holds s.sleepQueue sq ∧ ((s.proc p).queueHandle, ⟨p, t⟩) ∈ sq

/-- Nobody has gone to sleep. -/
def NoneSlept (s s' : Kernel) : Prop := ∀ p t, Sleeps s' p t → Sleeps s p t

theorem NoneSlept.of_proc (hsq : s'.sleepQueue = s.sleepQueue)
    (hp : ∀ p, (s'.proc p).curQueue = .sleepQueue → (s.proc p).curQueue = .sleepQueue ∧
      (s'.proc p).queueHandle = (s.proc p).queueHandle) : NoneSlept s s' := by
  intro p t h
  obtain ⟨hq, sq, H, hin⟩ := h
  obtain ⟨hq', hh⟩ := hp p hq
  exact ⟨hq', sq, hsq ▸ H, hh ▸ hin⟩

/-- An update that leaves the process out of the sleep queue. -/
theorem NoneSlept.modify {f : Proc → Proc} (hsq : s'.sleepQueue = s.sleepQueue)
    (hproc : s'.proc = (s.modify p f).proc) (hf : (f (s.proc p)).curQueue ≠ .sleepQueue) :
    NoneSlept s s' := by
  refine .of_proc hsq fun q hq => ?_
  rw [hproc] at hq ⊢
  by_cases hqp : q = p
  · subst hqp
    simp only [modify_proc, update_self] at hq
    exact absurd hq hf
  · simpa [hqp] using hq

theorem removeFromQueue_noneSlept {rq : List (Nat × Nat)} {sq : List (Nat × SleepProc)}
    (Q : Queues s rq sq) (h : s.removeFromQueue p = some s') : NoneSlept s s' := by
  cases hq : (s.proc p).curQueue with
  | sleepQueue =>
    obtain ⟨w, hw⟩ := (Q.sleepMem _ p).mpr ⟨hq, rfl⟩
    obtain ⟨xs, ys, rfl⟩ := List.append_of_mem hw
    obtain ⟨u, he, hu, -⟩ := Rbtree.erase_spec Q.sleep
    rw [removeFromQueue, hq] at h
    simp only [he, map_some, some_inj] at h
    subst h
    intro q t hsleeps
    obtain ⟨hq', sq', H, hin⟩ := hsleeps
    by_cases hqp : q = p
    · subst hqp
      simp at hq'
    have hsq : sq' = xs ++ ys := H.unique hu
    simp only [modify_proc, putQueues_proc, update_of_ne hqp] at hq' hin
    refine ⟨hq', _, Q.sleep, ?_⟩
    rw [hsq, List.mem_append] at hin
    simp only [List.mem_append, List.mem_cons]
    tauto
  | noQueue | runQueue | eventQueue =>
    have hsq : s'.sleepQueue = s.sleepQueue := by
      rw [removeFromQueue, hq] at h
      obtain ⟨s1, h1, rfl⟩ := map_eq_some_iff.mp h
      first
        | (obtain ⟨u, -, rfl⟩ := map_eq_some_iff.mp h1; rfl)
        | (cases h1; rfl)
    obtain ⟨t, u, w, rfl⟩ := removeFromQueue_form h
    exact .modify (f := Proc.leave) hsq rfl (by simp)

theorem noneSlept_closed : Closed NoneSlept where
  refl _ _ _ := id
  trans h h' p t := h p t ∘ h' p t
  frame F := by
    refine .of_proc F.fields.2.1 fun p hq => ?_
    rw [(F.slot p).queue] at hq
    exact ⟨hq, (F.slot p).handle (by rw [hq]; decide)⟩
  leave := removeFromQueue_noneSlept
  enter _ _ hf _ := .modify rfl rfl (by rw [hf]; decide)
  list _ _ _ _ := id

/-- `nanosleep` puts its caller to sleep and nobody else. -/
theorem nanosleep_sleeps {n : Nat} (hg : cfg.guard = true) (hn : 10 ≤ n) (hcur : s.curProc ≠ 0)
    (H : Sane s) (h : s.nanosleep cfg n = some s') (hs : Sleeps s' p t) :
    (p ≠ s.curProc ∧ Sleeps s p t) ∨ (p = s.curProc ∧ t = cfg.wrap (s.ns + n)) := by
  obtain ⟨hlt, -⟩ | ⟨s1, s2, r, K, hsane, K', hq, hcur1, hins, hs2⟩ :=
    nanosleep_cases noneSlept_closed hg hcur h
  · exact absurd hlt (Nat.not_lt.mpr hn)
  obtain ⟨H1, hback⟩ := K H
  obtain ⟨hq2, sq2, HS, hin⟩ := (K' (hsane H1)).2 p t hs
  obtain ⟨rq, sq, Q⟩ := H1.queues
  obtain ⟨sq', Q', hmem⟩ := Q.enterSleep
    (f := fun q => { q with status := .waiting, curQueue := .sleepQueue })
    hg hq (Nat.pos_of_ne_zero hcur) (hcur1 ▸ H1.cur) (by simp) hins
  obtain rfl := HS.unique (hs2 ▸ Q'.sleep)
  by_cases hp : p = s.curProc
  · subst hp
    obtain hold | heq := hmem _ hin
    · exact absurd rfl (Q.not_sleep (by rw [hq]; decide) hold)
    · exact .inr ⟨rfl, congrArg (·.2.wakeupNs) heq⟩
  · have hproc : s2.proc p = s1.proc p := by simp [hs2, hp]
    rw [hproc] at hq2 hin
    obtain hold | heq := hmem _ hin
    · exact .inl ⟨hp, hback p t ⟨hq2, sq, Q.sleep, hold⟩⟩
    · exact absurd (congrArg (·.2.p) heq) hp

/-- No other step puts a process to sleep. -/
theorem step_noneSlept {e : Event} (hg : cfg.guard = true) (hn : NoNice s e)
    (he : ∀ n, e = .nanosleep n → n < 10) (h : s.step cfg e = some s') :
    KeepsBy NoneSlept s s' := by
  by_cases hwait : ∃ cv, e = .wait cv
  · obtain ⟨cv, rfl⟩ := hwait
    obtain ⟨-, hcur, h⟩ := userStep_of_step h ⟨nofun, nofun, nofun⟩
    refine wait_keeps noneSlept_closed hg hcur (fun s1 _ => ?_) h
    exact .modify (p := s.curProc) (f := fun q =>
      { q with status := .waiting, curQueue := .eventQueue, queueHandle := s1.freshEntry })
      rfl rfl nofun
  by_cases hsleep : ∃ n, e = .nanosleep n
  · obtain ⟨n, rfl⟩ := hsleep
    obtain ⟨-, -, h⟩ := userStep_of_step h ⟨nofun, nofun, nofun⟩
    have heq : s.nanosleep cfg n = some s := by rw [nanosleep, if_pos (he n rfl)]
    obtain rfl : s = s' := some_inj.mp (heq.symm.trans h)
    exact .refl noneSlept_closed s
  · exact step_keepsBy noneSlept_closed hg hn (fun n he => hsleep ⟨n, he⟩)
      (fun cv he => hwait ⟨cv, he⟩) h

/-! ## The timer -/

theorem schedule_ns {regs : Bool} (h : s.schedule cfg regs = some s') : s'.ns = s.ns := by
  obtain ⟨-, rfl⟩ | ⟨-, -, rfl⟩ | ⟨-, -, -, rfl⟩ | ⟨-, -, s1, hs1, rfl⟩ := schedule_cases h
  · rfl
  · rfl
  · rfl
  · obtain ⟨t, u, w, a, rfl⟩ := switchOut_form hs1
    rfl

/-- The first half of `schedule` moves no process that is not in the run queue. -/
theorem schedule_aside {regs : Bool} (h : s.schedule cfg regs = some s')
    (hq : (s.proc p).curQueue ≠ .runQueue) :
    (s'.proc p).curQueue = (s.proc p).curQueue ∧ (s'.proc p).status = (s.proc p).status := by
  obtain ⟨-, rfl⟩ | ⟨-, -, rfl⟩ | ⟨-, -, -, rfl⟩ | ⟨-, -, s1, hs1, rfl⟩ := schedule_cases h
  · exact ⟨rfl, rfl⟩
  · exact ⟨rfl, rfl⟩
  · exact ⟨rfl, rfl⟩
  · obtain ⟨t, u, w, a, rfl⟩ := switchOut_form hs1
    by_cases hp : p = s.curProc
    · subst hp
      simp [Proc.switched, hq]
    · simp [hp]

/-- A tick before the time in its entry leaves a process asleep. -/
theorem tick_asleep {w : Nat → Nat} (H : Sane s) (h : s.timerTick (.code w) = some s')
    (hs : Sleeps s p t) (ht : s'.ns < t) :
    (s'.proc p).curQueue = .sleepQueue ∧ (s'.proc p).status = (s.proc p).status := by
  obtain ⟨it, hit, hrest⟩ := bind_eq_some_iff.mp h
  obtain ⟨s1, h1, hsched⟩ := bind_eq_some_iff.mp hrest
  have F : Frame s s.clts.addTick := .of_eq rfl rfl rfl rfl
  obtain ⟨rq, sq, Q⟩ := (F.sane H).queues
  rw [Rbtree.begin_spec Q.sleep, some_inj] at hit
  subst hit
  obtain ⟨s2, rq', hloop, -, R⟩ := Q.wakeSleepers (w := w) s.clts.addTick.ns
  obtain rfl : s2 = s1 := some_inj.mp (hloop.symm.trans h1)
  obtain ⟨hq, sq', HS, hin⟩ := hs
  have hsq : sq' = sq := HS.unique Q.sleep
  subst hsq
  have hns : s'.ns = s.clts.addTick.ns := by
    rw [schedule_ns hsched, R.rest]
    rfl
  -- the entry of the process is the only one in its node
  have hsame : s2.proc p = s.proc p := by
    apply R.same
    rw [mem_expired]
    rintro ⟨e, he, rfl, hle⟩
    have hnode : (s.proc e.2.p).queueHandle = e.1 :=
      ((Q.sleepMem e.1 e.2.p).mp ⟨e.2.wakeupNs, he⟩).2
    have heq := Q.sleep.key he
    rw [← hnode, Q.sleep.key hin] at heq
    have hwake : t = e.2.wakeupNs := congrArg SleepProc.wakeupNs heq
    omega
  rw [← hsame] at hq ⊢
  obtain ⟨hq', hst⟩ := schedule_aside hsched (p := p) (by rw [hq]; decide)
  exact ⟨hq'.trans hq, hst⟩

/-! ## Runs -/

/-- What the kernel meets, where a program calls `_nanosleep`. -/
inductive Input where
  | event (e : Event)
  | nanosleep (nsLow nsHigh : BitVec 32)

def Input.toEvent : Input → Event
  | .event e => e
  | .nanosleep nsLow nsHigh => .nanosleep (sleepTime nsLow nsHigh)

/-- How long the process that is running asks to sleep. -/
def Input.duration : Input → Nat
  | .event (.nanosleep n) => n
  | .nanosleep nsLow nsHigh => nsLow.toNat + nsHigh.toNat * 2 ^ 32
  | _ => 0

/-- The times before which the processes should not be woken, over the natural numbers. -/
def setDeadline (s : Kernel) (i : Input) (_ : Kernel) (deadline : Nat → Nat) : Nat → Nat :=
  if 10 ≤ i.duration then update deadline s.curProc (s.ns + i.duration) else deadline

/-- The kernel with the deadlines of its sleepers. -/
def sleepStep : Kernel × (Nat → Nat) → Input → Option (Kernel × (Nat → Nat)) :=
  recorded (fun s i => s.step (.code uint64) i.toEvent) setDeadline

/-- The step leaves the queues intact, and the end of a sleep fits into 64 bits. -/
def WakeOk (x : Kernel × (Nat → Nat)) (i : Input) : Prop :=
  QueueOk uint64 x.1 i.toEvent ∧ (10 ≤ i.duration → x.1.ns + i.duration < 2 ^ 64)

instance (x : Kernel × (Nat → Nat)) (i : Input) : Decidable (WakeOk x i) :=
  inferInstanceAs (Decidable (_ ∧ _))

theorem toEvent_duration {n : Nat} (h : i.toEvent = .nanosleep n) : i.duration = n := by
  cases i with
  | event e => 
    obtain rfl : e = .nanosleep n := h
    rfl
  | nanosleep nsLow nsHigh =>
    rw [Input.duration, ← sleepTime_eq]
    exact Event.nanosleep.inj h

theorem toEvent_of_duration (h : 10 ≤ i.duration) : i.toEvent = .nanosleep i.duration := by
  cases i with
  | event e =>
    cases e with
    | nanosleep n => rfl
    | _ => cases h
  | nanosleep nsLow nsHigh =>
    rw [Input.duration, ← sleepTime_eq]
    rfl

/-- No entry of the sleep queue is before its deadline. -/
structure Deadlines (s : Kernel) (deadline : Nat → Nat) : Prop where
  sane : Sane s
  late : ∀ p t, Sleeps s p t → deadline p ≤ t

theorem step_deadlines {deadline : Nat → Nat} (D : Deadlines s deadline)
    (hok : WakeOk (s, deadline) i) (h : s.step (.code uint64) i.toEvent = some s') :
    Deadlines s' (setDeadline s i s' deadline) := by
  have hchk := step_below.agree hok.1.1 h
  refine ⟨(hok.1.keeps h D.sane).1, fun p t hs => ?_⟩
  by_cases hd : 10 ≤ i.duration
  · rw [toEvent_of_duration hd] at hchk
    obtain ⟨-, hcur, hchk⟩ := userStep_of_step hchk ⟨nofun, nofun, nofun⟩
    rw [setDeadline, if_pos hd]
    obtain ⟨hp, hs⟩ | ⟨rfl, rfl⟩ := nanosleep_sleeps rfl hd hcur D.sane hchk hs
    · rw [update_of_ne hp]
      exact D.late p t hs
    · have hfit : s.ns + i.duration < 2 ^ 64 := hok.2 hd
      have hwrap : (Config.checked uint64).wrap (s.ns + i.duration) = s.ns + i.duration :=
        Nat.mod_eq_of_lt hfit
      rw [update_self, hwrap]
  · rw [setDeadline, if_neg hd]
    have hshort : ∀ n, i.toEvent = .nanosleep n → n < 10 := by
      intro n hn
      rw [← toEvent_duration hn]
      exact Nat.lt_of_not_le hd
    exact D.late p t ((step_noneSlept rfl hok.1.2 hshort hchk D.sane).2 p t hs)

theorem Started.deadlines {deadline : Nat → Nat} (h : Started uint64 s) : Deadlines s deadline := by
  refine ⟨h.sane, fun p t hs => ?_⟩
  have hq : (s.proc p).curQueue ≠ .sleepQueue :=
    h.procs (P := fun q => q.curQueue ≠ .sleepQueue) nofun (fun _ _ _ => nofun) p
  exact absurd hs.1 hq

/-- In a run in which every sleep ends before the clock does, no tick before the end of its sleep
wakes a process. -/
theorem sleep_not_cut_short {s : Kernel} {deadline : Nat → Nat}
    (h : Reach (fun x => Started uint64 x.1) sleepStep WakeOk (s, deadline)) {s' : Kernel}
    (hstep : s.step (.code uint64) .tick = some s') {p : Nat}
    (hq : (s.proc p).curQueue = .sleepQueue) (ht : s'.ns < deadline p) :
    (s'.proc p).curQueue = .sleepQueue ∧ (s'.proc p).status = (s.proc p).status := by
  have D : Deadlines s deadline := Reach.invariantRecorded (I := Deadlines)
    (fun s d hs => Started.deadlines hs) (fun s d i s' D hok hstep => step_deadlines D hok hstep) h
  obtain ⟨rq, sq, Q⟩ := D.sane.queues
  obtain ⟨t, hin⟩ := (Q.sleepMem _ p).mpr ⟨hq, rfl⟩
  have hs : Sleeps s p t := ⟨hq, sq, Q.sleep, hin⟩
  have htick : s.timerTick (.code uint64) = some s' := by
    obtain ⟨-, -, h⟩ | ⟨cv, tid, he, -⟩ | ⟨now, pold, he, -⟩ | ⟨-, -, h⟩ := step_cases hstep
    · exact h
    · cases he
    · cases he
    · cases h
  exact tick_asleep D.sane htick hs (ht.trans_le (D.late p t hs))

theorem sleep_not_cut_short_second : ∃ s deadline s',
    Reach (fun x => Started uint64 x.1) sleepStep WakeOk (s, deadline) ∧
    s.step (.code uint64) .tick = some s' ∧ (s.proc 1).curQueue = .sleepQueue ∧ s'.ns < deadline 1 ∧
    (s'.proc 1).curQueue = .sleepQueue ∧ (s'.proc 1).status = (s.proc 1).status := by
  have hrun : (runRecorded sleepStep WakeOk (fun _ => 0)
    [.event .tick, .event .select, .nanosleep 0 1, .event .select]).map
      (fun x => ((x.1.proc 1).curQueue, x.2 1, (x.1.step (.code uint64) .tick).map ns)) =
      some (.sleepQueue, 4298967296, some 8000000) := by decide +kernel
  obtain ⟨⟨s, d⟩, hs, he⟩ := run_of_map hrun
  obtain ⟨hq, he⟩ := Prod.mk.inj he
  obtain ⟨hd, he⟩ := Prod.mk.inj he
  obtain ⟨s', hs', hns⟩ := map_eq_some_iff.mp he
  have ht : s'.ns < d 1 := by
    have hd' : d 1 = 4298967296 := hd
    rw [hd', hns]
    decide
  exact ⟨s, d, s', runRecorded_reach hs fun _ => id, hs', hq, ht,
    sleep_not_cut_short (runRecorded_reach hs fun _ => id) hs' hq ht⟩

/-- A process sleeps for 2^64 - 4000000 ns from 4 ms on: the sum is 0, the next tick wakes it. -/
theorem sleep_cut_short : ∃ s deadline s',
    Reach (fun x => Started uint64 x.1) sleepStep (fun x i => QueueOk uint64 x.1 i.toEvent)
      (s, deadline) ∧
    s.step (.code uint64) .tick = some s' ∧ (s.proc 1).curQueue = .sleepQueue ∧
    s'.ns < deadline 1 ∧ (s'.proc 1).curQueue = .runQueue ∧ (s'.proc 1).status = .ready := by
  have hrun : (runRecorded sleepStep (fun x i => QueueOk uint64 x.1 i.toEvent) (fun _ => 0)
    [.event .tick, .event .select,
      .nanosleep 4290967296 4294967295, .event .select]).map
      (fun x => ((x.1.proc 1).curQueue, x.2 1, (x.1.step (.code uint64) .tick).map fun s' =>
        (s'.ns, (s'.proc 1).curQueue, (s'.proc 1).status))) =
      some (.sleepQueue, 2 ^ 64, some (8000000, .runQueue, .ready)) := by decide +kernel
  obtain ⟨⟨s, d⟩, hs, he⟩ := run_of_map hrun
  obtain ⟨hq, he⟩ := Prod.mk.inj he
  obtain ⟨hd, he⟩ := Prod.mk.inj he
  obtain ⟨s', hs', he⟩ := map_eq_some_iff.mp he
  obtain ⟨hns, he⟩ := Prod.mk.inj he
  obtain ⟨hq', hst⟩ := Prod.mk.inj he
  refine ⟨s, d, s', runRecorded_reach hs fun _ => id, hs', hq, ?_, hq', hst⟩
  have hd' : d 1 = 2 ^ 64 := hd
  rw [hd', hns]
  decide

end Sysint.Process
