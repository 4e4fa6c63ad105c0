import Sysint.Process.Checked

/-! What `schedule` charges a process with. `last_sched` is a time taken before `idle_loop`; when
the process was really dispatched is recorded beside the kernel. -/
namespace Sysint.Process
open Kernel Option
open Machine

/-- When the process that runs was dispatched, and how long the call of `schedule` that
dispatched it has waited in `idle_loop`. -/
structure Dispatch where
  since : Nat
  idle : Nat

/-- A call of `schedule` begins when the mode becomes `select`, and it ends with a dispatch when
the mode becomes `outside`; a fatal signal makes a call begin in another. -/
def track (s : Kernel) (e : Event) (s' : Kernel) (d : Dispatch) : Dispatch :=
  match s.mode, s'.mode with
  | .outside, .outside => d
  | .outside, .select _ _ => { d with idle := 0 }
  | .select _ _, .outside => { d with since := s'.ns }
  | .select _ _, .select _ _ =>
    { d with idle := match e with | .select => 0 | _ => d.idle + (s'.ns - s.ns) }

def chargeStep (w : Nat → Nat) : Kernel × Dispatch → Event → Option (Kernel × Dispatch) :=
  recorded (step (.code w)) track

/-- `last_sched` is early by the time that the last call of `schedule` was idle. -/
structure Tracked (s : Kernel) (d : Dispatch) : Prop where
  modeOk : s.ModeOk
  outside : s.mode = .outside → s.curProc ≠ 0 → s.lastSched + d.idle = d.since ∧ d.since ≤ s.ns
  select : ∀ now pold, s.mode = .select now pold → s.ns = now + d.idle

variable {cfg : Config} {w : Nat → Nat} {s s' s0 : Kernel} {e : Event}

/-- The call of `schedule` that leaves `s'` was made by the process `p` at the time `now`. -/
def Switches (cfg : Config) (s' : Kernel) (p now lastSched : Nat) : Prop :=
  ∃ (s1 : Kernel) (regs : Bool), s1.schedule cfg regs = some s' ∧ s1.mode = .outside ∧
    s1.curProc = p ∧ s1.lastSched = lastSched ∧ s1.ns = now

/-- What a step does with the time and with the process that runs. -/
inductive Phase (cfg : Config) (s s' : Kernel) : Event → Prop where
  /-- The same process goes on, or the wait for one. -/
  | stay {e : Event} : e ≠ .select → s'.mode = s.mode → s'.curProc = s.curProc →
      s'.lastSched = s.lastSched → s.ns ≤ s'.ns → Phase cfg s s' e
  | charge {e : Event} : s.mode = .outside → s.curProc ≠ 0 → s'.mode = .select s'.ns s.curProc →
      Switches cfg s' s.curProc s'.ns s.lastSched → s.ns ≤ s'.ns → Phase cfg s s' e
  /-- `schedule` is called with null in `cur_proc`. -/
  | fresh {e : Event} : (s.mode = .outside ∨ e = .select) → s'.mode = .select s'.ns 0 →
      Phase cfg s s' e
  | dispatch {now pold : Nat} : s.mode = .select now pold → s'.mode = .outside →
    s'.lastSched = now →
      s'.ns = s.ns → Phase cfg s s' .select

/-- What `Phase` reads. -/
def Kernel.clock (s : Kernel) : Mode × Nat × Nat × Nat := (s.mode, s.curProc, s.lastSched, s.ns)

theorem Quiet.clock (h : s.Quiet s') : s'.clock = s.clock := by
  obtain ⟨-, hcur, -, -, hlast, htick, hlen, -, hmode, -⟩ := h.fields
  simp [Kernel.clock, Kernel.ns, hcur, hlast, htick, hlen, hmode]

theorem Phase.of_clock (he : e ≠ .select) (h : s'.clock = s.clock) : Phase cfg s s' e := by
  simp only [Kernel.clock, Prod.mk.injEq] at h
  exact .stay he h.1 h.2.1 h.2.2.1 h.2.2.2.ge

/-- A call of `schedule`, with null in `cur_proc` or not. -/
theorem Phase.of_schedule {regs : Bool} (he : e ≠ .select) (hm : s.mode = .outside)
    (hm0 : s0.mode = .outside) (hcur : s0.curProc = s.curProc) (hlast : s0.lastSched = s.lastSched)
    (hns : s.ns ≤ s0.ns) (h : s0.schedule cfg regs = some s') : Phase cfg s s' e := by
  obtain ⟨-, rfl⟩ | ⟨-, h0, rfl⟩ | ⟨-, -, -, rfl⟩ | ⟨-, hne, s1, hs1, rfl⟩ := schedule_cases h
  · exact .stay he (hm0.trans hm.symm) hcur hlast hns
  · exact .fresh (.inl hm) rfl
  · exact .stay he (hm0.trans hm.symm) hcur hlast hns
  · obtain ⟨t, u, w, a, rfl⟩ := switchOut_form hs1
    exact .charge hm (hcur ▸ hne) (hcur ▸ rfl) ⟨s0, regs, h, hm0, hcur, hlast, rfl⟩ hns

/-- A system call that ends in `__schedule`. -/
theorem Phase.of_scheduleFrom {cont : Cont} (he : e ≠ .select) (hm : s.mode = .outside)
    (h : s0.scheduleFrom cfg cont = some s') (hq : s0.clock = s.clock) : Phase cfg s s' e := by
  simp only [Kernel.clock, Prod.mk.injEq] at hq
  have hm0 : ((s0.modify s0.curProc (·.setCont cont)).setOnline true).mode = .outside :=
    hq.1.trans hm
  exact .of_schedule he hm hm0 hq.2.1 hq.2.2.1 hq.2.2.2.ge h

theorem ns_le_addTick (s : Kernel) : s.ns ≤ s.addTick.ns :=
  Nat.mul_le_mul_right _ (Nat.le_succ _)

theorem timerTick_phase (hi : s.interruptible = true)
    (h : s.timerTick cfg = some s') : Phase cfg s s' .tick := by
  obtain ⟨s1, hq, h⟩ := timerTick_cases h
  have hclock := Quiet.clock hq
  simp only [Kernel.clock, Prod.mk.injEq] at hclock
  obtain ⟨hmode, hcur, hlast, hns⟩ := hclock
  obtain hout | ⟨-, hoff⟩ := interruptible_cases hi
  · exact .of_schedule nofun hout (hmode.trans hout) hcur hlast (hns ▸ ns_le_addTick s) h
  · have hoff1 : s1.online = false := hq.fields.online.trans hoff
    obtain ⟨-, rfl⟩ | ⟨hon, -⟩ | ⟨hon, -⟩ | ⟨hon, -⟩ := schedule_cases h
    · exact .stay nofun hmode hcur hlast (hns ▸ ns_le_addTick s)
    all_goals exact absurd (hon.symm.trans hoff1) (by decide)

theorem reap_clock (s : Kernel) (pid : Int) (c : Nat) : (s.reap pid c).clock = s.clock := by
  have h : (s.delete c).clock = s.clock := Quiet.clock (delete_treeOnly s c).quiet
  exact h

theorem resume_clock (h : s.resume = some s') : s'.clock = s.clock := by
  obtain ⟨-, rfl⟩ | ⟨-, rfl⟩ | ⟨pid, c, -, -, -, -, rfl⟩ := resume_cases h
  · rfl
  · rfl
  · exact reap_clock ..

theorem exit_phase {status : Int} (he : s.mode = .outside ∨ e = .select)
    (h : s0.exit cfg status = some s') : Phase cfg s s' e := by
  obtain ⟨s1, s2, t, s3, -, -, -, -, rfl⟩ := exit_cases h
  exact .fresh he rfl

theorem select_phase {now pold : Nat} (hm : s.mode = .select now pold)
    (h : s.select cfg now pold = some s') : Phase cfg s s' .select := by
  obtain ⟨a, p, -, -, -, -, -, ⟨-, h⟩ | ⟨sig, -, ⟨-, h⟩ | ⟨-, h⟩⟩⟩ := select_cases h
  · have hclock := resume_clock h
    simp only [Kernel.clock, Prod.mk.injEq] at hclock
    exact .dispatch hm hclock.1 hclock.2.2.1 hclock.2.2.2
  · exact exit_phase (.inr rfl) h
  · have hclock := resume_clock h
    simp only [Kernel.clock, Prod.mk.injEq] at hclock
    exact .dispatch hm hclock.1 hclock.2.2.1 hclock.2.2.2

theorem step_phase (M : s.ModeOk) (h : s.step cfg e = some s') : Phase cfg s s' e := by
  obtain ⟨rfl, hi, h⟩ | ⟨cv, tid, rfl, -, h⟩ | ⟨now, pold, rfl, hm, h⟩ | ⟨hm, hcur, h⟩ :=
    step_cases h
  · exact timerTick_phase hi h
  · exact .of_clock nofun (Quiet.clock (wake_quiet h))
  · exact select_phase hm h
  · cases e with
    | tick | select | wake => cases h
    | fpu v =>
      cases h
      refine .of_clock nofun ?_
      unfold useFpu
      split_ifs <;> rfl
    | fault =>
      obtain ⟨s1, -, rfl⟩ := fault_outside (M.outside hm) h
      exact .fresh (.inl hm) rfl
    | clone flags mem =>
      obtain rfl | rfl | ⟨-, s1, r, h1, -, rfl⟩ := clone_cases h
      · exact .of_clock nofun rfl
      · exact .of_clock nofun rfl
      · have hclock := Quiet.clock
          ((linkChild_treeOnly ..).quiet.trans (addProcRun_quiet h1))
        have hclock1 : s1.clock = s.clock := hclock.trans rfl
        exact .of_clock nofun (Eq.trans rfl hclock1)
    | exit status => exact exit_phase (.inl hm) h
    | waitpid pid ptr options =>
      obtain rfl | ⟨-, c, -, ⟨-, -, rfl⟩ | ⟨-, -, h⟩⟩ := waitpid_cases h
      · exact .of_clock nofun rfl
      · exact .of_clock nofun (reap_clock ..)
      · obtain ⟨s1, h1, h⟩ := bind_eq_some_iff.mp h
        have hclock : s1.clock = s.clock := (Quiet.clock (removeProcRun_quiet h1)).trans rfl
        exact .of_scheduleFrom nofun hm h hclock
    | nanosleep n =>
      have hsleep : s.nanosleep cfg n = some s' := h
      unfold nanosleep at hsleep
      split_ifs at hsleep with hns
      · cases hsleep
        exact .of_clock nofun rfl
      · obtain ⟨s1, h1, h⟩ := bind_eq_some_iff.mp hsleep
        obtain ⟨r, -, h⟩ := bind_eq_some_iff.mp h
        have hclock := Quiet.clock (removeProcRun_quiet h1)
        exact .of_scheduleFrom nofun hm h hclock
    | wait cv =>
      obtain ⟨s1, h1, h⟩ := bind_eq_some_iff.mp h
      have hclock : s1.clock = s.clock := (Quiet.clock (removeProcRun_quiet h1)).trans rfl
      exact .of_scheduleFrom nofun hm h hclock
    | tkill tid sig =>
      obtain rfl | ⟨a, -, -, h⟩ := tkill_cases h
      · exact .of_clock nofun rfl
      · exact .of_clock nofun (Quiet.clock (tkillProc_quiet h))
    | setnice inc =>
      obtain rfl | ⟨t, u, w, a, rfl⟩ := setnice_form h
      · exact .of_clock nofun rfl
      · exact .of_clock nofun rfl

/-- A step keeps `last_sched` early by the time that the last call of `schedule` was idle. -/
theorem step_tracked {d : Dispatch} (T : Tracked s d) (h : s.step cfg e = some s') :
    Tracked s' (track s e s' d) := by
  have M' := step_modeOk T.modeOk h
  cases step_phase T.modeOk h with
  | stay he hmode hcur hlast hns =>
    cases hm : s.mode with
    | outside =>
      have hm' := hmode.trans hm
      have heq : track s e s' d = d := by simp only [track, hm, hm']
      rw [heq]
      refine ⟨M', fun _ hne => ?_, fun now pold hsel => ?_⟩
      · obtain ⟨h1, h2⟩ := T.outside hm (hcur ▸ hne)
        exact ⟨hlast ▸ h1, h2.trans hns⟩
      · rw [hm'] at hsel
        cases hsel
    | select now pold =>
      have hm' := hmode.trans hm
      have hidle : (track s e s' d).idle = d.idle + (s'.ns - s.ns) := by
        simp only [track, hm, hm']
      refine ⟨M', fun hout => absurd (hm'.symm.trans hout) nofun, fun now' pold' hsel => ?_⟩
      obtain ⟨rfl, rfl⟩ := Mode.select.inj (hm'.symm.trans hsel)
      have hnow := T.select now pold hm
      omega
  | charge hm hcur hm' hsw hns =>
    refine ⟨M', fun hout => ?_, fun now pold hsel => ?_⟩
    · rw [hm'] at hout
      cases hout
    · obtain ⟨rfl, rfl⟩ := Mode.select.inj (hm'.symm.trans hsel)
      simp only [track, hm, hm', Nat.add_zero]
  | fresh hm hm' =>
    refine ⟨M', fun hout => ?_, fun now pold hsel => ?_⟩
    · rw [hm'] at hout
      cases hout
    obtain ⟨rfl, rfl⟩ := Mode.select.inj (hm'.symm.trans hsel)
    obtain hm | rfl := hm
    · simp only [track, hm, hm', Nat.add_zero]
    · cases hm : s.mode with
      | outside => simp only [track, hm, hm', Nat.add_zero]
      | select => simp only [track, hm, hm', Nat.add_zero]
  | dispatch hm hm' hlast hns =>
    refine ⟨M', fun _ _ => ?_, fun now pold hsel => ?_⟩
    · have hnow := T.select _ _ hm
      simp only [track, hm, hm']
      omega
    · rw [hm'] at hsel
      cases hsel

theorem Started.tracked {d : Dispatch} (h : Started w s) : Tracked s d := by
  obtain ⟨tick, ticklen, fpu, uid, uid', t, a, a', rfl⟩ := h.form
  exact ⟨h.modeOk, fun _ hne => absurd rfl hne, nofun⟩

theorem reach_tracked {x : Kernel × Dispatch}
    (h : Reach (fun x => Started w x.1) (chargeStep w) always x) : Tracked x.1 x.2 := by
  refine h.invariantRecorded (I := Tracked) (fun s d hs => hs.tracked) fun s d e s' T _ hstep => ?_
  exact step_tracked T hstep

theorem Switches.vruntime {p now last : Nat} (h : Switches cfg s' p now last) (hp : p ≠ 0)
    (hm : s'.mode ≠ .outside) :
    ∃ (s1 : Kernel) (regs : Bool), s1.schedule cfg regs = some s' ∧ s1.curProc = p ∧ s1.ns = now ∧
      (s'.proc p).vruntime = cfg.wrap ((s1.proc p).vruntime + (now - last)) ∧
      ∀ q, q ≠ p → (s'.proc q).vruntime = (s1.proc q).vruntime := by
  obtain ⟨s1, regs, h, hm1, rfl, rfl, rfl⟩ := h
  obtain ⟨-, rfl⟩ | ⟨-, h0, -⟩ | ⟨-, -, -, rfl⟩ | ⟨-, -, s2, hs2, hs'⟩ := schedule_cases h
  · exact absurd hm1 hm
  · exact absurd h0 hp
  · exact absurd hm1 hm
  · obtain ⟨t, u, w, a, rfl⟩ := switchOut_form hs2
    refine ⟨s1, regs, h, rfl, rfl, ?_, fun q hq => ?_⟩
    · simp [hs', Proc.switched]
    · simp [hs', hq]

/-- Every call of `schedule` that switches from a process charges it with the time since its
dispatch, if the call that dispatched it was not idle. -/
theorem charge_since_dispatch (w : Nat → Nat) {s : Kernel} {d : Dispatch}
    (h : Reach (fun x => Started w x.1) (chargeStep w) always (s, d))
    (hidle : d.idle = 0) {e : Event} {s' : Kernel} (hstep : s.step (.code w) e = some s')
    {now pold : Nat} (hm : s.mode = .outside) (hm' : s'.mode = .select now pold) (hp : pold ≠ 0) :
    pold = s.curProc ∧ d.since ≤ now ∧
    ∃ (s1 : Kernel) (regs : Bool), s1.schedule (.code w) regs = some s' ∧ s1.curProc = pold ∧
      s1.ns = now ∧ (s'.proc pold).vruntime = w ((s1.proc pold).vruntime + (now - d.since)) ∧
      ∀ q, q ≠ pold → (s'.proc q).vruntime = (s1.proc q).vruntime := by
  have T : Tracked s d := reach_tracked h
  cases step_phase T.modeOk hstep with
  | stay _ hmode _ _ _ => exact absurd (hmode.symm.trans hm') (by rw [hm]; nofun)
  | charge _ hcur hsel hsw hns =>
    obtain ⟨rfl, rfl⟩ := Mode.select.inj (hm'.symm.trans hsel)
    obtain ⟨hlast, hsince⟩ := T.outside hm hcur
    rw [hidle, Nat.add_zero] at hlast
    rw [← hlast]
    exact ⟨rfl, hlast ▸ hsince.trans hns, hsw.vruntime hp (by rw [hm']; nofun)⟩
  | fresh _ hsel => exact absurd (Mode.select.inj (hm'.symm.trans hsel)).2 hp
  | dispatch hsel => exact absurd (hm.symm.trans hsel) nofun

theorem charge_since_dispatch_second : ∃ s d s',
    Reach (fun x => Started uint64 x.1) (chargeStep uint64) always (s, d) ∧
    d.idle = 0 ∧ s.step (.code uint64) .tick = some s' ∧ s.mode = .outside ∧
    s'.mode = .select 16000000 1 ∧ d.since = 4000000 ∧
    ∃ (s1 : Kernel) (regs : Bool), s1.schedule (.code uint64) regs = some s' ∧
      (s'.proc 1).vruntime = uint64 ((s1.proc 1).vruntime + 12000000) := by
  have hrun : (runRecorded (chargeStep uint64) always ⟨0, 0⟩ [.tick, .select, .tick, .tick]).map
      (fun x => (x.2.since, x.2.idle, x.1.mode, (x.1.step (.code uint64) .tick).map mode)) =
      some (4000000, 0, .outside, some (.select 16000000 1)) := by decide +kernel
  obtain ⟨⟨s, d⟩, hs, he⟩ := run_of_map hrun
  obtain ⟨hsince, he⟩ := Prod.mk.inj he
  obtain ⟨hidle, he⟩ := Prod.mk.inj he
  obtain ⟨hm, he⟩ := Prod.mk.inj he
  obtain ⟨s', hs', hm'⟩ := map_eq_some_iff.mp he
  have hreach : Reach (fun x => Started uint64 x.1) (chargeStep uint64) always (s, d) :=
    runRecorded_reach hs fun _ => id
  obtain ⟨-, -, s1, regs, hsched, -, -, hv, -⟩ :=
    charge_since_dispatch uint64 hreach hidle hs' hm hm' (by decide)
  have hd : d.since = 4000000 := hsince
  rw [hd] at hv
  exact ⟨s, d, s', hreach, hidle, hs', hm, hm', hd, s1, regs, hsched, hv⟩

/-- With nobody asleep `timer_tick` is a call of `schedule`. -/
theorem timerTick_nobody (hb : s.sleepQueue.begin = some Rbtree.nil) (hf : s.sleepQueue.fresh ≠ 0) :
    s.timerTick cfg = s.clts.addTick.schedule cfg true := by
  obtain ⟨n, hn⟩ := Nat.exists_eq_succ_of_ne_zero hf
  simp [timerTick, hb, hn, wakeSleepers]

/-- Two processes sleep from 4 ms to 16 ms. One of them is dispatched then; at the next tick,
4 ms later, it is charged with the 12 ms of `idle_loop` as well. -/
theorem idle_charged : ∃ s d s',
    Reach (fun x => Started uint64 x.1) (chargeStep uint64) always (s, d) ∧
    s.step (.code uint64) .tick = some s' ∧
    s.clts.addTick.schedule (.code uint64) true = some s' ∧ s'.mode = .select 20000000 1 ∧
    d.since = 16000000 ∧ (s'.proc 1).vruntime = (s.proc 1).vruntime + 16000000 := by
  have hrun : (runRecorded (chargeStep uint64) always ⟨0, 0⟩ [.tick, .select,
      .nanosleep 12000000, .select, .nanosleep 12000000, .tick, .tick, .tick, .select]).map
      (fun x => ([x.2.since, x.1.sleepQueue.fresh, (x.1.proc 1).vruntime], x.1.sleepQueue.begin,
        (x.1.step (.code uint64) .tick).map fun s' => (s'.mode, (s'.proc 1).vruntime))) =
      some ([16000000, 4, 0], some Rbtree.nil, some (.select 20000000 1, 16000000)) := by
    decide +kernel
  obtain ⟨⟨s, d⟩, hs, he⟩ := run_of_map hrun
  obtain ⟨hnum, he⟩ := Prod.mk.inj he
  obtain ⟨hbegin, he⟩ := Prod.mk.inj he
  obtain ⟨s', hs', he⟩ := map_eq_some_iff.mp he
  obtain ⟨hm', hv'⟩ := Prod.mk.inj he
  simp only [List.cons.injEq, and_true] at hnum
  obtain ⟨hsince, hfresh, hv⟩ := hnum
  have htick : s.timerTick (.code uint64) = some s' := by
    rw [step] at hs'
    split_ifs at hs' with hi
    exact hs'
  rw [timerTick_nobody hbegin (hfresh ▸ by decide)] at htick
  exact ⟨s, d, s', runRecorded_reach hs fun _ => id, hs', htick, hm', hsince, by rw [hv', hv]⟩

end Sysint.Process
