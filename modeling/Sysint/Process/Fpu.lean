import Sysint.Process.Checked

/-! The FPU registers of a process that is switched out. `schedule` saves them only
if the process has trapped into `fpu_used_handler` since its dispatch. -/
namespace Sysint.Process
open Kernel Option
open Function
open Machine

variable {w : Nat → Nat} {cfg : Config} {s s' s'' : Kernel} {p : Nat}

/-- The FPU state is the same. -/
structure FpuSame (s s' : Kernel) : Prop where
  fpu : s'.fpu = s.fpu
  out : s'.history.fpuOut = s.history.fpuOut
  buf : ∀ p, (s'.proc p).fpuBuf = (s.proc p).fpuBuf
  used : ∀ p, (s'.proc p).fpuUsed = (s.proc p).fpuUsed

theorem FpuSame.trans (h : FpuSame s s') (h' : FpuSame s' s'') : FpuSame s s'' :=
  ⟨h'.fpu.trans h.fpu, h'.out.trans h.out, fun p => (h'.buf p).trans (h.buf p),
    fun p => (h'.used p).trans (h.used p)⟩

theorem Kernel.Quiet.fpuSame (h : s.Quiet s') : FpuSame s s' := by
  have hf := h.fields.fpu
  have hh := h.fields.history
  refine ⟨hf, by rw [hh], fun p => ?_, fun p => ?_⟩
  · exact (h.procFields p).2.2.2.1
  · exact (h.procFields p).2.2.2.2.1

theorem FpuSame.modify {f : Proc → Proc}
    (hf : ∀ q, (f q).fpuBuf = q.fpuBuf ∧ (f q).fpuUsed = q.fpuUsed) : FpuSame s (s.modify p f) :=
  ⟨rfl, rfl, modify_proc_of fun q => (hf q).1, modify_proc_of fun q => (hf q).2⟩

theorem reap_fpuSame (s : Kernel) (pid : Int) (c : Nat) : FpuSame s (s.reap pid c) :=
  (delete_treeOnly s c).quiet.fpuSame.trans ⟨rfl, rfl, fun _ => rfl, fun _ => rfl⟩

theorem resume_fpuSame (h : s.resume = some s') : FpuSame s s' := by
  have hi : FpuSame s (s.modify s.curProc (·.setInterrupted false)) := .modify fun _ => ⟨rfl, rfl⟩
  obtain ⟨-, rfl⟩ | ⟨-, rfl⟩ | ⟨pid, c, -, -, -, -, rfl⟩ := resume_cases h
  · exact (Quiet.refl _).fpuSame
  · exact hi
  · have hw : FpuSame (s.modify s.curProc (·.setInterrupted false))
        ((s.modify s.curProc (·.setInterrupted false)).modify s.curProc (·.setWaitPid 0)) :=
      .modify fun _ => ⟨rfl, rfl⟩
    exact (hi.trans hw).trans (reap_fpuSame _ pid c)

theorem exit_fpuSame {status : Int} (h : s.exit cfg status = some s') : FpuSame s s' := by
  obtain ⟨s1, s2, t, s3, h1, h2, -, h4, rfl⟩ := exit_cases h
  have hq := ((clts_quiet s).trans (exitChildren_treeOnly h1).quiet).trans
    (removeFromQueue_quiet h2)
  have hc : FpuSame s2 ((s2.setCur 0).setProcList t) := ⟨rfl, rfl, fun _ => rfl, fun _ => rfl⟩
  have hz := hc.trans (.modify (p := s.curProc) (f := (·.ended status)) fun _ => ⟨rfl, rfl⟩)
  exact (hq.fpuSame.trans hz).trans ((notifyParent_quiet h4).fpuSame.trans
    ⟨rfl, rfl, fun _ => rfl, fun _ => rfl⟩)

/-! ## The invariant -/

/-- The registers of a process that did not use the FPU since its dispatch are those
that were saved, and so are the registers of a process that is switched out. -/
structure FpuInv (s : Kernel) : Prop where
  run : s.mode = .outside → s.curProc ≠ 0 → (s.proc s.curProc).fpuUsed = false →
    s.fpu = (s.proc s.curProc).fpuBuf
  old : ∀ now pold, s.mode = .select now pold → pold ≠ 0 → s.fpu = (s.proc pold).fpuBuf
  out : ∀ p v, s.history.fpuOut p = some v → (s.proc p).fpuBuf = v

theorem FpuInv.same (I : FpuInv s) (h : FpuSame s s') (hm : s'.mode = s.mode)
    (hc : s'.curProc = s.curProc) : FpuInv s' := by
  constructor
  · intro hout hcur hu
    rw [hm] at hout
    rw [hc] at hcur hu ⊢
    rw [h.used] at hu
    rw [h.fpu, h.buf]
    exact I.run hout hcur hu
  · intro now pold hs hp
    rw [h.fpu, h.buf]
    exact I.old now pold (hm ▸ hs) hp
  · intro p v hp
    rw [h.out] at hp
    rw [h.buf]
    exact I.out p v hp

theorem FpuInv.quiet (I : FpuInv s) (h : s.Quiet s') : FpuInv s' :=
  I.same h.fpuSame h.fields.mode h.fields.curProc

/-- `schedule` after the current process has ended. -/
theorem FpuInv.toSelect_null (hout : ∀ p v, s.history.fpuOut p = some v → (s.proc p).fpuBuf = v)
    (now : Nat) : FpuInv (s.toSelect now 0) := by
  refine ⟨fun h => ?_, fun now pold h hp => ?_, hout⟩
  · cases h
  · cases h
    exact absurd rfl hp

theorem exit_fpuInv {status : Int} (hout : ∀ p v, s.history.fpuOut p = some v →
    (s.proc p).fpuBuf = v)
    (h : s.exit cfg status = some s') : FpuInv s' := by
  have hs := exit_fpuSame h
  obtain ⟨s1, s2, t, s3, -, -, -, -, rfl⟩ := exit_cases h
  have hout' : ∀ p v, s3.history.fpuOut p = some v → (s3.proc p).fpuBuf = v := by
    intro p v hp
    have hb : (s3.proc p).fpuBuf = (s.proc p).fpuBuf := hs.buf p
    have ho : s3.history.fpuOut = s.history.fpuOut := hs.out
    rw [hb]
    exact hout p v (ho ▸ hp)
  exact FpuInv.toSelect_null (s := s3.clts) hout' s3.ns

/-- The process that is switched out has its registers in its buffer. -/
theorem FpuInv.switched {q' : Proc} {now : Nat} (I : FpuInv s) (hm : s.mode = .outside)
    (hcur : s.curProc ≠ 0) (hproc : s'.proc = update s.proc s.curProc q')
    (hq : q'.fpuBuf = if (s.proc s.curProc).fpuUsed then s.fpu else (s.proc s.curProc).fpuBuf)
    (hmode : s'.mode = .select now s.curProc) (hfpu : s'.fpu = s.fpu)
    (hout : s'.history.fpuOut = update s.history.fpuOut s.curProc (some s.fpu)) : FpuInv s' := by
  have hbuf : q'.fpuBuf = s.fpu := by
    rw [hq]
    split_ifs with hu
    · rfl
    · exact (I.run hm hcur (Bool.eq_false_iff.mpr hu)).symm
  constructor
  · intro h
    rw [hmode] at h
    cases h
  · intro now' pold h _
    rw [hmode] at h
    cases h
    rw [hfpu, hproc, update_self, hbuf]
  · intro p v hp
    rw [hout] at hp
    rw [hproc]
    by_cases hpc : p = s.curProc
    · subst hpc
      rw [update_self] at hp ⊢
      rw [hbuf]
      exact some_inj.mp hp
    · rw [update_of_ne hpc] at hp ⊢
      exact I.out p v hp

theorem schedule_fpuInv {regs : Bool} (I : FpuInv s) (hm : s.online = true → s.mode = .outside)
    (h : s.schedule cfg regs = some s') : FpuInv s' := by
  obtain ⟨-, rfl⟩ | ⟨-, -, rfl⟩ | ⟨-, -, -, rfl⟩ | ⟨ho, hcur, s1, hs1, rfl⟩ := schedule_cases h
  · exact I
  · exact FpuInv.toSelect_null (s := s.clts) I.out _
  · exact I.quiet (clts_quiet s)
  · obtain ⟨t, u, w, a, rfl⟩ := switchOut_form hs1
    exact I.switched (hm ho) hcur rfl rfl rfl rfl rfl

theorem Kernel.Blocks.fpuInv {cont : Cont} {queue : QueueId} {pid : Int} (I : FpuInv s)
    (hm : s.mode = .outside) (hcur : s.curProc ≠ 0) (h : Blocks cfg s s' cont queue pid) :
    FpuInv s' := by
  have hown := sameOwn h.own
  have hf := hown.fpu
  have hmode := hown.mode
  have hh := hown.history
  obtain ⟨a, hproc⟩ := h.proc
  exact I.switched hm hcur hproc (Proc.blocked_fpuBuf ..) hmode hf (by simp [hh])

/-- A process that is dispatched has the registers of its buffer. -/
theorem dispatch_fpu {now pold : Nat} (I : FpuInv s) (hm : s.mode = .select now pold)
    (hs : FpuSame s s') (hp : s'.curProc ≠ 0) (h : s'.dispatch pold = some s'') :
    s''.mode = .outside ∧ s''.curProc = s'.curProc ∧ s''.fpu = (s.proc s'.curProc).fpuBuf ∧
      FpuInv s'' := by
  obtain ⟨hmode, -, hcur, hf, -, -, hout, -⟩ := resume_fields h
  have hr := resume_fpuSame h
  have hfpu : s''.fpu = (s.proc s'.curProc).fpuBuf := by
    rw [hf, setFpuOut_fpu, load_fpu, modify_proc, update_self,
      Proc.setStatus_fpuBuf, modify_fpu, hs.buf, hs.fpu]
    split_ifs with hne
    · rfl
    · rw [not_not] at hne
      rw [hne]
      exact I.old now pold hm (hne ▸ hp)
  have hbuf (q : Nat) : (s''.proc q).fpuBuf = (s.proc q).fpuBuf := by
    rw [hr.buf, ← hs.buf]
    have hsame : FpuSame s' (s'.modify s'.curProc (·.setStatus .running)) :=
      .modify fun _ => ⟨rfl, rfl⟩
    exact hsame.buf q
  refine ⟨hmode, hcur, hfpu, fun _ _ _ => ?_, fun now pold h => ?_, fun q v hq => ?_⟩
  · have hcur' : s''.curProc = s'.curProc := hcur
    rw [hbuf, hcur', hfpu]
  · rw [hmode] at h
    cases h
  · rw [hout] at hq
    rw [hbuf]
    change update s'.history.fpuOut s'.curProc none q = some v at hq
    by_cases hqc : q = s'.curProc
    · rw [hqc, update_self] at hq
      cases hq
    · rw [update_of_ne hqc, hs.out] at hq
      exact I.out q v hq

theorem choose_fpuSame (s : Kernel) (p now : Nat) : FpuSame s (s.choose p now) :=
  ⟨rfl, rfl, fun _ => rfl, fun _ => rfl⟩

/-- What `select` dispatches has the registers it had when it was switched out. -/
theorem select_fpu {now pold : Nat} (I : FpuInv s) (hm : s.mode = .select now pold)
    (h : s.select cfg now pold = some s') :
    FpuInv s' ∧ (s'.mode = .outside → ∀ v, s.history.fpuOut s'.curProc = some v → s'.fpu = v) := by
  obtain ⟨a, p, -, -, -, hp, -, ⟨-, h⟩ | ⟨sig, -, ⟨-, h⟩ | ⟨-, h⟩⟩⟩ := select_cases h
  · obtain ⟨-, hc, hf, I'⟩ := dispatch_fpu I hm (choose_fpuSame s p now) hp h
    refine ⟨I', fun _ v hv => ?_⟩
    rw [hf, I.out _ v (hc ▸ hv)]
  · have hs : FpuSame s ((s.choose p now).modify p (·.setSignal sig false)) :=
      (choose_fpuSame s p now).trans (.modify fun _ => ⟨rfl, rfl⟩)
    refine ⟨exit_fpuInv (fun q v hq => ?_) h, fun hout => ?_⟩
    · rw [hs.out] at hq
      rw [hs.buf]
      exact I.out q v hq
    · obtain ⟨s1, s2, t, s3, -, -, -, -, rfl⟩ := exit_cases h
      cases hout
  · have hs : FpuSame s ((s.choose p now).modify p (·.setSignal sig false)) :=
      (choose_fpuSame s p now).trans (.modify fun _ => ⟨rfl, rfl⟩)
    obtain ⟨-, hc, hf, I'⟩ := dispatch_fpu I hm hs hp h
    refine ⟨I', fun _ v hv => ?_⟩
    rw [hf, I.out _ v (hc ▸ hv)]

/-! ## Runs -/

def Event.isFpu : Event → Bool
  | .fpu _ => true
  | _ => false

/-- An FPU instruction traps, or the process has trapped since its dispatch. -/
def FpuOk (s : Kernel) (e : Event) : Prop :=
  e.isFpu = true → s.ts = true ∨ (s.proc s.curProc).fpuUsed = true

instance (s : Kernel) (e : Event) : Decidable (FpuOk s e) := inferInstanceAs (Decidable (_ → _))

theorem useFpu_fpuInv {v : Fpu} (I : FpuInv s) (hok : FpuOk s (.fpu v)) (hm : s.mode = .outside) :
    FpuInv (s.useFpu v) := by
  have hused : ((s.useFpu v).proc s.curProc).fpuUsed = true := by
    unfold useFpu
    split_ifs with ht
    · simp
    · exact (hok rfl).resolve_left ht
  have hcur : (s.useFpu v).curProc = s.curProc := by
    unfold useFpu
    split_ifs <;> rfl
  have hmode : (s.useFpu v).mode = s.mode := by
    unfold useFpu
    split_ifs <;> rfl
  refine ⟨fun _ _ hu => ?_, fun now pold h => ?_, fun q x hq => ?_⟩
  · rw [hcur, hused] at hu
    cases hu
  · rw [hmode, hm] at h
    cases h
  · unfold useFpu at hq ⊢
    split_ifs at hq ⊢ with ht
    · have hx := I.out q x hq
      by_cases hqc : q = s.curProc
      · subst hqc
        simpa using hx
      · simpa [hqc] using hx
    · exact I.out q x hq

theorem FpuInv.takeTid (I : FpuInv s) : FpuInv (s.takeTid.setFpuOut s.nextTid none) := by
  refine ⟨I.run, I.old, fun p v hp => ?_⟩
  change update s.history.fpuOut s.nextTid none p = some v at hp
  by_cases hpn : p = s.nextTid
  · rw [hpn, update_self] at hp
    cases hp
  · rw [update_of_ne hpn] at hp
    exact I.out p v hp

/-- A new process has the registers of its maker. -/
theorem FpuInv.cloned (I : FpuInv s) (hm : s.mode = .outside) (flags : Nat) :
    FpuInv ((s.takeTid.setFpuOut s.nextTid none).modify s.nextTid fun _ => s.cloned flags) := by
  constructor
  · intro _ hcur hu
    change s.curProc ≠ 0 at hcur
    change (update s.proc s.nextTid (s.cloned flags) s.curProc).fpuUsed = false at hu
    change s.fpu = (update s.proc s.nextTid (s.cloned flags) s.curProc).fpuBuf
    by_cases hc : s.curProc = s.nextTid
    · rw [← hc, update_self, cloned_fpuBuf]
      split_ifs with hu'
      · rfl
      · exact I.run hm hcur (Bool.eq_false_iff.mpr hu')
    · rw [update_of_ne hc] at hu ⊢
      exact I.run hm hcur hu
  · intro now pold h
    have h' : s.mode = .select now pold := h
    rw [hm] at h'
    cases h'
  · intro p v hp
    have h := I.takeTid.out p v hp
    by_cases hpn : p = s.nextTid
    · subst hpn
      simp at hp
    · simpa [hpn] using h

theorem step_fpuInv {e : Event} (M : s.ModeOk) (I : FpuInv s) (hok : FpuOk s e)
    (h : s.step cfg e = some s') : FpuInv s' := by
  obtain ⟨-, hi, h⟩ | ⟨cv, tid, -, -, h⟩ | ⟨now, pold, -, hm, h⟩ | ⟨hm, hcur, h⟩ := step_cases h
  · obtain ⟨s1, hq, h⟩ := timerTick_cases h
    have ho := hq.fields.online
    have hmode := hq.fields.mode
    have I1 : FpuInv s.addTick := I.same ⟨rfl, rfl, fun _ => rfl, fun _ => rfl⟩ rfl rfl
    refine schedule_fpuInv (I1.quiet hq) (fun hon => ?_) h
    obtain hout | ⟨-, hoff⟩ := interruptible_cases hi
    · exact hmode.trans hout
    · exact absurd (hon.symm.trans (ho.trans hoff)) (by decide)
  · exact I.quiet (wake_quiet h)
  · exact (select_fpu I hm h).1
  · cases e with
    | tick | select | wake => cases h
    | fpu v =>
      cases h
      exact useFpu_fpuInv I hok hm
    | fault =>
      obtain ⟨s1, h1, rfl⟩ := fault_outside (M.outside hm) h
      have I1 := I.quiet (tkillProc_quiet h1)
      exact FpuInv.toSelect_null (s := ((s1.logKill s.curProc).setCur 0).clts) I1.out _
    | clone flags mem =>
      obtain rfl | rfl | ⟨-, s1, r, h1, -, rfl⟩ := clone_cases h
      · exact I
      · exact I.takeTid
      · exact (I.cloned hm flags).quiet (((linkChild_treeOnly ..).quiet.trans
          (addProcRun_quiet h1)).trans (setProcList_quiet ..))
    | exit status => exact exit_fpuInv I.out h
    | waitpid pid ptr options =>
      obtain rfl | ⟨-, c, -, ⟨-, -, rfl⟩ | ⟨-, -, h⟩⟩ := waitpid_cases h
      · exact I
      · obtain ⟨hm1, -, hc1, -⟩ := reap_fields s pid c
        exact I.same (reap_fpuSame ..) hm1 hc1
      · exact (waitpidSleep_blocks hcur h).fpuInv I hm hcur
    | nanosleep n =>
      obtain rfl | h := nanosleep_blocks hcur h
      · exact I
      · exact h.fpuInv I hm hcur
    | wait cv => exact (wait_blocks hcur h).fpuInv I hm hcur
    | tkill tid sig =>
      obtain rfl | ⟨a, -, -, h⟩ := tkill_cases h
      · exact I
      · exact I.quiet (tkillProc_quiet h)
    | setnice inc =>
      obtain rfl | ⟨t, u, w, a, rfl⟩ := setnice_form h
      · exact I
      · have hs : FpuSame s (s.putQueues t u w) := ⟨rfl, rfl, fun _ => rfl, fun _ => rfl⟩
        exact I.same (hs.trans (.modify fun _ => ⟨rfl, rfl⟩)) rfl rfl

theorem Started.fpuInv (h : Started w s) : FpuInv s := by
  obtain ⟨tick, ticklen, fpu, uid, uid', t, a, a', rfl⟩ := h.form
  refine ⟨fun _ h => absurd rfl h, fun now pold h => ?_, fun p v h => ?_⟩ <;> cases h

theorem reach_fpuInv (h : Reach (Started w) (step (.code w)) FpuOk s) : s.ModeOk ∧ FpuInv s := by
  refine h.invariant (I := fun s => s.ModeOk ∧ FpuInv s) (fun s hs => ⟨hs.modeOk, hs.fpuInv⟩) ?_
  rintro s e s' ⟨M, I⟩ hok hstep
  exact ⟨step_modeOk M hstep, step_fpuInv M I hok hstep⟩

/-- In every run in which each FPU instruction traps or follows one that trapped in
the same time slice, a process that is dispatched again has the registers it had when
it was switched out. -/
theorem fpu_restored (w : Nat → Nat) {s : Kernel}
    (h : Reach (Started w) (step (.code w)) FpuOk s) {s' : Kernel}
    (hstep : s.step (.code w) .select = some s') (hout : s'.mode = .outside) {v : Fpu}
    (hv : s.history.fpuOut s'.curProc = some v) : s'.fpu = v := by
  obtain ⟨-, I⟩ := reach_fpuInv h
  obtain ⟨he, -⟩ | ⟨cv, tid, he, -⟩ | ⟨now, pold, -, hm, hsel⟩ | ⟨-, -, hu⟩ := step_cases hstep
  · cases he
  · cases he
  · exact (select_fpu I hm hsel).2 hout v hv
  · cases hu

/-- Process 1 writes 77 to its registers, process 2 writes 88, and process 1 is next. -/
def twoFpuUsers : List Event :=
  [.tick, .select, .fpu 77, .tick, .tick, .tick, .select, .fpu 88, .tick, .tick, .tick]

theorem fpu_restored_sample : ∃ s s', Reach (Started uint64) (step (.code uint64)) FpuOk s ∧
      s.step (.code uint64) .select = some s' ∧ s'.curProc = 1 ∧ s.fpu = 88 ∧ s'.fpu = 77 := by
  have hrun : ((runOf uint64 FpuOk twoFpuUsers).bind fun s =>
    (s.step (.code uint64) .select).map fun s' => (s, s')).map
      (fun x => (x.1.history.fpuOut x.2.curProc, x.2.curProc, x.1.fpu, x.2.mode)) =
        some (some 77, 1, 88, .outside) := by decide +kernel
  obtain ⟨⟨s, s'⟩, hs, he⟩ := run_of_map hrun
  simp only [Prod.mk.injEq] at he
  obtain ⟨hv, hc, hf, hm⟩ := he
  obtain ⟨s0, h0, hs⟩ := bind_eq_some_iff.mp hs
  obtain ⟨s1, h1, hs⟩ := map_eq_some_iff.mp hs
  cases hs
  exact ⟨s, s', runOf_reach h0, h1, hc, hf, fpu_restored uint64 (runOf_reach h0) h1 hm hv⟩

/-- Process 1 writes 77 to its registers after a tick, and is next again after process 2. -/
def fpuAfterTick : List Event :=
  [.tick, .select, .tick, .fpu 77, .tick, .tick, .select, .tick, .tick, .tick]

/-- After a tick that does not switch, CR0.TS is clear: the process writes 77 to its
registers without a trap, is switched out, and comes back with the 5 of the start. -/
theorem fpu_lost : ∃ s s', Reach (Started uint64) (step (.code uint64)) always s ∧
      s.step (.code uint64) .select = some s' ∧ s'.mode = .outside ∧
      s.history.fpuOut s'.curProc = some 77 ∧ s'.fpu = 5 := by
  have hrun : ((runOf uint64 always fpuAfterTick).bind fun s =>
    (s.step (.code uint64) .select).map fun s' => (s, s')).map
      (fun x => (x.2.mode, x.1.history.fpuOut x.2.curProc, x.2.fpu)) =
        some (.outside, some 77, 5) := by decide +kernel
  obtain ⟨⟨s, s'⟩, hs, he⟩ := run_of_map hrun
  simp only [Prod.mk.injEq] at he
  obtain ⟨s0, h0, hs⟩ := bind_eq_some_iff.mp hs
  obtain ⟨s1, h1, hs⟩ := map_eq_some_iff.mp hs
  cases hs
  exact ⟨s, s', runOf_reach h0, h1, he⟩

end Sysint.Process
