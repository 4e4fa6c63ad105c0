import Sysint.Process.Tree

/-! Sleeping and waking in `waitpid`. A process that sleeps there is woken by the end of
every child, and one that was woken by a child finds it. -/
namespace Sysint.Process
open Kernel
open Function
open Machine
open Proc

variable {w : Nat → Nat} {cfg : Config} {s s' s'' : Kernel} {p c : Nat} {pid : Int}
  {kids : Nat → List Nat}

/-- `c` is a child of `p` that has ended, and `waitpid(pid)` asks for it. -/
structure Matches (s : Kernel) (p : Nat) (pid : Int) (c : Nat) : Prop where
  child : (s.proc c).parent = p
  undeleted : (s.proc c).deleted = false
  ended : s.living c = false
  request : pid ≤ 0 ∨ (s.proc c).pid = pid

/-- The process sleeps inside `waitpid(pid)`. -/
structure Blocked (s : Kernel) (p : Nat) (pid : Int) : Prop where
  pos : p ≠ 0
  status : (s.proc p).status = .waiting
  cont : (s.proc p).cont = .waitpid pid

/-- The process has been woken inside `waitpid(pid)`, and not by a signal. -/
structure Woken (s : Kernel) (p : Nat) (pid : Int) : Prop where
  pos : p ≠ 0
  cont : (s.proc p).cont = .waitpid pid
  flag : (s.proc p).interrupted = false
  killed : s.history.killed p = false
  status : (s.proc p).status ≠ .waiting
  living : s.living p = true
  inside : ¬ (s.mode = .outside ∧ s.curProc = p)

structure WaitInv (s : Kernel) : Prop where
  blocked : ∀ p pid, Blocked s p pid → (s.proc p).curQueue = .noQueue ∧
    (s.proc p).waitPid = if pid ≤ 0 then -1 else pid
  woken : ∀ p pid, Woken s p pid → ∃ c, Matches s p pid c

/-- No process sleeps though a child that it waits for has ended. -/
def Heard (s : Kernel) : Prop := ∀ p pid c, Blocked s p pid → ¬ Matches s p pid c

/-- A step in which no process goes to sleep in `waitpid`. -/
structure Waits (s s' : Kernel) : Prop where
  blocked : ∀ p pid, Blocked s' p pid → Blocked s p pid ∧
    ((s.proc p).curQueue = .noQueue → (s'.proc p).curQueue = .noQueue) ∧
    (s'.proc p).waitPid = (s.proc p).waitPid
  woken : ∀ p pid, Woken s' p pid → Woken s p pid ∨ ∃ c, Matches s' p pid c
  keep : ∀ p pid c, Woken s' p pid → Matches s p pid c → Matches s' p pid c
  add : ∀ p pid c, Blocked s' p pid → Matches s' p pid c → Matches s p pid c

theorem Waits.waitInv (W : Waits s s') (I : WaitInv s) : WaitInv s' := by
  refine ⟨fun p pid hb => ?_, fun p pid hw => ?_⟩
  · obtain ⟨hb, hq, hm⟩ := W.blocked p pid hb
    obtain ⟨hq', hm'⟩ := I.blocked p pid hb
    exact ⟨hq hq', hm.trans hm'⟩
  · obtain hold | hnew := W.woken p pid hw
    · obtain ⟨c, hc⟩ := I.woken p pid hold
      exact ⟨c, W.keep p pid c hw hc⟩
    · exact hnew

theorem Waits.heard (W : Waits s s') (H : Heard s) : Heard s' := fun p pid c hb hc =>
  H p pid c (W.blocked p pid hb).1 (W.add p pid c hb hc)

/-- What a sequence of such steps keeps. -/
def Kept (s s' : Kernel) : Prop := WaitInv s → WaitInv s' ∧ (Heard s → Heard s')

theorem Waits.kept (W : Waits s s') : Kept s s' := fun I => ⟨W.waitInv I, W.heard⟩

theorem Kept.refl (s : Kernel) : Kept s s := fun I => ⟨I, id⟩

theorem Kept.trans (h : Kept s s') (h' : Kept s' s'') : Kept s s'' := by
  intro I
  obtain ⟨I1, hH1⟩ := h I
  obtain ⟨I2, hH2⟩ := h' I1
  exact ⟨I2, fun H => hH2 (hH1 H)⟩

theorem Matches.congr (hk : SameKin s s') (hpid : ∀ q, (s'.proc q).pid = (s.proc q).pid) :
    Matches s' p pid c ↔ Matches s p pid c := by
  obtain ⟨hpar, -, -, -, hdel, hliv⟩ := hk.fields c
  constructor
  · rintro ⟨h1, h2, h3, h4⟩
    exact ⟨hpar ▸ h1, hdel ▸ h2, hliv ▸ h3, hpid c ▸ h4⟩
  · rintro ⟨h1, h2, h3, h4⟩
    exact ⟨hpar.trans h1, hdel.trans h2, hliv.trans h3, (hpid c).symm ▸ h4⟩

/-- A step that leaves the relatives alone. -/
theorem Waits.of_kin (hk : SameKin s s') (hpid : ∀ q, (s'.proc q).pid = (s.proc q).pid)
    (hb : ∀ p pid, Blocked s' p pid → Blocked s p pid ∧
      ((s.proc p).curQueue = .noQueue → (s'.proc p).curQueue = .noQueue) ∧
      (s'.proc p).waitPid = (s.proc p).waitPid)
    (hw : ∀ p pid, Woken s' p pid → Woken s p pid) : Waits s s' :=
  ⟨hb, fun p pid h => .inl (hw p pid h), fun _ _ _ _ => (Matches.congr hk hpid).mpr,
    fun _ _ _ _ => (Matches.congr hk hpid).mp⟩

/-- What `Blocked` and `Woken` are about. -/
def Proc.rest (q : Proc) : Status × Cont × Bool × Int × QueueId :=
  (q.status, q.cont, q.interrupted, q.waitPid, q.curQueue)

theorem Blocked.congr (hq : (s'.proc p).rest = (s.proc p).rest) (hb : Blocked s' p pid) :
    Blocked s p pid ∧ ((s.proc p).curQueue = .noQueue → (s'.proc p).curQueue = .noQueue) ∧
      (s'.proc p).waitPid = (s.proc p).waitPid := by
  simp only [rest, Prod.mk.injEq] at hq
  obtain ⟨h1, h2, -, h4, h5⟩ := hq
  exact ⟨⟨hb.pos, h1 ▸ hb.status, h2 ▸ hb.cont⟩, h5.trans, h4⟩

theorem Woken.congr (hq : (s'.proc p).rest = (s.proc p).rest)
    (hk : s'.history.killed p = false → s.history.killed p = false)
    (hout : s.mode = .outside → s.curProc = p → s'.mode = .outside ∧ s'.curProc = p)
    (hw : Woken s' p pid) : Woken s p pid := by
  simp only [rest, Prod.mk.injEq] at hq
  obtain ⟨h1, h2, h3, -, -⟩ := hq
  refine ⟨hw.pos, h2 ▸ hw.cont, h3 ▸ hw.flag, hk hw.killed, h1 ▸ hw.status, ?_,
    fun h => hw.inside (hout h.1 h.2)⟩
  have hl := hw.living
  rwa [Kernel.living, h1] at hl

/-- A step that changes nothing a waiting process depends on. -/
theorem Waits.of_rest (hk : SameKin s s') (hq : ∀ p, (s'.proc p).rest = (s.proc p).rest)
    (hpid : ∀ q, (s'.proc q).pid = (s.proc q).pid)
    (hkill : ∀ p, s'.history.killed p = false → s.history.killed p = false)
    (hout : s.mode = .outside → s.curProc ≠ 0 → s'.mode = .outside ∧ s'.curProc = s.curProc) :
    Waits s s' := by
  refine .of_kin hk hpid (fun p pid => Blocked.congr (hq p)) fun p pid hw => ?_
  refine hw.congr (hq p) (hkill p) ?_
  rintro hm rfl
  exact hout hm hw.pos

/-- A step that changes no process and leaves the place where the kernel is. -/
theorem Waits.of_proc (hp : s'.proc = s.proc) (hh : s'.history.killed = s.history.killed)
    (hm : s'.mode = s.mode) (hc : s'.curProc = s.curProc) : Waits s s' := by
  refine .of_rest (fun q => ?_) (fun q => ?_) (fun q => ?_) (fun q => ?_) fun ho _ => ?_
  · rw [hp]
  · rw [hp]
  · rw [hp]
  · rw [hh]
    exact id
  · exact ⟨hm.trans ho, hc⟩

/-! ## Waking -/

/-- A process woken otherwise than by a child does not sleep in `waitpid`, or is told. -/
theorem addProcRun_woken {i : Bool} {r : Nat} (hl : s.living p = true)
    (hi : i = true ∨ ∀ pid, ¬ Blocked s p pid) (h : s.addProcRun cfg p i = some s')
    (hw : Woken s' r pid) : Woken s r pid := by
  obtain ⟨-, hc, -, -, -, -, -, -, hm, hh⟩ := (addProcRun_quiet h).fields
  have hout (ho : s.mode = .outside) (hr : s.curProc = r) : s'.mode = .outside ∧ s'.curProc = r :=
    ⟨hm.trans ho, hc.trans hr⟩
  by_cases hr : r = p
  · subst hr
    obtain ⟨-, -, rfl⟩ | ⟨t, u, w, a, rfl⟩ := addProcRun_form h
    · exact hw
    have hcont := hw.cont
    have hflag := hw.flag
    simp only [modify_proc, putQueues_proc, update_self,
      readied_cont, Bool.or_eq_false_iff] at hcont hflag
    refine ⟨hw.pos, hcont, hflag.1, hw.killed, fun hst => ?_, hl,
      fun ⟨ho, hr⟩ => hw.inside (hout ho hr)⟩
    obtain rfl | hq := hi
    · simp [hst] at hflag
    · exact hq pid ⟨hw.pos, hst, hcont⟩
  · refine hw.congr (congrArg rest (addProcRun_other h hr)) ?_ hout
    rw [hh]
    exact id

theorem addProcRun_waits {i : Bool} (hl : s.living p = true)
    (hi : i = true ∨ ∀ pid, ¬ Blocked s p pid) (h : s.addProcRun cfg p i = some s') :
    Waits s s' := by
  refine .of_kin (addProcRun_kin hl h) (fun q => ((addProcRun_quiet h).procFields q).1)
    (fun r pid hb => ?_) fun r pid => addProcRun_woken hl hi h
  by_cases hr : r = p
  · subst hr
    obtain ⟨-, -, rfl⟩ | ⟨t, u, w, a, rfl⟩ := addProcRun_form h
    · exact hb.congr rfl
    · have hst := hb.status
      simp at hst
  · exact hb.congr (congrArg rest (addProcRun_other h hr))

theorem setSignal_rest (s : Kernel) (p sig : Nat) (b : Bool) (q : Nat) :
    ((s.modify p (·.setSignal sig b)).proc q).rest = (s.proc q).rest := by
  refine modify_proc_of (g := rest) ?_ q
  exact fun _ => rfl

theorem setSignal_waits (s : Kernel) (p sig : Nat) (b : Bool) :
    Waits s (s.modify p (·.setSignal sig b)) := by
  refine .of_rest (.modify fun _ => rfl) (setSignal_rest s p sig b) (fun q => ?_) (fun _ => id)
    fun ho _ => ⟨ho, rfl⟩
  refine modify_proc_of (g := Proc.pid) ?_ q
  exact fun _ => rfl

theorem tkillProc_kept {sig : Nat} (h : s.tkillProc cfg p sig = some s') : Kept s s' := by
  obtain ⟨-, rfl⟩ | ⟨-, hz, h⟩ := tkillProc_cases h
  · exact .refl _
  · refine (setSignal_waits s p sig true).kept.trans (addProcRun_waits ?_ (.inl rfl) h).kept
    exact living_of_ne (by simpa using hz)

/-! ## Switching out -/

/-- A process that is interrupted in user mode is not inside `waitpid`. -/
theorem schedule_waits (H : Sane s) (h : s.schedule cfg true = some s') : Waits s s' := by
  have hk := schedule_kin H h
  obtain ⟨-, rfl⟩ | ⟨-, h0, rfl⟩ | ⟨-, -, -, rfl⟩ | ⟨-, -, s1, hs1, rfl⟩ := schedule_cases h
  · exact .of_proc rfl rfl rfl rfl
  · exact .of_rest hk (fun _ => rfl) (fun _ => rfl) (fun _ => id) fun _ hne => absurd h0 hne
  · exact .of_proc rfl rfl rfl rfl
  · obtain ⟨t, u, w, a, rfl⟩ := switchOut_form hs1
    refine .of_kin hk (fun q => ?_) (fun p pid hb => ?_) fun p pid hw => ?_
    · by_cases hq : q = s.curProc <;> simp [hq]
    · by_cases hp : p = s.curProc
      · have hcont := hb.cont
        simp [hp] at hcont
      · refine hb.congr ?_
        simp [hp]
    · by_cases hp : p = s.curProc
      · have hcont := hw.cont
        simp [hp] at hcont
      · refine hw.congr ?_ ?_ ?_
        · simp [hp]
        · exact fun hk => hk
        · exact fun _ hc => absurd hc.symm hp

section Blocks
variable {cont : Cont} {queue : QueueId} {mark : Int}

section

variable (B : Blocks cfg s s' cont queue mark)
include B

theorem Kernel.Blocks.killed :
    s'.history.killed = s.history.killed := by
  rw [(sameOwn B.own).history]
  rfl

theorem Kernel.Blocks.other (hp : p ≠ s.curProc) :
    s'.proc p = s.proc p := by
  obtain ⟨a, hproc⟩ := B.proc
  rw [hproc, update_of_ne hp]

/-- The caller that sleeps has not been woken. -/
theorem Kernel.Blocks.woken (hw : Woken s' p pid) :
    Woken s p pid := by
  by_cases hp : p = s.curProc
  · obtain ⟨a, hproc⟩ := B.proc
    have hst := hw.status
    simp [hproc, hp] at hst
  · refine hw.congr (congrArg rest (B.other hp)) ?_ fun _ hc => absurd hc.symm hp
    rw [B.killed]
    exact id

end

theorem Kernel.Blocks.matches (hl : s.living s.curProc = true)
    (B : Blocks cfg s s' cont queue mark) : Matches s' p pid c ↔ Matches s p pid c := by
  refine Matches.congr (B.kin hl) fun q => ?_
  by_cases hq : q = s.curProc
  · obtain ⟨a, hproc⟩ := B.proc
    simp [hproc, hq]
  · rw [B.other hq]

theorem Kernel.Blocks.waitInv (I : WaitInv s) (hl : s.living s.curProc = true)
    (hcont : ∀ pid, cont = .waitpid pid → queue = .noQueue ∧ mark = if pid ≤ 0 then -1 else pid)
    (B : Blocks cfg s s' cont queue mark) : WaitInv s' := by
  refine ⟨fun p pid hb => ?_, fun p pid hw => ?_⟩
  · by_cases hp : p = s.curProc
    · obtain ⟨a, hproc⟩ := B.proc
      have hc := hb.cont
      simp only [hproc, hp, update_self, blocked_cont, blocked_curQueue,
        blocked_waitPid] at hc ⊢
      exact hcont pid hc
    · obtain ⟨hb', hq, hm⟩ := hb.congr (congrArg rest (B.other hp))
      obtain ⟨hq', hm'⟩ := I.blocked p pid hb'
      exact ⟨hq hq', hm.trans hm'⟩
  · obtain ⟨c, hc⟩ := I.woken p pid (B.woken hw)
    exact ⟨c, (B.matches hl).mpr hc⟩

theorem Kernel.Blocks.heard (hH : Heard s) (hl : s.living s.curProc = true)
    (hcont : ∀ pid, cont = .waitpid pid → ∀ c, ¬ Matches s s.curProc pid c)
    (B : Blocks cfg s s' cont queue mark) : Heard s' := by
  intro p pid c hb hc
  rw [B.matches hl] at hc
  by_cases hp : p = s.curProc
  · obtain ⟨a, hproc⟩ := B.proc
    have hcn := hb.cont
    simp only [hproc, hp, update_self, blocked_cont] at hcn
    exact hcont pid hcn c (hp ▸ hc)
  · exact hH p pid c (hb.congr (congrArg rest (B.other hp))).1 hc

theorem Kernel.Blocks.kept (hl : s.living s.curProc = true) (hcont : ∀ pid, cont ≠ .waitpid pid)
    (B : Blocks cfg s s' cont queue mark) : Kept s s' := by
  refine fun I => ⟨B.waitInv I hl fun pid hc => ?_, fun hH => B.heard hH hl fun pid hc => ?_⟩
  · exact absurd hc (hcont pid)
  · exact absurd hc (hcont pid)

end Blocks

/-- A process that a page fault kills was running. -/
theorem fault_kept (ho : s.online = true) (h : s.fault cfg = some s') : Kept s s' := by
  obtain ⟨s1, h1, rfl⟩ := fault_outside ho h
  have hc := (tkillProc_quiet h1).fields.curProc
  have W : Waits s1 (((s1.logKill s.curProc).setCur 0).clts.toSelect s1.ns 0) := by
    refine .of_kin (.refl s1) (fun _ => rfl) (fun p pid hb => hb.congr rfl) fun p pid hw => ?_
    have hk := hw.killed
    have hp : p ≠ s.curProc := by
      rintro rfl
      simp at hk
    refine hw.congr ?_ ?_ ?_
    · rfl
    · simp [hp]
    · exact fun _ hcp => absurd (hcp.symm.trans hc) hp
  exact (tkillProc_kept h1).trans W.kept

/-! ## exit -/

theorem exitSignal_ne_zero (flags : Nat) : exitSignal flags ≠ 0 := by
  simp only [exitSignal]
  split_ifs with h
  · exact h
  · decide

section

variable (h : s.notifyParent cfg p = some s')
include h

/-- The parent of a process that has ended is awake. -/
theorem notifyParent_awake (hp : (s.proc p).parent ≠ 0) :
    (s'.proc (s.proc p).parent).status ≠ .waiting := by
  have hready {i : Bool} {s : Kernel} {p : Nat} (h : s.addProcRun cfg p i = some s') :
      (s'.proc p).status ≠ .waiting := by
    obtain ⟨-, hst, rfl⟩ | ⟨t, u, w, a, rfl⟩ := addProcRun_form h
    · simp [hst]
    · simp
  obtain ⟨h0, -⟩ | ⟨-, -, -, h⟩ | ⟨-, -, h⟩ := notifyParent_cases h
  · exact absurd h0 hp
  · exact hready h
  · obtain ⟨h0 | hz, rfl⟩ | ⟨-, -, h⟩ := tkillProc_cases h
    · exact absurd h0 (exitSignal_ne_zero _)
    · simp [hz]
    · exact hready h

theorem notifyParent_other {q : Nat}
    (hq : q ≠ (s.proc p).parent) : s'.proc q = s.proc q := by
  obtain ⟨-, rfl⟩ | ⟨-, -, -, h⟩ | ⟨-, -, h⟩ := notifyParent_cases h
  · rfl
  · exact addProcRun_other h hq
  · obtain ⟨-, rfl⟩ | ⟨-, -, h⟩ := tkillProc_cases h
    · rfl
    · rw [addProcRun_other h hq]
      simp [hq]

/-- If the end of `p` leaves its parent woken in `waitpid`, it was woken before, or it
waits for `p`. -/
theorem notifyParent_woken
    (hw : Woken s' (s.proc p).parent pid) :
    Woken s (s.proc p).parent pid ∨ Blocked s (s.proc p).parent pid ∧
      ((s.proc (s.proc p).parent).waitPid < 0 ∨
        (s.proc (s.proc p).parent).waitPid = (s.proc p).pid) := by
  have hcont := ((notifyParent_quiet h).procFields (s.proc p).parent).2.2.1
  obtain ⟨h0, -⟩ | ⟨-, hst, hm, h⟩ | ⟨-, -, h⟩ := notifyParent_cases h
  · exact absurd h0 hw.pos
  · exact .inr ⟨⟨hw.pos, hst, hcont ▸ hw.cont⟩, hm⟩
  · obtain ⟨-, rfl⟩ | ⟨-, hz, h⟩ := tkillProc_cases h
    · exact .inl hw
    · have hl : (s.modify (s.proc p).parent (·.setSignal (exitSignal (s.proc p).cloneFlags)
          true)).living (s.proc p).parent = true := living_of_ne (by simpa using hz)
      have hw1 := addProcRun_woken hl (.inl rfl) h hw
      exact .inl (hw1.congr (setSignal_rest ..) (fun hk => hk) fun ho hc => ⟨ho, hc⟩)

end

/-- What the other processes see of the end of the current one. -/
structure Leaves (s s' : Kernel) : Prop where
  dead : s'.living s.curProc = false
  rest : ∀ r, r ≠ s.curProc → r ≠ (s.proc s.curProc).parent → (s'.proc r).rest = (s.proc r).rest
  living : ∀ c, c ≠ s.curProc → s'.living c = s.living c
  pid : ∀ c, (s'.proc c).pid = (s.proc c).pid
  adopt : NoAdoption s s'
  kin : ∀ c, (s.proc c).parent ≠ s.curProc →
    (s'.proc c).parent = (s.proc c).parent ∧ (s'.proc c).deleted = (s.proc c).deleted
  killed : s'.history.killed = s.history.killed
  /-- The parent does not sleep. -/
  awake : (s.proc s.curProc).parent ≠ 0 → (s'.proc (s.proc s.curProc).parent).status ≠ .waiting
  /-- The parent was woken before, or waits for this child. -/
  told : ∀ pid, Woken s' (s.proc s.curProc).parent pid → Woken s (s.proc s.curProc).parent pid ∨
    Blocked s (s.proc s.curProc).parent pid ∧
      ((s.proc (s.proc s.curProc).parent).waitPid < 0 ∨
        (s.proc (s.proc s.curProc).parent).waitPid = (s.proc s.curProc).pid)

theorem exit_leaves {status : Int} (hself : (s.proc s.curProc).parent ≠ s.curProc)
    (h : s.exit cfg status = some s') : Leaves s s' := by
  have hother (c : Nat) := exit_other (c := c) h
  obtain ⟨s1, s2, E, hn, rfl⟩ := exit_ends h
  have hk := notifyParent_kin hn
  have hquiet := notifyParent_quiet hn
  have hpar1 : (s1.proc s.curProc).parent = (s.proc s.curProc).parent :=
    (hk.fields _).1.symm.trans (hother s.curProc hself).1
  have hrest1 (r : Nat) (hr : r ≠ s.curProc) : (s1.proc r).rest = (s.proc r).rest := by
    have h1 := congrArg rest (E.rest r hr)
    exact h1
  have hpid1 (c : Nat) : (s1.proc c).pid = (s.proc c).pid := by
    by_cases hc : c = s.curProc
    · have h1 := congrArg Proc.pid E.cur
      exact hc ▸ h1
    · have h1 := congrArg Proc.pid (E.rest c hc)
      exact h1
  have hkill1 : s1.history.killed = s.history.killed := by
    rw [(sameOwn E.own).history]
    rfl
  constructor
  · have hz := congrArg Proc.status E.cur
    simp only [Proc.flat_status, Proc.ended_status] at hz
    have hl : s2.living s.curProc = s1.living s.curProc := (hk.fields _).2.2.2.2.2
    refine Eq.trans hl ?_
    simp [Kernel.living, hz]
  · intro r hr hp
    have h2 := congrArg rest (notifyParent_other hn (hpar1.symm ▸ hp))
    exact h2.trans (hrest1 r hr)
  · intro c hc
    have hst := congrArg Prod.fst (hrest1 c hc)
    simp only [rest] at hst
    have hl : s2.living c = s1.living c := (hk.fields _).2.2.2.2.2
    refine Eq.trans hl ?_
    simp [Kernel.living, hst]
  · intro c
    exact (hquiet.procFields c).1.trans (hpid1 c)
  · refine E.parent.trans fun c => .inl ?_
    exact (hk.fields c).1
  · exact hother
  · exact (congrArg History.killed hquiet.fields.history).trans hkill1
  · intro h0
    have hw := notifyParent_awake hn (hpar1.symm ▸ h0)
    rwa [hpar1] at hw
  · intro pid hw
    have hp0 : (s.proc s.curProc).parent ≠ 0 := hw.pos
    have hr := hrest1 _ hself
    have hw2 : Woken s2 (s1.proc s.curProc).parent pid := by
      have hc2 : s2.curProc = 0 := hquiet.fields.curProc.trans (sameOwn E.own).curProc
      rw [hpar1]
      refine Woken.congr ?_ ?_ ?_ hw
      · rfl
      · exact fun hk => hk
      · exact fun _ hc => absurd (hc2.symm.trans hc).symm hp0
    obtain hw1 | ⟨hb1, hm⟩ := notifyParent_woken hn hw2
    · rw [hpar1] at hw1
      refine .inl (hw1.congr hr ?_ ?_)
      · rw [hkill1]
        exact fun hk => hk
      · exact fun _ hc => absurd hc.symm hself
    · rw [hpar1] at hb1 hm
      rw [hpid1] at hm
      obtain ⟨hb, -, hwp⟩ := hb1.congr hr
      rw [hwp] at hm
      exact .inr ⟨hb, hm⟩

theorem Leaves.waits (L : Leaves s s') (I : WaitInv s) (hl : s.living s.curProc = true)
    (hd : (s.proc s.curProc).deleted = false) (hself : (s.proc s.curProc).parent ≠ s.curProc) :
    Waits s s' := by
  have hblocked (r : Nat) (pid : Int) (hb : Blocked s' r pid) :
      r ≠ s.curProc ∧ r ≠ (s.proc s.curProc).parent := by
    constructor
    · rintro rfl
      have hst := hb.status
      have hdead := L.dead
      simp [Kernel.living, hst] at hdead
    · rintro rfl
      exact L.awake hb.pos hb.status
  have hwoken (r : Nat) (pid : Int) (hw : Woken s' r pid) : r ≠ s.curProc := by
    rintro rfl
    exact absurd (L.dead.symm.trans hw.living) (by decide)
  refine ⟨fun r pid hb => ?_, fun r pid hw => ?_, fun r pid c hw hc => ?_, fun r pid c hb hc => ?_⟩
  · obtain ⟨hr, hp⟩ := hblocked r pid hb
    exact hb.congr (L.rest r hr hp)
  · have hr := hwoken r pid hw
    by_cases hp : r = (s.proc s.curProc).parent
    · subst hp
      obtain hold | ⟨hb, hm⟩ := L.told pid hw
      · exact .inl hold
      obtain ⟨hpar, hdel⟩ := L.kin s.curProc hself
      refine .inr ⟨s.curProc, hpar, hdel.trans hd, L.dead, ?_⟩
      rw [(I.blocked _ _ hb).2] at hm
      rw [L.pid]
      split_ifs at hm with h0
      · exact .inl h0
      · omega
    · refine .inl (hw.congr (L.rest r hr hp) ?_ fun _ hc => absurd hc.symm hr)
      rw [L.killed]
      exact fun hk => hk
  · have hr := hwoken r pid hw
    have hcc : c ≠ s.curProc := by
      rintro rfl
      exact absurd (hc.ended.symm.trans hl) (by decide)
    obtain ⟨hpar, hdel⟩ := L.kin c (hc.child.symm ▸ hr)
    refine ⟨hpar.trans hc.child, hdel.trans hc.undeleted, (L.living c hcc).trans hc.ended, ?_⟩
    rw [L.pid]
    exact hc.request
  · obtain ⟨hr, hp⟩ := hblocked r pid hb
    have hpar : (s.proc c).parent = r := by
      obtain h1 | h1 := L.adopt c
      · exact h1.symm.trans hc.child
      · exact absurd (hc.child.symm.trans h1) hb.pos
    have hcc : c ≠ s.curProc := by
      rintro rfl
      exact hp hpar.symm
    have hdel := (L.kin c (hpar.symm ▸ hr)).2
    refine ⟨hpar, hdel ▸ hc.undeleted, (L.living c hcc) ▸ hc.ended, ?_⟩
    rw [← L.pid]
    exact hc.request

theorem exit_kept {status : Int} (F : Family s kids)
    (hcur : s.curProc ≠ 0) (hl : s.living s.curProc = true) (h : s.exit cfg status = some s') :
    Kept s s' := by
  have hd := F.undeleted hl
  have hself : (s.proc s.curProc).parent ≠ s.curProc := by
    intro heq
    have hmem := F.parent s.curProc hd (heq.symm ▸ hcur)
    rw [heq] at hmem
    exact (F.child _ _ hmem).1.false
  exact fun I => ((exit_leaves hself h).waits I hl hd hself).kept I

/-! ## Running again -/

/-- The process that runs is not inside `waitpid`. -/
theorem modifyCur_waits {f : Proc → Proc} (hm : s.mode = .outside)
    (hst : (s.proc s.curProc).status ≠ .waiting)
    (hf : ∀ q, (f q).kin = q.kin ∧ (f q).pid = q.pid ∧ (f q).status = q.status) :
    Waits s (s.modify s.curProc f) := by
  refine .of_kin (.modify fun q => (hf q).1) (modify_proc_of fun q => (hf q).2.1)
    (fun r pid hb => ?_) fun r pid hw => ?_
  · by_cases hr : r = s.curProc
    · have hst' := hb.status
      simp only [modify_proc, hr, update_self, (hf _).2.2] at hst'
      exact absurd hst' hst
    · refine hb.congr ?_
      simp [hr]
  by_cases hr : r = s.curProc
  · exact absurd ⟨hm, hr.symm⟩ hw.inside
  · refine hw.congr ?_ ?_ ?_
    · simp [hr]
    · exact fun hk => hk
    · exact fun _ hc => absurd hc.symm hr

/-- The caller of `waitpid` deletes a child. -/
theorem reap_waits (F : Family s kids) (hm : s.mode = .outside)
    (hl : s.living s.curProc = true) (hc : c ∈ kids s.curProc) : Waits s (s.reap pid c) := by
  have T := delete_treeOnly s c
  have hrest (r : Nat) : ((s.reap pid c).proc r).rest = (s.proc r).rest := by
    have h1 := congrArg rest (T.flat r)
    exact h1
  have hpid (r : Nat) : ((s.reap pid c).proc r).pid = (s.proc r).pid := by
    have h1 := congrArg Proc.pid (T.flat r)
    exact h1
  have hliv (r : Nat) : (s.reap pid c).living r = s.living r := congrFun T.living r
  have hpar (r : Nat) : ((s.reap pid c).proc r).parent = (s.proc r).parent := delete_parent s c r
  have hdel (r : Nat) : ((s.reap pid c).proc r).deleted = ((s.proc r).deleted || decide (r = c)) :=
    delete_deleted s c r
  obtain ⟨hm', -, hc', -, -, -, -, hk⟩ := reap_fields s pid c
  refine ⟨fun r pid => Blocked.congr (hrest r), fun r pid hw => .inl ?_, fun r pid d hw hd => ?_,
    fun r pid d _ hd => ?_⟩
  · refine hw.congr (hrest r) ?_ fun ho hr => ⟨hm'.trans ho, hc'.trans hr⟩
    rw [hk]
    exact fun hk => hk
  · have hr : r ≠ s.curProc := fun hr => hw.inside ⟨hm'.trans hm, hc'.trans hr.symm⟩
    have hdc : d ≠ c := by
      rintro rfl
      have hp := (F.child _ d hc).2.2.2
      rw [if_pos hl] at hp
      exact hr (hd.child.symm.trans hp)
    refine ⟨(hpar d).trans hd.child, ?_, (hliv d).trans hd.ended, (hpid d).symm ▸ hd.request⟩
    simp [hdel, hdc, hd.undeleted]
  · have hd' := hd.undeleted
    rw [hdel, Bool.or_eq_false_iff] at hd'
    exact ⟨hpar d ▸ hd.child, hd'.1, hliv d ▸ hd.ended, hpid d ▸ hd.request⟩

theorem resume_kept (F : Family s kids) (hm : s.mode = .outside)
    (hst : (s.proc s.curProc).status = .running) (h : s.resume = some s') : Kept s s' := by
  have hl : s.living s.curProc = true := living_of_ne (by simp [hst])
  have W1 : Waits s (s.modify s.curProc (·.setInterrupted false)) :=
    modifyCur_waits hm (by simp [hst]) fun _ => ⟨rfl, rfl, rfl⟩
  obtain ⟨-, rfl⟩ | ⟨-, rfl⟩ | ⟨pid, c, -, -, hc, hfind, rfl⟩ := resume_cases h
  · exact .refl _
  · exact W1.kept
  · have W2 : Waits (s.modify s.curProc (·.setInterrupted false))
        ((s.modify s.curProc (·.setInterrupted false)).modify s.curProc (·.setWaitPid 0)) :=
      modifyCur_waits hm (by simp [hst]) fun _ => ⟨rfl, rfl, rfl⟩
    have hk1 : SameKin s (s.modify s.curProc (·.setInterrupted false)) := .modify fun _ => rfl
    have hk2 : SameKin (s.modify s.curProc (·.setInterrupted false))
        ((s.modify s.curProc (·.setInterrupted false)).modify s.curProc (·.setWaitPid 0)) :=
      .modify fun _ => rfl
    have F1 := F.congr hk1 rfl
    have F2 := F1.congr hk2 rfl
    have hmem := (F1.find hc hfind).1
    have hl2 := ((hk1.trans hk2).fields s.curProc).2.2.2.2.2.trans hl
    exact (W1.kept.trans W2.kept).trans (reap_waits F2 hm hl2 hmem).kept

theorem dispatch_kept {pold : Nat} (F : Family s kids)
    (hm : s.mode ≠ .outside) (hl : s.living s.curProc = true) (h : s.dispatch pold = some s') :
    Kept s s' := by
  have hk := entered_kin pold hl
  have W : Waits s (s.entered pold) := by
    refine .of_kin hk (fun q => ?_) (fun r pid hb => ?_) fun r pid hw => ?_
    · by_cases hq : q = s.curProc <;> simp [hq]
    · by_cases hr : r = s.curProc
      · have hst := hb.status
        simp [hr] at hst
      · refine hb.congr ?_
        simp [hr]
    · by_cases hr : r = s.curProc
      · exact absurd ⟨rfl, hr.symm⟩ hw.inside
      · refine hw.congr ?_ ?_ fun ho _ => absurd ho hm
        · simp [hr]
        · exact fun hk => hk
  exact W.kept.trans (resume_kept (F.congr hk rfl) rfl (by simp) h)

theorem select_kept {now pold : Nat} (H : Sane s) (T : TreeInv s) (hm : s.mode = .select now pold)
    (h : s.select cfg now pold = some s') : Kept s s' := by
  obtain ⟨a, p, hbegin, rfl, hsz, hp0, -, h⟩ := select_cases h
  obtain ⟨-, hz, -, -⟩ := live_of_queue H (H.first hbegin hsz).1 (by decide)
  obtain ⟨kids, F⟩ := T.family
  have hl : s.living (s.runQueue.node a).key = true := living_of_ne hz
  have hne : s.mode ≠ .outside := by simp [hm]
  have W0 : Waits s (s.choose (s.runQueue.node a).key now) :=
    .of_rest (.refl s) (fun _ => rfl) (fun _ => rfl) (fun _ => id) fun ho _ => absurd ho hne
  have F0 : Family (s.choose (s.runQueue.node a).key now) kids := F.congr (.refl s) rfl
  have hsig (sig : Nat) : SameKin (s.choose (s.runQueue.node a).key now)
      ((s.choose (s.runQueue.node a).key now).modify (s.runQueue.node a).key
        (·.setSignal sig false)) := .modify fun _ => rfl
  have hl1 (sig : Nat) := ((hsig sig).fields (s.runQueue.node a).key).2.2.2.2.2.trans hl
  obtain ⟨-, h⟩ | ⟨sig, -, ⟨-, h⟩ | ⟨-, h⟩⟩ := h
  · exact W0.kept.trans (dispatch_kept F0 hne hl h)
  · exact W0.kept.trans ((setSignal_waits ..).kept.trans
      (exit_kept (F0.congr (hsig sig) rfl) hp0 (hl1 sig) h))
  · exact W0.kept.trans ((setSignal_waits ..).kept.trans
      (dispatch_kept (F0.congr (hsig sig) rfl) hne (hl1 sig) h))

/-! ## clone -/

/-- A new process waits for nothing, and has not ended. -/
theorem Waits.of_new {n : Nat} (hl : s.living n = true) (hl' : s'.living n = true)
    (hcont : (s'.proc n).cont = .clone) (hrest : ∀ r, r ≠ n → (s'.proc r).rest = (s.proc r).rest ∧
      (s'.proc r).parent = (s.proc r).parent ∧ (s'.proc r).deleted = (s.proc r).deleted ∧
      (s'.proc r).pid = (s.proc r).pid)
    (hk : s'.history.killed = s.history.killed) (hm : s'.mode = s.mode)
    (hc : s'.curProc = s.curProc) : Waits s s' := by
  have hmatch (r : Nat) (pid : Int) (d : Nat) : Matches s' r pid d ↔ Matches s r pid d := by
    by_cases hd : d = n
    · subst hd
      refine ⟨fun h => ?_, fun h => ?_⟩
      · exact absurd (h.ended.symm.trans hl') (by decide)
      · exact absurd (h.ended.symm.trans hl) (by decide)
    obtain ⟨hr, hpar, hdel, hpid⟩ := hrest d hd
    have hst := congrArg Prod.fst hr
    simp only [rest] at hst
    have hliv : s'.living d = s.living d := by simp [Kernel.living, hst]
    refine ⟨fun h => ?_, fun h => ?_⟩
    · exact ⟨hpar ▸ h.child, hdel ▸ h.undeleted, hliv ▸ h.ended, hpid ▸ h.request⟩
    · exact ⟨hpar.trans h.child, hdel.trans h.undeleted, hliv.trans h.ended, hpid.symm ▸ h.request⟩
  refine ⟨fun r pid hb => ?_, fun r pid hw => .inl ?_, fun r pid d _ => (hmatch r pid d).mpr,
    fun r pid d _ => (hmatch r pid d).mp⟩
  · by_cases hr : r = n
    · have hc := hb.cont
      rw [hr, hcont] at hc
      cases hc
    · exact hb.congr (hrest r hr).1
  by_cases hr : r = n
  · have hc := hw.cont
    rw [hr, hcont] at hc
    cases hc
  · refine hw.congr (hrest r hr).1 ?_ fun ho hcr => ⟨hm.trans ho, hc.trans hcr⟩
    rw [hk]
    exact fun hk => hk

theorem linked_waits (F : Family s kids) (flags parent : Nat) :
    Waits s (((s.takeTid.setFpuOut s.nextTid none).modify s.nextTid fun _ =>
      s.cloned flags).linkChild
      s.nextTid parent) := by
  have T := linkChild_treeOnly ((s.takeTid.setFpuOut s.nextTid none).modify s.nextTid fun _ =>
    s.cloned flags) s.nextTid parent
  obtain ⟨-, hc, -, -, -, -, -, -, hm, hh⟩ := T.quiet.fields
  have hnew := congrFun T.living s.nextTid
  have hcont := congrArg cont (T.flat s.nextTid)
  simp only [Kernel.living, modify_proc, update_self, cloned_status] at hnew
  simp only [modify_proc, update_self, flat_cont, cloned_cont] at hcont
  have hkill := congrArg History.killed hh
  refine .of_new (F.fresh s.nextTid le_rfl).2.2.2 hnew hcont (fun r hr => ?_) hkill hm hc
  have hflat := T.flat r
  simp only [modify_proc, update_of_ne hr, setFpuOut_proc,
    takeTid_proc] at hflat
  have hrest := congrArg rest hflat
  have hpid := congrArg Proc.pid hflat
  refine ⟨hrest, ?_, ?_, hpid⟩
  · simp [linkChild_parent, hr]
  · simp [linkChild_deleted, hr]

theorem clone_kept {flags : Nat} {mem : Bool} (T : TreeInv s)
    (h : s.clone cfg flags mem = some s') :
    Kept s s' := by
  obtain ⟨kids, F⟩ := T.family
  obtain rfl | rfl | ⟨-, s1, r, h1, -, rfl⟩ := clone_cases h
  · exact .refl _
  · have W : Waits s (s.takeTid.setFpuOut s.nextTid none) := .of_proc rfl rfl rfl rfl
    exact W.kept
  · have W1 := linked_waits F flags (s.clonedParent flags)
    have TO := linkChild_treeOnly ((s.takeTid.setFpuOut s.nextTid none).modify s.nextTid fun _ =>
      s.cloned flags) s.nextTid (s.clonedParent flags)
    have hl := congrFun TO.living s.nextTid
    have hcont := congrArg cont (TO.flat s.nextTid)
    simp only [Kernel.living, modify_proc, update_self, cloned_status] at hl
    simp only [modify_proc, update_self, flat_cont, cloned_cont] at hcont
    have W2 := addProcRun_waits hl (.inr fun pid hb => by cases hcont.symm.trans hb.cont) h1
    have W3 : Waits s1 (s1.setProcList r.1) := .of_proc rfl rfl rfl rfl
    exact (W1.kept.trans W2.kept).trans W3.kept

/-! ## Runs -/

theorem useFpu_waits (s : Kernel) (v : Fpu) : Waits s (s.useFpu v) := by
  unfold useFpu
  split_ifs
  · refine .of_rest (fun q => ?_) (fun q => ?_) (fun q => ?_) (fun _ => id) fun ho _ => ⟨ho, rfl⟩
    all_goals by_cases hq : q = s.curProc <;> simp [hq, kin, rest]
  · exact .of_proc rfl rfl rfl rfl

theorem setnice_kept {inc : Int} (h : s.setnice cfg inc = some s') : Kept s s' := by
  obtain rfl | ⟨t, u, w, a, rfl⟩ := setnice_form h
  · exact .refl _
  refine (Waits.of_kin (.update rfl ?_) (fun q => ?_) (fun r pid hb => ?_) fun r pid hw => ?_).kept
  · rfl
  · by_cases hq : q = s.curProc <;> simp [hq]
  · by_cases hr : r = s.curProc
    · obtain ⟨h0, h1, h2⟩ := hb
      simp only [hr, modify_proc, putQueues_proc, update_self,
        leave_status, leave_cont] at h0 h1 h2
      subst hr
      refine ⟨⟨h0, h1, h2⟩, ?_, ?_⟩
      · simp
      · simp
    · refine hb.congr ?_
      simp [hr]
  · by_cases hr : r = s.curProc
    · subst hr
      obtain ⟨h0, h1, h2, h3, h4, h5, h6⟩ := hw
      simp only [Kernel.living, modify_proc, putQueues_proc, update_self,
        leave_status, leave_cont, leave_interrupted] at h1 h2 h4 h5
      exact ⟨h0, h1, h2, h3, h4, h5, h6⟩
    · refine hw.congr ?_ ?_ ?_
      · simp [hr]
      · exact fun hk => hk
      · exact fun ho hc => ⟨ho, hc⟩

/-- A child of `p` with the given pid. -/
def ChildWith (s : Kernel) (p : Nat) (pid : Int) (c : Nat) : Prop :=
  (s.proc c).parent = p ∧ (s.proc c).deleted = false ∧ (s.proc c).pid = pid

instance : Decidable (ChildWith s p pid c) := inferInstanceAs (Decidable (_ ∧ _))

/-- When a process calls `waitpid(pid)`, all its children with that `pid` have ended, or
none has. -/
def SleepOk (s : Kernel) : Event → Prop
  | .waitpid pid _ _ => 0 < pid → ∀ c < s.nextTid, ∀ d < s.nextTid,
      ChildWith s s.curProc pid c → ChildWith s s.curProc pid d → s.living c = s.living d
  | _ => True

instance (s : Kernel) (e : Event) : Decidable (SleepOk s e) :=
  match e with
  | .waitpid pid _ _ =>
    inferInstanceAs (Decidable (0 < pid → ∀ c < s.nextTid, ∀ d < s.nextTid, _ → _ → _))
  | .tick | .select | .fpu _ | .fault | .clone _ _ | .exit _ | .nanosleep _ | .wait _
  | .wake _ _ | .tkill _ _ | .setnice _ => .isTrue trivial

/-- The child that the first loops of `waitpid` find, or null, shows if one has ended. -/
theorem Family.none_ended {ptr : Bool} {options : Int} (F : Family s kids)
    (hcur : s.curProc ≠ 0) (hl : s.living s.curProc = true)
    (hfind : s.findChild (s.waitTest pid) = some c) (h0 : pid ≤ 0 ∨ c ≠ 0)
    (hz : c = 0 ∨ (s.proc c).status ≠ .zombie) (hok : SleepOk s (.waitpid pid ptr options))
    (d : Nat) :
    ¬ Matches s s.curProc pid d := by
  intro hd
  have hmem := F.parent d hd.undeleted (hd.child.symm ▸ hcur)
  rw [hd.child] at hmem
  have hzd : (s.proc d).status = .zombie := by
    have he := hd.ended
    simpa [Kernel.living] using he
  by_cases hpid : pid ≤ 0
  · -- every child that has ended would have been found
    have hspec : s.findSibling (s.waitTest pid) (s.nextTid + 1) (s.proc s.curProc).lastChild = _ :=
      findSibling_spec (F.lists.chain s.curProc) (F.length _)
    have hc0 : c = 0 := by
      by_contra hne
      have htest := List.find?_some (F.find hne hfind).2
      simp only [waitTest, if_pos hpid, beq_iff_eq] at htest
      exact (hz.resolve_left hne) htest
    have hnone : (kids s.curProc).find? (s.waitTest pid) = none := by
      rw [findChild, hspec, hc0, Option.some_inj] at hfind
      cases hf : (kids s.curProc).find? (s.waitTest pid) with
      | none => rfl
      | some e =>
        rw [hf] at hfind
        exact absurd hfind (F.pos (List.mem_of_find?_eq_some hf)).ne'
    have hno := List.find?_eq_none.mp hnone d hmem
    simp [waitTest, hpid, hzd] at hno
  · have hc0 := h0.resolve_left hpid
    obtain ⟨hc, hf⟩ := F.find hc0 hfind
    have htest := List.find?_some hf
    simp only [waitTest, if_neg hpid, beq_iff_eq] at htest
    obtain ⟨-, hlt, hdel, hpar⟩ := F.child _ c hc
    rw [if_pos hl] at hpar
    have hsame := hok (lt_of_not_ge hpid) c hlt d (F.child _ d hmem).2.1 ⟨hpar, hdel, htest⟩
      ⟨hd.child, hd.undeleted, hd.request.resolve_left hpid⟩
    rw [living_of_ne (hz.resolve_left hc0), hd.ended] at hsame
    cases hsame

theorem step_wait {e : Event} (hg : cfg.guard = true) (H : Sane s) (M : s.ModeOk) (T : TreeInv s)
    (I : WaitInv s) (h : s.step cfg e = some s') :
    WaitInv s' ∧ (SleepOk s e → Heard s → Heard s') := by
  suffices hk : Kept s s' ∨ WaitInv s' ∧ (SleepOk s e → Heard s → Heard s') by
    obtain hk | hk := hk
    · exact ⟨(hk I).1, fun _ => (hk I).2⟩
    · exact hk
  have hadd : ReadyKeeps cfg fun s' => WaitInv s' ∧ (Heard s → Heard s') := by
    intro s p s' q H hc hq h I
    have W : Waits s s' := by
      refine addProcRun_waits (living_of_ne (live_of_queue H hc hq.1).2.1) (.inr fun pid hb => ?_) h
      exact hq.1 (hc.symm.trans (I.1.blocked p pid hb).1)
    exact ⟨W.waitInv I.1, fun H0 => W.heard (I.2 H0)⟩
  obtain ⟨-, -, h⟩ | ⟨cv, tid, -, -, h⟩ | ⟨now, pold, rfl, hm, h⟩ | ⟨hm, hcur, h⟩ := step_cases h
  · have W0 : Waits s s.clts.addTick := .of_proc rfl rfl rfl rfl
    obtain ⟨s1, H1, I1, -, h⟩ := timerTick_sane hg hadd h H (W0.kept I)
    have W := schedule_waits H1 h
    exact .inr ⟨W.waitInv I1.1, fun _ H0 => W.heard (I1.2 H0)⟩
  · have I1 := (wake_sane hg hadd h H ⟨I, id⟩).2
    exact .inr ⟨I1.1, fun _ => I1.2⟩
  · exact .inl (select_kept H T hm h)
  · have hl := T.run hm hcur
    obtain ⟨kids, F⟩ := T.family
    cases e with
    | tick | select | wake => cases h
    | fpu v =>
      cases h
      exact .inl (useFpu_waits s v).kept
    | fault => exact .inl (fault_kept (M.outside hm) h)
    | clone flags mem => exact .inl (clone_kept T h)
    | exit status => exact .inl (exit_kept F hcur hl h)
    | waitpid pid ptr options =>
      obtain rfl | ⟨-, c, hfind, ⟨hc, hz, rfl⟩ | ⟨h0, hz, h⟩⟩ := waitpid_cases h
      · exact .inl (.refl _)
      · exact .inl (reap_waits F hm hl (F.find hc hfind).1).kept
      · have B := waitpidSleep_blocks hcur h
        refine .inr ⟨B.waitInv I hl ?_, fun hok hH => B.heard hH hl ?_⟩
        · rintro pid' ⟨rfl⟩
          exact ⟨rfl, rfl⟩
        · rintro pid' ⟨rfl⟩
          exact F.none_ended hcur hl hfind h0 hz hok
    | nanosleep n =>
      obtain rfl | B := nanosleep_blocks hcur h
      · exact .inl (.refl _)
      · exact .inl (B.kept hl fun _ hc => by cases hc)
    | wait cv => exact .inl ((wait_blocks hcur h).kept hl fun _ hc => by cases hc)
    | tkill tid sig =>
      obtain rfl | ⟨a, -, -, h⟩ := tkill_cases h
      · exact .inl (.refl _)
      · exact .inl (tkillProc_kept h)
    | setnice inc => exact .inl (setnice_kept h)

theorem Started.waitInv (h : Started w s) : WaitInv s ∧ Heard s := by
  have hcont := h.procs (P := fun q => q.cont = .user) rfl fun _ _ _ _ => rfl
  have hno (p : Nat) (pid : Int) : (s.proc p).cont ≠ .waitpid pid := by simp [hcont p]
  refine ⟨⟨fun p pid hb => ?_, fun p pid hw => ?_⟩, fun p pid c hb => ?_⟩
  · exact absurd hb.cont (hno p pid)
  · exact absurd hw.cont (hno p pid)
  · exact absurd hb.cont (hno p pid)

/-- The steps keep the tree, and no process goes to sleep for one of two children with the
same pid of which the other has ended. -/
def HeardOk (w : Nat → Nat) (s : Kernel) (e : Event) : Prop := TreeOk w s e ∧ SleepOk s e

instance (s : Kernel) (e : Event) : Decidable (HeardOk w s e) := inferInstanceAs (Decidable (_ ∧ _))

/-- In every run in which the children of a caller of `waitpid(pid)` that have that pid
have all ended or are all alive, no process sleeps inside `waitpid` though a child that it
asks for has ended. -/
theorem no_lost_wakeup (w : Nat → Nat) {s : Kernel}
    (h : Reach (Started w) (step (.code w)) (HeardOk w) s) {p c : Nat} {pid : Int}
    (hp : p ≠ 0) (hst : (s.proc p).status = .waiting) (hcont : (s.proc p).cont = .waitpid pid)
    (hpar : (s.proc c).parent = p) (hdel : (s.proc c).deleted = false)
    (hpid : pid ≤ 0 ∨ (s.proc c).pid = pid) : (s.proc c).status ≠ .zombie := by
  have I : Sane s ∧ s.ModeOk ∧ TreeInv s ∧ WaitInv s ∧ Heard s := by
    refine h.invariant (I := fun s => Sane s ∧ s.ModeOk ∧ TreeInv s ∧ WaitInv s ∧ Heard s)
      (fun s hs => ⟨hs.sane, hs.modeOk, hs.tree, hs.waitInv⟩) ?_
    rintro s e s' ⟨H, M, T, I, hH⟩ ⟨⟨hq, hr⟩, hok⟩ hstep
    have hstep' := step_below.agree hq.1 hstep
    obtain ⟨I', hH'⟩ := step_wait rfl H M T I hstep'
    exact ⟨(hq.keeps hstep H).1, step_modeOk M hstep, step_tree rfl H M T hr hstep', I',
      hH' hok hH⟩
  intro hz
  refine I.2.2.2.2 p pid c ⟨hp, hst, hcont⟩ ⟨hpar, hdel, ?_, hpid⟩
  simp [Kernel.living, hz]

/-- The child 3 of process 1 ends, and process 1 waits for its child 4. -/
def waitsForYounger : List Event :=
  [.tick, .select, .clone 0 true, .clone 0 true, .tick, .tick, .select, .tick, .tick, .select,
    .exit 5, .select, .tick, .tick, .select, .waitpid 4 true 0, .select]

theorem no_lost_wakeup_sample :
    ∃ s, Reach (Started uint64) (step (.code uint64)) (HeardOk uint64) s ∧
      (s.proc 1).status = .waiting ∧ (s.proc 1).cont = .waitpid 4 ∧ (s.proc 3).status = .zombie ∧
      (s.proc 4).parent = 1 ∧ (s.proc 4).deleted = false ∧ (s.proc 4).pid = 4 ∧
      (s.proc 4).status ≠ .zombie := by
  have hrun : (runOf uint64 (HeardOk uint64) waitsForYounger).map (fun s => ((s.proc 1).status,
      (s.proc 1).cont, (s.proc 3).status, (s.proc 4).parent, (s.proc 4).deleted, (s.proc 4).pid)) =
      some (.waiting, .waitpid 4, .zombie, 1, false, 4) := by decide +kernel
  obtain ⟨s, hs, he⟩ := run_of_map hrun
  simp only [Prod.mk.injEq] at he
  obtain ⟨h1, h2, h3, h4, h5, h6⟩ := he
  exact ⟨s, runOf_reach hs, h1, h2, h3, h4, h5, h6,
    no_lost_wakeup uint64 (runOf_reach hs) (by decide) h1 h2 h4 h5 (.inr (by rw [h6]; rfl))⟩

/-- The older of the two threads of process 1 ends before process 1 waits for its own pid. -/
def waitsForThread : List Event :=
  [.tick, .select, .clone cloneThread true, .clone cloneThread true, .tick, .tick, .select, .tick,
    .tick, .select, .exit 5, .select, .tick, .tick, .select, .waitpid 1 true 0, .select]

/-- `waitpid` looks at the first child with the pid only: it sleeps though the thread 3
has ended. -/
theorem ended_thread_unheard : ∃ s, Reach (Started uint64) (step (.code uint64)) always s ∧
      (s.proc 1).status = .waiting ∧ (s.proc 1).cont = .waitpid 1 ∧ (s.proc 3).parent = 1 ∧
      (s.proc 3).deleted = false ∧ (s.proc 3).pid = 1 ∧ (s.proc 3).status = .zombie := by
  have hrun : (runOf uint64 always waitsForThread).map (fun s => ((s.proc 1).status,
      (s.proc 1).cont, (s.proc 3).parent, (s.proc 3).deleted, (s.proc 3).pid, (s.proc 3).status)) =
      some (.waiting, .waitpid 1, 1, false, 1, .zombie) := by decide +kernel
  obtain ⟨s, hs, he⟩ := run_of_map hrun
  simp only [Prod.mk.injEq] at he
  exact ⟨s, runOf_reach hs, he⟩

end Sysint.Process
