import Sysint.Process.Checked

/-! Processes killed by a page fault. `_kill_current` leaves `SIGSEGV` pending and
gives the processor away; `schedule` takes one signal of the process it selects, the
lowest, and ends the process or ignores the signal. -/
namespace Sysint.Process
open Kernel Option
open Function
open Machine
open Proc

variable {w : Nat → Nat} {cfg : Config} {s s' : Kernel} {p x : Nat} {q q' : Proc} {status : Int}

/-- No signal that `schedule` ignores comes before `SIGSEGV`. -/
def NoneBefore (q : Proc) : Prop :=
  ∀ sig < sigsegv, fatal sig = false → q.signals.get sig = false

instance (q : Proc) : Decidable (NoneBefore q) := inferInstanceAs (Decidable (∀ sig < sigsegv, _))

/-- The process has ended, or will end when it is selected. -/
def Doomed (q : Proc) : Prop :=
  q.status = .zombie ∨ q.signals.get sigsegv = true ∧ NoneBefore q

/-- All processes killed so far are doomed, except perhaps `x`. -/
structure Doom (s : Kernel) (x : Nat) : Prop where
  size : ∀ p, (s.proc p).signals.n = 32
  tid : ∀ p, s.history.killed p = true → 0 < p ∧ p < s.nextTid
  doomed : ∀ p, s.history.killed p = true → p ≠ x → Doomed (s.proc p)

theorem Doom.null (D : Doom s x) : s.history.killed 0 = false := by
  by_contra h
  exact absurd (D.tid 0 (Bool.not_eq_false _ ▸ h)).1 (lt_irrefl 0)

theorem Doom.except (D : Doom s 0) (x : Nat) : Doom s x :=
  ⟨D.size, D.tid, fun p hp _ => D.doomed p hp (D.tid p hp).1.ne'⟩

theorem Doomed.congr (h : Doomed q) (hs : q'.signals = q.signals) (hz : q'.status = q.status) :
    Doomed q' := by
  rwa [Doomed, NoneBefore, hs, hz]

theorem Doom.congr (D : Doom s x) (hk : s'.history.killed = s.history.killed)
    (ht : s'.nextTid = s.nextTid)
    (hp : ∀ p, (s'.proc p).signals = (s.proc p).signals ∧ (s'.proc p).status = (s.proc p).status) :
    Doom s' x := by
  refine ⟨fun p => ?_, fun p h => ?_, fun p h hx => ?_⟩
  · rw [(hp p).1]
    exact D.size p
  · rw [hk] at h
    rw [ht]
    exact D.tid p h
  · rw [hk] at h
    exact (D.doomed p h hx).congr (hp p).1 (hp p).2

theorem Doom.tree (D : Doom s x) (h : s.TreeOnly s') : Doom s' x := by
  have ht := h.quiet.fields.nextTid
  have hh := h.quiet.fields.history
  refine D.congr (by rw [hh]) ht fun p => ?_
  have hs := congrArg signals (h.flat p)
  have hz := congrArg Proc.status (h.flat p)
  exact ⟨hs, hz⟩

/-- A change of one process. -/
theorem Doom.update (D : Doom s x) (hproc : s'.proc = update s.proc p q')
    (hk : s'.history.killed = s.history.killed) (ht : s.nextTid ≤ s'.nextTid)
    (hn : q'.signals.n = 32)
    (hd : s.history.killed p = true → p ≠ x → Doomed (s.proc p) → Doomed q') : Doom s' x := by
  refine ⟨fun r => ?_, fun r h => ?_, fun r h hx => ?_⟩
  · rw [hproc]
    by_cases hr : r = p
    · rw [hr, update_self, hn]
    · rw [update_of_ne hr, D.size]
  · rw [hk] at h
    obtain ⟨hpos, hlt⟩ := D.tid r h
    exact ⟨hpos, hlt.trans_le ht⟩
  · rw [hk] at h
    rw [hproc]
    have hD := D.doomed r h hx
    by_cases hr : r = p
    · subst hr
      rw [update_self]
      exact hd h hx hD
    · rwa [update_of_ne hr]

/-! ## Signals -/

theorem addProcRun_doom {i : Bool} (D : Doom s x) (hz : (s.proc p).status ≠ .zombie)
    (h : s.addProcRun cfg p i = some s') : Doom s' x := by
  obtain ⟨-, -, rfl⟩ | ⟨t, u, w, a, rfl⟩ := addProcRun_form h
  · exact D
  · exact D.update rfl rfl le_rfl (D.size p) fun _ _ hd => .inr (hd.resolve_left hz)

/-- The signal does not come between a killed process and its end. -/
def Harmless (s : Kernel) (p sig : Nat) : Prop :=
  s.history.killed p = true → sig ≠ 0 → sig < sigsegv → fatal sig = true

instance (s : Kernel) (p sig : Nat) : Decidable (Harmless s p sig) :=
  inferInstanceAs (Decidable (_ → _))

theorem NoneBefore.setSignal {sig : Nat} (h : NoneBefore q)
    (hs : sig < sigsegv → fatal sig = true) :
    NoneBefore (q.setSignal sig true) := by
  intro sig' hlt hf
  rw [setSignal_signals, Bitmap.get_set]
  split_ifs with heq
  · subst heq
    rw [hs hlt] at hf
    cases hf
  · exact h sig' hlt hf

theorem tkillProc_doom {sig : Nat} (D : Doom s x) (hs : Harmless s p sig)
    (h : s.tkillProc cfg p sig = some s') : Doom s' x := by
  obtain ⟨-, rfl⟩ | ⟨h0, hz, h⟩ := tkillProc_cases h
  · exact D
  have D1 : Doom (s.modify p (·.setSignal sig true)) x := by
    refine D.update rfl rfl le_rfl ?_ fun hk _ hd => ?_
    · simpa using D.size p
    · obtain ⟨hseg, hnone⟩ := hd.resolve_left hz
      refine .inr ⟨?_, hnone.setSignal (hs hk h0)⟩
      rw [setSignal_signals, Bitmap.get_set, hseg, ite_self]
  exact addProcRun_doom D1 (by simpa using hz) h

theorem notifyParent_doom (D : Doom s x)
    (hs : Harmless s (s.proc p).parent (exitSignal (s.proc p).cloneFlags))
    (h : s.notifyParent cfg p = some s') : Doom s' x := by
  obtain ⟨-, rfl⟩ | ⟨-, hst, -, h⟩ | ⟨-, -, h⟩ := notifyParent_cases h
  · exact D
  · exact addProcRun_doom D (by rw [hst]; decide) h
  · exact tkillProc_doom D hs h

theorem Doom.ends (D : Doom s s.curProc) (E : s.Ends s' status) : Doom s' 0 := by
  have hown := sameOwn E.own
  have ht := hown.nextTid
  have hh := hown.history
  rw [setCur_history] at hh
  rw [setCur_nextTid] at ht
  refine ⟨fun r => ?_, fun r h => ?_, fun r h _ => ?_⟩
  · rw [E.signals]
    exact D.size r
  · rw [hh] at h
    rw [ht]
    exact D.tid r h
  · rw [hh] at h
    by_cases hr : r = s.curProc
    · subst hr
      have hz := congrArg Proc.status E.cur
      exact .inl hz
    · have hz := congrArg Proc.status (E.rest r hr)
      exact (D.doomed r h hr).congr (E.signals r) hz

theorem exit_doom (D : Doom s s.curProc)
    (hs : Harmless s (s.proc s.curProc).parent (exitSignal (s.proc s.curProc).cloneFlags))
    (h : s.exit cfg status = some s') : Doom s' 0 := by
  obtain ⟨s1, s2, E, hn, rfl⟩ := exit_ends h
  have D1 := D.ends E
  have hh := (sameOwn E.own).history
  have hflags : (s1.proc s.curProc).cloneFlags = (s.proc s.curProc).cloneFlags := by
    have hf := congrArg cloneFlags E.cur
    exact hf
  have D2 : Doom s2 0 := by
    refine notifyParent_doom D1 ?_ hn
    rw [Harmless, hh, hflags]
    obtain hp | hp := E.parent s.curProc
    · rw [hp]
      exact hs
    · intro hk
      rw [hp, setCur_history, D.null] at hk
      cases hk
  exact D2.congr rfl rfl fun _ => ⟨rfl, rfl⟩

theorem notifyParent_zombie (hz : (s.proc p).status = .zombie)
    (h : s.notifyParent cfg p = some s') :
    (s'.proc p).status = .zombie := by
  obtain ⟨-, rfl⟩ | ⟨-, hst, -, h⟩ | ⟨-, -, h⟩ := notifyParent_cases h
  · exact hz
  · have hne : p ≠ (s.proc p).parent := by
      intro heq
      rw [← heq, hz] at hst
      cases hst
    rwa [addProcRun_other h hne]
  · obtain ⟨-, rfl⟩ | ⟨-, hst, h⟩ := tkillProc_cases h
    · exact hz
    have hne : p ≠ (s.proc p).parent := by
      intro heq
      rw [← heq] at hst
      exact hst hz
    rw [addProcRun_other h hne]
    simpa [hne] using hz

theorem exit_zombie (h : s.exit cfg status = some s') :
    s'.curProc = 0 ∧ (s'.proc s.curProc).status = .zombie := by
  obtain ⟨s1, s2, E, hn, rfl⟩ := exit_ends h
  have hz := congrArg Proc.status E.cur
  have hz2 : (s2.proc s.curProc).status = .zombie := notifyParent_zombie hz hn
  refine ⟨?_, hz2⟩
  have hcur := congrArg (fun o => o.2.1) E.own
  exact (notifyParent_quiet hn).fields.curProc.trans hcur

/-! ## The steps -/

/-- Killed processes are doomed, and none of them runs. -/
structure KillInv (s : Kernel) : Prop where
  doom : Doom s 0
  cur : s.history.killed s.curProc = false

theorem KillInv.quiet (I : KillInv s) (h : s.Quiet s') (D : Doom s' 0) : KillInv s' := by
  have hcur := h.fields.curProc
  have hh := h.fields.history
  refine ⟨D, ?_⟩
  rw [hh, hcur]
  exact I.cur

theorem Doom.killInv (D : Doom s 0) (h : s.curProc = 0) : KillInv s := by
  refine ⟨D, ?_⟩
  rw [h]
  exact D.null

/-- A change of the process that runs. -/
theorem KillInv.updateCur (I : KillInv s) (hproc : s'.proc = update s.proc s.curProc q')
    (hk : s'.history.killed = s.history.killed) (ht : s'.nextTid = s.nextTid)
    (hc : s'.curProc = s.curProc) (hn : q'.signals.n = (s.proc s.curProc).signals.n) :
    KillInv s' := by
  refine ⟨I.doom.update hproc hk ht.ge ?_ fun h => ?_, ?_⟩
  · rw [hn]
    exact I.doom.size _
  · rw [I.cur] at h
    cases h
  · rw [hk, hc]
    exact I.cur

theorem schedule_killInv {regs : Bool} (I : KillInv s) (h : s.schedule cfg regs = some s') :
    KillInv s' := by
  obtain ⟨-, rfl⟩ | ⟨-, -, rfl⟩ | ⟨-, -, -, rfl⟩ | ⟨-, -, s1, hs1, rfl⟩ := schedule_cases h
  · exact I
  · exact ⟨I.doom.congr rfl rfl fun _ => ⟨rfl, rfl⟩, I.cur⟩
  · exact ⟨I.doom.congr rfl rfl fun _ => ⟨rfl, rfl⟩, I.cur⟩
  · obtain ⟨t, u, w, a, rfl⟩ := switchOut_form hs1
    exact I.updateCur rfl rfl rfl rfl rfl

theorem Kernel.Blocks.killInv {cont : Cont} {queue : QueueId} {pid : Int} (I : KillInv s)
    (h : Blocks cfg s s' cont queue pid) : KillInv s' := by
  have hown := sameOwn h.own
  have ht := hown.nextTid
  have hc := hown.curProc
  have hh := hown.history
  obtain ⟨a, hproc⟩ := h.proc
  exact I.updateCur hproc (by simp [hh]) ht hc rfl

/-- A killed process that is selected ends. -/
theorem Doom.fatal_of_killed (D : Doom s 0) (hk : s.history.killed p = true)
    (hz : (s.proc p).status ≠ .zombie) :
    ∃ sig, (s.proc p).signals.firstOne = some sig ∧ fatal sig = true := by
  obtain ⟨hseg, hnone⟩ := (D.doomed p hk (D.tid p hk).1.ne').resolve_left hz
  obtain ⟨sig, hsig, hle, hget⟩ := Bitmap.firstOne_le (by rw [D.size]; decide)
    (by rw [D.size]; decide) hseg
  refine ⟨sig, hsig, ?_⟩
  by_contra hf
  have hlt : sig < sigsegv := by
    refine lt_of_le_of_ne hle fun heq => hf ?_
    rw [heq]
    rfl
  rw [hnone sig hlt (Bool.not_eq_true _ ▸ hf)] at hget
  cases hget

theorem Doom.spared (D : Doom s 0) (hz : (s.proc p).status ≠ .zombie)
    (h : ∀ sig ∈ (s.proc p).signals.firstOne, fatal sig = false) : s.history.killed p = false := by
  by_contra hk
  obtain ⟨sig, hsig, hf⟩ := D.fatal_of_killed (Bool.not_eq_false _ ▸ hk) hz
  rw [h sig hsig] at hf
  cases hf

theorem resume_doom (D : Doom s x) (h : s.resume = some s') : Doom s' x := by
  have hi : Doom (s.modify s.curProc (·.setInterrupted false)) x :=
    D.update rfl rfl le_rfl (D.size _) fun _ _ hd => hd.congr rfl rfl
  obtain ⟨-, rfl⟩ | ⟨-, rfl⟩ | ⟨pid, c, -, -, -, -, rfl⟩ := resume_cases h
  · exact D
  · exact hi
  · have hw : Doom ((s.modify s.curProc (·.setInterrupted false)).modify s.curProc
        (·.setWaitPid 0)) x :=
      hi.update rfl rfl le_rfl (hi.size _) fun _ _ hd => hd.congr rfl rfl
    exact (hw.tree (delete_treeOnly _ c)).congr rfl rfl fun _ => ⟨rfl, rfl⟩

theorem dispatch_killInv {pold : Nat} (I : KillInv s) (h : s.dispatch pold = some s') :
    KillInv s' := by
  have I1 : KillInv (((s.modify s.curProc (·.setStatus .running)).load s.curProc pold).setFpuOut
      s.curProc none) := I.updateCur rfl rfl rfl rfl rfl
  obtain ⟨-, -, hcur, -, -, -, -, hk⟩ := resume_fields h
  refine ⟨resume_doom I1.doom h, ?_⟩
  rw [hk, hcur]
  exact I1.cur

/-! ## Runs -/

/-- The signal that the step sends, and to which process. -/
def Kernel.sends (s : Kernel) (e : Event) : Option (Nat × Nat) :=
  match e with
  | .tkill tid sig => some (tid.toNat, sig.toNat)
  | e => (s.ending e).map fun p => ((s.proc p).parent, exitSignal (s.proc p).cloneFlags)

def Event.isFault : Event → Bool
  | .fault => true
  | _ => false

/-- A process that faults has no signal pending that `schedule` ignores and takes
before `SIGSEGV`, and gets none later. -/
def KillOk (w : Nat → Nat) (s : Kernel) (e : Event) : Prop :=
  QueueOk w s e ∧ (e.isFault = true → NoneBefore (s.proc s.curProc)) ∧
    ∀ r ∈ s.sends e, Harmless s r.1 r.2

instance (s : Kernel) (e : Event) : Decidable (KillOk w s e) :=
  inferInstanceAs (Decidable (_ ∧ (_ → _) ∧ _))

theorem select_killInv {now pold : Nat} (H : Sane s) (I : KillInv s)
    (hs : ∀ r ∈ s.sends .select, Harmless s r.1 r.2) (h : s.select cfg now pold = some s') :
    KillInv s' := by
  obtain ⟨a, p, hbegin, rfl, hsz, -, -, h⟩ := select_cases h
  have hz := (live_of_queue H (H.first hbegin hsz).1 (by decide)).2.1
  have D : Doom (s.choose (s.runQueue.node a).key now) 0 :=
    I.doom.congr rfl rfl fun _ => ⟨rfl, rfl⟩
  have hspared (hsig : ∀ sig ∈ (s.proc (s.runQueue.node a).key).signals.firstOne,
    fatal sig = false) :
      KillInv (s.choose (s.runQueue.node a).key now) := ⟨D, I.doom.spared hz hsig⟩
  obtain ⟨hnone, h⟩ | ⟨sig, hsig, ⟨hf, h⟩ | ⟨hf, h⟩⟩ := h
  · refine dispatch_killInv (hspared fun sig hsig => ?_) h
    rw [hnone] at hsig
    cases hsig
  · -- the process selected loses the signal that ends it
    have D1 : Doom ((s.choose (s.runQueue.node a).key now).modify (s.runQueue.node a).key
        (·.setSignal sig false)) (s.runQueue.node a).key := by
      refine (D.except _).update rfl rfl le_rfl ?_ fun _ hx => absurd rfl hx
      simpa using D.size _
    have hsend : s.sends .select = some ((s.proc (s.runQueue.node a).key).parent,
        exitSignal (s.proc (s.runQueue.node a).key).cloneFlags) := by
      simp [sends, ending, hbegin, hsig, hf]
    have hharm := hs _ hsend
    exact (exit_doom D1 (by simpa [Harmless] using hharm) h).killInv (exit_zombie h).1
  · have I1 := hspared fun sig' hsig' => by
      rw [hsig] at hsig'
      cases hsig'
      exact hf
    have I2 : KillInv ((s.choose (s.runQueue.node a).key now).modify (s.runQueue.node a).key
        (·.setSignal sig false)) := I1.updateCur rfl rfl rfl rfl rfl
    exact dispatch_killInv I2 h

/-- A killed process is not dispatched; if it is selected, it ends. -/
theorem select_killed {now pold : Nat} (H : Sane s) (I : KillInv s) (hp : s.history.killed p = true)
    (h : s.select cfg now pold = some s') : s'.curProc ≠ p ∧
      ∀ a, s.runQueue.begin = some a → (s.runQueue.node a).key = p →
        (s'.proc p).status = .zombie := by
  have hpos := (I.doom.tid p hp).1
  obtain ⟨a, p', hbegin, rfl, hsz, -, -, h⟩ := select_cases h
  have hz := (live_of_queue H (H.first hbegin hsz).1 (by decide)).2.1
  have hspared (hsig : ∀ sig ∈ (s.proc (s.runQueue.node a).key).signals.firstOne,
    fatal sig = false) :
      (s.runQueue.node a).key ≠ p := by
    intro heq
    have hk := I.doom.spared hz hsig
    rw [heq, hp] at hk
    cases hk
  have hother (hne : (s.runQueue.node a).key ≠ p) :
      ∀ b, s.runQueue.begin = some b → (s.runQueue.node b).key = p →
        (s'.proc p).status = .zombie := by
    intro b hb hkey
    obtain rfl := some_inj.mp (hbegin.symm.trans hb)
    exact absurd hkey hne
  obtain ⟨hnone, h⟩ | ⟨sig, hsig, ⟨hf, h⟩ | ⟨hf, h⟩⟩ := h
  · have hne := hspared fun sig hsig => by
      rw [hnone] at hsig
      cases hsig
    obtain ⟨-, -, hcur, -⟩ := resume_fields h
    exact ⟨hcur ▸ hne, hother hne⟩
  · obtain ⟨hcur, hend⟩ := exit_zombie h
    refine ⟨hcur ▸ hpos.ne, fun b hb hkey => ?_⟩
    obtain rfl := some_inj.mp (hbegin.symm.trans hb)
    exact hkey ▸ hend
  · have hne := hspared fun sig' hsig' => by
      rw [hsig] at hsig'
      cases hsig'
      exact hf
    obtain ⟨-, -, hcur, -⟩ := resume_fields h
    exact ⟨hcur ▸ hne, hother hne⟩

theorem tkill_killInv {tid sig : Int} (H : Sane s) (I : KillInv s)
    (hs : ∀ r ∈ s.sends (.tkill tid sig), Harmless s r.1 r.2) (h : s.tkill cfg tid sig = some s') :
    KillInv s' := by
  obtain rfl | ⟨q, rfl, -, -, hk⟩ := H.tkill h
  · exact I
  · exact I.quiet (tkillProc_quiet hk) (tkillProc_doom I.doom (hs _ rfl) hk)

theorem clone_killInv {flags : Nat} {mem : Bool} (I : KillInv s)
    (h : s.clone cfg flags mem = some s') : KillInv s' := by
  have hle : s.nextTid ≤ s.nextTid + 1 := Nat.le_succ _
  obtain rfl | rfl | ⟨-, s1, r, h1, -, rfl⟩ := clone_cases h
  · exact I
  · refine ⟨⟨I.doom.size, fun p hp => ?_, I.doom.doomed⟩, I.cur⟩
    obtain ⟨hpos, hlt⟩ := I.doom.tid p hp
    exact ⟨hpos, hlt.trans_le hle⟩
  · have D : Doom ((s.takeTid.setFpuOut s.nextTid none).modify s.nextTid fun _ => s.cloned flags)
      0 := by
      refine I.doom.update rfl rfl hle rfl fun hk => ?_
      exact absurd (I.doom.tid _ hk).2 (lt_irrefl _)
    have T := linkChild_treeOnly ((s.takeTid.setFpuOut s.nextTid none).modify s.nextTid fun _ =>
      s.cloned flags) s.nextTid (s.clonedParent flags)
    have hst := congrArg Proc.status (T.flat s.nextTid)
    simp only [modify_proc, update_self, flat_status, cloned_status,
      new] at hst
    have D1 := addProcRun_doom (D.tree T) (by rw [hst]; decide) h1
    have I1 : KillInv ((s.takeTid.setFpuOut s.nextTid none).modify s.nextTid fun _ =>
      s.cloned flags) :=
      ⟨D, I.cur⟩
    have I2 := I1.quiet (T.quiet.trans (addProcRun_quiet h1)) D1
    exact ⟨I2.doom.congr rfl rfl fun _ => ⟨rfl, rfl⟩, I2.cur⟩

/-- The process that faults is doomed. -/
theorem fault_killInv (H : Sane s) (M : s.ModeOk) (I : KillInv s) (hm : s.mode = .outside)
    (hcur : s.curProc ≠ 0) (hn : NoneBefore (s.proc s.curProc)) (h : s.fault cfg = some s') :
    KillInv s' := by
  obtain ⟨s1, h1, rfl⟩ := fault_outside (M.outside hm) h
  have ht := (tkillProc_quiet h1).fields.nextTid
  have D1 : Doom s1 0 := tkillProc_doom I.doom (fun _ _ hlt => absurd hlt (lt_irrefl _)) h1
  have hd : Doomed (s1.proc s.curProc) := by
    obtain ⟨h0 | hz, rfl⟩ | ⟨-, -, hadd⟩ := tkillProc_cases h1
    · cases h0
    · exact .inl hz
    · have hsig : (s1.proc s.curProc).signals = (s.proc s.curProc).signals.set sigsegv true := by
        obtain ⟨-, -, rfl⟩ | ⟨t, u, w, a, rfl⟩ := addProcRun_form hadd <;> simp
      refine .inr ⟨?_, fun sig hlt hf => ?_⟩
      · rw [hsig, Bitmap.get_set, if_pos rfl]
      · rw [hsig, Bitmap.get_set, if_neg hlt.ne]
        exact hn sig hlt hf
  refine Doom.killInv ⟨D1.size, fun p hp => ?_, fun p hp hx => ?_⟩ rfl
  all_goals change update s1.history.killed s.curProc true p = true at hp
  · by_cases hpc : p = s.curProc
    · subst hpc
      exact ⟨Nat.pos_of_ne_zero hcur, ht ▸ H.cur⟩
    · rw [update_of_ne hpc] at hp
      exact D1.tid p hp
  · by_cases hpc : p = s.curProc
    · exact hpc ▸ hd
    · rw [update_of_ne hpc] at hp
      exact D1.doomed p hp hx

theorem step_killInv {e : Event} (hg : cfg.guard = true) (H : Sane s) (M : s.ModeOk) (I : KillInv s)
    (hfault : e.isFault = true → NoneBefore (s.proc s.curProc))
    (hs : ∀ r ∈ s.sends e, Harmless s r.1 r.2) (h : s.step cfg e = some s') : KillInv s' := by
  have hadd : ReadyKeeps cfg KillInv := fun s p s' q H hc hq h I =>
    I.quiet (addProcRun_quiet h) (addProcRun_doom I.doom (live_of_queue H hc hq.1).2.1 h)
  obtain ⟨-, -, h⟩ | ⟨cv, tid, -, -, h⟩ | ⟨now, pold, rfl, -, h⟩ | ⟨hm, hcur, h⟩ := step_cases h
  · have I0 : KillInv s.clts.addTick := ⟨I.doom.congr rfl rfl fun _ => ⟨rfl, rfl⟩, I.cur⟩
    obtain ⟨s1, -, I1, -, h⟩ := timerTick_sane hg hadd h H I0
    exact schedule_killInv I1 h
  · exact (wake_sane hg hadd h H I).2
  · exact select_killInv H I hs h
  · cases e with
    | tick | select | wake => cases h
    | fpu v =>
      cases h
      unfold useFpu
      split_ifs
      · exact I.updateCur rfl rfl rfl rfl rfl
      · exact ⟨I.doom.congr rfl rfl fun _ => ⟨rfl, rfl⟩, I.cur⟩
    | fault => exact fault_killInv H M I hm hcur (hfault rfl) h
    | clone flags mem => exact clone_killInv I h
    | exit status =>
      exact (exit_doom (I.doom.except _) (hs _ rfl) h).killInv (exit_zombie h).1
    | waitpid pid ptr options =>
      obtain rfl | ⟨-, c, -, ⟨-, -, rfl⟩ | ⟨-, -, h⟩⟩ := waitpid_cases h
      · exact I
      · have T := delete_treeOnly s c
        have I1 := I.quiet T.quiet (I.doom.tree T)
        exact ⟨I1.doom.congr rfl rfl fun _ => ⟨rfl, rfl⟩, I1.cur⟩
      · exact (waitpidSleep_blocks hcur h).killInv I
    | nanosleep n =>
      obtain rfl | h := nanosleep_blocks hcur h
      · exact I
      · exact h.killInv I
    | wait cv => exact (wait_blocks hcur h).killInv I
    | tkill tid sig => exact tkill_killInv H I hs h
    | setnice inc =>
      obtain rfl | ⟨t, u, w, a, rfl⟩ := setnice_form h
      · exact I
      · exact I.updateCur rfl rfl rfl rfl rfl

theorem Started.killInv (h : Started w s) : KillInv s := by
  have hsize := h.procs (P := fun q => q.signals.n = 32) rfl fun _ _ _ _ => rfl
  obtain ⟨tick, ticklen, fpu, uid, uid', t, a, a', rfl⟩ := h.form
  refine Doom.killInv ⟨hsize, fun p hp => ?_, fun p hp => ?_⟩ rfl <;> cases hp

theorem reach_killInv (h : Reach (Started w) (step (.code w)) (KillOk w) s) :
    Sane s ∧ s.ModeOk ∧ KillInv s := by
  refine h.invariant (I := fun s => Sane s ∧ s.ModeOk ∧ KillInv s)
    (fun s hs => ⟨hs.sane, hs.modeOk, hs.killInv⟩) ?_
  rintro s e s' ⟨H, M, I⟩ ⟨hok, hfault, hs⟩ hstep
  have hstep' := step_below.agree hok.1 hstep
  exact ⟨(hok.keeps hstep H).1, step_modeOk M hstep, step_killInv rfl H M I hfault hs hstep'⟩

/-- In every run in which a process that faults has no ignored signal before `SIGSEGV`
pending, at its fault or later, a process killed by a fault does not run again, and it
ends when it is selected. -/
theorem killed_ends (w : Nat → Nat) {s : Kernel}
    (h : Reach (Started w) (step (.code w)) (KillOk w) s) {p : Nat}
    (hp : s.history.killed p = true) :
    s.curProc ≠ p ∧ ∀ s', s.step (.code w) .select = some s' → s'.curProc ≠ p ∧
      ∀ a, s.runQueue.begin = some a → (s.runQueue.node a).key = p →
        (s'.proc p).status = .zombie := by
  obtain ⟨H, -, I⟩ := reach_killInv h
  refine ⟨fun hc => ?_, fun s' hstep => ?_⟩
  · rw [← hc, I.cur] at hp
    cases hp
  · obtain ⟨he, -⟩ | ⟨cv, tid, he, -⟩ | ⟨now, pold, -, hm, hsel⟩ | ⟨-, -, hu⟩ := step_cases hstep
    · cases he
    · cases he
    · exact select_killed H I hp hsel
    · cases hu

/-- Processes 1 and 2 have run, and now the child 3 of 1 runs. -/
def childRuns : List Event :=
  [.tick, .select, .clone 0 true, .tick, .tick, .select, .tick, .tick, .select]

theorem killed_ends_sample :
    ∃ s s', Reach (Started uint64) (step (.code uint64)) (KillOk uint64) s ∧
      s.history.killed 3 = true ∧ s.step (.code uint64) .select = some s' ∧
      s'.curProc ≠ 3 ∧ (s'.proc 3).status = .zombie := by
  have hrun : ((runOf uint64 (KillOk uint64) (childRuns ++ [.fault])).bind fun s =>
      (s.step (.code uint64) .select).map fun s' => (s, s')).map
        (fun x => (x.1.history.killed 3, x.1.runQueue.begin.map fun a =>
        (x.1.runQueue.node a).key)) =
      some (true, some 3) := by decide +kernel
  obtain ⟨⟨s, s'⟩, hs, he⟩ := run_of_map hrun
  obtain ⟨hk, hfirst⟩ := Prod.mk.inj he
  obtain ⟨s0, h0, hs⟩ := bind_eq_some_iff.mp hs
  obtain ⟨s1, h1, hs⟩ := map_eq_some_iff.mp hs
  cases hs
  obtain ⟨a, ha, hkey⟩ := map_eq_some_iff.mp hfirst
  obtain ⟨hcur, hz⟩ := (killed_ends uint64 (runOf_reach h0) hk).2 s' h1
  exact ⟨s, s', runOf_reach h0, hk, h1, hcur, hz a ha hkey⟩

/-- The child sends itself the signal 1 and faults: `schedule` takes the signal 1,
ignores it, and dispatches the child. -/
theorem killed_runs_again : ∃ s, Reach (Started uint64) (step (.code uint64)) always s ∧
      s.history.killed 3 = true ∧ s.mode = .outside ∧ s.curProc = 3 := by
  have hrun : (runOf uint64 always (childRuns ++ [.tkill 3 1, .fault, .select])).map
      (fun s => (s.history.killed 3, s.mode, s.curProc)) = some (true, .outside, 3) := by
    decide +kernel
  obtain ⟨s, hs, he⟩ := run_of_map hrun
  simp only [Prod.mk.injEq] at he
  exact ⟨s, runOf_reach hs, he⟩

end Sysint.Process
