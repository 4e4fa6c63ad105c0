import Sysint.Process.Elf
import Sysint.Process.Listed
import Sysint.Process.Wake

/-! The pending signals. `tkill`, a page fault and the end of a child raise a bit in the set of
a process; a dispatch takes the lowest one. -/
namespace Sysint.Process
open Option
open Elf (einval)
open Kernel (TreeOnly)
open Kernel
open Machine
open Proc

variable {cfg : Config} {w : Nat → Nat} {s s' s'' : Kernel} {p i sig : Nat} {e : Event}

/-- The signal `i` is pending for the process `p`. -/
def Kernel.pending (s : Kernel) (p i : Nat) : Bool := (s.proc p).signals.get i

/-- The pending sets, and how many processes have one. -/
def Kernel.sets (s : Kernel) : (Nat → Bitmap) × Nat := (fun p => (s.proc p).signals, s.nextTid)

/-- The sets after a signal has been raised or taken. -/
def mark (x : (Nat → Bitmap) × Nat) (p i : Nat) (b : Bool) : (Nat → Bitmap) × Nat :=
  (Function.update x.1 p ((x.1 p).set i b), x.2)

/-! ## Functions that leave the sets alone -/

theorem sets_modify {f : Proc → Proc} (hf : (f (s.proc p)).signals = (s.proc p).signals) :
    (s.modify p f).sets = s.sets := by
  refine Prod.ext (funext fun q => ?_) rfl
  by_cases hq : q = p
  · subst hq
    simpa [Kernel.sets] using hf
  · simp [Kernel.sets, hq]

theorem TreeOnly.sets (h : TreeOnly s s') : s'.sets = s.sets := by
  refine Prod.ext (funext fun q => ?_) ?_
  · have hs := congrArg signals (h.flat q)
    exact hs
  · rw [h.rest]
    rfl

theorem addProcRun_sets {b : Bool} (h : s.addProcRun cfg p b = some s') : s'.sets = s.sets := by
  obtain ⟨-, -, rfl⟩ | ⟨t, u, v, a, rfl⟩ := addProcRun_form h
  · rfl
  · exact (sets_modify rfl).trans rfl

theorem schedule_sets {regs : Bool} (h : s.schedule cfg regs = some s') : s'.sets = s.sets := by
  obtain ⟨-, rfl⟩ | ⟨-, -, rfl⟩ | ⟨-, -, -, rfl⟩ | ⟨-, -, s1, hs1, rfl⟩ := schedule_cases h
  · rfl
  · rfl
  · rfl
  · obtain ⟨t, u, v, a, rfl⟩ := switchOut_form hs1
    have hsw (s : Kernel) (p v a : Nat) (regs : Bool) (fpu : Fpu) :
        (s.modify p fun q => q.switched (cfg.wrap (q.vruntime + v)) a regs fpu).sets = s.sets :=
      sets_modify rfl
    exact (hsw ..).trans rfl

theorem timerTick_sets (h : s.timerTick cfg = some s') : s'.sets = s.sets := by
  obtain ⟨s1, hs1, -, h⟩ := timerTick_rule (P := fun s' => s'.sets = s.sets)
    (fun _ _ _ hs h => (addProcRun_sets h).trans hs) h rfl
  exact (schedule_sets h).trans hs1

theorem wake_sets {cv : Nat} {tid : Int} (h : s.wake cfg cv tid = some s') : s'.sets = s.sets :=
  wakeEntries_rule (P := fun s' => s'.sets = s.sets)
    (fun _ _ _ hs h => (addProcRun_sets h).trans hs) h rfl

theorem Blocks.sets {cont : Cont} {queue : QueueId} {pid : Int}
    (h : Blocks cfg s s' cont queue pid) : s'.sets = s.sets := by
  obtain ⟨a, hproc⟩ := h.proc
  refine Prod.ext (funext fun q => ?_) (sameOwn h.own).nextTid
  by_cases hq : q = s.curProc
  · subst hq
    simp [Kernel.sets, hproc]
  · simp [Kernel.sets, hproc, hq]

theorem reap_sets (s : Kernel) (pid : Int) (c : Nat) : (s.reap pid c).sets = s.sets := by
  have h : (s.delete c).sets = s.sets := TreeOnly.sets (delete_treeOnly s c)
  exact h

theorem resume_sets (h : s.resume = some s') : s'.sets = s.sets := by
  obtain ⟨-, rfl⟩ | ⟨-, rfl⟩ | ⟨pid, c, -, -, -, -, rfl⟩ := resume_cases h
  · rfl
  · exact sets_modify rfl
  · rw [reap_sets, sets_modify rfl, sets_modify rfl]

theorem dispatch_sets {pold : Nat} (h : s.dispatch pold = some s') : s'.sets = s.sets := by
  rw [resume_sets (dispatch_entered h)]
  exact (sets_modify (s := s) (p := s.curProc) (f := (·.setStatus .running)) rfl).trans rfl

/-! ## Raising and taking -/

theorem setSignal_sets (s : Kernel) (p i : Nat) (b : Bool) :
    (s.modify p (·.setSignal i b)).sets = mark s.sets p i b := by
  refine Prod.ext (funext fun q => ?_) rfl
  by_cases hq : q = p
  · subst hq
    simp [Kernel.sets, mark]
  · simp [Kernel.sets, mark, hq]

theorem tkillProc_sets (h : s.tkillProc cfg p sig = some s') :
    s'.sets = s.sets ∨ (s.proc p).status ≠ .zombie ∧ s'.sets = mark s.sets p sig true := by
  obtain ⟨-, rfl⟩ | ⟨-, hz, h⟩ := tkillProc_cases h
  · exact .inl rfl
  · exact .inr ⟨hz, (addProcRun_sets h).trans (setSignal_sets s p sig true)⟩

theorem notifyParent_sets (h : s.notifyParent cfg p = some s') :
    s'.sets = s.sets ∨ (s.proc p).parent ≠ 0 ∧ (s.proc (s.proc p).parent).status ≠ .zombie ∧
      s'.sets = mark s.sets (s.proc p).parent (exitSignal (s.proc p).cloneFlags) true := by
  obtain ⟨-, rfl⟩ | ⟨-, -, -, h⟩ | ⟨hpar, -, h⟩ := notifyParent_cases h
  · exact .inl rfl
  · exact .inl (addProcRun_sets h)
  · obtain h | ⟨hz, h⟩ := tkillProc_sets h
    · exact .inl h
    · exact .inr ⟨hpar, hz, h⟩

/-- The end of a process raises at most one signal, in another process. -/
theorem exit_sets {status : Int} (h : s.exit cfg status = some s') :
    s'.sets = s.sets ∨ (s.proc s.curProc).parent ≠ 0 ∧ (s.proc s.curProc).parent ≠ s.curProc ∧
      s'.sets = mark s.sets (s.proc s.curProc).parent
        (exitSignal (s.proc s.curProc).cloneFlags) true := by
  obtain ⟨s1, s2, E, hnotify, rfl⟩ := exit_ends h
  have hsets : s1.sets = s.sets :=
    Prod.ext (funext E.signals) (sameOwn E.own).nextTid
  have hzombie := congrArg Proc.status E.cur
  have hflags := congrArg Proc.cloneFlags E.cur
  simp only [flat_status, ended_status, flat_cloneFlags, ended_cloneFlags,
    leave_cloneFlags] at hzombie hflags
  obtain h | ⟨hpar, hz, h⟩ := notifyParent_sets hnotify
  · exact .inl (h.trans hsets)
  have hup := (E.parent s.curProc).resolve_right hpar
  rw [hup] at hpar hz h
  rw [hsets, hflags] at h
  refine .inr ⟨hpar, fun heq => ?_, h⟩
  rw [heq] at hz
  exact hz hzombie

/-! ## Steps -/

/-- The process that the step takes from the run queue to run. -/
def Kernel.dispatched (s : Kernel) : Event → Option Nat
  | .select => s.runQueue.begin.map fun a => (s.runQueue.node a).key
  | _ => none

/-- The signal that the step takes from the process it dispatches. -/
def Kernel.consumes (s : Kernel) (e : Event) : Option (Nat × Nat) := do
  let p ← s.dispatched e
  let sig ← (s.proc p).signals.firstOne
  some (p, sig)

/-- The step sends the signal `i` to the process `p`. -/
inductive Sent (s : Kernel) : Event → Nat → Nat → Prop where
  | tkill {p i : Nat} : Sent s (.tkill p i) p i
  | fault : Sent s .fault s.curProc sigsegv
  | ended {e : Event} {q : Nat} : s.ending e = some q → (s.proc q).parent ≠ 0 →
      Sent s e (s.proc q).parent (exitSignal (s.proc q).cloneFlags)

def Kernel.afterTake (s : Kernel) (e : Event) : (Nat → Bitmap) × Nat :=
  match s.consumes e with
  | none => s.sets
  | some x => mark s.sets x.1 x.2 false

/-- What a step does to the pending sets. -/
inductive SetsStep (s s' : Kernel) (e : Event) : Prop where
  | take : s'.sets = s.afterTake e → SetsStep s s' e
  | raise {p i : Nat} : Sent s e p i → p < s.nextTid → (∀ x, s.consumes e = some x → x.1 ≠ p) →
      s'.sets = mark (s.afterTake e) p i true → SetsStep s s' e
  | refuse : s.consumes e = none → s'.sets = (s.sets.1, s.nextTid + 1) → SetsStep s s' e
  | clone : s.consumes e = none →
      s'.sets = (Function.update s.sets.1 s.nextTid (.new 32), s.nextTid + 1) → SetsStep s s' e

theorem SetsStep.same (he : s.consumes e = none) (h : s'.sets = s.sets) : SetsStep s s' e := by
  apply SetsStep.take
  rw [Kernel.afterTake, he, h]

theorem SetsStep.send (he : s.consumes e = none) (hs : Sent s e p i) (hp : p < s.nextTid)
    (h : s'.sets = mark s.sets p i true) : SetsStep s s' e := by
  refine .raise hs hp (fun x hx => ?_) ?_
  · rw [he] at hx
    cases hx
  · rw [Kernel.afterTake, he, h]

theorem tkill_setsStep {tid sig : Int} (H : Sane s) (h : s.tkill cfg tid sig = some s') :
    SetsStep s s' (.tkill tid sig) := by
  by_cases hneg : sig < 0
  · rw [tkill, if_pos hneg] at h
    cases h
    exact .same rfl rfl
  obtain ⟨n, rfl⟩ := Int.eq_ofNat_of_zero_le (not_lt.mp hneg)
  obtain rfl | ⟨q, rfl, -, hlt, h⟩ := H.tkill h
  · exact .same rfl rfl
  · obtain h | ⟨-, h⟩ := tkillProc_sets h
    · exact .same rfl h
    · exact .send rfl .tkill hlt h

theorem clone_setsStep {flags : Nat} {mem : Bool} (h : s.clone cfg flags mem = some s') :
    SetsStep s s' (.clone flags mem) := by
  obtain rfl | rfl | ⟨-, s1, r, h1, -, rfl⟩ := clone_cases h
  · exact .same rfl rfl
  · exact .refuse rfl rfl
  · have hsets := (addProcRun_sets h1).trans (TreeOnly.sets (linkChild_treeOnly ..))
    have hsets1 : (s1.setProcList r.1).sets = s1.sets := rfl
    refine .clone rfl ?_
    rw [hsets1, hsets]
    refine Prod.ext (funext fun q => ?_) rfl
    by_cases hq : q = s.nextTid
    · subst hq
      simp [Kernel.sets, cloned, new]
    · simp [Kernel.sets, hq]

theorem select_setsStep {now pold : Nat} (H : Sane s) (h : s.select cfg now pold = some s') :
    SetsStep s s' .select := by
  obtain ⟨a, p, ha, hkey, -, -, -, hsel⟩ := select_cases h
  have hcons : s.consumes .select = (s.proc p).signals.firstOne.bind fun sig => some (p, sig) := by
    simp [consumes, dispatched, ha, hkey]
  have hchoose : (s.choose p now).sets = s.sets := rfl
  obtain ⟨hsig, h⟩ | ⟨sig, hsig, hsel⟩ := hsel
  · rw [hsig, bind_none] at hcons
    exact .same hcons ((dispatch_sets h).trans hchoose)
  rw [hsig, bind_some] at hcons
  have htake : ((s.choose p now).modify p (·.setSignal sig false)).sets = s.afterTake .select := by
    rw [setSignal_sets, hchoose, Kernel.afterTake, hcons]
  obtain ⟨hf, h⟩ | ⟨-, h⟩ := hsel
  · have hend : s.ending .select = some p := by
      simp [ending, ha, hkey, hsig, hf]
    obtain h | ⟨hpar, hne, h⟩ := exit_sets h
    · exact .take (h.trans htake)
    rw [htake] at h
    simp only [modify_curProc, choose_curProc, modify_proc,
      Function.update_self, choose_proc, setSignal_parent,
      setSignal_cloneFlags] at hpar hne h
    refine .raise (.ended hend hpar) (H.parent p) (fun x hx => ?_) h
    rw [hcons] at hx
    cases hx
    exact hne.symm
  · exact .take ((dispatch_sets h).trans htake)

theorem step_sets (H : Sane s) (h : s.step cfg e = some s') : SetsStep s s' e := by
  obtain ⟨rfl, -, h⟩ | ⟨cv, tid, rfl, -, h⟩ | ⟨now, pold, rfl, -, h⟩ | ⟨-, hcur, h⟩ :=
    step_cases h
  · exact .same rfl (timerTick_sets h)
  · exact .same rfl (wake_sets h)
  · exact select_setsStep H h
  · cases e with
    | tick | select | wake => cases h
    | fpu v =>
      cases h
      refine .same rfl ?_
      unfold useFpu
      split_ifs
      · exact (sets_modify (s := s) (p := s.curProc)
          (f := fun q => { q with fpuUsed := true }) rfl).trans rfl
      · rfl
    | fault =>
      obtain ⟨s1, h1, hs⟩ := fault_cases h
      have hsets : s'.sets = s1.sets := by
        obtain ⟨-, rfl⟩ | rfl := hs
        · rfl
        · rfl
      obtain h | ⟨-, h⟩ := tkillProc_sets h1
      · exact .same rfl (hsets.trans h)
      · exact .send rfl .fault H.cur (hsets.trans h)
    | clone flags mem => exact clone_setsStep h
    | exit status =>
      obtain h | ⟨hpar, -, h⟩ := exit_sets h
      · exact .same rfl h
      · exact .send rfl (.ended rfl hpar) (H.parent _) h
    | waitpid pid ptr options =>
      obtain rfl | ⟨-, c, -, ⟨-, -, rfl⟩ | ⟨-, -, h⟩⟩ := waitpid_cases h
      · exact .same rfl rfl
      · exact .same rfl (reap_sets ..)
      · exact .same rfl (Blocks.sets (waitpidSleep_blocks hcur h))
    | nanosleep n =>
      obtain rfl | h := nanosleep_blocks hcur h
      · exact .same rfl rfl
      · exact .same rfl (Blocks.sets h)
    | wait cv => exact .same rfl (Blocks.sets (wait_blocks hcur h))
    | tkill tid sig => exact tkill_setsStep H h
    | setnice inc =>
      obtain rfl | ⟨t, u, v, a, rfl⟩ := setnice_form h
      · exact .same rfl rfl
      · exact .same rfl ((sets_modify rfl).trans rfl)

theorem consumes_iff :
    s.consumes e = some (p, i) ↔ s.dispatched e = some p ∧
      (s.proc p).signals.firstOne = some i := by
  simp only [consumes, bind_eq_bind, bind_eq_some_iff, some_inj,
    Prod.mk.injEq]
  constructor
  · rintro ⟨q, hq, j, hj, rfl, rfl⟩
    exact ⟨hq, hj⟩
  · rintro ⟨hp, hi⟩
    exact ⟨p, hp, i, hi, rfl, rfl⟩

theorem mark_get (x : (Nat → Bitmap) × Nat) (p i : Nat) (b : Bool) (q j : Nat) :
    ((mark x p i b).1 q).get j = if q = p ∧ j = i then b else (x.1 q).get j := by
  by_cases hq : q = p
  · subst hq
    simp [mark, Bitmap.get_set]
  · simp [mark, hq]

theorem afterTake_get (s : Kernel) (e : Event) (q j : Nat) :
    ((s.afterTake e).1 q).get j = (s.pending q j && decide (s.consumes e ≠ some (q, j))) := by
  unfold Kernel.afterTake
  cases hc : s.consumes e with
  | none => simp [Kernel.sets, Kernel.pending]
  | some x =>
    simp only [mark_get, Kernel.sets, Kernel.pending, ne_eq, some_inj]
    by_cases hx : q = x.1 ∧ j = x.2
    · simp [hx]
    · have hne : x ≠ (q, j) := fun h => hx (by simp [h])
      simp [hx, hne]

/-- All sets have 32 bits, and no process that has not been made has a pending signal. -/
structure Sized (x : (Nat → Bitmap) × Nat) : Prop where
  size : ∀ p, (x.1 p).n = 32
  fresh : ∀ p, x.2 ≤ p → ∀ i, (x.1 p).get i = false

theorem Sized.mark {x : (Nat → Bitmap) × Nat} {b : Bool} (Z : Sized x) (hp : b = true → p < x.2) :
    Sized (mark x p i b) := by
  constructor
  · intro q
    by_cases hq : q = p
    · subst hq
      simp [Process.mark, Z.size]
    · simp [Process.mark, hq, Z.size]
  intro q hq j
  rw [mark_get, Z.fresh q hq]
  split_ifs with hmark
  · obtain ⟨rfl, -⟩ := hmark
    cases b with
    | false => rfl
    | true => exact absurd hq (Nat.not_le.mpr (hp rfl))
  · rfl

theorem Sized.afterTake (Z : Sized s.sets) (e : Event) : Sized (s.afterTake e) := by
  unfold Kernel.afterTake
  split
  · exact Z
  · exact Z.mark nofun

theorem afterTake_snd (s : Kernel) (e : Event) : (s.afterTake e).2 = s.nextTid := by
  unfold Kernel.afterTake
  split <;> rfl

/-- A signal is pending after a step if it was before and the step has not taken it, or if the
step sends it. -/
theorem SetsStep.pending (S : SetsStep s s' e) (Z : Sized s.sets) (p i : Nat) :
    s'.pending p i = (s.pending p i && decide (s.consumes e ≠ some (p, i))) ∨
    s'.pending p i = true ∧ Sent s e p i ∧ ∀ x, s.consumes e = some x → x.1 ≠ p := by
  have hget {x : (Nat → Bitmap) × Nat} (h : s'.sets = x) : s'.pending p i = (x.1 p).get i := by
    rw [← h]
    rfl
  cases S with
  | take h =>
    left
    rw [hget h, afterTake_get]
  | raise hsent hlt hother h =>
    rename_i q j
    rw [hget h, mark_get]
    by_cases hq : p = q ∧ i = j
    · obtain ⟨rfl, rfl⟩ := hq
      exact .inr ⟨if_pos ⟨rfl, rfl⟩, hsent, hother⟩
    · left
      rw [if_neg hq, afterTake_get]
  | refuse hc h =>
    left
    rw [hget h, hc]
    simp [Kernel.sets, Kernel.pending]
  | clone hc h =>
    left
    rw [hget h, hc]
    by_cases hp : p = s.nextTid
    · subst hp
      have hfresh : s.pending s.nextTid i = false := Z.fresh s.nextTid le_rfl i
      simp [hfresh]
    · simp [Kernel.sets, Kernel.pending, hp]

theorem SetsStep.sized (S : SetsStep s s' e) (Z : Sized s.sets) : Sized s'.sets := by
  cases S with
  | take h => exact h ▸ Z.afterTake e
  | raise _ hlt _ h => exact h ▸ (Z.afterTake e).mark fun _ => (afterTake_snd s e).symm ▸ hlt
  | refuse _ h => exact h ▸ ⟨Z.size, fun p hp => Z.fresh p ((Nat.le_succ _).trans hp)⟩
  | clone _ h =>
    rw [h]
    constructor
    · exact (Function.forall_update_iff _ fun _ (b : Bitmap) => b.n = 32).mpr
        ⟨rfl, fun p _ => Z.size p⟩
    · intro p hp i
      have hne : p ≠ s.nextTid := Nat.ne_of_gt hp
      simpa [hne] using Z.fresh p ((Nat.le_succ _).trans hp) i

/-! ## Counting -/

/-- How often each signal was raised and taken. -/
structure Tally where
  raised : Nat → Nat → Nat
  taken : Nat → Nat → Nat

def Tally.zero : Tally := ⟨fun _ _ => 0, fun _ _ => 0⟩

def tally (s : Kernel) (e : Event) (s' : Kernel) (g : Tally) : Tally where
  raised p i := g.raised p i + (!s.pending p i && s'.pending p i).toNat
  taken p i := g.taken p i + (decide (s.consumes e = some (p, i))).toNat

/-- The kernel with a count of its signals. -/
def signalStep (w : Nat → Nat) : Kernel × Tally → Event → Option (Kernel × Tally) :=
  recorded (step (.code w)) tally

/-- A signal is taken if it is pending. -/
theorem pending_of_consumes (h : s.consumes e = some (p, i)) : s.pending p i = true :=
  (Bitmap.firstOne_get (consumes_iff.mp h).2).2

/-- Every signal that was raised has been taken once or is pending. -/
def Balanced (s : Kernel) (g : Tally) : Prop :=
  ∀ p i, g.raised p i = g.taken p i + (s.pending p i).toNat

theorem SetsStep.balanced {g : Tally} (S : SetsStep s s' e) (Z : Sized s.sets)
    (B : Balanced s g) : Balanced s' (tally s e s' g) := by
  intro p i
  have hb := B p i
  simp only [tally]
  obtain h | ⟨h, -, hc⟩ := S.pending Z p i
  · by_cases hc : s.consumes e = some (p, i)
    · have hp := pending_of_consumes hc
      simp only [hp, hc, ne_eq, not_true_eq_false, decide_false, Bool.and_false] at h hb
      simp [h, hp, hc, hb]
    · simp only [ne_eq, hc, not_false_eq_true, decide_true, Bool.and_true] at h
      simp [h, hc, hb]
  · have hne : s.consumes e ≠ some (p, i) := fun hx => hc _ hx rfl
    cases hp : s.pending p i with
    | false => simp [h, hp, hne, hb]
    | true => simp [h, hp, hne, hb]

/-! ## tkill -/

def esrch : Int := 3

/-- What `tkill` returns. -/
def Kernel.tkillResult (s : Kernel) (tid sig : Int) : Int :=
  if sig < 0 then -einval
  else if s.procList.find (fun q => (q : Int) == tid) (fun q => decide ((q : Int) < tid)) =
    some Rbtree.nil then -esrch
  else 0

/-- All of a process but what the scheduler keeps in it. -/
def Proc.unscheduled (q : Proc) : Proc :=
  { q with
    status := .created
    interrupted := false
    vruntime := 0
    curQueue := .noQueue
    queueHandle := 0 }

/-- The signal was raised, and apart from that only the scheduler has moved the process. -/
structure Signalled (s s' : Kernel) (p sig : Nat) : Prop where
  kernel : s' = (s.setProcs s'.proc).putQueues s'.runQueue s'.sleepQueue s'.waiting
  other : ∀ q, q ≠ p → s'.proc q = s.proc q
  target : (s'.proc p).unscheduled = ((s.proc p).setSignal sig true).unscheduled
  bits : ∀ i, s'.pending p i = if i = sig then true else s.pending p i

theorem insertRun_some {xs : List (Nat × Nat)} (H : Rbtree.Linked s.runQueue xs) (p : Nat) :
    ∃ s', s.insertRun (.code w) p = some s' := by
  have hins : ∃ r, (Config.code w).insert (procOrder s.proc) s.runQueue p = some r := by
    obtain ⟨x, -, -, hins, -⟩ | ⟨ys, zs, t, -, hins, -⟩ :=
      Rbtree.insert_linked (o := procOrder s.proc) (k := p) H
    · exact ⟨_, hins⟩
    · exact ⟨_, hins⟩
  obtain ⟨r, hr⟩ := hins
  exact ⟨_, by rw [insertRun, hr]; rfl⟩

/-- With the queues intact `add_proc_run` cannot fail. -/
theorem makeReady_some (H : Sane s) (p : Nat) : ∃ s', s.makeReady (.code w) p = some s' := by
  obtain ⟨rq, sq, Q⟩ := H.queues
  obtain ⟨s1, rq1, sq1, hrem, Q1, -⟩ := Q.remove p
  have hlink : Rbtree.Linked (s1.modify p fun q => { q with
      vruntime := (Config.code w).wrap (q.vruntime + s1.minVruntime)
      curQueue := .runQueue }).runQueue rq1 := Q1.run.linked
  obtain ⟨s2, hs2⟩ := insertRun_some (w := w) hlink p
  refine ⟨s2.modify p (·.setStatus .ready), ?_⟩
  simp only [makeReady, hrem, bind_eq_bind, bind_some, hs2]
  rfl

theorem tkillProc_some (H : Sane s) (hsig : sig < 32) (p : Nat) :
    ∃ s', s.tkillProc (.code w) p sig = some s' := by
  unfold tkillProc
  split_ifs
  · have F : Frame s (s.modify p (·.setSignal sig true)) := .modify_same fun _ => ⟨rfl, rfl⟩
    have G : Frame s ((s.modify p (·.setSignal sig true)).modify p (·.setInterrupted true)) :=
      F.trans (.modify_same fun _ => ⟨rfl, rfl⟩)
    unfold addProcRun
    split_ifs
    · exact makeReady_some (G.sane H) p
    · exact ⟨_, rfl⟩
    · exact makeReady_some (F.sane H) p
  · exact ⟨_, rfl⟩

theorem tkillProc_signalled (hsig : sig ≠ 0) (hz : (s.proc p).status ≠ .zombie)
    (h : s.tkillProc cfg p sig = some s') : Signalled s s' p sig := by
  obtain ⟨h0, -⟩ | ⟨-, -, h⟩ := tkillProc_cases h
  · tauto
  obtain ⟨-, -, rfl⟩ | ⟨t, u, v, a, rfl⟩ := addProcRun_form h
  · constructor
    · rfl
    · intro q hq
      simp [hq]
    · simp
    · intro i
      simp [Kernel.pending, Bitmap.get_set]
  · constructor
    · rfl
    · intro q hq
      simp [hq]
    · simp [unscheduled, readied]
    · intro i
      simp [Kernel.pending, Bitmap.get_set]

/-- What `tkill` may do. -/
inductive TkillExact (s s' : Kernel) (tid sig : Int) : Prop where
  | refused : s.tkillResult tid sig < 0 → s' = s → TkillExact s s' tid sig
  | null : sig = 0 → s.tkillResult tid sig = 0 → s' = s → TkillExact s s' tid sig
  | raised {p i : Nat} : (p : Int) = tid → (i : Int) = sig → s.tkillResult tid sig = 0 →
      Signalled s s' p i → TkillExact s s' tid sig

theorem tkill_exact {tid sig : Int} (H : Sane s) (I : ListInv s) (hsig : sig < 32) :
    ∃ s', s.tkill (.code w) tid sig = some s' ∧ TkillExact s s' tid sig := by
  by_cases hneg : sig < 0
  · refine ⟨s, by rw [tkill, if_pos hneg], .refused ?_ rfl⟩
    rw [tkillResult, if_pos hneg]
    decide
  obtain ⟨n, rfl⟩ := Int.eq_ofNat_of_zero_le (not_lt.mp hneg)
  obtain ⟨a, ha, ⟨p, rfl, -, hph, hne, hkey⟩ | ⟨rfl, -⟩⟩ := I.find tid
  · have hres : s.tkillResult p n = 0 := by
      rw [tkillResult, if_neg hneg, ha, if_neg (by simpa using hne)]
    obtain ⟨s', hs'⟩ := tkillProc_some (w := w) H (by omega : n < 32) p
    have hkill : s.tkill (.code w) p n = some s' := by
      rw [tkill, if_neg hneg, ha]
      simp only [bind_eq_bind, bind_some, if_neg hne, hkey]
      exact hs'
    refine ⟨s', hkill, ?_⟩
    by_cases h0 : n = 0
    · subst h0
      refine .null rfl hres ?_
      simpa [tkillProc] using hs'.symm
    · exact .raised rfl rfl hres (tkillProc_signalled h0 (phase_eq_true.mp hph).2 hs')
  · refine ⟨s, ?_, .refused ?_ rfl⟩
    · rw [tkill, if_neg hneg, ha]
      simp
    · rw [tkillResult, if_neg hneg, ha, if_pos rfl]
      decide

/-! ## Runs -/

theorem Started.sized (h : Started w s) : Sized s.sets := by
  have hnew := h.procs (P := fun q => q.signals = .new 32) rfl fun _ _ _ _ => rfl
  constructor
  · intro p
    have hp : s.sets.1 p = .new 32 := hnew p
    rw [hp]
    rfl
  · intro p _ i
    have hp : s.sets.1 p = .new 32 := hnew p
    rw [hp, Bitmap.get_new]

theorem Started.balanced (h : Started w s) : Balanced s .zero := by
  intro p i
  have hp : (s.proc p).signals = .new 32 :=
    h.procs (P := fun q => q.signals = .new 32) rfl (fun _ _ _ _ => rfl) p
  simp [Kernel.pending, hp, Tally.zero]

theorem reach_balanced {x : Kernel × Tally}
    (h : Reach (fun x => Started w x.1 ∧ x.2 = .zero) (signalStep w)
      (fun x e => ListOk w x.1 e) x) :
    (Sane x.1 ∧ x.1.ModeOk ∧ ListInv x.1) ∧ Sized x.1.sets ∧ Balanced x.1 x.2 := by
  refine h.invariantRecorded (I := fun s g =>
    (Sane s ∧ s.ModeOk ∧ ListInv s) ∧ Sized s.sets ∧ Balanced s g) ?_ ?_
  · rintro s g ⟨hs, rfl⟩
    exact ⟨⟨hs.sane, hs.modeOk, hs.listInv⟩, hs.sized, hs.balanced⟩
  · rintro s g e s' ⟨hs, Z, B⟩ hok hstep
    have S := step_sets hs.1 hstep
    exact ⟨ListOk.keeps hok hstep hs, S.sized Z, S.balanced Z B⟩

/-- What a step may do with the pending signals. -/
structure SignalsKept (s : Kernel) (e : Event) (s' : Kernel) : Prop where
  /-- A bit stays until a dispatch of its process takes it. -/
  stays : ∀ p i, s.pending p i = true → s'.pending p i = false → s.consumes e = some (p, i)
  sent : ∀ p i, s.pending p i = false → s'.pending p i = true → Sent s e p i
  /-- The dispatch of a process takes its lowest signal. -/
  lowest : ∀ p, s.dispatched e = some p → ∀ i < 32, s.consumes e = some (p, i) ↔
    s.pending p i = true ∧ ∀ j < i, s.pending p j = false
  takes : ∀ p i, s.consumes e = some (p, i) → s.dispatched e = some p ∧ i < 32 ∧
    s'.pending p i = false ∧ ∀ j, j ≠ i → s'.pending p j = s.pending p j

theorem firstOne_iff {b : Bitmap} (hn : b.n = 32) (hi : i < 32) :
    b.firstOne = some i ↔ b.get i = true ∧ ∀ j < i, b.get j = false := by
  constructor
  · intro h
    exact ⟨(Bitmap.firstOne_get h).2, fun j hj => Bitmap.firstOne_lowest h hj⟩
  rintro ⟨hget, hlow⟩
  obtain ⟨k, hk, hle, hgetk⟩ := Bitmap.firstOne_le (by omega) (hn ▸ hi) hget
  obtain rfl | hlt := Nat.eq_or_lt_of_le hle
  · exact hk
  · rw [hlow k hlt] at hgetk
    cases hgetk

theorem SetsStep.kept (S : SetsStep s s' e) (Z : Sized s.sets) : SignalsKept s e s' := by
  constructor
  case stays =>
    intro p i hp hp'
    by_contra hc
    obtain h | ⟨h, -⟩ := S.pending Z p i
    · simp [hp, hc, hp'] at h
    · rw [hp'] at h
      cases h
  case sent =>
    intro p i hp hp'
    obtain h | ⟨-, hs, -⟩ := S.pending Z p i
    · simp [hp, hp'] at h
    · exact hs
  case lowest =>
    intro p hd i hi
    have hset : (s.proc p).signals.n = 32 := Z.size p
    rw [consumes_iff, firstOne_iff hset hi]
    exact and_iff_right hd
  case takes =>
    intro p i hc
    obtain ⟨hd, hf⟩ := consumes_iff.mp hc
    have hset : (s.proc p).signals.n = 32 := Z.size p
    have hi := (Bitmap.firstOne_get hf).1
    have hpend (j : Nat) :
      s'.pending p j = (s.pending p j && decide (s.consumes e ≠ some (p, j))) :=
      (S.pending Z p j).resolve_right fun h => h.2.2 _ hc rfl
    refine ⟨hd, hset ▸ hi, ?_, fun j hj => ?_⟩
    · rw [hpend]
      simp [hc]
    · rw [hpend, hc]
      simp [Ne.symm hj]

/-- The pending signals in a run from the start. A `tkill` with a signal below 32 is refused,
is for the signal 0, or raises one bit; a bit stays until a dispatch of its process takes it as
the lowest one; and every signal that was raised has been taken once or is pending. -/
theorem signals_kept (w : Nat → Nat) {s : Kernel} {g : Tally}
    (h : Reach (fun x => Started w x.1 ∧ x.2 = .zero) (signalStep w)
      (fun x e => ListOk w x.1 e) (s, g)) :
    (∀ tid sig : Int, sig < 32 → s.mode = .outside → s.curProc ≠ 0 →
      ∃ s', s.step (.code w) (.tkill tid sig) = some s' ∧ TkillExact s s' tid sig) ∧
    (∀ p i, g.raised p i = g.taken p i + (s.pending p i).toNat) ∧
    ∀ e s', s.step (.code w) e = some s' → SignalsKept s e s' := by
  obtain ⟨⟨H, -, I⟩, Z, B⟩ := reach_balanced h
  refine ⟨fun tid sig hsig hm hcur => ?_, B, fun e s' hstep => (step_sets H hstep).kept Z⟩
  have hstep : s.step (.code w) (.tkill tid sig) = s.tkill (.code w) tid sig := by
    simp only [step, hm, if_neg hcur]
    rfl
  rw [hstep]
  exact tkill_exact H I hsig

theorem signals_kept_sample : ∃ s g,
    Reach (fun x => Started uint64 x.1 ∧ x.2 = .zero) (signalStep uint64)
      (fun x e => ListOk uint64 x.1 e) (s, g) ∧
    s.mode = .outside ∧ s.curProc ≠ 0 ∧ s.pending 3 17 = true ∧ s.pending 3 18 = true ∧
    (∃ s', s.step (.code uint64) (.tkill 3 15) = some s' ∧ TkillExact s s' 3 15) ∧
    ∀ e s', s.step (.code uint64) e = some s' → SignalsKept s e s' := by
  have hrun : (runRecorded (signalStep uint64) (fun x e => ListOk uint64 x.1 e) .zero
    [.tick, .select,
      .clone 0 true, .tkill 3 17, .tkill 3 18]).map
      (fun x => (x.1.mode, x.1.curProc, x.1.pending 3 17, x.1.pending 3 18)) =
      some (.outside, 1, true, true) := by decide +kernel
  obtain ⟨⟨s, g⟩, hs, he⟩ := run_of_map hrun
  obtain ⟨hm, he⟩ := Prod.mk.inj he
  obtain ⟨hcur, hpend⟩ := Prod.mk.inj he
  obtain ⟨h17, h18⟩ := Prod.mk.inj hpend
  have hcur0 : s.curProc ≠ 0 := by
    have hcur1 : s.curProc = 1 := hcur
    rw [hcur1]
    decide
  have hreach : Reach (fun x => Started uint64 x.1 ∧ x.2 = .zero) (signalStep uint64)
      (fun x e => ListOk uint64 x.1 e) (s, g) := runRecorded_reach hs fun _ h => ⟨h, rfl⟩
  obtain ⟨htkill, -, hstep⟩ := signals_kept uint64 hreach
  exact ⟨s, g, hreach, hm, hcur0, h17, h18, htkill 3 15 (by decide) hm hcur0, hstep⟩

/-- `tkill` with 32 is not refused: it writes the word after the one word of the pending set. -/
theorem tkill_outside : ∃ s, Reach (Started uint64) (step (.code uint64)) (ListOk uint64) s ∧
    s.mode = .outside ∧ s.curProc = 1 ∧ s.tkillResult 3 32 = 0 ∧ (s.proc 3).signals.sz = 1 ∧
    (s.proc 3).signals.xs 1 = 0 ∧ ((s.proc 3).signals.set 32 true).xs 1 = 1 ∧
    s.step (.code uint64) (.tkill 3 32) = none := by
  have hrun : (runOf uint64 (ListOk uint64) [.tick, .select, .clone 0 true]).map (fun s =>
      ((s.mode, s.curProc, s.tkillResult 3 32, (s.proc 3).signals.sz), (s.proc 3).signals.xs 1,
        ((s.proc 3).signals.set 32 true).xs 1, (s.step (.code uint64) (.tkill 3 32)).isNone)) =
      some ((.outside, 1, 0, 1), 0, 1, true) := by decide +kernel
  obtain ⟨s, hs, he⟩ := run_of_map hrun
  simp only [Prod.mk.injEq, isNone_iff_eq_none] at he
  obtain ⟨⟨hm, hcur, hres, hsz⟩, h0, h1, hnone⟩ := he
  exact ⟨s, runOf_reach hs, hm, hcur, hres, hsz, h0, h1, hnone⟩

end Sysint.Process
