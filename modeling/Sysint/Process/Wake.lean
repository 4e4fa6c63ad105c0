import Sysint.Process.Checked

/-! What the loops of `timer_tick` and `condvar::wake` do. An insertion may leave a red node
below a red node, but it loses no node, so that this is said of the code as it is. -/
namespace Sysint.Process
open Rbtree (Holds Linked)
open List hiding nil
open Kernel
open Rbtree
open Proc

/-- Between `s` and `s'` the processes `ps` have come to the run queue, whose nodes were `rq` and
are `rq'`. Apart from them only the queues have changed. -/
structure Readied (w : Nat → Nat) (s s' : Kernel) (rq rq' : List (Nat × Nat)) (ps : List Nat) :
    Prop where
  run : Linked s'.runQueue rq'
  sorted : (procOrder s'.proc).Sorted rq'
  old : rq.Sublist rq'
  mem : ∀ p, p ∈ rq'.map Prod.snd ↔ p ∈ rq.map Prod.snd ∨ p ∈ ps
  ready : ∀ p ∈ ps, ∃ a, (a, p) ∈ rq' ∧
    s'.proc p = (s.proc p).readied (w ((s.proc p).vruntime + s.minVruntime)) a
  same : ∀ p, p ∉ ps → s'.proc p = s.proc p
  rest : s' = (s.setProcs s'.proc).putQueues s'.runQueue s'.sleepQueue s'.waiting

variable {w : Nat → Nat} {s s' s1 : Kernel} {rq rq' rq1 : List (Nat × Nat)}
  {sq : List (Nat × SleepProc)} {p : Nat} {ps : List Nat}

theorem Readied.refl (hrun : Linked s.runQueue rq) (hsort : (procOrder s.proc).Sorted rq) :
    Readied w s s rq rq [] where
  run := hrun
  sorted := hsort
  old := .refl _
  mem := by simp
  ready := by simp
  same := by simp
  rest := rfl

theorem Readied.cons (h : Readied w s s1 rq rq1 [p]) (h' : Readied w s1 s' rq1 rq' ps)
    (hp : p ∉ ps) : Readied w s s' rq rq' (p :: ps) where
  run := h'.run
  sorted := h'.sorted
  old := h.old.trans h'.old
  mem q := by
    rw [h'.mem, h.mem, mem_singleton, mem_cons, or_assoc]
  ready := by
    have hmin : s1.minVruntime = s.minVruntime := by
      rw [h.rest]
      rfl
    intro q hq
    obtain rfl | hin := mem_cons.mp hq
    · obtain ⟨a, ha, hproc⟩ := h.ready q mem_cons_self
      exact ⟨a, h'.old.subset ha, (h'.same q hp).trans hproc⟩
    have hne : q ∉ [p] := by
      rw [mem_singleton]
      rintro rfl
      exact hp hin
    have hready := h'.ready q hin
    rwa [h.same q hne, hmin] at hready
  same q hq := by
    rw [mem_cons, not_or] at hq
    rw [h'.same q hq.2, h.same q (by simpa using hq.1)]
  rest := by
    rw [h'.rest, h.rest]
    rfl

/-- No process is in a sorted run queue twice. -/
theorem sorted_nodup {proc : Nat → Proc} (h : (procOrder proc).Sorted rq) :
    (rq.map Prod.snd).Nodup := by
  rw [List.Nodup, pairwise_map]
  apply h.imp
  intro x y hlt heq
  rw [heq, (procOrder_total proc).irrefl y.2 trivial] at hlt
  cases hlt

/-- `add_proc_run` of a process that is not in the run queue. -/
theorem addProcRun_readied {u : Rbtree SleepProc} {ws : Nat → List (Nat × Nat)}
    (hrun : Linked s.runQueue rq) (hsort : (procOrder s.proc).Sorted rq) (hp : p ∉ rq.map Prod.snd)
    (hrem : s.removeFromQueue p = some ((s.putQueues s.runQueue u ws).modify p leave)) :
    ∃ s' rq', s.addProcRun (.code w) p false = some s' ∧ Readied w s s' rq rq' [p] ∧
      s'.sleepQueue = u ∧ s'.waiting = ws := by
  obtain ⟨v, hv⟩ : ∃ v, v = w ((s.proc p).vruntime + s.minVruntime) := ⟨_, rfl⟩
  obtain ⟨s1, hs1⟩ : ∃ s1, s1 = ((s.putQueues s.runQueue u ws).modify p leave).modify p
      fun q => { q with vruntime := w (q.vruntime + s.minVruntime), curQueue := .runQueue } :=
        ⟨_, rfl⟩
  have hother {q : Nat} (hq : q ≠ p) : s1.proc q = s.proc q := by simp [hs1, hq]
  have hne {x : Nat × Nat} (hx : x ∈ rq) : x.2 ≠ p := fun h => hp (h ▸ mem_map_of_mem hx)
  have hsort1 : (procOrder s1.proc).Sorted rq :=
    sorted_congr (fun x hx => by simp [hother (hne hx)]) hsort
  have hrun1 : s1.runQueue = s.runQueue := by
    rw [hs1]
    rfl
  obtain ⟨x, hx, he, -⟩ | ⟨ys, zs, t, rfl, hins, hlink, -, hplace⟩ :=
    insert_linked (o := procOrder s1.proc) (k := p) hrun
  · exact absurd (beq_iff_eq.mp he).symm (hne hx)
  obtain ⟨hys, hzs⟩ := hplace ((procOrder_total _).mono (Set.subset_univ _)) hsort1
  have hadd : s.addProcRun (.code w) p false = some
      ((s.putQueues t u ws).modify p fun q => q.readied v s.runQueue.fresh) := by
    have hins1 : (Config.code w).insert (procOrder s1.proc) s1.runQueue p =
        some (t, s.runQueue.fresh) := by
      rw [hrun1]
      exact hins
    simp only [addProcRun, makeReady, hrem, Bool.false_and, Bool.false_eq_true,
      if_false, Option.bind_eq_bind, Option.bind_some, insertRun, modify_minVruntime,
      putQueues_minVruntime]
    have hcfg : (Config.code w).wrap = w := rfl
    rw [hcfg, ← hs1, hins1, hs1, hv]
    simp [Kernel.modify, Kernel.putQueues, readied, leave, setHandle, setStatus]
  refine ⟨_, ys ++ (s.runQueue.fresh, p) :: zs, hadd, ?_, rfl, rfl⟩
  constructor
  case run => exact hlink
  case sorted =>
    have hsort2 : (procOrder s1.proc).Sorted (ys ++ (s.runQueue.fresh, p) :: zs) :=
      hsort1.insert hys hzs
    refine sorted_congr (fun x hx => ?_) hsort2
    by_cases hxp : x.2 = p
    · simp [hxp, hs1, hv]
    · simp [hxp, hother hxp]
  case old => exact (sublist_cons_self ..).append_left ys
  case mem =>
    intro q
    simp only [map_append, map_cons, mem_append, mem_cons]
    tauto
  case ready =>
    intro q hq
    obtain rfl := mem_singleton.mp hq
    refine ⟨s.runQueue.fresh, by simp, ?_⟩
    simp [hv]
  case same =>
    intro q hq
    simp [mem_singleton.not.mp hq]
  case rest => simp [Kernel.modify, Kernel.putQueues, Kernel.setProcs]

/-! ## Sleepers -/

/-- A process that sleeps leaves from its node in the sleep queue. -/
theorem removeFromQueue_sleep {e : Nat × SleepProc} (hsleep : Holds s.sleepQueue (e :: sq))
    (hq : (s.proc e.2.p).curQueue = .sleepQueue) (hh : (s.proc e.2.p).queueHandle = e.1) :
    ∃ u, Holds u sq ∧ s.removeFromQueue e.2.p =
      some ((s.putQueues s.runQueue u s.waiting).modify e.2.p leave) := by
  have hsplit : Holds s.sleepQueue ([] ++ e :: sq) := hsleep
  obtain ⟨u, he, hu, -⟩ := erase_spec hsplit
  refine ⟨u, hu, ?_⟩
  rw [removeFromQueue, hq]
  simp only [hh, he]
  rfl

/-- The loop of `timer_tick` takes the expired sleepers off the front of the queue. -/
theorem wakeSleepers_readied {fuel : Nat} (now : Nat) (hrun : Linked s.runQueue rq)
    (hsort : (procOrder s.proc).Sorted rq) (hsleep : Holds s.sleepQueue sq)
    (hmem : ∀ e ∈ sq, (s.proc e.2.p).curQueue = .sleepQueue ∧ (s.proc e.2.p).queueHandle = e.1)
    (hout : ∀ e ∈ sq, e.2.p ∉ rq.map Prod.snd) (hfuel : sq.length < fuel) :
    ∃ s' rq', wakeSleepers (.code w) now fuel s (first sq) = some s' ∧
      Holds s'.sleepQueue (sq.dropWhile fun e => e.2.wakeupNs ≤ now) ∧ s'.waiting = s.waiting ∧
      Readied w s s' rq rq' ((sq.takeWhile fun e => e.2.wakeupNs ≤ now).map (·.2.p)) := by
  induction sq generalizing s rq fuel with
  | nil =>
    obtain ⟨fuel, rfl⟩ := Nat.exists_eq_add_one.mpr (Nat.zero_lt_of_lt hfuel)
    refine ⟨s, rq, ?_, hsleep, rfl, .refl hrun hsort⟩
    simp [wakeSleepers, first]
  | cons e sq ih =>
    obtain ⟨fuel, rfl⟩ := Nat.exists_eq_add_one.mpr (Nat.zero_lt_of_lt hfuel)
    have hsplit : Holds s.sleepQueue ([] ++ e :: sq) := hsleep
    have hkey : (s.sleepQueue.node e.1).key = e.2 := hsleep.key mem_cons_self
    have hnil : e.1 ≠ nil := (hsleep.range mem_cons_self).1.ne'
    by_cases hdue : e.2.wakeupNs ≤ now
    · obtain ⟨hq, hh⟩ := hmem e mem_cons_self
      obtain ⟨u, hu, hrem⟩ := removeFromQueue_sleep hsleep hq hh
      obtain ⟨s1, rq1, hadd, R1, hsq, hws⟩ :=
        addProcRun_readied (w := w) hrun hsort (hout e mem_cons_self) hrem
      -- the other sleepers have other nodes
      have hne : ∀ e' ∈ sq, e'.2.p ≠ e.2.p := by
        intro e' he' heq
        have hnd := hsleep.nodup
        rw [map_cons, nodup_cons] at hnd
        have hnode : e'.1 = e.1 := by
          rw [← (hmem e' (mem_cons_of_mem _ he')).2, ← hh, heq]
        exact hnd.1 (hnode ▸ mem_map_of_mem he')
      have hsame : ∀ e' ∈ sq, s1.proc e'.2.p = s.proc e'.2.p := fun e' he' =>
        R1.same _ (by simpa using hne e' he')
      obtain ⟨s', rq', hrest, hsleep', hwait', R'⟩ := ih R1.run R1.sorted (hsq ▸ hu)
        (fun e' he' => by
          rw [hsame e' he']
          exact hmem e' (mem_cons_of_mem _ he'))
        (fun e' he' => by
          rw [R1.mem, mem_singleton, not_or]
          exact ⟨hout e' (mem_cons_of_mem _ he'), hne e' he'⟩)
        (Nat.lt_of_succ_lt_succ hfuel)
      refine ⟨s', rq', ?_, ?_, hwait'.trans hws, ?_⟩
      · have hsucc : s.sleepQueue.succ e.1 = some (first sq) := succ_spec hsplit
        simp only [wakeSleepers, first, hkey]
        rw [if_pos ⟨hnil, hdue⟩, hsucc]
        simp only [Option.bind_eq_bind, Option.bind_some, hadd]
        exact hrest
      · rwa [dropWhile_cons_of_pos (by simpa using hdue)]
      · rw [takeWhile_cons_of_pos (by simpa using hdue), map_cons]
        refine R1.cons R' fun hin => ?_
        obtain ⟨e', he', heq⟩ := mem_map.mp hin
        exact hne e' ((takeWhile_sublist _).subset he') heq
    · refine ⟨s, rq, ?_, ?_, rfl, ?_⟩
      · simp only [wakeSleepers, first, hkey]
        rw [if_neg fun h => hdue h.2]
      · rwa [dropWhile_cons_of_neg (by simpa using hdue)]
      · rw [takeWhile_cons_of_neg (by simpa using hdue)]
        exact .refl hrun hsort

/-- In a list in order, what stands before the first element out of reach is what is in reach. -/
theorem takeWhile_of_sorted {α : Type} {xs : List α} {f : α → Nat} (n : Nat)
    (h : xs.Pairwise fun x y => f x ≤ f y) :
    xs.takeWhile (fun x => decide (f x ≤ n)) = xs.filter (fun x => decide (f x ≤ n)) ∧
      xs.dropWhile (fun x => decide (f x ≤ n)) = xs.filter (fun x => decide (n < f x)) := by
  induction xs with
  | nil => exact ⟨rfl, rfl⟩
  | cons x xs ih =>
    obtain ⟨hx, hxs⟩ := pairwise_cons.mp h
    by_cases hn : f x ≤ n
    · obtain ⟨ih1, ih2⟩ := ih hxs
      simp [hn, ih1, ih2, Nat.not_lt.mpr hn]
    have hlt : ∀ y ∈ xs, n < f y := fun y hy => (Nat.lt_of_not_le hn).trans_le (hx y hy)
    have hall : xs.filter (fun x => decide (n < f x)) = xs :=
      filter_eq_self.mpr fun y hy => by simpa using hlt y hy
    have hnone : xs.filter (fun x => decide (f x ≤ n)) = [] :=
      filter_eq_nil_iff.mpr fun y hy => by simpa using hlt y hy
    simp [hn, hall, hnone, Nat.lt_of_not_le hn]

theorem sleepOrder_le {a b : SleepProc} (h : sleepOrder.lt a b = true) :
    a.wakeupNs ≤ b.wakeupNs := by
  simp only [sleepOrder] at h
  split_ifs at h with hne
  · exact (of_decide_eq_true h).le
  · exact (not_not.mp hne).le

/-- The nodes of a tree are above the sentinel and below the next one. -/
theorem length_lt_fresh {K : Type} {t : Rbtree K} {xs : List (Nat × K)} (H : Holds t xs) :
    xs.length < t.fresh := by
  have hsub : xs.map Prod.fst ⊆ List.range' (nil + 1) (t.fresh - (nil + 1)) := by
    intro a ha
    obtain ⟨x, hx, rfl⟩ := mem_map.mp ha
    have hr := H.range hx
    rw [mem_range'_1]
    omega
  have hlen := (List.subperm_of_subset H.nodup hsub).length_le
  rw [List.length_map, List.length_range'] at hlen
  obtain ⟨⟨T, m, HT, -⟩, -⟩ := H
  have hmade : nil < t.fresh := HT.made
  omega

/-- The loop of `timer_tick` takes out the expired sleepers and leaves the others. -/
theorem Queues.wakeSleepers (Q : Queues s rq sq) (now : Nat) :
    ∃ s' rq', wakeSleepers (.code w) now s.sleepQueue.fresh s (first sq) = some s' ∧
      Holds s'.sleepQueue (sq.filter fun e => now < e.2.wakeupNs) ∧
      Readied w s s' rq rq' ((sq.filter fun e => e.2.wakeupNs ≤ now).map (·.2.p)) := by
  have hmem : ∀ e ∈ sq, (s.proc e.2.p).curQueue = .sleepQueue ∧
      (s.proc e.2.p).queueHandle = e.1 := fun e he =>
    (Q.sleepMem e.1 e.2.p).mp ⟨e.2.wakeupNs, he⟩
  have hout : ∀ e ∈ sq, e.2.p ∉ rq.map Prod.snd := by
    intro e he hin
    obtain ⟨x, hx, hxp⟩ := mem_map.mp hin
    have hrun := ((Q.runMem x.1 x.2).mp hx).1
    rw [hxp, (hmem e he).1] at hrun
    cases hrun
  obtain ⟨s', rq', hloop, hsleep, -, R⟩ := wakeSleepers_readied (w := w) now Q.run.linked
    Q.runSorted Q.sleep hmem hout (length_lt_fresh Q.sleep)
  obtain ⟨htake, hdrop⟩ := takeWhile_of_sorted (f := fun e : Nat × SleepProc => e.2.wakeupNs) now
    (Q.sleepSorted.imp sleepOrder_le)
  exact ⟨s', rq', hloop, hdrop ▸ hsleep, htake ▸ R⟩

theorem mem_expired {now : Nat} : p ∈ (sq.filter fun e => decide (e.2.wakeupNs ≤ now)).map (·.2.p) ↔
      ∃ e ∈ sq, e.2.p = p ∧ e.2.wakeupNs ≤ now := by
  simp only [mem_map, mem_filter, decide_eq_true_eq]
  constructor
  · rintro ⟨e, ⟨he, hle⟩, hp⟩
    exact ⟨e, he, hp, hle⟩
  · rintro ⟨e, he, hp, hle⟩
    exact ⟨e, ⟨he, hle⟩, hp⟩

/-- With the queues as they should be, the loop of `timer_tick` ends. It leaves the sleepers that
are not due, in their order; those that are due are READY in the run queue, once each, and no
other process has changed. -/
theorem timer_wakes_expired (w : Nat → Nat) {s : Kernel} {rq : List (Nat × Nat)}
    {sq : List (Nat × SleepProc)} (Q : Queues s rq sq) (now : Nat) :
    ∃ it s' rq', s.sleepQueue.begin = some it ∧
      wakeSleepers (.code w) now s.sleepQueue.fresh s it = some s' ∧
      Holds s'.sleepQueue (sq.filter fun e => now < e.2.wakeupNs) ∧
      Linked s'.runQueue rq' ∧ (procOrder s'.proc).Sorted rq' ∧ (rq'.map Prod.snd).Nodup ∧
      (∀ p, p ∈ rq'.map Prod.snd ↔
        p ∈ rq.map Prod.snd ∨ ∃ e ∈ sq, e.2.p = p ∧ e.2.wakeupNs ≤ now) ∧
      (∀ e ∈ sq, e.2.wakeupNs ≤ now → (s'.proc e.2.p).status = .ready ∧
        (s'.proc e.2.p).curQueue = .runQueue ∧ ((s'.proc e.2.p).queueHandle, e.2.p) ∈ rq') ∧
      ∀ p, (∀ e ∈ sq, e.2.wakeupNs ≤ now → e.2.p ≠ p) → s'.proc p = s.proc p := by
  obtain ⟨s', rq', hloop, hsleep, R⟩ := Q.wakeSleepers (w := w) now
  refine ⟨_, s', rq', begin_spec Q.sleep, hloop, hsleep, R.run, R.sorted, sorted_nodup R.sorted, ?_,
    ?_, ?_⟩
  · intro p
    rw [R.mem, mem_expired]
  · intro e he hle
    obtain ⟨a, ha, hproc⟩ := R.ready e.2.p (mem_expired.mpr ⟨e, he, rfl, hle⟩)
    rw [hproc]
    exact ⟨rfl, rfl, ha⟩
  · intro p hp
    apply R.same
    rw [mem_expired]
    rintro ⟨e, he, heq, hle⟩
    exact hp e he hle heq

theorem timer_wakes_expired_sample : ∃ s rq sq, Queues s rq sq ∧
    [1, 2].map (fun p => (s.proc p).curQueue) = [.sleepQueue, .sleepQueue] ∧
    ∃ it s', s.sleepQueue.begin = some it ∧
      wakeSleepers (.code uint64) 4000100 s.sleepQueue.fresh s it = some s' ∧
      Holds s'.sleepQueue (sq.filter fun e => 4000100 < e.2.wakeupNs) := by
  have hrun : (runOf uint64 (QueueOk uint64) [.tick, .select, .nanosleep 100, .select,
      .nanosleep 1000]).map (fun s => [1, 2].map fun p => (s.proc p).curQueue) =
      some [.sleepQueue, .sleepQueue] := by decide +kernel
  obtain ⟨s, hs, he⟩ := Machine.run_of_map hrun
  obtain ⟨rq, sq, Q⟩ := (reach_sane (fun _ _ => id) (runOf_reach hs)).queues
  obtain ⟨it, s', -, hit, hloop, hsleep, -⟩ := timer_wakes_expired uint64 Q 4000100
  exact ⟨s, rq, sq, Q, he, it, s', hit, hloop, hsleep⟩

/-! ## Waiting processes -/

/-- `add_proc_run` of a process that waits for an event. -/
theorem addProcRun_event (hrun : Linked s.runQueue rq) (hsort : (procOrder s.proc).Sorted rq)
    (hp : p ∉ rq.map Prod.snd) (hq : (s.proc p).curQueue = .eventQueue) :
    ∃ s' rq', s.addProcRun (.code w) p false = some s' ∧ Readied w s s' rq rq' [p] ∧
      s'.sleepQueue = s.sleepQueue ∧
      s'.waiting = fun cv => (s.waiting cv).filter fun e => e.1 ≠ (s.proc p).queueHandle := by
  apply addProcRun_readied hrun hsort hp
  rw [removeFromQueue, hq]
  rfl

/-- The loop of `condvar::wake` for all processes on the list. -/
theorem wakeEntries_all {es : List (Nat × Nat)} (hrun : Linked s.runQueue rq)
    (hsort : (procOrder s.proc).Sorted rq)
    (hmem : ∀ e ∈ es, (s.proc e.2).curQueue = .eventQueue ∧ (s.proc e.2).queueHandle = e.1)
    (hout : ∀ e ∈ es, e.2 ∉ rq.map Prod.snd) (hnd : (es.map Prod.snd).Nodup) :
    ∃ s' rq', wakeEntries (.code w) (-1) es s = some s' ∧
      Readied w s s' rq rq' (es.map Prod.snd) ∧
      ∀ cv, s'.waiting cv = (s.waiting cv).filter fun e => e.1 ∉ es.map Prod.fst := by
  induction es generalizing s rq with
  | nil =>
    refine ⟨s, rq, rfl, .refl hrun hsort, fun cv => ?_⟩
    simp
  | cons e es ih =>
    obtain ⟨hq, hh⟩ := hmem e mem_cons_self
    rw [map_cons, nodup_cons] at hnd
    obtain ⟨s1, rq1, hadd, R1, -, hw1⟩ :=
      addProcRun_event (w := w) hrun hsort (hout e mem_cons_self) hq
    have hne : ∀ e' ∈ es, e'.2 ≠ e.2 := fun e' he' heq => hnd.1 (heq ▸ mem_map_of_mem he')
    have hsame : ∀ e' ∈ es, s1.proc e'.2 = s.proc e'.2 := fun e' he' =>
      R1.same _ (by simpa using hne e' he')
    obtain ⟨s', rq', hrest, R', hw'⟩ := ih R1.run R1.sorted
      (fun e' he' => by
        rw [hsame e' he']
        exact hmem e' (mem_cons_of_mem _ he'))
      (fun e' he' => by
        rw [R1.mem, mem_singleton, not_or]
        exact ⟨hout e' (mem_cons_of_mem _ he'), hne e' he'⟩)
      hnd.2
    refine ⟨s', rq', ?_, R1.cons R' hnd.1, fun cv => ?_⟩
    · have htid : ¬ ((e.2 : Int) = -1) := by omega
      rw [wakeEntries, if_neg htid, if_pos rfl, hadd]
      exact hrest
    rw [hw', hw1, filter_filter]
    apply filter_congr
    intro x _
    rw [hh, Bool.eq_iff_iff]
    simp only [Bool.and_eq_true, decide_eq_true_eq, map_cons, mem_cons, not_or]
    exact and_comm

/-- The loop of `condvar::wake` for one process stops at it. -/
theorem wakeEntries_one {xs ys : List (Nat × Nat)} {e : Nat × Nat} {cfg : Config}
    (hxs : ∀ x ∈ xs, x.2 ≠ e.2) :
    wakeEntries cfg e.2 (xs ++ e :: ys) s = s.addProcRun cfg e.2 false := by
  induction xs with
  | nil => rw [nil_append, wakeEntries, if_pos rfl]
  | cons x xs ih =>
    have hx : ¬ ((x.2 : Int) = e.2) := fun h => hxs x mem_cons_self (Int.ofNat_inj.mp h)
    have htid : ¬ ((e.2 : Int) = -1) := by omega
    rw [cons_append, wakeEntries, if_neg hx, if_neg htid]
    exact ih fun y hy => hxs y (mem_cons_of_mem _ hy)

theorem wakeEntries_none {es : List (Nat × Nat)} {tid : Int} {cfg : Config} (htid : tid ≠ -1)
    (hes : ∀ e ∈ es, (e.2 : Int) ≠ tid) : wakeEntries cfg tid es s = some s := by
  induction es with
  | nil => rfl
  | cons e es ih =>
    rw [wakeEntries, if_neg (hes e mem_cons_self), if_neg htid]
    exact ih fun x hx => hes x (mem_cons_of_mem _ hx)

end Sysint.Process
