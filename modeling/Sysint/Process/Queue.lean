import Sysint.Rbtree.Erase
import Sysint.Process.Cases
import Mathlib.Data.Prod.Lex

/-! The queues of the scheduler. `Queues` ties the two trees and the waiting lists
to the fields `cur_queue` and `queue_handle` of the processes; every function that
moves a process keeps it, as long as the trees stay red-black. -/
namespace Sysint.Process
open List
open Rbtree (Holds)
open Kernel
open Function
open Proc

/-! ## Orders -/

/-- What `operator<` of `proc` compares. -/
def rank (proc : Nat → Proc) (p : Nat) : Nat ×ₗ Int ×ₗ Nat :=
  toLex ((proc p).vruntime, toLex ((proc p).nice, p))

theorem procOrder_lt (proc : Nat → Proc) (a b : Nat) :
    (procOrder proc).lt a b = true ↔ rank proc a < rank proc b := by
  simp only [procOrder, rank, Prod.Lex.toLex_lt_toLex]
  split_ifs with h1 h2 <;> simp_all

theorem procOrder_total (proc : Nat → Proc) : (procOrder proc).TotalOn Set.univ where
  eq_iff a _ b _ := beq_iff_eq
  irrefl a _ := by
    rw [← Bool.not_eq_true, procOrder_lt]
    exact lt_irrefl _
  trans a _ b _ c _ := by
    rw [procOrder_lt, procOrder_lt, procOrder_lt]
    exact lt_trans
  total a _ b _ := by
    rw [procOrder_lt, procOrder_lt]
    obtain h | h | h := lt_trichotomy (rank proc a) (rank proc b)
    · exact .inr (.inl h)
    · exact .inl (congrArg (fun r => (ofLex (ofLex r).2).2) h)
    · exact .inr (.inr h)

/-- The order of processes depends on their `vruntime` and `nice` alone. -/
theorem sorted_congr {proc proc' : Nat → Proc} {xs : List (Nat × Nat)}
    (h : ∀ x ∈ xs, (proc' x.2).vruntime = (proc x.2).vruntime ∧ (proc' x.2).nice = (proc x.2).nice)
    (hs : (procOrder proc).Sorted xs) : (procOrder proc').Sorted xs := by
  refine (List.Pairwise.and_mem.mp hs).imp fun {x y} ⟨hx, hy, hlt⟩ => ?_
  rw [procOrder_lt] at hlt ⊢
  rwa [rank, rank, (h x hx).1, (h x hx).2, (h y hy).1, (h y hy).2]

theorem sleepOrder_total {S : Set SleepProc} (h : ∀ a ∈ S, ∀ b ∈ S, a.p = b.p → a = b) :
    sleepOrder.TotalOn S where
  eq_iff a ha b hb := by
    rw [sleepOrder, beq_iff_eq]
    exact ⟨h a ha b hb, congrArg SleepProc.p⟩
  irrefl a _ := by simp [sleepOrder]
  trans a _ b _ c _ := by
    simp only [sleepOrder]
    split_ifs <;> simp only [decide_eq_true_eq] <;> omega
  total a ha b hb := by
    by_cases hab : a.p = b.p
    · exact .inl (h a ha b hb hab)
    · simp only [sleepOrder]
      split_ifs <;> simp only [decide_eq_true_eq] <;> omega

/-! ## The invariant -/

/-- `rq` and `sq` are the nodes of the run queue and of the sleep queue, and every
process is where its `cur_queue` and its `queue_handle` say. -/
structure Queues (s : Kernel) (rq : List (Nat × Nat)) (sq : List (Nat × SleepProc)) : Prop where
  run : Holds s.runQueue rq
  runSorted : (procOrder s.proc).Sorted rq
  runMem : ∀ a p, (a, p) ∈ rq ↔
    (s.proc p).curQueue = .runQueue ∧ (s.proc p).queueHandle = a
  sleep : Holds s.sleepQueue sq
  sleepSorted : sleepOrder.Sorted sq
  sleepMem : ∀ a p, (∃ w, (a, ⟨p, w⟩) ∈ sq) ↔
    (s.proc p).curQueue = .sleepQueue ∧ (s.proc p).queueHandle = a
  event : ∀ cv, (s.waiting cv).Nodup
  eventMem : ∀ a p, (∃ cv, (a, p) ∈ s.waiting cv) ↔
    (s.proc p).curQueue = .eventQueue ∧ (s.proc p).queueHandle = a
  eventUnique : ∀ cv cv' e e', e ∈ s.waiting cv → e' ∈ s.waiting cv' → e.1 = e'.1 → cv = cv' ∧
    e = e'
  eventFresh : ∀ cv, ∀ e ∈ s.waiting cv, e.1 < s.freshEntry
  live : ∀ p, (s.proc p).curQueue ≠ .noQueue →
    (s.proc p).status ≠ .created ∧ (s.proc p).status ≠ .zombie ∧ 0 < p ∧ p < s.nextTid

variable {s s' s'' : Kernel} {rq : List (Nat × Nat)} {sq : List (Nat × SleepProc)} {p : Nat}
  {α : Type}

/-- Two states of a process that no queue can tell apart. -/
structure SameSlot (q q' : Proc) : Prop where
  queue : q'.curQueue = q.curQueue
  handle : q.curQueue ≠ .noQueue → q'.queueHandle = q.queueHandle
  vruntime : q.curQueue = .runQueue → q'.vruntime = q.vruntime
  nice : q.curQueue = .runQueue → q'.nice = q.nice
  created : q.curQueue ≠ .noQueue → q'.status = .created → q.status = .created
  zombie : q.curQueue ≠ .noQueue → q'.status = .zombie → q.status = .zombie

/-- The fields that `SameSlot` is about. -/
def Proc.slot (q : Proc) : QueueId × Nat × Nat × Int × Status :=
  (q.curQueue, q.queueHandle, q.vruntime, q.nice, q.status)

theorem SameSlot.of_eq {q q' : Proc} (h : q'.slot = q.slot) : SameSlot q q' := by
  simp only [slot, Prod.mk.injEq] at h
  obtain ⟨h1, h2, h3, h4, h5⟩ := h
  exact ⟨h1, fun _ => h2, fun _ => h3, fun _ => h4, fun _ h => h5 ▸ h, fun _ h => h5 ▸ h⟩

/-- A process in no queue can change in any way. -/
theorem SameSlot.of_noQueue {q q' : Proc} (h : q.curQueue = .noQueue)
    (h' : q'.curQueue = .noQueue) :
    SameSlot q q' :=
  ⟨h'.trans h.symm, absurd h, fun hr => absurd (h.symm.trans hr) (by decide),
    fun hr => absurd (h.symm.trans hr) (by decide), absurd h, absurd h⟩

/-- `Queues` reads the queues and the fields that tie processes to them. -/
theorem Queues.congr (H : Queues s rq sq) (hr : s'.runQueue = s.runQueue)
    (hs : s'.sleepQueue = s.sleepQueue) (hw : s'.waiting = s.waiting)
    (hf : s'.freshEntry = s.freshEntry) (ht : s.nextTid ≤ s'.nextTid)
    (hp : ∀ p, SameSlot (s.proc p) (s'.proc p)) : Queues s' rq sq := by
  have hiff (q : QueueId) (hq : q ≠ .noQueue) (a p : Nat) :
      ((s'.proc p).curQueue = q ∧ (s'.proc p).queueHandle = a) ↔
        ((s.proc p).curQueue = q ∧ (s.proc p).queueHandle = a) := by
    rw [(hp p).queue]
    refine and_congr_right fun h => ?_
    rw [(hp p).handle (h ▸ hq)]
  constructor
  · exact hr ▸ H.run
  · refine sorted_congr (fun x hx => ?_) H.runSorted
    have hq := ((H.runMem x.1 x.2).mp hx).1
    exact ⟨(hp x.2).vruntime hq, (hp x.2).nice hq⟩
  · exact fun a p => (H.runMem a p).trans (hiff _ (by decide) a p).symm
  · exact hs ▸ H.sleep
  · exact H.sleepSorted
  · exact fun a p => (H.sleepMem a p).trans (hiff _ (by decide) a p).symm
  · exact hw ▸ H.event
  · intro a p
    rw [hw]
    exact (H.eventMem a p).trans (hiff _ (by decide) a p).symm
  · exact hw ▸ H.eventUnique
  · rw [hw, hf]
    exact H.eventFresh
  · intro p h
    rw [(hp p).queue] at h
    obtain ⟨h1, h2, hpos, hlt⟩ := H.live p h
    exact ⟨fun hc => h1 ((hp p).created h hc), fun hz => h2 ((hp p).zombie h hz), hpos,
      hlt.trans_le ht⟩

/-- The ordering fields of a process do not change while it has its node in the run
queue: it keeps its node and the fields, or it has a new node. -/
def Steady (s s' : Kernel) : Prop :=
  s.runQueue.fresh ≤ s'.runQueue.fresh ∧
    ∀ p, (s'.proc p).curQueue = .runQueue →
      s.runQueue.fresh ≤ (s'.proc p).queueHandle ∨
      ((s.proc p).curQueue = .runQueue ∧ (s'.proc p).queueHandle = (s.proc p).queueHandle ∧
        (s'.proc p).vruntime = (s.proc p).vruntime ∧ (s'.proc p).nice = (s.proc p).nice)

theorem Steady.refl (s : Kernel) : Steady s s :=
  ⟨le_rfl, fun _ h => .inr ⟨h, rfl, rfl, rfl⟩⟩

theorem Steady.trans (h : Steady s s') (h' : Steady s' s'') : Steady s s'' := by
  refine ⟨h.1.trans h'.1, fun p hp => ?_⟩
  obtain hnew | ⟨hq, hh, hv, hn⟩ := h'.2 p hp
  · exact .inl (h.1.trans hnew)
  · obtain hnew | ⟨hq', hh', hv', hn'⟩ := h.2 p hq
    · exact .inl (hh ▸ hnew)
    · exact .inr ⟨hq', hh.trans hh', hv.trans hv', hn.trans hn'⟩

/-! ## Leaving a queue -/

section

variable (H : Queues s rq sq)
include H

theorem Queues.not_run (h : (s.proc p).curQueue ≠ .runQueue) {x : Nat × Nat}
    (hx : x ∈ rq) : x.2 ≠ p := by
  rintro rfl
  exact h ((H.runMem x.1 x.2).mp hx).1

theorem Queues.not_sleep (h : (s.proc p).curQueue ≠ .sleepQueue)
    {x : Nat × SleepProc} (hx : x ∈ sq) : x.2.p ≠ p := by
  rintro rfl
  exact h ((H.sleepMem x.1 x.2.p).mp ⟨x.2.wakeupNs, hx⟩).1

theorem Queues.not_event (h : (s.proc p).curQueue ≠ .eventQueue)
    {cv : Nat} {e : Nat × Nat} (he : e ∈ s.waiting cv) : e.2 ≠ p := by
  rintro rfl
  exact h ((H.eventMem e.1 e.2).mp ⟨cv, he⟩).1

/-- A process leaves when the queues lose exactly its entries. -/
theorem Queues.drop {rq' : List (Nat × Nat)} {sq' : List (Nat × SleepProc)} {t : Rbtree Nat}
    {u : Rbtree SleepProc} {w : Nat → List (Nat × Nat)}
    (ht : Holds t rq') (hrq : rq'.Sublist rq) (hr : ∀ x, x ∈ rq' ↔ x ∈ rq ∧ x.2 ≠ p)
    (hu : Holds u sq') (hsq : sq'.Sublist sq) (hs : ∀ x, x ∈ sq' ↔ x ∈ sq ∧ x.2.p ≠ p)
    (hwq : ∀ cv, (w cv).Sublist (s.waiting cv))
    (hw : ∀ cv e, e ∈ w cv ↔ e ∈ s.waiting cv ∧ e.2 ≠ p) :
    Queues ((s.putQueues t u w).modify p leave) rq' sq' := by
  have hp (P : Prop) (id : QueueId) (hid : id ≠ .noQueue) (a q : Nat)
      (hq : P ↔ (s.proc q).curQueue = id ∧ (s.proc q).queueHandle = a) :
      (P ∧ q ≠ p ↔ (((s.putQueues t u w).modify p leave).proc q).curQueue = id ∧
        (((s.putQueues t u w).modify p leave).proc q).queueHandle = a) := by
    rw [hq]
    by_cases hqp : q = p
    · subst hqp
      simp [Ne.symm hid]
    · simp [hqp]
  constructor
  · exact ht
  · refine sorted_congr (fun x hx => ?_) (H.runSorted.sublist hrq)
    have hne := ((hr x).mp hx).2
    simp [hne]
  · intro a q
    rw [hr]
    exact hp _ _ (by decide) a q (H.runMem a q)
  · exact hu
  · exact H.sleepSorted.sublist hsq
  · intro a q
    rw [← hp _ _ (by decide) a q (H.sleepMem a q)]
    simp [hs]
  · exact fun cv => (H.event cv).sublist (hwq cv)
  · intro a q
    rw [← hp _ _ (by decide) a q (H.eventMem a q)]
    simp [hw]
  · intro cv cv' e e' he he'
    exact H.eventUnique cv cv' e e' ((hwq cv).subset he) ((hwq cv').subset he')
  · exact fun cv e he => H.eventFresh cv e ((hwq cv).subset he)
  · intro q hq
    by_cases hqp : q = p
    · subst hqp
      simp at hq
    · simp only [modify_proc, putQueues_proc, update_of_ne hqp] at hq ⊢
      exact H.live q hq

end

theorem mem_cut {xs ys : List α} {x : α} (h : (xs ++ x :: ys).Nodup) (z : α) :
    z ∈ xs ++ ys ↔ z ∈ xs ++ x :: ys ∧ z ≠ x := by
  have hx := (nodup_cons.mp (nodup_middle.mp h)).1
  constructor
  · intro hz
    refine ⟨?_, ne_of_mem_of_not_mem hz hx⟩
    simp only [mem_append, mem_cons] at hz ⊢
    tauto
  · simp only [mem_append, mem_cons]
    tauto

/-- `remove_from_queue` takes a process out of the queue it is in. From the sleep
queue it takes exactly its entry. -/
theorem Queues.remove (H : Queues s rq sq) (p : Nat) :
    ∃ s' rq' sq', s.removeFromQueue p = some s' ∧ Queues s' rq' sq' ∧
      s'.runQueue.fresh = s.runQueue.fresh ∧
      ∀ xs e ys, sq = xs ++ e :: ys → e.2.p = p → sq' = xs ++ ys := by
  cases hq : (s.proc p).curQueue with
  | noQueue =>
    have hnr {x : Nat × Nat} (hx : x ∈ rq) := H.not_run (p := p) (by rw [hq]; decide) hx
    have hns {x : Nat × SleepProc} (hx : x ∈ sq) := H.not_sleep (p := p) (by rw [hq]; decide) hx
    have hne {cv : Nat} {e : Nat × Nat} (he : e ∈ s.waiting cv) :=
      H.not_event (p := p) (by rw [hq]; decide) he
    refine ⟨_, rq, sq, by rw [removeFromQueue, hq]; rfl,
      H.drop H.run (.refl _) (fun x => ⟨fun h => ⟨h, hnr h⟩, And.left⟩) H.sleep (.refl _)
        (fun x => ⟨fun h => ⟨h, hns h⟩, And.left⟩) (fun cv => .refl _)
        (fun cv e => ⟨fun h => ⟨h, hne h⟩, And.left⟩), rfl, ?_⟩
    rintro xs e ys rfl he
    exact absurd he (hns (by simp))
  | runQueue =>
    have hns {x : Nat × SleepProc} (hx : x ∈ sq) := H.not_sleep (p := p) (by rw [hq]; decide) hx
    have hne {cv : Nat} {e : Nat × Nat} (he : e ∈ s.waiting cv) :=
      H.not_event (p := p) (by rw [hq]; decide) he
    obtain ⟨xs, ys, rfl⟩ := append_of_mem ((H.runMem _ p).mpr ⟨hq, rfl⟩)
    obtain ⟨t, he, ht, hfresh⟩ := Rbtree.erase_spec H.run
    have hone (x : Nat × Nat) (hx : x ∈ xs ++ ((s.proc p).queueHandle, p) :: ys) :
        x ≠ ((s.proc p).queueHandle, p) ↔ x.2 ≠ p := by
      refine not_congr ⟨congrArg Prod.snd, fun h => ?_⟩
      obtain ⟨-, hh⟩ := (H.runMem x.1 p).mp (h ▸ hx)
      rw [hh, ← h]
    refine ⟨_, xs ++ ys, sq, by rw [removeFromQueue, hq]; simp only [he]; rfl,
      H.drop ht ((sublist_cons_self ..).append_left xs) (fun x => ?_) H.sleep (.refl _)
        (fun x => ⟨fun h => ⟨h, hns h⟩, And.left⟩) (fun cv => .refl _)
        (fun cv e => ⟨fun h => ⟨h, hne h⟩, And.left⟩), hfresh, ?_⟩
    · rw [mem_cut H.run.nodup.of_map]
      exact and_congr_right (hone x)
    · rintro xs e ys rfl he
      exact absurd he (hns (by simp))
  | sleepQueue =>
    have hnr {x : Nat × Nat} (hx : x ∈ rq) := H.not_run (p := p) (by rw [hq]; decide) hx
    have hne {cv : Nat} {e : Nat × Nat} (he : e ∈ s.waiting cv) :=
      H.not_event (p := p) (by rw [hq]; decide) he
    obtain ⟨w, hw⟩ := (H.sleepMem _ p).mpr ⟨hq, rfl⟩
    obtain ⟨xs, ys, rfl⟩ := append_of_mem hw
    obtain ⟨u, he, hu, -⟩ := Rbtree.erase_spec H.sleep
    have hone (x : Nat × SleepProc) (hx : x ∈ xs ++ ((s.proc p).queueHandle, ⟨p, w⟩) :: ys)
        (h : x.2.p = p) : x = ((s.proc p).queueHandle, ⟨p, w⟩) := by
      obtain ⟨-, hh⟩ := (H.sleepMem x.1 x.2.p).mp ⟨x.2.wakeupNs, hx⟩
      exact inj_on_of_nodup_map H.sleep.nodup hx hw (by rw [← hh, h])
    refine ⟨_, rq, xs ++ ys, by rw [removeFromQueue, hq]; simp only [he]; rfl,
      H.drop H.run (.refl _) (fun x => ⟨fun h => ⟨h, hnr h⟩, And.left⟩) hu
        ((sublist_cons_self ..).append_left xs) (fun x => ?_) (fun cv => .refl _)
        (fun cv e => ⟨fun h => ⟨h, hne h⟩, And.left⟩), rfl, ?_⟩
    · rw [mem_cut H.sleep.nodup.of_map]
      refine and_congr_right fun hx => not_congr ⟨fun h => by rw [h], hone x hx⟩
    intro xs' e ys' heq hep
    obtain rfl := hone e (by rw [heq]; simp) hep
    have hout := (nodup_cons.mp (nodup_middle.mp H.sleep.nodup.of_map)).1
    rw [mem_append, not_or] at hout
    obtain ⟨hx, -, hy⟩ := (append_cons_inj_of_notMem hout.1 hout.2).mp heq
    rw [hx, hy]
  | eventQueue =>
    have hnr {x : Nat × Nat} (hx : x ∈ rq) := H.not_run (p := p) (by rw [hq]; decide) hx
    have hns {x : Nat × SleepProc} (hx : x ∈ sq) := H.not_sleep (p := p) (by rw [hq]; decide) hx
    obtain ⟨c, hc⟩ := (H.eventMem _ p).mpr ⟨hq, rfl⟩
    refine ⟨_, rq, sq, by rw [removeFromQueue, hq]; rfl,
      H.drop H.run (.refl _) (fun x => ⟨fun h => ⟨h, hnr h⟩, And.left⟩) H.sleep (.refl _)
        (fun x => ⟨fun h => ⟨h, hns h⟩, And.left⟩) (fun cv => filter_sublist) (fun cv e => ?_),
      rfl, ?_⟩
    · simp only [mem_filter, decide_eq_true_eq]
      refine and_congr_right fun he => not_congr ⟨fun h => ?_, fun h => ?_⟩
      · rw [(H.eventUnique cv c e _ he hc h).2]
      · exact ((H.eventMem e.1 p).mp ⟨cv, h ▸ he⟩).2.symm
    · rintro xs e ys rfl he
      exact absurd he (hns (by simp))

/-! ## Entering a queue -/

section
variable {cfg : Config}

theorem Config.insert_guard {K : Type} {o : Rbtree.Order K} {t : Rbtree K} {k : K}
    {r : Rbtree K × Nat} (hg : cfg.guard = true) (h : cfg.insert o t k = some r) :
    Rbtree.insertOk o t k = true ∧ Rbtree.insert o t k = some r := by
  unfold Config.insert at h
  split at h
  · cases h
  · rename_i hok
    rw [hg, Bool.true_and, Bool.not_eq_true', Bool.not_eq_false] at hok
    exact ⟨hok, h⟩

/-- A new key in a sorted tree gets the next node. -/
theorem insert_new {K : Type} {o : Rbtree.Order K} {t : Rbtree K} {xs : List (Nat × K)} {k : K}
    {r : Rbtree K × Nat} (hg : cfg.guard = true) (H : Holds t xs)
    (ho : o.TotalOn {a | a = k ∨ a ∈ xs.map Prod.snd}) (hs : o.Sorted xs)
    (hk : k ∉ xs.map Prod.snd) (h : cfg.insert o t k = some r) :
    ∃ ys zs, xs = ys ++ zs ∧ r.2 = t.fresh ∧ r.1.fresh = t.fresh + 1 ∧
      Holds r.1 (ys ++ (t.fresh, k) :: zs) ∧ o.Sorted (ys ++ (t.fresh, k) :: zs) := by
  obtain ⟨hok, hins⟩ := Config.insert_guard hg h
  obtain ⟨x, hx, he, -⟩ | ⟨ys, zs, t', rfl, hins', H', hf, hsort⟩ := Rbtree.insert_spec H hok
  · rw [(ho.eq_iff k (.inl rfl) x.2 (.inr (mem_map_of_mem hx))).mp he] at hk
    exact absurd (mem_map_of_mem hx) hk
  · rw [hins] at hins'
    cases hins'
    obtain ⟨hys, hzs⟩ := hsort ho hs
    exact ⟨ys, zs, rfl, rfl, hf, H', hs.insert hys hzs⟩

/-- A process in no queue becomes `q'`, and the queues gain what `q'` says. -/
theorem Queues.join {q' : Proc} {rq' : List (Nat × Nat)} {sq' : List (Nat × SleepProc)}
    (H : Queues s rq sq) (hq : (s.proc p).curQueue = .noQueue) (hpos : 0 < p) (hlt : p < s.nextTid)
    (hproc : s'.proc = update s.proc p q') (htid : s'.nextTid = s.nextTid)
    (hc : q'.status ≠ .created) (hz : q'.status ≠ .zombie)
    (hrun : Holds s'.runQueue rq') (hrs : (procOrder s'.proc).Sorted rq')
    (hr : ∀ a q, (a, q) ∈ rq' ↔
      (a, q) ∈ rq ∨ q = p ∧ q'.curQueue = .runQueue ∧ q'.queueHandle = a)
    (hsleep : Holds s'.sleepQueue sq') (hss : sleepOrder.Sorted sq')
    (hs : ∀ a q, (∃ w, (a, ⟨q, w⟩) ∈ sq') ↔
      (∃ w, (a, ⟨q, w⟩) ∈ sq) ∨ q = p ∧ q'.curQueue = .sleepQueue ∧ q'.queueHandle = a)
    (hev : ∀ cv, (s'.waiting cv).Nodup) (he : ∀ a q, (∃ cv, (a, q) ∈ s'.waiting cv) ↔
      (∃ cv, (a, q) ∈ s.waiting cv) ∨ q = p ∧ q'.curQueue = .eventQueue ∧ q'.queueHandle = a)
    (hu : ∀ cv cv' e e', e ∈ s'.waiting cv → e' ∈ s'.waiting cv' → e.1 = e'.1 → cv = cv' ∧ e = e')
    (hf : ∀ cv, ∀ e ∈ s'.waiting cv, e.1 < s'.freshEntry) : Queues s' rq' sq' := by
  have hp (P : Prop) (id : QueueId) (hid : id ≠ .noQueue) (a q : Nat)
      (h : P ↔ (s.proc q).curQueue = id ∧ (s.proc q).queueHandle = a) :
      (P ∨ q = p ∧ q'.curQueue = id ∧ q'.queueHandle = a) ↔
        (s'.proc q).curQueue = id ∧ (s'.proc q).queueHandle = a := by
    rw [h, hproc]
    by_cases hqp : q = p
    · subst hqp
      simp [hq, hid.symm]
    · simp [hqp]
  constructor
  · exact hrun
  · exact hrs
  · exact fun a q => (hr a q).trans (hp _ _ (by decide) a q (H.runMem a q))
  · exact hsleep
  · exact hss
  · exact fun a q => (hs a q).trans (hp _ _ (by decide) a q (H.sleepMem a q))
  · exact hev
  · exact fun a q => (he a q).trans (hp _ _ (by decide) a q (H.eventMem a q))
  · exact hu
  · exact hf
  · intro q
    rw [hproc, htid]
    by_cases hqp : q = p
    · subst hqp
      simp [hc, hz, hpos, hlt]
    · rw [update_of_ne hqp]
      exact H.live q

/-- `run_queue.insert` of a process that is in no queue, between updates of it that
leave it in the run queue with its new node. -/
theorem Queues.enter {f g : Proc → Proc} (H : Queues s rq sq) (hg : cfg.guard = true)
    (hq : (s.proc p).curQueue = .noQueue) (hpos : 0 < p) (hlt : p < s.nextTid)
    (hfg : ∀ a, (g ((f (s.proc p)).setHandle a)).curQueue = .runQueue ∧
      (g ((f (s.proc p)).setHandle a)).queueHandle = a ∧
      (g ((f (s.proc p)).setHandle a)).vruntime = (f (s.proc p)).vruntime ∧
      (g ((f (s.proc p)).setHandle a)).nice = (f (s.proc p)).nice ∧
      (g ((f (s.proc p)).setHandle a)).status ≠ .created ∧
      (g ((f (s.proc p)).setHandle a)).status ≠ .zombie)
    (h : (s.modify p f).insertRun cfg p = some s') : ∃ t rq', t.fresh = s.runQueue.fresh + 1 ∧
      s'.modify p g = (s.putQueues t s.sleepQueue s.waiting).modify p (fun q =>
        g ((f q).setHandle s.runQueue.fresh)) ∧
      Queues (s'.modify p g) rq' sq := by
  obtain ⟨r, hr, rfl⟩ := Option.map_eq_some_iff.mp h
  have hnr {x : Nat × Nat} (hx : x ∈ rq) := H.not_run (p := p) (by rw [hq]; decide) hx
  have hsorted : (procOrder (s.modify p f).proc).Sorted rq :=
    sorted_congr (fun x hx => by simp [hnr hx]) H.runSorted
  have hk : p ∉ rq.map Prod.snd := by
    intro hmem
    obtain ⟨x, hx, hxp⟩ := mem_map.mp hmem
    exact hnr hx hxp
  obtain ⟨ys, zs, rfl, hnode, hfresh, H', hs'⟩ := insert_new hg H.run
    ((procOrder_total _).mono (Set.subset_univ _)) hsorted hk hr
  have hform : (((s.modify p f).putQueues r.1 s.sleepQueue s.waiting).modify p
      (fun q => q.setHandle r.2)).modify p g =
      (s.putQueues r.1 s.sleepQueue s.waiting).modify p (fun q =>
        g ((f q).setHandle s.runQueue.fresh)) := by
    simp [Kernel.modify, Kernel.putQueues, ← hnode]
  refine ⟨r.1, ys ++ (s.runQueue.fresh, p) :: zs, hfresh, hform, ?_⟩
  change Queues ((((s.modify p f).putQueues r.1 s.sleepQueue s.waiting).modify p
    (fun q => q.setHandle r.2)).modify p g) _ _
  rw [hform]
  obtain ⟨h1, h2, h3, h4, h5, h6⟩ := hfg s.runQueue.fresh
  refine H.join hq hpos hlt rfl rfl h5 h6 H' (sorted_congr (fun x hx => ?_) hs') (fun a q => ?_)
    H.sleep H.sleepSorted (fun a q => ?_) H.event (fun a q => ?_) H.eventUnique H.eventFresh
  · by_cases hxp : x.2 = p
    · simp [hxp, h3, h4]
    · simp [hxp]
  · simp only [mem_append, mem_cons, Prod.mk.injEq, putQueues_proc, h1, h2]
    grind
  · simp [h1]
  · simp [h1]

theorem mem_pushFront {xs : List α} {x y : α} : y ∈ pushFront xs x ↔ y ∈ xs ∨ y = x := by
  cases xs with
  | nil => simp [pushFront]
  | cons z zs =>
    simp only [pushFront, mem_cons]
    tauto

theorem nodup_pushFront {xs : List α} {x : α} (h : xs.Nodup) (hx : x ∉ xs) :
    (pushFront xs x).Nodup := by
  cases xs with
  | nil => simp [pushFront]
  | cons z zs =>
    simp only [pushFront, nodup_cons, mem_cons, not_or] at h hx ⊢
    exact ⟨⟨Ne.symm hx.1, h.1⟩, hx.2, h.2⟩

/-- A process in no queue starts to wait for a condition variable. -/
theorem Queues.enterEvent {f : Proc → Proc} (H : Queues s rq sq)
    (hq : (s.proc p).curQueue = .noQueue) (hpos : 0 < p) (hlt : p < s.nextTid) (cv : Nat)
    (hf : (f (s.proc p)).curQueue = .eventQueue ∧ (f (s.proc p)).queueHandle = s.freshEntry ∧
      (f (s.proc p)).status ≠ .created ∧ (f (s.proc p)).status ≠ .zombie) :
    Queues ((s.modify p f).pushWaiting cv p) rq sq := by
  obtain ⟨h1, h2, h3, h4⟩ := hf
  have hnr {x : Nat × Nat} (hx : x ∈ rq) := H.not_run (p := p) (by rw [hq]; decide) hx
  have hmem (c : Nat) (e : Nat × Nat) : e ∈ ((s.modify p f).pushWaiting cv p).waiting c ↔
      e ∈ s.waiting c ∨ c = cv ∧ e = (s.freshEntry, p) := by
    rw [pushWaiting_waiting]
    by_cases hc : c = cv
    · subst hc
      simp [mem_pushFront]
    · simp [hc]
  refine H.join hq hpos hlt rfl rfl h3 h4 H.run (sorted_congr (fun x hx => ?_) H.runSorted)
    (fun a q => ?_) H.sleep H.sleepSorted (fun a q => ?_) (fun c => ?_) (fun a q => ?_) ?_ ?_
  · simp [hnr hx]
  · simp [h1]
  · simp [h1]
  · rw [pushWaiting_waiting]
    by_cases hc : c = cv
    · subst hc
      rw [update_self]
      exact nodup_pushFront (H.event c) fun he => (H.eventFresh c _ he).false
    · rw [update_of_ne hc]
      exact H.event c
  · simp only [hmem, h1, h2, Prod.mk.injEq]
    grind
  · intro c c' e e' he he' heq
    have h := H.eventFresh
    rw [hmem] at he he'
    obtain he | ⟨rfl, rfl⟩ := he <;> obtain he' | ⟨rfl, rfl⟩ := he'
    · exact H.eventUnique c c' e e' he he' heq
    · exact absurd heq (h c e he).ne
    · exact absurd heq (h c' e' he').ne'
    · exact ⟨rfl, rfl⟩
  · intro c e he
    rw [hmem] at he
    obtain he | ⟨-, rfl⟩ := he
    · exact (H.eventFresh c e he).trans (Nat.lt_succ_self _)
    · exact Nat.lt_succ_self _

/-- A process in no queue goes to sleep. -/
theorem Queues.enterSleep {f : Proc → Proc} {w : Nat} {r : Rbtree SleepProc × Nat}
    (H : Queues s rq sq) (hg : cfg.guard = true)
    (hq : (s.proc p).curQueue = .noQueue) (hpos : 0 < p) (hlt : p < s.nextTid)
    (hf : (f (s.proc p)).curQueue = .sleepQueue ∧ (f (s.proc p)).status ≠ .created ∧
      (f (s.proc p)).status ≠ .zombie)
    (h : cfg.insert sleepOrder s.sleepQueue ⟨p, w⟩ = some r) :
    ∃ sq', Queues ((s.putQueues s.runQueue r.1 s.waiting).modify p
      fun q => (f q).setHandle r.2) rq sq' ∧ ∀ x ∈ sq', x ∈ sq ∨ x = (r.2, ⟨p, w⟩) := by
  obtain ⟨h1, h2, h3⟩ := hf
  have hnr {x : Nat × Nat} (hx : x ∈ rq) := H.not_run (p := p) (by rw [hq]; decide) hx
  have hns {x : Nat × SleepProc} (hx : x ∈ sq) := H.not_sleep (p := p) (by rw [hq]; decide) hx
  have hinj : ∀ a ∈ {a | a = ⟨p, w⟩ ∨ a ∈ sq.map Prod.snd},
      ∀ b ∈ {a | a = ⟨p, w⟩ ∨ a ∈ sq.map Prod.snd}, a.p = b.p → a = b := by
    rintro a (rfl | ha) b (rfl | hb) hab
    · rfl
    · obtain ⟨y, hy, rfl⟩ := mem_map.mp hb
      exact absurd hab.symm (hns hy)
    · obtain ⟨x, hx, rfl⟩ := mem_map.mp ha
      exact absurd hab (hns hx)
    · obtain ⟨x, hx, rfl⟩ := mem_map.mp ha
      obtain ⟨y, hy, rfl⟩ := mem_map.mp hb
      have hx' := ((H.sleepMem x.1 x.2.p).mp ⟨x.2.wakeupNs, hx⟩).2
      have hy' := ((H.sleepMem y.1 y.2.p).mp ⟨y.2.wakeupNs, hy⟩).2
      rw [inj_on_of_nodup_map H.sleep.nodup hx hy (by rw [← hx', ← hy', hab])]
  have hk : (⟨p, w⟩ : SleepProc) ∉ sq.map Prod.snd := by
    intro hmem
    obtain ⟨x, hx, hxp⟩ := mem_map.mp hmem
    exact hns hx (congrArg SleepProc.p hxp)
  obtain ⟨ys, zs, rfl, hnode, -, H', hs'⟩ := insert_new hg H.sleep (sleepOrder_total hinj)
    H.sleepSorted hk h
  refine ⟨_, H.join hq hpos hlt rfl rfl h2 h3 H.run (sorted_congr (fun x hx => ?_) H.runSorted)
    (fun a q => ?_) H' hs' (fun a q => ?_) H.event (fun a q => ?_) H.eventUnique H.eventFresh,
    fun x hx => ?_⟩
  · simp [hnr hx]
  · simp [h1]
  · simp only [mem_append, mem_cons, Prod.mk.injEq, SleepProc.mk.injEq,
      putQueues_proc, setHandle_curQueue, h1, ← hnode, setHandle_queueHandle]
    grind
  · simp [h1]
  · simp only [mem_append, mem_cons, ← hnode] at hx ⊢
    tauto

end

end Sysint.Process
