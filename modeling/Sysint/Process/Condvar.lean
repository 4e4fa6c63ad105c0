import Sysint.Container.LinkedList
import Sysint.Process.Elf
import Sysint.Process.Wake

/-! The waiting lists of the condition variables in memory. A process that waits has an iterator
on the heap in `queue_handle`, through which `remove_from_queue` erases its node; the kernel model
has only the entries. -/
namespace Sysint.Process
open Option Nat
open List hiding nil
open Container (LinkedList)
open Container.LinkedList (Entry Valid)
open Elf (einval)
open Kernel
open Function
open Machine
open Rbtree

/-- The lists, and what is on the heap for them. -/
structure Events where
  /-- `waiting_procs` of every condition variable. -/
  list : Nat → LinkedList Nat
  /-- The nodes that are allocated. -/
  node : Nat → Bool
  /-- The iterators: a condition variable and a node of its list. -/
  iter : Nat → Option (Nat × Nat)
  /-- `queue_handle` of a process that waits. -/
  handle : Nat → Nat

namespace Events

/-- `it->erase(); delete it;` for the handle of `p`, which designates the node `n`. -/
@[simps]
def erase (m : Events) (p cv n : Nat) : Events :=
  { m with
    list := update m.list cv ((m.list cv).erase n)
    node := update m.node n false
    iter := update m.iter (m.handle p) none }

/-- `remove_from_queue` of a process that waits. To use what has been deleted is undefined. -/
def remove (m : Events) (p : Nat) : Option Events := do
  let it ← m.iter (m.handle p)
  if m.node it.2 then some (m.erase p it.1 it.2) else none

/-- `queue_handle = new iterator(waiting_procs.push_front({p}))`, with the addresses that
`operator new` returns. -/
@[simps]
def push (m : Events) (cv p node it : Nat) : Events where
  list := update m.list cv ((m.list cv).pushFront node p)
  node := update m.node node true
  iter := update m.iter it (some (cv, node))
  handle := update m.handle p it

/-- The processes from `begin()` to `end()`. -/
def waiters (m : Events) (cv : Nat) : List Nat :=
  ((m.list cv).forward (m.list cv).sz).filterMap (m.list cv).key

end Events

/-- The nodes hold the entries `l`, and every process has the iterator to its node. -/
structure Mem (m : Events) (l : Nat → List (Entry Nat)) : Prop where
  lists : ∀ cv, (m.list cv).Holds (l cv)
  node : ∀ cv, ∀ e ∈ l cv, m.node e.1 = true
  iter : ∀ cv, ∀ e ∈ l cv, m.iter (m.handle e.2) = some (cv, e.1)
  apart : ∀ cv cv', ∀ e ∈ l cv, ∀ e' ∈ l cv', e.1 = e'.1 → cv = cv'

variable {m m' : Events} {l : Nat → List (Entry Nat)} {cv p : Nat} {e e' : Entry Nat}
  {ps : List Nat}

theorem Mem.waiters (M : Mem m l) (cv : Nat) : m.waiters cv = (l cv).map Prod.snd := by
  have H := M.lists cv
  have hlen : ((l cv).map (·.1)).length ≤ (m.list cv).sz := by rw [length_map, H.sz]
  rw [Events.waiters, LinkedList.forward, H.ring.toList hlen, filterMap_map]
  rw [← filterMap_eq_map]
  exact filterMap_congr fun e he => H.key e he

/-- A process has one entry. -/
theorem Mem.unique (M : Mem m l) {cv' : Nat} (he : e ∈ l cv) (he' : e' ∈ l cv') (hp : e.2 = e'.2) :
    cv = cv' ∧ e = e' := by
  have h := M.iter cv e he
  rw [hp, M.iter cv' e' he', some_inj, Prod.mk.injEq] at h
  exact ⟨h.1.symm, Prod.ext h.2.symm hp⟩

theorem filter_ne_split {xs ys : List (Entry Nat)} (h : ∀ x ∈ xs ++ ys, x.2 ≠ e.2) :
    (xs ++ e :: ys).filter (fun x => x.2 ≠ e.2) = xs ++ ys := by
  have hself : (xs ++ ys).filter (fun x => x.2 ≠ e.2) = xs ++ ys :=
    filter_eq_self.mpr fun x hx => by simpa using h x hx
  rw [filter_append] at hself
  rw [filter_append, filter_cons_of_neg (by simp), hself]

theorem filter_not_mem_cons (l : Nat → List (Entry Nat)) (p : Nat) (ps : List Nat) :
    (fun c => ((l c).filter fun x => x.2 ≠ p).filter fun x => x.2 ∉ ps) =
      fun c => (l c).filter fun x => x.2 ∉ p :: ps := by
  funext c
  rw [List.filter_filter]
  apply filter_congr
  intro x _
  rw [Bool.eq_iff_iff]
  simp only [Bool.and_eq_true, decide_eq_true_eq, mem_cons, not_or]
  exact and_comm

/-- `remove_from_queue` of a process that waits. -/
theorem Mem.remove (M : Mem m l) (he : e ∈ l cv) :
    ∃ m', m.remove e.2 = some m' ∧ (∀ c, (m'.list c).head = (m.list c).head) ∧
      Mem m' fun c => (l c).filter fun x => x.2 ≠ e.2 := by
  have hiter := M.iter cv e he
  have hnode := M.node cv e he
  -- only the entry itself has its node and its iterator
  have hother {c : Nat} {x : Entry Nat} (hx : x ∈ l c) (hne : x.2 ≠ e.2) :
      x.1 ≠ e.1 ∧ m.handle x.2 ≠ m.handle e.2 := by
    constructor
    · intro h1
      obtain rfl := M.apart c cv x hx e he h1
      have hnd := (nodup_cons.mp (M.lists c).ring.nodup).2
      exact hne (congrArg Prod.snd (inj_on_of_nodup_map hnd hx he h1))
    intro hh
    have h := M.iter c x hx
    rw [hh, hiter, some_inj, Prod.mk.injEq] at h
    obtain ⟨rfl, h1⟩ := h
    have hnd := (nodup_cons.mp (M.lists cv).ring.nodup).2
    exact hne (congrArg Prod.snd (inj_on_of_nodup_map hnd hx he h1.symm))
  have hrem : m.remove e.2 = some (m.erase e.2 cv e.1) := by
    simp [Events.remove, hiter, hnode]
  refine ⟨_, hrem, fun c => ?_, ?_, ?_, ?_, ?_⟩
  · by_cases hc : c = cv
    · subst hc
      simp
    · simp [hc]
  · intro c
    by_cases hc : c = cv
    · subst hc
      obtain ⟨xs, ys, hl⟩ := append_of_mem he
      have H := M.lists c
      rw [hl] at H
      have hne : ∀ x ∈ xs ++ ys, x.2 ≠ e.2 := by
        intro x hx hp
        have hin : x ∈ l c := by
          rw [hl]
          simp only [mem_append, mem_cons] at hx ⊢
          tauto
        exact H.nodup.1 x hx (congrArg Prod.fst (M.unique hin he hp).2)
      rw [hl, filter_ne_split hne]
      simpa using H.erase
    · have hself : (l c).filter (fun x => x.2 ≠ e.2) = l c := by
        apply filter_eq_self.mpr
        intro x hx
        have hne : x.2 ≠ e.2 := fun hp => hc (M.unique hx he hp).1
        simpa using hne
      rw [hself]
      simpa [hc] using M.lists c
  · intro c x hx
    obtain ⟨hx, hne⟩ := mem_filter.mp hx
    rw [Events.erase_node, update_of_ne (hother hx (by simpa using hne)).1]
    exact M.node c x hx
  · intro c x hx
    obtain ⟨hx, hne⟩ := mem_filter.mp hx
    rw [Events.erase_iter, Events.erase_handle, update_of_ne (hother hx (by simpa using hne)).2]
    exact M.iter c x hx
  · intro c c' x hx x' hx' h1
    exact M.apart c c' x (mem_filter.mp hx).1 x' (mem_filter.mp hx').1 h1

/-- `remove_from_queue` of several processes that wait. -/
theorem Mem.removeAll (M : Mem m l) (hnd : ps.Nodup)
    (hps : ∀ p ∈ ps, ∃ cv, p ∈ (l cv).map Prod.snd) :
    ∃ m', ps.foldlM Events.remove m = some m' ∧ Mem m' fun c => (l c).filter fun x => x.2 ∉ ps := by
  induction ps generalizing m l with
  | nil => exact ⟨m, rfl, by simpa using M⟩
  | cons p ps ih =>
    obtain ⟨hp, htail⟩ := nodup_cons.mp hnd
    obtain ⟨cv, hcv⟩ := hps p mem_cons_self
    obtain ⟨e, he, rfl⟩ := List.mem_map.mp hcv
    obtain ⟨m1, hm1, -, M1⟩ := M.remove he
    obtain ⟨m', hm', M'⟩ := ih M1 htail fun q hq => by
      obtain ⟨c, hc⟩ := hps q (mem_cons_of_mem _ hq)
      obtain ⟨x, hx, rfl⟩ := List.mem_map.mp hc
      have hne : x.2 ≠ e.2 := fun h => hp (h ▸ hq)
      exact ⟨c, List.mem_map_of_mem (mem_filter.mpr ⟨hx, by simpa using hne⟩)⟩
    refine ⟨m', ?_, filter_not_mem_cons l e.2 ps ▸ M'⟩
    rw [foldlM_cons, hm1]
    exact hm'

theorem Mem.push (M : Mem m l) {node it : Nat} (hp : ∀ c, ∀ e ∈ l c, e.2 ≠ p)
    (hnode : m.node node = false) (hhead : node ≠ (m.list cv).head) (hit : m.iter it = none) :
    Mem (m.push cv p node it)
      (update l cv (pushFront (l cv) (node, p))) := by
  -- what is on the heap is not at the new addresses
  have hold {c : Nat} {x : Entry Nat} (hx : x ∈ l c) : x.1 ≠ node ∧ m.handle x.2 ≠ it := by
    constructor
    · rintro rfl
      rw [M.node c x hx] at hnode
      cases hnode
    · intro hh
      rw [← hh, M.iter c x hx] at hit
      cases hit
  have hmem {c : Nat} {x : Entry Nat}
      (hx : x ∈ update l cv (pushFront (l cv) (node, p)) c) :
      x ∈ l c ∨ c = cv ∧ x = (node, p) := by
    by_cases hc : c = cv
    · subst hc
      rw [update_self, mem_pushFront] at hx
      tauto
    · rw [update_of_ne hc] at hx
      exact .inl hx
  constructor
  · intro c
    by_cases hc : c = cv
    · subst hc
      have hfresh : ¬ Valid (m.list c).head (l c) node := by
        intro hv
        obtain h | h := mem_cons.mp hv
        · exact hhead h
        · obtain ⟨x, hx, h⟩ := List.mem_map.mp h
          exact (hold hx).1 h
      simpa using (M.lists c).pushFront (k := p) hfresh
    · simpa [hc] using M.lists c
  · intro c x hx
    obtain hx | ⟨-, rfl⟩ := hmem hx
    · simpa [(hold hx).1] using M.node c x hx
    · simp
  · intro c x hx
    obtain hx | ⟨rfl, rfl⟩ := hmem hx
    · simpa [hp c x hx, (hold hx).2] using M.iter c x hx
    · simp
  · intro c c' x hx x' hx' h1
    obtain hin | ⟨rfl, rfl⟩ := hmem hx
    · obtain hin' | ⟨rfl, rfl⟩ := hmem hx'
      · exact M.apart c c' x hin x' hin' h1
      · exact absurd h1 (hold hin).1
    · obtain hin' | ⟨rfl, rfl⟩ := hmem hx'
      · exact absurd h1.symm (hold hin').1
      · rfl

/-! ## The kernel with its lists in memory -/

/-- The kernel and the memory of its condition variables. -/
abbrev Machinery := Kernel × Events

/-- `remove_from_queue` of a process, as far as the lists go. -/
def Events.leave (m : Events) (s : Kernel) (p : Nat) : Option Events :=
  if (s.proc p).curQueue = .eventQueue then m.remove p else some m

/-- `add_proc_run`. -/
def ready (cfg : Config) (x : Machinery) (p : Nat) : Option Machinery := do
  let s ← x.1.addProcRun cfg p false
  let m ← x.2.leave x.1 p
  return (s, m)

/-- The loop of `condvar::wake` at the iterator `it`; the result says if it found `tid`. -/
def wakeLoop (cfg : Config) (cv : Nat) (tid : Int) : Nat → Machinery → Nat →
    Option (Bool × Machinery)
  | 0, _, _ => none
  | fuel + 1, x, it =>
    if it = (x.2.list cv).head then some (false, x)
    else do
      -- the node is still there
      let p ← (x.2.list cv).key it
      if (p : Int) = tid then do
        let x ← ready cfg x p
        return (true, x)
      else
        let next := (x.2.list cv).links.next it
        if tid = -1 then do
          let x ← ready cfg x p
          wakeLoop cfg cv tid fuel x next
        else wakeLoop cfg cv tid fuel x next

/-- `condvar::wake`, with its result. -/
def condvarWake (cfg : Config) (cv : Nat) (tid : Int) (x : Machinery) : Option (Int × Machinery) :=
  (wakeLoop cfg cv tid ((x.2.list cv).sz + 1) x (x.2.list cv).begin_).map fun r =>
    (if r.1 || tid == -1 then 0 else -einval, r.2)

/-- The processes that have left `EVENT_QUEUE`. -/
def leavers (s s' : Kernel) : List Nat :=
  (List.range s.nextTid).filter fun p =>
    (s.proc p).curQueue = .eventQueue && (s'.proc p).curQueue ≠ .eventQueue

variable {cfg : Config} {w : Nat → Nat} {s s' : Kernel} {tid : Int} {xs ys : List (Entry Nat)}
  {sq : List (Nat × SleepProc)} {rq : List (Nat × Nat)}

/-- The node at which a traversal of the entries begins. -/
def firstNode (head : Nat) (xs : List (Entry Nat)) : Nat := (xs.map (·.1)).headD head

/-- The node of an entry, and the one after it. -/
theorem Mem.at (M : Mem m l) (hl : l cv = xs ++ e :: ys) :
    e.1 ≠ (m.list cv).head ∧ (m.list cv).key e.1 = some e.2 ∧
      (m.list cv).links.next e.1 = firstNode (m.list cv).head ys := by
  have H := M.lists cv
  rw [hl] at H
  refine ⟨H.nodup.2, H.key e (by simp), ?_⟩
  have hr := H.ring
  rw [map_append, map_cons] at hr
  exact hr.next_at

/-- The loop of `wake(-1)` erases the node that it has left behind. -/
theorem wakeLoop_all {fuel : Nat} (M : Mem m l) (hl : l cv = xs)
    (hq : ∀ e ∈ xs, (s.proc e.2).curQueue = .eventQueue) (hfuel : xs.length < fuel)
    (h : wakeEntries cfg (-1) xs s = some s') :
    ∃ m', wakeLoop cfg cv (-1) fuel (s, m) (firstNode (m.list cv).head xs) = some
      (false, (s', m')) ∧
      Mem m' fun c => (l c).filter fun x => x.2 ∉ xs.map Prod.snd := by
  induction xs generalizing s m l fuel with
  | nil =>
    obtain ⟨fuel, rfl⟩ := exists_eq_add_one.mpr (zero_lt_of_lt hfuel)
    cases h
    refine ⟨m, ?_, by simpa using M⟩
    simp [wakeLoop, firstNode]
  | cons e es ih =>
    obtain ⟨fuel, rfl⟩ := exists_eq_add_one.mpr (zero_lt_of_lt hfuel)
    have htid : ¬ ((e.2 : Int) = -1) := by omega
    rw [wakeEntries, if_neg htid, if_pos rfl] at h
    obtain ⟨s1, h1, h⟩ := bind_eq_some_iff.mp h
    have hsplit : l cv = [] ++ e :: es := hl
    obtain ⟨hhead, hkey, hnext⟩ := M.at hsplit
    have he : e ∈ l cv := by simp [hl]
    obtain ⟨m1, hm1, hhead1, M1⟩ := M.remove he
    have hne : ∀ x ∈ es, x.2 ≠ e.2 := by
      intro x hx hp
      have H := M.lists cv
      rw [hsplit] at H
      have hin : x ∈ l cv := by simp [hl, hx]
      exact H.nodup.1 x hx (congrArg Prod.fst (M.unique hin he hp).2)
    have hl1 : (l cv).filter (fun x => x.2 ≠ e.2) = es := by
      rw [hsplit, filter_ne_split hne]
      rfl
    obtain ⟨m', hloop, M'⟩ := ih M1 hl1 (fun x hx => by
      rw [addProcRun_other h1 (hne x hx)]
      exact hq x (mem_cons_of_mem _ hx)) (lt_of_succ_lt_succ hfuel) h
    refine ⟨m', ?_, ?_⟩
    · have hready : ready cfg (s, m) e.2 = some (s1, m1) := by
        simp only [ready, h1, Events.leave, hq e mem_cons_self, if_true, hm1,
          bind_eq_bind, bind_some]
        rfl
      have hfirst : firstNode (m.list cv).head (e :: es) = e.1 := rfl
      rw [hfirst, wakeLoop, if_neg hhead]
      simp only [hkey, bind_eq_bind, bind_some, if_neg htid, if_true, hready, hnext]
      rw [hhead1 cv] at hloop
      exact hloop
    · rw [map_cons]
      exact filter_not_mem_cons l e.2 (es.map Prod.snd) ▸ M'

/-- The loop of `wake(tid)` passes the entries of other processes. -/
theorem wakeLoop_skip {fuel n : Nat} {zs : List (Entry Nat)} (M : Mem m l)
    (hl : l cv = xs ++ ys ++ zs)
    (htid : tid ≠ -1) (hne : ∀ e ∈ ys, (e.2 : Int) ≠ tid) (hfuel : fuel = ys.length + n) :
    wakeLoop cfg cv tid fuel (s, m) (firstNode (m.list cv).head (ys ++ zs)) =
      wakeLoop cfg cv tid n (s, m) (firstNode (m.list cv).head zs) := by
  induction ys generalizing xs fuel with
  | nil =>
    subst hfuel
    rw [nil_append, length_nil, Nat.zero_add]
  | cons e es ih =>
    have hsplit : l cv = xs ++ e :: (es ++ zs) := by simp [hl]
    obtain ⟨hhead, hkey, hnext⟩ := M.at hsplit
    have hfirst : firstNode (m.list cv).head (e :: es ++ zs) = e.1 := rfl
    rw [length_cons] at hfuel
    obtain ⟨fuel, rfl⟩ : ∃ k, fuel = k + 1 := ⟨es.length + n, by omega⟩
    rw [hfirst, wakeLoop, if_neg hhead]
    simp only [hkey, bind_eq_bind, bind_some, if_neg (hne e mem_cons_self),
      if_neg htid, hnext]
    have hl' : l cv = xs ++ [e] ++ es ++ zs := by simp [hl]
    exact ih hl' (fun x hx => hne x (mem_cons_of_mem _ hx)) (by omega)

/-! ## The effect of wake -/

/-- The processes `ps` have gone from the list of `cv` to the run queue. -/
structure Moved (w : Nat → Nat) (x y : Machinery) (cv : Nat) (ps : List Nat) : Prop where
  /-- Each of them is READY and in one node of the run queue. -/
  ready : ∀ p ∈ ps, (y.1.proc p).status = .ready ∧ (y.1.proc p).curQueue = .runQueue ∧
    ∃! a, Member y.1 a p .runQueue
  run : ∃ rq rq', Holds x.1.runQueue rq ∧ Readied w x.1 y.1 rq rq' ps
  left : y.2.waiters cv = (x.2.waiters cv).filter fun p => p ∉ ps
  size : (y.2.list cv).sz = (y.2.waiters cv).length
  apart : ∀ c, c ≠ cv → y.2.waiters c = x.2.waiters c

/-- What `condvar::wake` may return and do. -/
inductive WakeExact (w : Nat → Nat) (cv : Nat) (tid : Int) (x : Machinery) (r : Int)
    (y : Machinery) :
    Prop where
  | all : tid = -1 → r = 0 → Moved w x y cv (x.2.waiters cv) → (y.2.list cv).sz = 0 →
      (y.2.list cv).begin_ = (y.2.list cv).head → WakeExact w cv tid x r y
  | one {p : Nat} : (p : Int) = tid → p ∈ x.2.waiters cv → r = 0 → Moved w x y cv [p] →
      WakeExact w cv tid x r y
  | absent : tid ≠ -1 → (∀ p ∈ x.2.waiters cv, (p : Int) ≠ tid) → r = -einval → y = x →
      WakeExact w cv tid x r y

/-- The lists in memory are those of the kernel. -/
def Agrees (s : Kernel) (m : Events) (l : Nat → List (Entry Nat)) : Prop :=
  Mem m l ∧ ∀ cv, (l cv).map Prod.snd = (s.waiting cv).map Prod.snd

theorem wakeEntries_congr {es es' : List (Nat × Nat)} (h : es.map Prod.snd = es'.map Prod.snd) :
    wakeEntries cfg tid es s = wakeEntries cfg tid es' s := by
  induction es generalizing es' s with
  | nil =>
    obtain rfl : es' = [] := map_eq_nil_iff.mp h.symm
    rfl
  | cons e es ih =>
    obtain ⟨e', es'', rfl, he, hes⟩ := map_eq_cons_iff.mp h.symm
    rw [wakeEntries, wakeEntries, he]
    split_ifs
    · rfl
    · exact congrArg _ (funext fun s1 => ih hes.symm)
    · exact ih hes.symm

section

variable (Q : Queues s rq sq)
include Q

/-- Entries of waiting lists have different processes if and only if they are different. -/
theorem Queues.entry_eq
    {c c' : Nat} {a b : Nat × Nat} (ha : a ∈ s.waiting c) (hb : b ∈ s.waiting c') :
    a.1 = b.1 ↔ a.2 = b.2 := by
  constructor
  · intro h
    rw [(Q.eventUnique c c' a b ha hb h).2]
  · intro h
    have ha' := ((Q.eventMem a.1 a.2).mp ⟨c, ha⟩).2
    have hb' := ((Q.eventMem b.1 b.2).mp ⟨c', hb⟩).2
    rw [← ha', ← hb', h]

theorem Queues.waiting_nodup
    (cv : Nat) : ((s.waiting cv).map Prod.snd).Nodup :=
  (Q.event cv).map_on fun _ ha _ hb h => Prod.ext ((Q.entry_eq ha hb).mpr h) h

theorem Queues.mem_fst_iff
    {c : Nat} {x : Nat × Nat} (hx : x ∈ s.waiting c) (cv : Nat) :
    x.1 ∈ (s.waiting cv).map Prod.fst ↔ x.2 ∈ (s.waiting cv).map Prod.snd := by
  rw [List.mem_map, List.mem_map]
  constructor
  · rintro ⟨y, hy, h⟩
    exact ⟨y, hy, (Q.entry_eq hy hx).mp h⟩
  · rintro ⟨y, hy, h⟩
    exact ⟨y, hy, (Q.entry_eq hy hx).mpr h⟩

/-- A process that waits is not in the run queue. -/
theorem Queues.waiting_out
    (hq : (s.proc p).curQueue = .eventQueue) : p ∉ rq.map Prod.snd := by
  intro hin
  obtain ⟨x, hx, rfl⟩ := List.mem_map.mp hin
  have hrun := ((Q.runMem x.1 x.2).mp hx).1
  rw [hq] at hrun
  cases hrun

end

theorem map_filter_snd {α : Type} (xs : List (α × Nat)) (f : Nat → Bool) :
    (xs.filter fun x => f x.2).map Prod.snd = (xs.map Prod.snd).filter f := by
  rw [List.filter_map]
  rfl

/-- A process that has come to the run queue is in one node of it. -/
theorem Readied.member {rq' : List (Nat × Nat)} (R : Readied w s s' rq rq' ps)
    (hp : p ∈ ps) : (s'.proc p).status = .ready ∧ (s'.proc p).curQueue = .runQueue ∧
      ∃! a, Member s' a p .runQueue := by
  obtain ⟨a, ha, hproc⟩ := R.ready p hp
  have hmem (b : Nat) : Member s' b p .runQueue ↔ (b, p) ∈ rq' := by
    rw [Member, member_tree R.run b (· = p)]
    simp
  refine ⟨by rw [hproc]; rfl, by rw [hproc]; rfl, a, (hmem a).mpr ha, fun b hb => ?_⟩
  have heq := inj_on_of_nodup_map (sorted_nodup R.sorted) ((hmem b).mp hb) ha rfl
  exact congrArg Prod.fst heq

/-- What the lists in memory say of the change, if they have lost the entries of `ps`. -/
theorem Moved.of_readied {rq' : List (Nat × Nat)} (M : Mem m l)
    (hrun : Holds s.runQueue rq) (R : Readied w s s' rq rq' ps)
    (hps : ∀ p ∈ ps, p ∈ (l cv).map Prod.snd)
    (M' : Mem m' fun c => (l c).filter fun x => x.2 ∉ ps) : Moved w (s, m) (s', m') cv ps where
  ready p hp := R.member hp
  run := ⟨rq, rq', hrun, R⟩
  left := by
    rw [M'.waiters, M.waiters, map_filter_snd _ fun p => decide (p ∉ ps)]
  size := by
    rw [M'.waiters, length_map]
    exact (M'.lists cv).sz
  apart c hc := by
    rw [M'.waiters, M.waiters]
    congr 1
    apply filter_eq_self.mpr
    intro x hx
    rw [decide_eq_true_eq]
    intro hp
    obtain ⟨e, he, heq⟩ := List.mem_map.mp (hps _ hp)
    exact hc (M.unique hx he heq.symm).1

theorem Agrees.waits (A : Agrees s m l)
    (Q : Queues s rq sq) (he : e ∈ l cv) : (s.proc e.2).curQueue = .eventQueue := by
  have hin : e.2 ∈ (s.waiting cv).map Prod.snd := A.2 cv ▸ List.mem_map_of_mem he
  obtain ⟨x, hx, hxe⟩ := List.mem_map.mp hin
  rw [← hxe]
  exact ((Q.eventMem x.1 x.2).mp ⟨cv, hx⟩).1

theorem wake_all (H : Sane s) (A : Agrees s m l) (cv : Nat) :
    ∃ r y l', condvarWake (.code w) cv (-1) (s, m) = some (r, y) ∧
      WakeExact w cv (-1) (s, m) r y ∧ Agrees y.1 y.2 l' ∧ s.wake (.code w) cv (-1) = some y.1 := by
  obtain ⟨M, hl⟩ := id A
  obtain ⟨rq, sq, Q⟩ := H.queues
  have hmem : ∀ e ∈ s.waiting cv, (s.proc e.2).curQueue = .eventQueue ∧
      (s.proc e.2).queueHandle = e.1 := fun e he => (Q.eventMem e.1 e.2).mp ⟨cv, he⟩
  have hout : ∀ e ∈ s.waiting cv, e.2 ∉ rq.map Prod.snd := fun e he => Q.waiting_out (hmem e he).1
  obtain ⟨s', rq', hwake, R, hw'⟩ := wakeEntries_all (w := w) Q.run.linked Q.runSorted hmem hout
    (Q.waiting_nodup cv)
  have hq : ∀ e ∈ l cv, (s.proc e.2).curQueue = .eventQueue := fun e he => A.waits Q he
  have hlen : (l cv).length < (m.list cv).sz + 1 := by
    rw [(M.lists cv).sz]
    exact lt_succ_self _
  obtain ⟨m', hloop, M'⟩ := wakeLoop_all M rfl hq hlen ((wakeEntries_congr (hl cv)).trans hwake)
  have hbegin : (m.list cv).begin_ = firstNode (m.list cv).head (l cv) := (M.lists cv).begin_eq
  have hempty : (l cv).filter (fun x => x.2 ∉ (l cv).map Prod.snd) = [] := by
    apply filter_eq_nil_iff.mpr
    intro x hx
    have hin : x.2 ∈ (l cv).map Prod.snd := List.mem_map_of_mem hx
    simpa using hin
  have hnil := M'.lists cv
  simp only [hempty] at hnil
  have hR : Readied w s s' rq rq' ((l cv).map Prod.snd) := by
    rw [hl cv]
    exact R
  refine ⟨0, (s', m'), _, ?_, ?_, ⟨M', fun c => ?_⟩, hwake⟩
  · simp only [condvarWake, hbegin, hloop]
    rfl
  · refine .all rfl rfl ?_ hnil.sz hnil.begin_eq
    rw [M.waiters]
    exact .of_readied M Q.run hR (fun _ => id) M'
  · rw [map_filter_snd _ fun p => decide (p ∉ (l cv).map Prod.snd), hw' c, hl c, hl cv,
      ← map_filter_snd _ fun p => decide (p ∉ (s.waiting cv).map Prod.snd)]
    congr 1
    apply filter_congr
    intro x hx
    exact decide_eq_decide.mpr (not_congr (Q.mem_fst_iff hx cv).symm)

theorem wake_one (H : Sane s) (A : Agrees s m l) (he : e ∈ l cv) :
    ∃ r y l', condvarWake (.code w) cv e.2 (s, m) = some (r, y) ∧
      WakeExact w cv e.2 (s, m) r y ∧ Agrees y.1 y.2 l' ∧ s.wake (.code w) cv e.2 = some y.1 := by
  obtain ⟨M, hl⟩ := id A
  obtain ⟨rq, sq, Q⟩ := H.queues
  have hq := A.waits Q he
  obtain ⟨s', rq', hadd, R, -, hw'⟩ :=
    addProcRun_event (w := w) Q.run.linked Q.runSorted (Q.waiting_out hq) hq
  obtain ⟨m', hrem, -, M'⟩ := M.remove he
  obtain ⟨xs, ys, hsplit⟩ := append_of_mem he
  have hxs : ∀ x ∈ xs, x.2 ≠ e.2 := by
    intro x hx hp
    have Hl := M.lists cv
    rw [hsplit] at Hl
    have hin : x ∈ l cv := by simp [hsplit, hx]
    exact Hl.nodup.1 x (mem_append_left _ hx) (congrArg Prod.fst (M.unique hin he hp).2)
  have htid : (e.2 : Int) ≠ -1 := by omega
  have hwake : s.wake (.code w) cv e.2 = some s' := by
    rw [wake, ← wakeEntries_congr (hl cv), hsplit, wakeEntries_one hxs, hadd]
  have hsingle : Mem m' fun c => (l c).filter fun x => x.2 ∉ [e.2] := by
    simpa only [mem_singleton] using M'
  refine ⟨0, (s', m'), _, ?_, ?_, ⟨M', fun c => ?_⟩, hwake⟩
  · have hlen : (m.list cv).sz + 1 = xs.length + (ys.length + 1 + 1) := by
      rw [(M.lists cv).sz, hsplit, length_append, length_cons]
      omega
    have hsplit' : l cv = [] ++ xs ++ e :: ys := hsplit
    have hbegin : (m.list cv).begin_ = firstNode (m.list cv).head (xs ++ e :: ys) :=
      hsplit ▸ (M.lists cv).begin_eq
    obtain ⟨hhead, hkey, -⟩ := M.at hsplit
    have hready : ready (.code w) (s, m) e.2 = some (s', m') := by
      simp only [ready, hadd, Events.leave, hq, if_true, hrem, bind_eq_bind, bind_some]
      rfl
    have hloop : wakeLoop (.code w) cv e.2 ((m.list cv).sz + 1) (s, m) (m.list cv).begin_ =
        some (true, (s', m')) := by
      rw [hbegin, wakeLoop_skip M hsplit' htid (fun x hx h => hxs x hx (Int.ofNat_inj.mp h)) hlen]
      have hfirst : firstNode (m.list cv).head (e :: ys) = e.1 := rfl
      rw [hfirst, wakeLoop, if_neg hhead]
      simp only [hkey, bind_eq_bind, bind_some, if_true, hready]
      rfl
    simp only [condvarWake, hloop]
    rfl
  · refine .one rfl ?_ rfl (.of_readied M Q.run R (fun p hp => ?_) hsingle)
    · rw [M.waiters]
      exact List.mem_map_of_mem he
    · rw [mem_singleton.mp hp]
      exact List.mem_map_of_mem he
  · rw [map_filter_snd _ fun p => decide (p ≠ e.2), hl c, hw',
      ← map_filter_snd _ fun p => decide (p ≠ e.2)]
    congr 1
    apply filter_congr
    intro x hx
    have hin : e.2 ∈ (s.waiting cv).map Prod.snd := hl cv ▸ List.mem_map_of_mem he
    obtain ⟨y, hy, hye⟩ := List.mem_map.mp hin
    rw [← hye, ((Q.eventMem y.1 y.2).mp ⟨cv, hy⟩).2]
    exact decide_eq_decide.mpr (not_congr (Q.entry_eq hx hy).symm)

theorem wake_absent (A : Agrees s m l) (htid : tid ≠ -1) (hno : ∀ e ∈ l cv, (e.2 : Int) ≠ tid) :
    ∃ r y l', condvarWake (.code w) cv tid (s, m) = some (r, y) ∧
      WakeExact w cv tid (s, m) r y ∧ Agrees y.1 y.2 l' ∧ s.wake (.code w) cv tid = some y.1 := by
  obtain ⟨M, hl⟩ := id A
  refine ⟨-einval, (s, m), l, ?_, ?_, A, ?_⟩
  · have hbegin : (m.list cv).begin_ = firstNode (m.list cv).head (l cv ++ []) := by
      rw [append_nil]
      exact (M.lists cv).begin_eq
    have hsplit : l cv = [] ++ l cv ++ [] := by simp
    have hloop : wakeLoop (.code w) cv tid ((m.list cv).sz + 1) (s, m) (m.list cv).begin_ =
        some (false, (s, m)) := by
      rw [hbegin, wakeLoop_skip (n := 1) M hsplit htid hno (by rw [(M.lists cv).sz])]
      simp [wakeLoop, firstNode]
    simp [condvarWake, hloop, htid]
  · refine .absent htid (fun p hp => ?_) rfl rfl
    rw [M.waiters] at hp
    obtain ⟨e, he, rfl⟩ := List.mem_map.mp hp
    exact hno e he
  · rw [wake, ← wakeEntries_congr (hl cv)]
    exact wakeEntries_none htid hno

theorem wake_exact (H : Sane s) (A : Agrees s m l) (cv : Nat) (tid : Int) :
    ∃ r y l', condvarWake (.code w) cv tid (s, m) = some (r, y) ∧
      WakeExact w cv tid (s, m) r y ∧ Agrees y.1 y.2 l' ∧ s.wake (.code w) cv tid = some y.1 := by
  by_cases hall : tid = -1
  · subst hall
    exact wake_all H A cv
  · by_cases hin : ∃ e ∈ l cv, (e.2 : Int) = tid
    · obtain ⟨e, he, rfl⟩ := hin
      exact wake_one H A he
    · exact wake_absent A hall fun e he heq => hin ⟨e, he, heq⟩

/-! ## Every step keeps the lists -/

/-- No process comes to a waiting list, and those that stay keep their order. -/
def Shrinks (s s' : Kernel) : Prop := ∀ cv, (s'.waiting cv).Sublist (s.waiting cv)

theorem removeFromQueue_waiting (h : s.removeFromQueue p = some s') :
    s'.waiting = if (s.proc p).curQueue = .eventQueue then
      fun cv => (s.waiting cv).filter fun e => e.1 ≠ (s.proc p).queueHandle else s.waiting := by
  unfold removeFromQueue at h
  obtain ⟨r, hr, rfl⟩ := Option.map_eq_some_iff.mp h
  split at hr
  case h_1 hq =>
    obtain ⟨t, -, rfl⟩ := Option.map_eq_some_iff.mp hr
    simp [hq]
  case h_2 hq =>
    obtain ⟨t, -, rfl⟩ := Option.map_eq_some_iff.mp hr
    simp [hq]
  case h_3 hq =>
    cases hr
    simp [hq]
  case h_4 hq =>
    cases hr
    simp [hq]

theorem shrinks_closed : Closed Shrinks where
  refl _ _ := List.Sublist.refl _
  trans h h' cv := (h' cv).trans (h cv)
  frame F cv := by
    rw [F.fields.2.2.1]
  leave _ h cv := by
    rw [removeFromQueue_waiting h]
    split
    · exact filter_sublist
    · exact List.Sublist.refl _
  enter _ _ _ _ cv := List.Sublist.refl _
  list _ _ _ := List.Sublist.refl _

/-- A step other than `wait` takes processes off the lists, and puts none there. -/
theorem step_shrinks {e : Event} (hg : cfg.guard = true) (hn : NoNice s e)
    (hwait : ∀ cv, e ≠ .wait cv)
    (h : s.step cfg e = some s') : KeepsBy Shrinks s s' := by
  by_cases hsleep : ∃ n, e = .nanosleep n
  · obtain ⟨n, rfl⟩ := hsleep
    obtain ⟨h, -⟩ | ⟨cv, tid, h, -⟩ | ⟨now, pold, h, -⟩ | ⟨-, hcur, h⟩ := step_cases h
    · cases h
    · cases h
    · cases h
    · exact nanosleep_keeps shrinks_closed hg hcur (fun _ _ _ _ => List.Sublist.refl _) h
  · exact step_keepsBy shrinks_closed hg hn (fun n hn => hsleep ⟨n, hn⟩) hwait h

theorem eq_filter_of_sublist {α : Type} {xs ys : List α} {f : α → Bool} (h : xs.Sublist ys)
    (hnd : ys.Nodup) (hf : ∀ x ∈ ys, x ∈ xs ↔ f x = true) : xs = ys.filter f := by
  have hsub : xs.Sublist (ys.filter f) := by
    have hself : xs.filter f = xs := filter_eq_self.mpr fun x hx => (hf x (h.subset hx)).mp hx
    exact hself ▸ h.filter f
  apply hsub.eq_of_length
  have hperm : xs.Perm (ys.filter f) := by
    rw [perm_ext_iff_of_nodup (hnd.sublist h) (hnd.filter f)]
    intro x
    rw [mem_filter]
    exact ⟨fun hx => ⟨h.subset hx, (hf x (h.subset hx)).mp hx⟩, fun hx => (hf x hx.1).mpr hx.2⟩
  exact hperm.length_eq

/-- Those that are still in `EVENT_QUEUE` are still on their list. -/
theorem Shrinks.filter (S : Shrinks s s') (H : Sane s) (H' : Sane s') (cv : Nat) :
    s'.waiting cv = (s.waiting cv).filter fun e => (s'.proc e.2).curQueue = .eventQueue := by
  obtain ⟨rq, sq, Q⟩ := H.queues
  obtain ⟨rq', sq', Q'⟩ := H'.queues
  apply eq_filter_of_sublist (S cv) (Q.event cv)
  intro x hx
  rw [decide_eq_true_eq]
  constructor
  · intro hx'
    exact ((Q'.eventMem x.1 x.2).mp ⟨cv, hx'⟩).1
  intro hq
  obtain ⟨c, hc⟩ := (Q'.eventMem _ x.2).mpr ⟨hq, rfl⟩
  have hold := (S c).subset hc
  obtain ⟨rfl, heq⟩ := Q.eventUnique c cv _ x hold hx ((Q.entry_eq hold hx).mpr rfl)
  rw [← heq]
  exact hc

/-- The handles of the processes that have left their lists are used once. -/
theorem Agrees.shrink (A : Agrees s m l) (S : Shrinks s s') (H : Sane s) (H' : Sane s') :
    ∃ m' l', (leavers s s').foldlM Events.remove m = some m' ∧ Agrees s' m' l' := by
  obtain ⟨M, hl⟩ := id A
  obtain ⟨rq, sq, Q⟩ := H.queues
  have hmem (q : Nat) : q ∈ leavers s s' ↔ q < s.nextTid ∧ (s.proc q).curQueue = .eventQueue ∧
      (s'.proc q).curQueue ≠ .eventQueue := by
    simp [leavers]
  have hnd : (leavers s s').Nodup := nodup_range.filter _
  obtain ⟨m', hm', M'⟩ := M.removeAll hnd fun q hq => by
    obtain ⟨cv, hcv⟩ := (Q.eventMem _ q).mpr ⟨((hmem q).mp hq).2.1, rfl⟩
    exact ⟨cv, hl cv ▸ List.mem_map_of_mem hcv⟩
  refine ⟨m', _, hm', M', fun cv => ?_⟩
  rw [map_filter_snd _ fun q => decide (q ∉ leavers s s'), hl cv, S.filter H H' cv,
    ← map_filter_snd _ fun q => decide (q ∉ leavers s s')]
  congr 1
  apply filter_congr
  intro x hx
  have hq := ((Q.eventMem x.1 x.2).mp ⟨cv, hx⟩).1
  have hlt := (Q.live x.2 (by rw [hq]; decide)).2.2.2
  apply decide_eq_decide.mpr
  rw [hmem]
  tauto

/-! ## wait -/

/-- The list after `condvar::wait`. -/
theorem wait_waiting (hcur : s.curProc ≠ 0) (h : s.wait cfg cv = some s') :
    ∃ s1, (s.setOnline false).removeFromQueue s.curProc = some s1 ∧
      s'.waiting = update s1.waiting cv
        (pushFront (s1.waiting cv) (s1.freshEntry, s.curProc)) := by
  obtain ⟨s2, h2, h⟩ := bind_eq_some_iff.mp h
  obtain ⟨s1, h1, h2⟩ := bind_eq_some_iff.mp h2
  refine ⟨s1, h1, ?_⟩
  obtain ⟨t, u, w, rfl⟩ := removeFromQueue_form h1
  cases h2
  -- the process is in `EVENT_QUEUE`, so that `schedule` does not touch the queues
  obtain ⟨ho, -⟩ | ⟨-, h0, -⟩ | ⟨-, -, hr, -⟩ | ⟨-, -, s3, hs3, rfl⟩ := schedule_cases h
  · cases ho
  · exact absurd h0 hcur
  · cases hr
  · rw [switchOut, if_neg (by simp)] at hs3
    cases hs3
    rfl

theorem map_pushFront {α β : Type} (f : α → β) (xs : List α) (x : α) :
    (pushFront xs x).map f = pushFront (xs.map f) (f x) := by
  cases xs <;> rfl

/-- The list after `remove_from_queue` of a process. -/
theorem Agrees.leave (A : Agrees s m l) (H : Sane s) (h : s.removeFromQueue p = some s') :
    ∃ m', m.leave s p = some m' ∧ Agrees s' m' fun c => (l c).filter fun x => x.2 ≠ p := by
  obtain ⟨M, hl⟩ := id A
  obtain ⟨rq, sq, Q⟩ := H.queues
  by_cases hq : (s.proc p).curQueue = .eventQueue
  · obtain ⟨cv, hcv⟩ := (Q.eventMem _ p).mpr ⟨hq, rfl⟩
    have hin : p ∈ (l cv).map Prod.snd := hl cv ▸ List.mem_map_of_mem hcv
    obtain ⟨e, he, rfl⟩ := List.mem_map.mp hin
    obtain ⟨m', hm', -, M'⟩ := M.remove he
    refine ⟨m', by rw [Events.leave, if_pos hq, hm'], M', fun c => ?_⟩
    rw [map_filter_snd _ fun q => decide (q ≠ e.2), hl c, removeFromQueue_waiting h, if_pos hq,
      ← map_filter_snd _ fun q => decide (q ≠ e.2)]
    congr 1
    apply filter_congr
    intro x hx
    exact decide_eq_decide.mpr (not_congr (Q.entry_eq hx hcv).symm)
  · have hself (c : Nat) : (l c).filter (fun x => x.2 ≠ p) = l c := by
      apply filter_eq_self.mpr
      intro x hx
      have hne : x.2 ≠ p := fun hp => hq (hp ▸ A.waits Q hx)
      simpa using hne
    refine ⟨m, by rw [Events.leave, if_neg hq], ?_⟩
    simp only [hself]
    refine ⟨M, fun c => ?_⟩
    rw [hl c, removeFromQueue_waiting h, if_neg hq]

/-- The addresses are not in use. -/
def Events.fresh (m : Events) (cv node it : Nat) : Bool :=
  !m.node node && node != (m.list cv).head && (m.iter it).isNone

/-- `wait` puts the current process on the list. -/
theorem Agrees.wait {node it : Nat} (A : Agrees s m l) (H : Sane s) (hcur : s.curProc ≠ 0)
    (hfresh : (m.leave s s.curProc).all fun m => m.fresh cv node it) (h : s.wait cfg cv = some s') :
    ∃ m' l', m.leave s s.curProc = some m' ∧ Agrees s' (m'.push cv s.curProc node it) l' := by
  obtain ⟨s1, h1, hw⟩ := wait_waiting hcur h
  have H1 : Sane (s.setOnline false) := (setOnline_frame s false).sane H
  obtain ⟨m', hm', M', hl'⟩ := Agrees.leave (s := s.setOnline false) A H1 h1
  have hm : m.leave s s.curProc = some m' := hm'
  rw [hm] at hfresh
  simp only [all_some, Events.fresh, Bool.and_eq_true, Bool.not_eq_true', bne_iff_ne, ne_eq,
    isNone_iff_eq_none] at hfresh
  obtain ⟨⟨hnode, hhead⟩, hit⟩ := hfresh
  have hp : ∀ c, ∀ e ∈ (l c).filter fun x => x.2 ≠ s.curProc, e.2 ≠ s.curProc := by
    intro c e he
    simpa using (mem_filter.mp he).2
  refine ⟨m', _, hm, M'.push hp hnode hhead hit, fun c => ?_⟩
  rw [hw]
  by_cases hc : c = cv
  · subst hc
    rw [update_self, update_self, map_pushFront, map_pushFront, hl' c]
  · rw [update_of_ne hc, update_of_ne hc, hl' c]

/-! ## Runs -/

/-- A call with the memory that it works on. -/
inductive CvCall where
  | wait (cv node it : Nat)
  | wake (cv : Nat) (tid : Int)
  | other (e : Event)

/-- The event of the kernel model. -/
def CvCall.event : CvCall → Event
  | .wait cv _ _ => .wait cv
  | .wake cv tid => .wake cv tid
  | .other e => e

/-- A step of the kernel, in which every process that leaves a list uses its handle. -/
def machineryStep (cfg : Config) (x : Machinery) : CvCall → Option Machinery
  | .wait cv node it => do
    let s ← x.1.step cfg (.wait cv)
    let m ← x.2.leave x.1 x.1.curProc
    return (s, m.push cv x.1.curProc node it)
  | .wake cv tid => if x.1.interruptible then (condvarWake cfg cv tid x).map Prod.snd else none
  | .other e => do
    let s ← x.1.step cfg e
    let m ← (leavers x.1 s).foldlM Events.remove x.2
    return (s, m)

/-- `operator new` returns what is not in use, and `wait` and `wake` are called as such. -/
def callOk (x : Machinery) : CvCall → Bool
  | .wait cv node it => (x.2.leave x.1 x.1.curProc).all fun m => m.fresh cv node it
  | .other (.wait _) => false
  | .other (.wake _ _) => false
  | _ => true

/-- The step keeps the queues, and the call is one that can be made. -/
def CvOk (w : Nat → Nat) (x : Machinery) (c : CvCall) : Prop :=
  QueueOk w x.1 c.event ∧ callOk x c = true

instance (x : Machinery) (c : CvCall) : Decidable (CvOk w x c) :=
    inferInstanceAs (Decidable (_ ∧ _))

/-- The condition variables are empty. -/
def Events.new (head : Nat → Nat) : Events where
  list cv := .new (head cv)
  node _ := false
  iter _ := none
  handle _ := 0

/-- `process::init` has run, and nobody waits. -/
def Assembled (w : Nat → Nat) (x : Machinery) : Prop := Started w x.1 ∧ ∃ head, x.2 = .new head

theorem step_wake_iff {tid : Int} : s.step cfg (.wake cv tid) = some s' ↔
    s.interruptible = true ∧ s.wake cfg cv tid = some s' := by
  rw [step]
  split_ifs with hi <;> simp [hi]

/-- One step, in which the kernel does not fail, uses only what is on the heap. -/
theorem machinery_step {c : CvCall} (H : Sane s) (A : Agrees s m l) (hok : CvOk w (s, m) c)
    (h : s.step (.code w) c.event = some s') :
    ∃ m' l', machineryStep (.code w) (s, m) c = some (s', m') ∧ Agrees s' m' l' := by
  obtain ⟨hq, hc⟩ := hok
  cases c with
  | wait cv node it =>
    obtain ⟨h', -⟩ | ⟨cv', tid, h', -⟩ | ⟨now, pold, h', -⟩ | ⟨-, hcur, hwait⟩ := step_cases h
    · cases h'
    · cases h'
    · cases h'
    · obtain ⟨m', l', hm', A'⟩ := A.wait H hcur hc hwait
      refine ⟨_, l', ?_, A'⟩
      have hstep : s.step (.code w) (.wait cv) = some s' := h
      simp only [machineryStep, hstep, hm', bind_eq_bind, bind_some]
      rfl
  | wake cv tid =>
    obtain ⟨hi, hwake⟩ := step_wake_iff.mp h
    obtain ⟨r, y, l', hcv, -, A', hy⟩ := wake_exact (w := w) H A cv tid
    obtain rfl : y.1 = s' := some_inj.mp (hy.symm.trans hwake)
    refine ⟨y.2, l', ?_, A'⟩
    simp [machineryStep, hi, hcv]
  | other e =>
    have hwait : ∀ cv, e ≠ .wait cv := by
      rintro cv rfl
      cases hc
    have hchecked : s.step (.checked w) e = some s' := step_below.agree hq.1 h
    obtain ⟨H', S⟩ := step_shrinks rfl hq.2 hwait hchecked H
    obtain ⟨m', l', hm', A'⟩ := A.shrink S H H'
    refine ⟨m', l', ?_, A'⟩
    have hstep : s.step (.code w) e = some s' := h
    simp only [machineryStep, hstep, hm', bind_eq_bind, bind_some]
    rfl

theorem machinery_kernel {c : CvCall} {y : Machinery} (H : Sane s) (A : Agrees s m l)
    (h : machineryStep (.code w) (s, m) c = some y) : s.step (.code w) c.event = some y.1 := by
  cases c with
  | wait cv node it =>
    obtain ⟨s', hs, h⟩ := bind_eq_some_iff.mp h
    obtain ⟨m', -, h⟩ := bind_eq_some_iff.mp h
    cases h
    exact hs
  | wake cv tid =>
    rw [machineryStep] at h
    split_ifs at h with hi
    obtain ⟨z, hz, rfl⟩ := Option.map_eq_some_iff.mp h
    obtain ⟨r, y, l', hcv, -, -, hy⟩ := wake_exact (w := w) H A cv tid
    obtain rfl : (r, y) = z := some_inj.mp (hcv.symm.trans hz)
    exact step_wake_iff.mpr ⟨hi, hy⟩
  | other e =>
    obtain ⟨s', hs, h⟩ := bind_eq_some_iff.mp h
    obtain ⟨m', -, h⟩ := bind_eq_some_iff.mp h
    cases h
    exact hs

theorem reach_agrees {x : Machinery}
    (h : Reach (Assembled w) (machineryStep (.code w)) (CvOk w) x) :
    Sane x.1 ∧ ∃ l, Agrees x.1 x.2 l := by
  refine h.invariant (I := fun x => Sane x.1 ∧ ∃ l, Agrees x.1 x.2 l) ?_ ?_
  · rintro ⟨s, m⟩ ⟨hs, head, rfl⟩
    refine ⟨hs.sane, fun _ => [], ⟨fun cv => .new _, ?_, ?_, ?_⟩, fun cv => ?_⟩
    · simp
    · simp
    · simp
    · obtain ⟨tick, ticklen, fpu, uid, uid', t, a, a', rfl⟩ := hs.form
      rfl
  · rintro ⟨s, m⟩ c y ⟨H, l, A⟩ hok hstep
    have hk := machinery_kernel H A hstep
    obtain ⟨m', l', hm', A'⟩ := machinery_step H A hok hk
    have hy : m' = y.2 := congrArg Prod.snd (some_inj.mp (hm'.symm.trans hstep))
    exact ⟨(hok.1.keeps hk H).1, l', hy ▸ A'⟩

/-- In every run of which the steps keep the queues, `wake` does what it should, and nothing on the
heap is used after it was deleted. -/
theorem wake_moves_exactly (w : Nat → Nat) {x : Machinery}
    (h : Reach (Assembled w) (machineryStep (.code w)) (CvOk w) x) :
    (∀ cv tid, ∃ r y, condvarWake (.code w) cv tid x = some (r, y) ∧ WakeExact w cv tid x r y) ∧
    ∀ c s', CvOk w x c → x.1.step (.code w) c.event = some s' →
      ∃ m', machineryStep (.code w) x c = some (s', m') := by
  obtain ⟨H, l, A⟩ := reach_agrees h
  constructor
  · intro cv tid
    obtain ⟨r, y, -, hcv, hex, -⟩ := wake_exact (w := w) H A cv tid
    exact ⟨r, y, hcv, hex⟩
  · intro c s' hok hstep
    obtain ⟨m', -, hm', -⟩ := machinery_step H A hok hstep
    exact ⟨m', hm'⟩

theorem wake_moves_exactly_three :
    ∃ x, Reach (Assembled uint64) (machineryStep (.code uint64)) (CvOk uint64) x ∧
      x.2.waiters 0 = [1, 3, 2] ∧
      (∀ cv tid, ∃ r y, condvarWake (.code uint64) cv tid x = some (r, y) ∧
        WakeExact uint64 cv tid x r y) ∧
      ∀ c s', CvOk uint64 x c → x.1.step (.code uint64) c.event = some s' →
        ∃ m', machineryStep (.code uint64) x c = some (s', m') := by
  have hrun : (runRecorded (machineryStep (.code uint64)) (CvOk uint64) (.new fun _ => 0)
    [.other .tick,
      .other .select, .other (.clone 0 true), .wait 0 100 200, .other .select, .wait 0 101 201,
      .other .select, .wait 0 102 202]).map (fun x => x.2.waiters 0) = some [1, 3, 2] := by
    decide +kernel
  obtain ⟨x, hx, hw⟩ := run_of_map hrun
  have hreach : Reach (Assembled uint64) (machineryStep (.code uint64)) (CvOk uint64) x :=
    runRecorded_reach hx fun _ hs => ⟨hs, _, rfl⟩
  exact ⟨x, hreach, hw, wake_moves_exactly uint64 hreach⟩

/-- A run queue of a node with two leaves. -/
theorem member_leaves {a b c p : Nat} (hnil : a ≠ nil ∧ b ≠ nil ∧ c ≠ nil)
    (h : [s.runQueue.root, (s.runQueue.node a).l, (s.runQueue.node a).r, (s.runQueue.node b).l,
      (s.runQueue.node b).r, (s.runQueue.node b).key, (s.runQueue.node c).l, (s.runQueue.node c).r,
      (s.runQueue.node c).key] = [a, b, c, nil, nil, p, nil, nil, p]) :
    Member s b p .runQueue ∧ Member s c p .runQueue := by
  simp only [List.cons.injEq, and_true] at h
  obtain ⟨hroot, hal, har, hbl, hbr, hb, hcl, hcr, hc⟩ := h
  have hleft : Inorder s.runQueue b ([] ++ b :: []) := .node hnil.2.1 (hbl ▸ .nil) (hbr ▸ .nil)
  have hright : Inorder s.runQueue c ([] ++ c :: []) := .node hnil.2.2 (hcl ▸ .nil) (hcr ▸ .nil)
  have hall : Inorder s.runQueue a ([b] ++ a :: [c]) := .node hnil.1 (hal ▸ hleft) (har ▸ hright)
  exact ⟨⟨[b, a, c], hroot ▸ hall, by simp, hb⟩, ⟨[b, a, c], hroot ▸ hall, by simp, hc⟩⟩

/-- A process that called `setnice` keeps its node of the run queue while it waits, and `wake` makes
a second one. -/
theorem wake_second_node :
    ∃ x r y, Reach (Assembled uint64) (machineryStep (.code uint64)) (fun x c => callOk x c) x ∧
      x.2.waiters 0 = [1] ∧ condvarWake (.code uint64) 0 (-1) x = some (r, y) ∧
      Member y.1 4 1 .runQueue ∧ Member y.1 5 1 .runQueue ∧ ¬ WakeExact uint64 0 (-1) x r y := by
  have hrun : (runRecorded (machineryStep (.code uint64)) (fun x c => callOk x c) (.new fun _ => 0)
      [.other .tick, .other .select, .other (.setnice (-1)), .other .tick, .wait 0 100 200,
        .other .select]).map (fun x => (x.2.waiters 0, (condvarWake (.code uint64) 0 (-1) x).map
          fun r => let t := r.2.1.runQueue
            [t.root, (t.node 3).l, (t.node 3).r, (t.node 4).l, (t.node 4).r, (t.node 4).key,
              (t.node 5).l, (t.node 5).r, (t.node 5).key])) =
      some ([1], some [3, 4, 5, nil, nil, 1, nil, nil, 1]) := by
    decide +kernel
  obtain ⟨x, hx, he⟩ := run_of_map hrun
  obtain ⟨hw, hwake⟩ := Prod.mk.inj he
  obtain ⟨⟨r, y⟩, hy, ht⟩ := Option.map_eq_some_iff.mp hwake
  have hreach : Reach (Assembled uint64) (machineryStep (.code uint64))
      (fun x c => callOk x c) x := runRecorded_reach hx fun _ hs => ⟨hs, _, rfl⟩
  obtain ⟨h4, h5⟩ := member_leaves (s := y.1) (by decide) ht
  refine ⟨x, r, y, hreach, hw, hy, h4, h5, fun hex => ?_⟩
  have hone : ∃! a, Member y.1 a 1 .runQueue := by
    cases hex with
    | all _ _ hm => exact (hm.ready 1 (by rw [hw]; simp)).2.2
    | one htid => omega
    | absent htid => exact absurd rfl htid
  exact absurd (hone.unique h4 h5) (by decide)

end Sysint.Process
