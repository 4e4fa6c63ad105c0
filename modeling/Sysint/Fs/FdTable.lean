import Mathlib.Tactic.Simps.Basic
import Sysint.Container.Vector

/-! The file descriptors of a process: `fd_table_t` of `kernel/include/proc.h`, and
`get_fd`, `open` and `close` of `kernel/fs/syscall.cpp`. The process that calls is the
current one, so `get_current_proc` is not null. `none` is a failed `ASSERTH` or an
access outside of the table. -/
namespace Sysint.Fs

open List Option

open Container (Vector)
open Machine

def enoent : Int := 2

def ebadf : Int := 9

def efault : Int := 14

def eisdir : Int := 21

def emfile : Int := 24

def enosys : Int := 88

def procMaxFds : Nat := 1024

def oRdwr : Nat := 2

/-- An open file; `id` tells the objects apart. -/
structure File where
  id : Nat
  oflags : Nat
  deriving DecidableEq

/-- A node of the file system. Only the terminal can be opened; `fp` is the object that
it creates then. -/
inductive Node where
  | plain (dir : Bool)
  | tty (fp : File)

def Node.isDir : Node → Bool
  | .plain dir => dir
  | .tty _ => false

/-- `node::open` and `tty_node::open`. -/
def Node.open : Node → Int × Option File
  | .plain _ => (-enosys, none)
  | .tty fp => (0, some fp)

structure FdTable where
  nextFd : Nat
  fds : Vector (Option File)

variable {fd : BitVec 32} {t' : FdTable} {s' : State}

namespace FdTable

/-- `fd_table_t()`, with the file that `/dev/tty` has created. -/
def fresh (fp : File) : Option FdTable :=
  ((Vector.new 8 (by decide) 0 true procMaxFds).resize 3
    (.val (some { fp with oflags := oRdwr }))).map fun fds => ⟨3, fds⟩

/-- `get_fd`, with the file that it finds. -/
def getFd (t : FdTable) (fd : BitVec 32) : Option (Int × Option File) :=
  if fd.toInt < 0 then some (-ebadf, none)
  else if t.fds.size ≤ fd.toNat then some (-ebadf, none)
  else do
    match ← t.fds.get fd.toNat with
    | none => return (-ebadf, none)
    | some f => return (0, some f)

/-- The search for the next free descriptor. -/
def search (fds : Vector (Option File)) : Nat → Nat → Option Nat
  | 0, _ => none
  | fuel + 1, next =>
    if next < fds.size then do
      match ← fds.get next with
      | some _ => search fds fuel (next + 1)
      | none => return next
    else some next

/-- The end of `open`: the file gets its descriptor. -/
def install (t : FdTable) (fd : Nat) (f : File) : Option FdTable := do
  let fds ←
    if t.fds.size > fd then t.fds.set fd (some f)
    else if t.fds.size = fd then (t.fds.pushBack (.val (some f))).map (·.2)
    else none
  let next ← search fds (fds.size + 1) (t.nextFd + 1)
  return ⟨next, fds⟩

/-- What `open` finds at its path: `none` if the pointer is not valid, and then the node,
if there is one. -/
abbrev Path := Option (Option Node)

/-- `open`. -/
def open_ (t : FdTable) (path : Path) (flags : Nat) : Option (Int × FdTable) :=
  if t.nextFd ≥ procMaxFds then some (-emfile, t)
  else
    match path with
    | none => some (-efault, t)
    | some none => some (-enoent, t)
    | some (some nd) =>
      if nd.isDir && (flags &&& 1 ≠ 0 || flags &&& 2 ≠ 0) then some (-eisdir, t)
      else
        match nd.open with
        | (ret, f) =>
          if ret ≠ 0 then some (ret, t)
          else do
            let f ← f
            let t' ← t.install t.nextFd { f with oflags := flags }
            return (t.nextFd, t')

/-- `close`. -/
def close (t : FdTable) (fd : BitVec 32) : Option (Int × FdTable) :=
  if t.fds.size ≤ fd.toNat then some (-ebadf, t)
  else do
    match ← t.fds.get fd.toNat with
    | none => return (-ebadf, t)
    | some _ => return (0, { t with fds := ← t.fds.set fd.toNat none })

/-! ## Calls and what they make of a descriptor -/

/-- A call that has returned: an `open` with its descriptor and file, or a `close`. -/
inductive Done where
  | opened (fd : Nat) (f : File)
  | closed (fd : Nat)

/-- The file of a descriptor after the calls, the latest first: that of the `open` that
returned it, or of the fresh table, unless it has been closed since. -/
def designates (tty : File) : List Done → Nat → Option File
  | [], fd => if fd < 3 then some { tty with oflags := oRdwr } else none
  | .opened fd' f :: h, fd => if fd = fd' then some f else designates tty h fd
  | .closed fd' :: h, fd => if fd = fd' then none else designates tty h fd

inductive Event where
  | open_ (path : Path) (flags : Nat)
  | close (fd : BitVec 32)

structure State where
  table : FdTable
  done : List Done

/-- The file that an `open` of the path creates. -/
def created (path : Path) (flags : Nat) : Option File :=
  match path with
  | some (some (.tty fp)) => some { fp with oflags := flags }
  | _ => none

def step (s : State) : Event → Option State
  | .open_ path flags => (s.table.open_ path flags).map fun (r : Int × FdTable) =>
    match created path flags with
    | some f => if (0 : Int) ≤ r.1 then ⟨r.2, .opened r.1.toNat f :: s.done⟩ else ⟨r.2, s.done⟩
    | none => ⟨r.2, s.done⟩
  | .close fd => (s.table.close fd).map fun r =>
    ⟨r.2, if r.1 = 0 then .closed fd.toNat :: s.done else s.done⟩

def Fresh (tty : File) (s : State) : Prop := fresh tty = some s.table ∧ s.done = []

/-! ## The table -/

/-- The vector holds a list of files, and the cached descriptor is behind them all. -/
structure Holds (t : FdTable) (l : List (Option File)) : Prop where
  holds : t.fds.Holds l
  start : t.fds.begin_ = t.fds.membegin
  maxcap : t.fds.maxcap = procMaxFds
  width : t.fds.width = 8
  next : t.nextFd = l.length
  le : l.length ≤ procMaxFds

variable {t : FdTable} {tty : File} {s : State} {l : List (Option File)}

theorem fresh_spec (h : fresh tty = some t) :
    t.Holds (List.replicate 3 (some { tty with oflags := oRdwr })) := by
  have hfit : Vector.Ok (Vector.new 8 (by decide) 0 true procMaxFds)
      (.resize 3 (.val (some { tty with oflags := oRdwr }))) :=
    fun _ => ⟨fun _ => trivial, by decide⟩
  obtain ⟨v, hv, H, hk, hb⟩ := Vector.resize_spec (Vector.Holds.new (by decide) 0 true procMaxFds)
    rfl (by decide) hfit
  simp only [fresh, hv, map_some, some.injEq] at h
  subst h
  constructor
  · simpa using H
  · exact hb
  · exact hk.2.1
  · exact hk.2.2
  · rfl
  · rw [length_replicate]
    decide

/-- A descriptor leads to the file at its place. -/
theorem Holds.getFd (H : t.Holds l) (fd : BitVec 32) : t.getFd fd = some
    (match l[fd.toNat]?.join with
    | some f => (0, some f)
    | none => (-ebadf, none)) := by
  have hsize := H.holds.size
  have hle := H.le
  have hmax : procMaxFds = 1024 := rfl
  unfold FdTable.getFd
  by_cases hneg : fd.toInt < 0
  · -- a negative descriptor is larger than every size
    have hbig := BitVec.toInt_neg_iff.mp hneg
    have hnone : l[fd.toNat]? = none := List.getElem?_eq_none (by omega)
    simp [hneg, hnone]
  · rw [if_neg hneg, hsize, H.holds.get]
    by_cases hlen : l.length ≤ fd.toNat
    · simp [hlen]
    · rw [if_neg hlen, List.getElem?_eq_getElem (by omega)]
      cases l[fd.toNat] <;> rfl

theorem Holds.getFd_congr {l' : List (Option File)} (H : t.Holds l)
    (H' : t'.Holds l') (h : l'[fd.toNat]?.join = l[fd.toNat]?.join) : t'.getFd fd = t.getFd fd := by
  rw [H.getFd, H'.getFd, h]

/-- The search stops at once behind the table. -/
theorem search_end {v : Vector (Option File)} {n fuel : Nat} (h : v.size ≤ n) :
    search v (fuel + 1) n = some n := by
  unfold search
  rw [if_neg (by omega)]

/-- A new file goes to the end of the table. -/
theorem Holds.install (H : t.Holds l) (hlt : l.length < procMaxFds) (f : File) :
    ∃ t', t.install t.nextFd f = some t' ∧ t'.Holds (l ++ [some f]) := by
  have hsize := H.holds.size
  have hnext := H.next
  have hmax := H.maxcap
  have hfds : procMaxFds = 1024 := rfl
  have hbytes : t.fds.maxcap * t.fds.width < 2 ^ 32 := by
    rw [hmax, H.width]
    decide
  obtain ⟨pos, v, hv, Hv, hk, hb⟩ := Vector.pushBack_spec H.holds rfl (by omega) (by omega)
    (Vector.ok_push_val H.start hbytes (some f))
  have hvs := Hv.size
  simp only [length_append, length_singleton] at hvs
  refine ⟨⟨l.length + 1, v⟩, ?_, ?_⟩
  · unfold FdTable.install
    rw [if_neg (by omega), if_pos (by omega), hv]
    simp only [map_some, bind_eq_bind, bind_some, hnext]
    rw [search_end (by omega)]
    rfl
  constructor
  · exact Hv
  · exact hb H.start
  · exact hk.2.1.trans hmax
  · exact hk.2.2.trans H.width
  · simp
  · simp only [length_append, length_singleton]
    omega

theorem Holds.open_tty (H : t.Holds l) (hlt : l.length < procMaxFds) (fp : File) (flags : Nat) :
    ∃ t', t.open_ (some (some (.tty fp))) flags = some ((l.length : Int), t') ∧
      t'.Holds (l ++ [some { fp with oflags := flags }]) := by
  have hnext := H.next
  obtain ⟨t', ht', H'⟩ := H.install hlt { fp with oflags := flags }
  refine ⟨t', ?_, H'⟩
  unfold FdTable.open_
  rw [if_neg (by omega)]
  simp [Node.isDir, Node.open, ht', ← hnext]

/-- `open` fails and leaves the table alone, or gives the next descriptor. -/
theorem Holds.open_ (H : t.Holds l) (path : Path) (flags : Nat) :
    (∃ r, t.open_ path flags = some (r, t) ∧ r < 0 ∧
      (r = -emfile → procMaxFds ≤ t.nextFd)) ∨
    ∃ f t', created path flags = some f ∧ t.open_ path flags = some ((l.length : Int), t') ∧
      t'.Holds (l ++ [some f]) := by
  have hnext := H.next
  by_cases hfull : t.nextFd ≥ procMaxFds
  · exact .inl ⟨_, if_pos hfull, by decide, fun _ => hfull⟩
  match path with
  | none => exact .inl ⟨_, if_neg hfull, by decide, fun h => absurd h (by decide)⟩
  | some none => exact .inl ⟨_, if_neg hfull, by decide, fun h => absurd h (by decide)⟩
  | some (some (.plain dir)) =>
    left
    have herr : (Node.plain dir).open = (-enosys, none) := rfl
    unfold FdTable.open_
    rw [if_neg hfull]
    dsimp only
    rw [herr]
    split
    · exact ⟨_, rfl, by decide, fun h => absurd h (by decide)⟩
    · exact ⟨_, rfl, by decide, fun h => absurd h (by decide)⟩
  | some (some (.tty fp)) =>
    obtain ⟨t', hr, H'⟩ := H.open_tty (by omega) fp flags
    exact .inr ⟨_, t', rfl, hr, H'⟩

/-- `close` fails and leaves the table alone, or empties the place of its descriptor. -/
theorem Holds.close (H : t.Holds l) (fd : BitVec 32) :
    (l[fd.toNat]?.join = none ∧ t.close fd = some (-ebadf, t)) ∨
    ∃ f t', l[fd.toNat]? = some (some f) ∧ t.close fd = some (0, t') ∧
      t'.Holds (l.set fd.toNat none) := by
  unfold FdTable.close
  rw [H.holds.size, H.holds.get]
  by_cases hlen : l.length ≤ fd.toNat
  · rw [if_pos hlen, List.getElem?_eq_none hlen]
    exact .inl ⟨rfl, rfl⟩
  rw [if_neg hlen]
  obtain ⟨x, hx⟩ : ∃ x, l[fd.toNat]? = some x := ⟨_, List.getElem?_eq_getElem (by omega)⟩
  rw [hx]
  cases x with
  | none => exact .inl ⟨rfl, rfl⟩
  | some f =>
    obtain ⟨v, hv, Hv, hk, hb, hm⟩ := Vector.set_spec H.holds (none : Option File)
      (by omega : fd.toNat < l.length)
    refine .inr ⟨f, ⟨t.nextFd, v⟩, rfl, ?_, ?_⟩
    · simp [hv]
    constructor
    · exact Hv
    · rw [hb, hm, H.start]
    · exact hk.2.1.trans H.maxcap
    · exact hk.2.2.trans H.width
    · rw [length_set]
      exact H.next
    · rw [length_set]
      exact H.le

/-! ## Runs -/

/-- The table shows the descriptors as the calls so far have left them. -/
structure Inv (tty : File) (s : State) (l : List (Option File)) : Prop where
  holds : s.table.Holds l
  files : ∀ fd, l[fd]?.join = designates tty s.done fd

theorem Inv.fresh (h : Fresh tty s) :
    Inv tty s (List.replicate 3 (some { tty with oflags := oRdwr })) := by
  constructor
  · exact fresh_spec h.1
  · intro fd
    rw [h.2, designates, List.getElem?_replicate]
    split <;> rfl

theorem step_failed {path : Path} {flags : Nat} {r : Int}
    (hr : s.table.open_ path flags = some (r, s.table)) (hneg : r < 0)
    (h : step s (.open_ path flags) = some s') : s' = s := by
  simp only [FdTable.step, hr, map_some, some.injEq] at h
  rw [← h]
  split
  · rw [if_neg (by omega)]
  · rfl

theorem step_opened {path : Path} {flags n : Nat} {f : File}
    (hr : s.table.open_ path flags = some ((n : Int), t')) (hf : created path flags = some f) :
    step s (.open_ path flags) = some ⟨t', .opened n f :: s.done⟩ := by
  simp only [FdTable.step, hr, hf, map_some]
  rw [if_pos (Int.natCast_nonneg n), Int.toNat_natCast]

theorem step_closed (hr : s.table.close fd = some (0, t')) :
    step s (.close fd) = some ⟨t', .closed fd.toNat :: s.done⟩ := by
  simp [FdTable.step, hr]

theorem step_badf (hr : s.table.close fd = some (-ebadf, s.table)) :
    step s (.close fd) = some s := by
  have hne : ¬ -ebadf = 0 := by decide
  simp [FdTable.step, hr, hne]

theorem Inv.step {e : Event} (I : Inv tty s l) (h : step s e = some s') : ∃ l', Inv tty s' l' := by
  cases e with
  | open_ path flags =>
    obtain ⟨r, hr, hneg, -⟩ | ⟨f, t', hf, hr, H'⟩ := I.holds.open_ path flags
    · obtain rfl := step_failed hr hneg h
      exact ⟨l, I⟩
    obtain rfl := Option.some.inj ((step_opened hr hf).symm.trans h)
    refine ⟨_, H', ?_⟩
    intro fd
    simp only [designates, ← I.files fd]
    split
    · rename_i hfd
      simp [hfd]
    · rename_i hfd
      by_cases hlt : fd < l.length
      · rw [List.getElem?_append_left hlt]
      · rw [List.getElem?_eq_none (by simp; omega), List.getElem?_eq_none (by omega)]
  | close fd' =>
    obtain ⟨-, hr⟩ | ⟨f, t', hf, hr, H'⟩ := I.holds.close fd'
    · obtain rfl := Option.some.inj ((step_badf hr).symm.trans h)
      exact ⟨l, I⟩
    obtain rfl := Option.some.inj ((step_closed hr).symm.trans h)
    refine ⟨_, H', ?_⟩
    intro fd
    simp only [designates, ← I.files fd]
    split
    · rename_i hfd
      obtain ⟨hlt, -⟩ := List.getElem?_eq_some_iff.mp hf
      simp [hfd, hlt]
    · rename_i hfd
      rw [List.getElem?_set_ne (Ne.symm hfd)]

theorem reach_inv (h : Reach (Fresh tty) step always s) : ∃ l, Inv tty s l := by
  apply h.invariant (I := fun s => ∃ l, Inv tty s l)
  · intro s hs
    exact ⟨_, Inv.fresh hs⟩
  · intro s e s' hI _ hstep
    obtain ⟨l, I⟩ := hI
    exact I.step hstep

/-- `get_fd` finds the file of every descriptor in use and no other, `open` returns a
descriptor that is not in use and meets its assertion, and neither call changes what
another descriptor designates. -/
theorem fds_faithful (h : Reach (Fresh tty) step always s) :
    (∀ fd, s.table.getFd fd = some (match designates tty s.done fd.toNat with
      | some f => (0, some f)
      | none => (-ebadf, none))) ∧
    (∀ path flags, ∃ r t, s.table.open_ path flags = some (r, t) ∧
      (0 ≤ r → designates tty s.done r.toNat = none) ∧
      ∀ fd : BitVec 32, (fd.toNat : Int) ≠ r → t.getFd fd = s.table.getFd fd) ∧
    ∀ fd', ∃ r t, s.table.close fd' = some (r, t) ∧
      ∀ fd, fd ≠ fd' → t.getFd fd = s.table.getFd fd := by
  obtain ⟨l, I⟩ := reach_inv h
  refine ⟨?_, ?_, ?_⟩
  · intro fd
    rw [I.holds.getFd, I.files]
  · intro path flags
    obtain ⟨r, hr, hneg, -⟩ | ⟨f, t', -, hr, H'⟩ := I.holds.open_ path flags
    · exact ⟨r, s.table, hr, fun h0 => absurd h0 (by omega), fun _ _ => rfl⟩
    refine ⟨_, t', hr, ?_, ?_⟩
    · intro _
      rw [Int.toNat_natCast, ← I.files, List.getElem?_eq_none (Nat.le_refl _)]
      rfl
    · intro fd hfd
      apply I.holds.getFd_congr H'
      by_cases hlt : fd.toNat < l.length
      · rw [List.getElem?_append_left hlt]
      · rw [List.getElem?_eq_none (by simp; omega), List.getElem?_eq_none (by omega)]
  · intro fd'
    obtain ⟨-, hr⟩ | ⟨-, t', -, hr, H'⟩ := I.holds.close fd'
    · exact ⟨_, s.table, hr, fun _ _ => rfl⟩
    · refine ⟨_, t', hr, ?_⟩
      intro fd hfd
      apply I.holds.getFd_congr H'
      have hne : fd'.toNat ≠ fd.toNat := fun h => hfd (BitVec.eq_of_toNat_eq h.symm)
      rw [List.getElem?_set_ne hne]

/-- The terminal is opened, descriptor 1 is closed, and the terminal is opened again. -/
def openCloseOpen : List Event :=
  [.open_ (some (some (.tty ⟨1, 0⟩))) 1, .close 1, .open_ (some (some (.tty ⟨2, 0⟩))) 0]

theorem fds_faithful_sample : ∃ s, Reach (Fresh ⟨0, 0⟩) step always s ∧
    s.table.getFd 1 = some (-ebadf, none) ∧ s.table.getFd 4 = some (0, some ⟨2, 0⟩) := by
  have hrun : ((fresh ⟨0, 0⟩).bind fun t => run step ⟨t, []⟩ openCloseOpen).map
      (fun s => (designates ⟨0, 0⟩ s.done 1, designates ⟨0, 0⟩ s.done 4)) =
        some (none, some ⟨2, 0⟩) := by
    decide +kernel
  obtain ⟨s, hs, hv⟩ := run_of_map hrun
  obtain ⟨t, ht, hs⟩ := bind_eq_some_iff.mp hs
  simp only [Prod.mk.injEq] at hv
  have h : Reach (Fresh ⟨0, 0⟩) step always s := Reach.run (.init ⟨ht, rfl⟩) hs
  obtain ⟨hget, -⟩ := fds_faithful h
  refine ⟨s, h, ?_, ?_⟩
  · rw [hget, show (1 : BitVec 32).toNat = 1 from rfl, hv.1]
  · rw [hget, show (4 : BitVec 32).toNat = 4 from rfl, hv.2]

/-! ## Reuse -/

/-- The descriptor is the smallest one that is not in use. -/
def Smallest (tty : File) (done : List Done) (fd : Nat) : Prop :=
  designates tty done fd = none ∧ ∀ fd' < fd, designates tty done fd' ≠ none

/-- The call closes no descriptor that is in use. -/
def keepsOpen (tty : File) (s : State) : Event → Prop
  | .open_ _ _ => True
  | .close fd => designates tty s.done fd.toNat = none

/-- Every descriptor below the cached one is in use. -/
def Packed (tty : File) (s : State) : Prop := ∀ fd < s.table.nextFd, designates tty s.done fd ≠ none

theorem Inv.unused (I : Inv tty s l) {fd : Nat} (h : s.table.nextFd ≤ fd) :
    designates tty s.done fd = none := by
  rw [← I.files, List.getElem?_eq_none (I.holds.next ▸ h)]
  rfl

theorem Packed.step {e : Event} (P : Packed tty s) (I : Inv tty s l)
    (hok : keepsOpen tty s e) (h : step s e = some s') : Packed tty s' := by
  cases e with
  | open_ path flags =>
    obtain ⟨r, hr, hneg, -⟩ | ⟨f, t', hf, hr, H'⟩ := I.holds.open_ path flags
    · obtain rfl := step_failed hr hneg h
      exact P
    obtain rfl := Option.some.inj ((step_opened hr hf).symm.trans h)
    intro fd hfd
    have hnext := H'.next
    have hnext₀ := I.holds.next
    simp only [length_append, length_singleton] at hnext
    simp only [designates]
    split
    · simp
    · apply P
      dsimp only at hfd
      omega
  | close fd' =>
    obtain ⟨-, hr⟩ | ⟨f, t', hf, hr, H'⟩ := I.holds.close fd'
    · obtain rfl := Option.some.inj ((step_badf hr).symm.trans h)
      exact P
    · have hused := I.files fd'.toNat
      rw [hf, hok] at hused
      cases hused

theorem reach_packed (h : Reach (Fresh tty) step (keepsOpen tty) s) :
    (∃ l, Inv tty s l) ∧ Packed tty s := by
  apply h.invariant (I := fun s => (∃ l, Inv tty s l) ∧ Packed tty s)
  · intro s hs
    have I := Inv.fresh hs
    refine ⟨⟨_, I⟩, ?_⟩
    intro fd hfd
    rw [I.holds.next, length_replicate] at hfd
    rw [← I.files, List.getElem?_replicate, if_pos hfd]
    simp
  · rintro s e s' ⟨⟨l, I⟩, P⟩ hok hstep
    exact ⟨I.step hstep, P.step I hok hstep⟩

/-- **Descriptors in order.** As long as no descriptor in use is closed, an `open` that
finds the terminal returns the smallest descriptor not in use, and `open` reports
`EMFILE` only when all of them are in use. -/
theorem open_smallest (h : Reach (Fresh tty) step (keepsOpen tty) s) :
    (∀ fp flags, ∃ r t, s.table.open_ (some (some (.tty fp))) flags = some (r, t) ∧
      (r = -emfile ∨ ∃ fd : Nat, r = fd ∧ Smallest tty s.done fd)) ∧
    ∀ path flags t, s.table.open_ path flags = some (-emfile, t) →
      ∀ fd < procMaxFds, designates tty s.done fd ≠ none := by
  obtain ⟨⟨l, I⟩, P⟩ := reach_packed h
  have hnext := I.holds.next
  constructor
  · intro fp flags
    by_cases hfull : s.table.nextFd ≥ procMaxFds
    · exact ⟨_, _, if_pos hfull, .inl rfl⟩
    · obtain ⟨t', hr, -⟩ := I.holds.open_tty (by omega) fp flags
      refine ⟨_, t', hr, .inr ⟨_, rfl, I.unused (by omega), ?_⟩⟩
      rw [← hnext]
      exact P
  · intro path flags t hr fd hfd
    apply P
    obtain ⟨r, hr', -, hfull⟩ | ⟨f, t', -, hr', -⟩ := I.holds.open_ path flags
    · have := hfull (Prod.mk.inj (Option.some.inj (hr'.symm.trans hr))).1
      omega
    · have hneg := (Prod.mk.inj (Option.some.inj (hr'.symm.trans hr))).1
      simp only [emfile] at hneg
      omega

theorem open_smallest_sample : ∃ s t, Reach (Fresh ⟨0, 0⟩) step (keepsOpen ⟨0, 0⟩) s ∧
    s.table.open_ (some (some (.tty ⟨2, 0⟩))) 0 = some (4, t) ∧ Smallest ⟨0, 0⟩ s.done 4 := by
  have hrun : ((fresh ⟨0, 0⟩).bind fun t =>
      run step ⟨t, []⟩ [.open_ (some (some (.tty ⟨1, 0⟩))) 1]).map
      (fun s => (s.table.open_ (some (some (.tty ⟨2, 0⟩))) 0).map (·.1)) = some (some 4) := by
    decide +kernel
  obtain ⟨s, hs, hv⟩ := run_of_map hrun
  obtain ⟨t, ht, hs⟩ := bind_eq_some_iff.mp hs
  have h : Reach (Fresh ⟨0, 0⟩) step (keepsOpen ⟨0, 0⟩) s := by
    obtain ⟨u, hu, hs⟩ := bind_eq_some_iff.mp hs
    obtain rfl := Option.some.inj hs
    have h₀ : Reach (Fresh ⟨0, 0⟩) step (keepsOpen ⟨0, 0⟩) ⟨t, []⟩ := .init ⟨ht, rfl⟩
    exact h₀.step (a := .open_ _ _) trivial hu
  obtain ⟨r, t', hr, hres⟩ := (open_smallest h).1 ⟨2, 0⟩ 0
  rw [hr, map_some, some.injEq] at hv
  obtain rfl := hv
  rcases hres with hres | ⟨fd, hfd, hsmall⟩
  · exact absurd hres (by decide)
  · obtain rfl : fd = 4 := by omega
    exact ⟨s, t', h, hr, hsmall⟩

/-- Each pair of `open` and `close` uses up one more descriptor. -/
theorem opens_used_up {t₀ : FdTable} (h₀ : fresh tty = some t₀) (n : Nat)
    (hn : 3 + n ≤ procMaxFds) :
    ∃ s l, Reach (Fresh tty) step always s ∧ Inv tty s l ∧ l.length = 3 + n ∧
      ∀ fd, 3 ≤ fd → designates tty s.done fd = none := by
  induction n with
  | zero =>
    have hf : Fresh tty ⟨t₀, []⟩ := ⟨h₀, rfl⟩
    refine ⟨_, _, .init hf, Inv.fresh hf, by simp, ?_⟩
    intro fd hfd
    exact if_neg (by omega)
  | succ n ih =>
    obtain ⟨s, l, hs, I, hlen, hnone⟩ := ih (by omega)
    have hmax : procMaxFds = 1024 := rfl
    obtain ⟨t₁, hr₁, H₁⟩ := I.holds.open_tty (by omega) tty 0
    have hs₁ := hs.step (a := .open_ (some (some (.tty tty))) 0) trivial (step_opened hr₁ rfl)
    have hfd : (BitVec.ofNat 32 (3 + n)).toNat = 3 + n := by
      rw [BitVec.toNat_ofNat]
      omega
    obtain ⟨hbad, -⟩ | ⟨f, t₂, -, hr₂, H₂⟩ := H₁.close (BitVec.ofNat 32 (3 + n))
    · rw [hfd, ← hlen] at hbad
      simp at hbad
    have hs₂ := hs₁.step (a := .close _) trivial (step_closed hr₂)
    obtain ⟨l₂, I₂⟩ := reach_inv hs₂
    have hlen₂ : l₂.length = 3 + (n + 1) := by
      rw [← I₂.holds.next, H₂.next]
      simp
      omega
    refine ⟨_, l₂, hs₂, I₂, hlen₂, ?_⟩
    intro fd hge
    simp only [designates, hfd, hlen]
    split
    · rfl
    · exact hnone fd hge

/-- A closed descriptor is not found again: after `close(1)` the next `open` returns 3, and
after 1021 pairs of `open` and `close` there is no descriptor left, with 0, 1 and 2 in use. -/
theorem open_ignores_closed : (∃ s t, Reach (Fresh ⟨0, 0⟩) step always s ∧
      designates ⟨0, 0⟩ s.done 1 = none ∧
      s.table.open_ (some (some (.tty ⟨1, 0⟩))) 0 = some (3, t)) ∧
    ∃ s, Reach (Fresh ⟨0, 0⟩) step always s ∧
      (∀ fd, 3 ≤ fd → designates ⟨0, 0⟩ s.done fd = none) ∧
      s.table.open_ (some (some (.tty ⟨1, 0⟩))) 0 = some (-emfile, s.table) := by
  constructor
  · have hrun : ((fresh ⟨0, 0⟩).bind fun t => run step ⟨t, []⟩ [.close 1]).map
        (fun s => (designates ⟨0, 0⟩ s.done 1,
          (s.table.open_ (some (some (.tty ⟨1, 0⟩))) 0).map (·.1))) = some (none, some 3) := by
      decide +kernel
    obtain ⟨s, hs, hv⟩ := run_of_map hrun
    obtain ⟨t, ht, hs⟩ := bind_eq_some_iff.mp hs
    obtain ⟨hd, ho⟩ := Prod.mk.inj hv
    obtain ⟨⟨r, t'⟩, hr, rfl⟩ := map_eq_some_iff.mp ho
    exact ⟨s, t', Reach.run (.init ⟨ht, rfl⟩) hs, hd, hr⟩
  · obtain ⟨t₀, ht₀⟩ : ∃ t, fresh ⟨0, 0⟩ = some t := by
      apply isSome_iff_exists.mp
      decide +kernel
    obtain ⟨s, l, hs, I, hlen, hnone⟩ := opens_used_up ht₀ 1021 (by decide)
    have hfull : s.table.nextFd ≥ procMaxFds := by
      rw [I.holds.next, hlen]
      decide
    exact ⟨s, hs, hnone, if_pos hfull⟩

end FdTable

end Sysint.Fs
