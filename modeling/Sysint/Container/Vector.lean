import Mathlib.Algebra.Group.Nat.Defs
import Mathlib.Tactic.Simps.Basic
import Sysint.Lib.Machine
import Sysint.Lib.Stored

/-! The growable array of `lib/vector.h`. Pointers count slots of one element each,
and 0 is the null pointer. `malloc` always finds a fresh block of the bytes asked for;
`none` is a failed `ASSERTH`, storage that ends inside of a slot, the construction of an
object outside of the storage, or a read outside of the storage or of a slot without an
object. -/
namespace Sysint.Container
open Function List Option Nat
open Machine

structure Vector (α : Type) where
  /-- `sizeof(T)`. -/
  width : Nat
  width_ok : 0 < width ∧ width < 2 ^ 32
  /-- The objects in memory. -/
  mem : Nat → Option α
  /-- Where `malloc` finds the next block. -/
  fresh : Nat
  membegin : Nat
  begin_ : Nat
  end_ : Nat
  memend : Nat
  contract : Bool
  maxcap : Nat

variable {n : Nat}

namespace Vector

variable {α : Type}

/-- Arithmetic of `size_t`. -/
def wrap (n : Nat) : Nat := n % 2 ^ 32

/-- `vector(n, contract, maxcap)` for elements of `width` bytes. -/
def new (width : Nat) (hw : 0 < width ∧ width < 2 ^ 32) (n : Nat) (contract : Bool)
    (maxcap : Nat) : Vector α where
  width := width
  width_ok := hw
  mem := fun _ => none
  fresh := 1 + wrap (n * width) / width
  membegin := if 0 < n then 1 else 0
  begin_ := if 0 < n then 1 else 0
  end_ := if 0 < n then 1 else 0
  memend := if 0 < n then 1 + wrap (n * width) / width else 0
  contract := contract
  maxcap := maxcap

def size (v : Vector α) : Nat := v.end_ - v.begin_

def capacity (v : Vector α) : Nat := v.memend - v.membegin

/-- What lies from `begin()` to `end()`. -/
def elements (v : Vector α) : List (Option α) :=
  (List.range v.size).map fun i => v.mem (v.begin_ + i)

def InStorage (v : Vector α) (pos : Nat) : Prop := v.membegin ≤ pos ∧ pos < v.memend

instance (v : Vector α) (pos : Nat) : Decidable (v.InStorage pos) :=
  inferInstanceAs (Decidable (_ ∧ _))

/-- `::new(pos) T(x)`. -/
def construct (v : Vector α) (pos : Nat) (x : α) : Option (Vector α) :=
  if v.InStorage pos then
    some { v with mem := update v.mem pos (some x) }
  else none

/-- `_destroy`. -/
def destroy (v : Vector α) (b e : Nat) : Vector α :=
  { v with mem := fun a => if b ≤ a ∧ a < e then none else v.mem a }

def expandCapacity (v : Vector α) : Nat := wrap (wrap (v.capacity * 3) / 2 + v.capacity % 2)

/-- The loops of `_resize_container`: move `k` elements of the old storage from `src` on
to `_end`. -/
def move (old : Vector α) : Nat → Vector α → Nat → Option (Vector α)
  | 0, v, _ => some v
  | k + 1, v, src => do
    let x ← if old.InStorage src then v.mem src else none
    let v ← v.construct v.end_ x
    move old k { v with end_ := v.end_ + 1 } (src + 1)

/-- The slots of `malloc(n * sizeof(T))`. A block lies in the address space, so `_membegin + n`
wraps as its size does. -/
def slots (v : Vector α) (n : Nat) : Nat := wrap (n * v.width) / v.width

/-- `_membegin` and `_memend` are a new block, and `_end` is its start. -/
def allocate (v : Vector α) (n : Nat) : Vector α :=
  { v with
    fresh := v.fresh + v.slots n
    membegin := v.fresh
    memend := v.fresh + v.slots n
    end_ := v.fresh }

/-- `_begin = _membegin`. -/
def rewind (v : Vector α) : Vector α := { v with begin_ := v.membegin }

/-- `_resize_container`. -/
def resizeContainer (v : Vector α) (n : Nat) : Option (Vector α) :=
  if n = v.capacity then some v
  else if n < 1 ∧ v.membegin ≠ 0 then
    some { v.destroy v.begin_ v.end_ with membegin := 0, begin_ := 0, end_ := 0, memend := 0 }
  else if ¬ v.width ∣ wrap (n * v.width) then none
  else if v.begin_ ≠ 0 then do
    let v' ← move v (if n < v.size then v.slots n else v.size) (v.allocate n) v.begin_
    return (v'.destroy v.begin_ v.end_).rewind
  else some (v.allocate n).rewind

/-- The capacity that `_push` asks for. -/
def grown (v : Vector α) : Nat :=
  let oldcap := v.capacity
  let newcap := v.expandCapacity
  let newcap := if newcap < wrap (oldcap + 1) then wrap (oldcap + 1) else newcap
  if newcap > v.maxcap then v.maxcap else newcap

/-- `_push`, with the position that it returns. -/
def push (v : Vector α) : Option (Option Nat × Vector α) :=
  if v.size ≥ v.maxcap then some (none, v)
  else if v.end_ ≥ v.memend then do
    let v' ← v.resizeContainer v.grown
    let pos := v'.begin_ + v.capacity
    return (some pos, { v' with end_ := pos + 1 })
  else some (some v.end_, { v with end_ := v.end_ + 1 })

/-- An argument `const T&`: an object of its own, or an element of the vector itself. -/
inductive Arg (α : Type) where
  | val (x : α)
  | ref (i : Nat)
  deriving DecidableEq

/-- What `v` holds at an argument that was bound in `v₀`. -/
def read (v₀ v : Vector α) : Arg α → Option α
  | .val x => some x
  | .ref i => v.mem (v₀.begin_ + i)

/-- `push_back`, with the position that it returns. -/
def pushBack (v : Vector α) (a : Arg α) : Option (Option Nat × Vector α) := do
  match ← v.push with
  | (none, v') => return (none, v')
  | (some pos, v') =>
    let x ← read v v' a
    return (some pos, ← v'.construct pos x)

/-- `emplace_back` with the argument of a copy. -/
def emplaceBack (v : Vector α) (a : Arg α) : Option (Option Nat × Vector α) := v.pushBack a

/-- `_resize_container(sz < 1 ? 1 : sz)` at a quarter of the capacity. -/
def shrink (v : Vector α) : Option (Vector α) :=
  if v.contract && wrap (4 * v.size) ≤ v.capacity then
    v.resizeContainer (if v.size < 1 then 1 else v.size)
  else some v

def popFront (v : Vector α) : Option (Vector α) :=
  if v.begin_ < v.end_ then
    { v.destroy v.begin_ (v.begin_ + 1) with begin_ := v.begin_ + 1 }.shrink
  else none

def popBack (v : Vector α) : Option (Vector α) :=
  if v.end_ > v.begin_ then
    { v.destroy (v.end_ - 1) v.end_ with end_ := v.end_ - 1 }.shrink
  else none

/-- The loop of `resize` from `_end` to `_memend`. -/
def fill (v₀ : Vector α) (a : Arg α) : Nat → Vector α → Option (Vector α)
  | 0, v => some v
  | k + 1, v => do
    let x ← read v₀ v a
    let v ← v.construct v.end_ x
    fill v₀ a k { v with end_ := v.end_ + 1 }

def resize (v : Vector α) (n : Nat) (a : Arg α) : Option (Vector α) :=
  if n > v.maxcap then some v
  else do
    let v' ← v.resizeContainer n
    if v'.end_ ≤ v'.memend then fill v a (v'.memend - v'.end_) v' else none

def reserve (v : Vector α) (n : Nat) : Option (Vector α) :=
  if n > v.capacity ∧ n ≤ v.maxcap then v.resizeContainer n else some v

def clear (v : Vector α) : Option (Vector α) :=
  let v := { v.destroy v.begin_ v.end_ with begin_ := v.membegin, end_ := v.membegin }
  if v.contract && v.capacity > 1 then v.resizeContainer 1 else some v

/-- `operator[]`, read. -/
def get (v : Vector α) (i : Nat) : Option α := if i < v.size then v.mem (v.begin_ + i) else none

/-- `operator[]`, assigned to. -/
def set (v : Vector α) (i : Nat) (x : α) : Option (Vector α) :=
  if i < v.size then some { v with mem := update v.mem (v.begin_ + i) (some x) } else none

inductive Op (α : Type) where
  | pushBack (a : Arg α)
  | emplaceBack (a : Arg α)
  | popBack
  | popFront
  | resize (n : Nat) (a : Arg α)
  | reserve (n : Nat)
  | clear

def step (v : Vector α) : Op α → Option (Vector α)
  | .pushBack a => (v.pushBack a).map (·.2)
  | .emplaceBack a => (v.emplaceBack a).map (·.2)
  | .popBack => v.popBack
  | .popFront => v.popFront
  | .resize n a => v.resize n a
  | .reserve n => v.reserve n
  | .clear => v.clear

/-! ## The abstract list -/

/-- What an argument stands for, if the vector is the list. -/
def Arg.value (l : List α) : Arg α → Option α
  | .val x => some x
  | .ref i => l[i]?

/-- The same operation on a list that holds at most `maxcap` elements. -/
def listStep (maxcap : Nat) (l : List α) : Op α → List α
  | .pushBack a | .emplaceBack a => if l.length < maxcap then l ++ (a.value l).toList else l
  | .popBack => l.dropLast
  | .popFront => l.tail
  | .resize n a =>
    if n > maxcap then l else l.take n ++ (a.value l).elim [] (List.replicate (n - l.length))
  | .reserve _ => l
  | .clear => []

/-- The storage holds the list. -/
structure Holds (v : Vector α) (l : List α) : Prop where
  membegin_le : v.membegin ≤ v.begin_
  end_eq : v.end_ = v.begin_ + l.length
  end_le : v.end_ ≤ v.memend
  memend_le : v.memend ≤ v.fresh
  fresh : 0 < v.fresh
  null : v.membegin = 0 → v.memend = 0
  bytes : v.capacity * v.width < 2 ^ 32
  stored : Stored v.mem v.begin_ l

variable {v v' : Vector α} {l : List α} {a : Arg α} {x : α}

theorem Holds.size (H : v.Holds l) : v.size = l.length := by
  have h := H.end_eq
  unfold Vector.size
  omega

theorem Holds.elements (H : v.Holds l) : v.elements = l.map some := by
  unfold Vector.elements
  rw [H.size]
  exact H.stored.range_map

theorem wrap_of_lt (h : n < 2 ^ 32) : wrap n = n := mod_eq_of_lt h

theorem wrap_lt (n : Nat) : wrap n < 2 ^ 32 := mod_lt _ (by decide)

/-- No block is larger than the address space. -/
theorem slots_mul_lt (v : Vector α) (n : Nat) : v.slots n * v.width < 2 ^ 32 :=
  Nat.lt_of_le_of_lt (div_mul_le_self _ _) (wrap_lt _)

theorem Holds.new {width : Nat} (hw : 0 < width ∧ width < 2 ^ 32) (n : Nat) (contract : Bool)
    (maxcap : Nat) : (new width hw n contract maxcap : Vector α).Holds [] := by
  have hbytes := slots_mul_lt (Vector.new width hw n contract maxcap : Vector α) n
  by_cases h : 0 < n
  · constructor <;> simp [Vector.new, h, Stored, Vector.capacity, Nat.add_comm 1]
    exact hbytes
  · constructor <;> simp [Vector.new, h, Stored, Vector.capacity, Nat.add_comm 1]

/-! ## New storage -/

theorem construct_inside {pos : Nat} (x : α) (h : v.membegin ≤ pos) (h' : pos < v.memend) :
    v.construct pos x = some { v with mem := update v.mem pos (some x) } :=
  if_pos ⟨h, h'⟩

/-- The loop copies the objects from `src` on to the slots from `_end` on. -/
theorem move_spec (old : Vector α) {xs : List α} {src : Nat} (hs : Stored v.mem src xs)
    (hold : old.membegin ≤ src) (hold' : src + xs.length ≤ old.memend)
    (hsrc : src + xs.length ≤ v.end_) (hb : v.membegin ≤ v.end_)
    (he : v.end_ + xs.length ≤ v.memend) :
    ∃ mem', move old xs.length v src = some { v with mem := mem', end_ := v.end_ + xs.length } ∧
      Stored mem' v.end_ xs ∧ ∀ a, a < v.end_ → mem' a = v.mem a := by
  induction xs generalizing v src with
  | nil => exact ⟨v.mem, rfl, trivial, fun _ _ => rfl⟩
  | cons x xs ih =>
    simp only [length_cons] at hsrc he hold'
    obtain ⟨hx, hs⟩ := hs
    have hs' : Stored (update v.mem v.end_ (some x)) (src + 1) xs := by
      apply hs.congr
      intro b _ hb'
      exact update_of_ne (by omega) _ _
    obtain ⟨mem', hmove, hstored, hkeep⟩ :=
      ih (v := { v with mem := update v.mem v.end_ (some x), end_ := v.end_ + 1 }) hs'
        (by omega) (by omega) (by simp only; omega) (by simp only; omega) (by simp only; omega)
    refine ⟨mem', ?_, ⟨?_, hstored⟩, ?_⟩
    · have hin : old.InStorage src := ⟨hold, by omega⟩
      rw [length_cons, move, if_pos hin, hx]
      simp only [bind_eq_bind, bind_some,
        construct_inside x hb (by omega : v.end_ < v.memend)]
      rw [hmove]
      simp [Nat.add_comm, Nat.add_left_comm]
    · rw [hkeep v.end_ (by simp only; omega)]
      simp
    · intro a ha
      rw [hkeep a (by simp only; omega)]
      exact update_of_ne (by omega) _ _

/-- Everything that a resize of the storage leaves alone. -/
def SameKind (v v' : Vector α) : Prop :=
  v'.contract = v.contract ∧ v'.maxcap = v.maxcap ∧ v'.width = v.width

theorem SameKind.trans {v₁ v₂ v₃ : Vector α} (h : SameKind v₁ v₂) (h' : SameKind v₂ v₃) :
    SameKind v₁ v₃ :=
  ⟨h'.1.trans h.1, h'.2.1.trans h.2.1, h'.2.2.trans h.2.2⟩

/-- The list `l` lies in storage of exactly `n` slots, from the start of it on. -/
structure Packed (v : Vector α) (l : List α) (n : Nat) : Prop where
  holds : v.Holds l
  begin_eq : v.begin_ = v.membegin
  capacity : v.capacity = n

theorem Packed.of_start {n : Nat} (hb : v.begin_ = v.membegin) (he : v.end_ = v.begin_ + l.length)
    (hm : v.memend = v.begin_ + n) (hn : l.length ≤ n) (hf : 0 < v.fresh ∧ v.memend ≤ v.fresh)
    (h0 : v.begin_ = 0 → n = 0) (hw : n * v.width < 2 ^ 32) (hs : Stored v.mem v.begin_ l) :
    Packed v l n := by
  have hcap : v.capacity = n := by
    unfold Vector.capacity
    omega
  exact ⟨⟨Nat.le_of_eq hb.symm, he, by omega, hf.2, hf.1, by omega, hcap ▸ hw, hs⟩, hb, hcap⟩

theorem Packed.memend (P : Packed v l n) : v.memend = v.begin_ + n := by
  have hm := P.holds.end_eq
  have hle := P.holds.end_le
  have hc := P.capacity
  have hb := P.begin_eq
  unfold Vector.capacity at hc
  omega

/-- What the loop has moved to a new block stays when the old objects are destroyed. -/
theorem Holds.packed_moved (H : v.Holds l) {mem : Nat → Option α} {xs : List α}
    (hn : xs.length ≤ v.slots n) (hs : Stored mem v.fresh xs) :
    Packed ({ v.allocate n with mem := mem, end_ := v.fresh + xs.length }.destroy v.begin_
      v.end_).rewind xs (v.slots n) := by
  have hpos := H.fresh
  refine .of_start rfl rfl rfl hn ⟨Nat.add_pos_left hpos _, Nat.le_refl _⟩
    (fun h => absurd h (Nat.ne_of_gt hpos))
    (v.slots_mul_lt n) (hs.congr fun a (ha : v.fresh ≤ a) _ => if_neg ?_)
  have hend := H.end_le
  have hmem := H.memend_le
  omega

/-- A vector without storage is empty. -/
theorem Holds.eq_nil (H : v.Holds l) (h : v.begin_ = 0) : l = [] := by
  have hm := H.membegin_le
  have hnull := H.null (by omega)
  have hend := H.end_eq
  have hle := H.end_le
  exact length_eq_zero_iff.mp (by omega)

/-- A block asked for with `n` slots has room for `k` elements. -/
def Fits (v : Vector α) (n k : Nat) : Prop := v.width ∣ wrap (n * v.width) ∧ k ≤ v.slots n

instance (v : Vector α) (n k : Nat) : Decidable (v.Fits n k) := inferInstanceAs (Decidable (_ ∧ _))

theorem slots_of_lt (h : n * v.width < 2 ^ 32) : v.slots n = n := by
  unfold slots
  rw [wrap_of_lt h, Nat.mul_div_cancel _ v.width_ok.1]

theorem fits_of_lt {k : Nat} (h : n * v.width < 2 ^ 32) (hk : k ≤ n) : v.Fits n k := by
  refine ⟨?_, (slots_of_lt h).symm ▸ hk⟩
  rw [wrap_of_lt h]
  exact Nat.dvd_mul_left _ _

/-- No more slots than the storage has now always fit. -/
theorem Holds.lt_of_le (H : v.Holds l) (hn : n ≤ v.capacity) : n * v.width < 2 ^ 32 :=
  Nat.lt_of_le_of_lt (Nat.mul_le_mul_right _ hn) H.bytes

theorem Holds.length_le (H : v.Holds l) : l.length ≤ v.capacity := by
  have hm := H.membegin_le
  have hend := H.end_eq
  have hle := H.end_le
  unfold Vector.capacity
  omega

/-- How many elements the loops move. -/
theorem Holds.moved (H : v.Holds l) (n : Nat) :
    (if n < v.size then v.slots n else v.size) = (l.take n).length := by
  have hcap := H.length_le
  rw [H.size, length_take]
  split
  · rw [slots_of_lt (H.lt_of_le (by omega))]
    omega
  · omega

/-- New storage keeps the first `n` elements, and the old objects are gone. -/
theorem resizeContainer_spec (H : v.Holds l) (hn : n ≠ v.capacity)
    (hfit : v.Fits n (l.take n).length) :
    ∃ v', v.resizeContainer n = some v' ∧ Packed v' (l.take n) (v.slots n) ∧ SameKind v v' ∧
      ∀ a, v.begin_ ≤ a → a < v.end_ → v'.mem a = none := by
  have hend := H.end_eq
  unfold resizeContainer
  rw [if_neg hn]
  by_cases h1 : n < 1 ∧ v.membegin ≠ 0
  · rw [if_pos h1]
    obtain rfl : n = 0 := by omega
    have hzero : v.slots 0 = 0 := by simp [slots, wrap]
    rw [hzero]
    exact ⟨_, rfl, .of_start rfl rfl rfl (Nat.le_refl 0) ⟨H.fresh, Nat.zero_le _⟩ (fun _ => rfl)
      (by simp) trivial, ⟨rfl, rfl, rfl⟩, fun a ha ha' => if_pos ⟨ha, ha'⟩⟩
  rw [if_neg h1, if_neg (not_not.mpr hfit.1)]
  by_cases h2 : v.begin_ = 0
  · rw [if_neg (not_not.mpr h2)]
    obtain rfl := H.eq_nil h2
    refine ⟨_, rfl, ?_, ⟨rfl, rfl, rfl⟩, fun a ha ha' => ?_⟩
    · rw [take_nil]
      exact .of_start rfl rfl rfl (Nat.zero_le _) ⟨Nat.add_pos_left H.fresh _, Nat.le_refl _⟩
        (fun h => absurd h (Nat.ne_of_gt H.fresh)) (v.slots_mul_lt n) trivial
    · rw [length_nil] at hend
      omega
  -- the loop moves the elements that fit
  rw [if_pos h2]
  have hle := H.end_le
  have hmem := H.memend_le
  have hsn := hfit.2
  have hsl : (l.take n).length ≤ l.length := length_take_le' n l
  have hs : Stored (v.allocate n).mem v.begin_ (l.take n) := by
    have hst := H.stored
    rw [← take_append_drop n l] at hst
    exact (Stored.append_iff.mp hst).1
  obtain ⟨mem', hmove, hst, -⟩ := move_spec v hs H.membegin_le (by omega)
    (by simp only [allocate]; omega) (by simp only [allocate]; omega)
    (by simp only [allocate]; omega)
  rw [H.moved n, hmove]
  exact ⟨_, rfl, H.packed_moved hsn hst, ⟨rfl, rfl, rfl⟩, fun a ha ha' => if_pos ⟨ha, ha'⟩⟩

theorem resizeContainer_same (v : Vector α) : v.resizeContainer v.capacity = some v := if_pos rfl

/-! ## The operations -/

/-- Pops find an element, and a reference is to one. -/
def Valid (v : Vector α) : Op α → Prop
  | .pushBack (.ref i) | .emplaceBack (.ref i) | .resize _ (.ref i) => i < v.size
  | .popBack | .popFront => v.size ≠ 0
  | _ => True

/-- An argument is read after `moved` has freed the old storage. -/
def Arg.Outlives (moved : Prop) : Arg α → Prop
  | .val _ => True
  | .ref _ => ¬ moved

/-- A push that has to grow the storage finds no gap before the first element, and a `resize` to
the present capacity finds none either. New storage has room for what goes there, and no argument
that is read after it lies in the old one. -/
def Ok (v : Vector α) : Op α → Prop
  | .pushBack a | .emplaceBack a =>
    v.size < v.maxcap → a.Outlives (v.end_ = v.memend) ∧
      (v.end_ = v.memend → v.begin_ = v.membegin ∧ v.Fits v.grown (v.size + 1))
  | .resize n a =>
    n ≤ v.maxcap → (v.size < n → a.Outlives (n ≠ v.capacity)) ∧
      (if n = v.capacity then v.begin_ = v.membegin else v.Fits n n)
  | .reserve n => v.capacity < n → n ≤ v.maxcap → v.Fits n v.size
  | .popBack | .popFront | .clear => True

instance (v : Vector α) (o : Op α) : Decidable (v.Valid o) := by
  unfold Valid
  split <;> infer_instance

instance (moved : Prop) [Decidable moved] (a : Arg α) : Decidable (a.Outlives moved) := by
  cases a <;> unfold Arg.Outlives <;> infer_instance

instance (v : Vector α) (o : Op α) : Decidable (v.Ok o) := by
  cases o <;> unfold Ok <;> infer_instance

theorem Holds.construct (H : v.Holds l) (x : α) (h : v.end_ < v.memend) :
    ∃ v', { v with end_ := v.end_ + 1 }.construct v.end_ x = some v' ∧ v'.Holds (l ++ [x]) ∧
      SameKind v v' ∧ v'.begin_ = v.begin_ ∧ v'.membegin = v.membegin := by
  have hm := H.membegin_le
  have hend := H.end_eq
  refine ⟨_, construct_inside x (by simp only; omega) h, ?_, ⟨rfl, rfl, rfl⟩, rfl, rfl⟩
  refine { H with end_eq := ?_, end_le := h, stored := Stored.append_iff.mpr ⟨?_, ?_⟩ }
  · simp only [length_append, length_singleton]
    omega
  · apply H.stored.congr
    intro b _ hb
    exact update_of_ne (by omega) _ _
  · simp [Stored, hend]

theorem capacity_lt_grown (hcap : v.capacity < v.maxcap) (hmax : v.maxcap < 2 ^ 32) :
    v.capacity < v.grown := by
  have hw : wrap (v.capacity + 1) = v.capacity + 1 := wrap_of_lt (by omega)
  simp only [grown, hw]
  split_ifs <;> omega

theorem grown_le (v : Vector α) : v.grown ≤ v.maxcap := by
  simp only [grown]
  split_ifs <;> omega

/-- A bound that fits in memory is condition enough for values, if nothing is popped in front. -/
theorem ok_push_val (hb : v.begin_ = v.membegin)
    (hmax : v.maxcap * v.width < 2 ^ 32) (x : α) : v.Ok (.pushBack (.val x)) := by
  refine fun hs => ⟨trivial, fun hfull => ⟨hb, fits_of_lt ?_ ?_⟩⟩
  · exact Nat.lt_of_le_of_lt (Nat.mul_le_mul_right _ v.grown_le) hmax
  have hcap : v.capacity = v.size := by
    unfold Vector.capacity Vector.size
    rw [hfull, hb]
  have hle := Nat.le_mul_of_pos_right v.maxcap v.width_ok.1
  rw [← hcap]
  exact capacity_lt_grown (hcap ▸ hs) (Nat.lt_of_le_of_lt hle hmax)

theorem pushBack_refused (H : v.Holds l) (a : Arg α) (h : v.maxcap ≤ l.length) :
    v.pushBack a = some (none, v) := by
  have hs := H.size
  have hge : v.size ≥ v.maxcap := by omega
  simp [pushBack, push, hge]

/-- An argument that outlives the old storage is read as the list has it. -/
theorem Holds.read (H : v.Holds l) (hx : a.value l = some x)
    (hkeep : ∀ i, a = .ref i → v'.mem (v.begin_ + i) = v.mem (v.begin_ + i)) :
    read v v' a = some x := by
  cases a with
  | val y => exact hx
  | ref i =>
    obtain ⟨hi, rfl⟩ := List.getElem?_eq_some_iff.mp hx
    exact (hkeep i rfl).trans (H.stored.getElem hi)

/-- A push below the bound appends. -/
theorem pushBack_spec (H : v.Holds l) (hx : a.value l = some x)
    (hlen : l.length < v.maxcap) (hmax : v.maxcap < 2 ^ 32) (hok : v.Ok (.pushBack a)) :
    ∃ pos v', v.pushBack a = some (some pos, v') ∧ v'.Holds (l ++ [x]) ∧ SameKind v v' ∧
      (v.begin_ = v.membegin → v'.begin_ = v'.membegin) := by
  have hs := H.size
  have hend := H.end_eq
  have hle := H.end_le
  have hlt : ¬ v.size ≥ v.maxcap := by omega
  obtain ⟨hread, hroom⟩ := hok (by omega)
  by_cases hfull : v.end_ ≥ v.memend
  · -- the storage is used from its start to its end, so the old capacity is the size
    have heq : v.end_ = v.memend := by omega
    obtain ⟨hb, hdvd, hfit⟩ := hroom heq
    have hcap : v.capacity = l.length := by
      unfold Vector.capacity
      omega
    have hg := capacity_lt_grown (v := v) (by omega) hmax
    have htake : l.take v.grown = l := take_of_length_le (by omega)
    obtain ⟨v1, h1, P, hk, -⟩ := resizeContainer_spec H (Nat.ne_of_gt hg)
      ⟨hdvd, by rw [htake]; omega⟩
    rw [htake] at P
    have hend1 := P.holds.end_eq
    have hpos : v1.begin_ + v.capacity = v1.end_ := by omega
    have hmem1 := P.memend
    have hval : Vector.read v { v1 with end_ := v1.end_ + 1 } a = some x := by
      apply H.read hx
      rintro i rfl
      exact absurd heq hread
    obtain ⟨v2, h2, H2, hk2, hb2, hm2⟩ := P.holds.construct x (by omega)
    refine ⟨v1.end_, v2, ?_, H2, hk.trans hk2, ?_⟩
    rotate_left
    · intro _
      rw [hb2, hm2, P.begin_eq]
    have hpush : v.push = some (some v1.end_, { v1 with end_ := v1.end_ + 1 }) := by
      unfold push
      rw [if_neg hlt, if_pos hfull, h1]
      simp only [bind_eq_bind, bind_some, hpos]
      rfl
    simp [pushBack, hpush, hval, h2]
  · obtain ⟨v2, h2, H2, hk2, hb2, hm2⟩ := H.construct x (by omega)
    refine ⟨v.end_, v2, ?_, H2, hk2, fun hb => by rw [hb2, hm2, hb]⟩
    have hpush : v.push = some (some v.end_, { v with end_ := v.end_ + 1 }) := by
      unfold push
      rw [if_neg hlt, if_neg hfull]
    have hval : Vector.read v { v with end_ := v.end_ + 1 } a = some x :=
      H.read hx fun _ _ => rfl
    simp [pushBack, hpush, hval, h2]

/-- Contracting keeps the elements. -/
theorem shrink_spec (H : v.Holds l) : ∃ v', v.shrink = some v' ∧ v'.Holds l ∧ SameKind v v' := by
  unfold shrink
  split
  · by_cases hn : (if v.size < 1 then 1 else v.size) = v.capacity
    · rw [hn]
      exact ⟨v, v.resizeContainer_same, H, rfl, rfl, rfl⟩
    have htake : l.take (if v.size < 1 then 1 else v.size) = l := by
      apply take_of_length_le
      rw [H.size]
      split <;> omega
    have hbytes : (if v.size < 1 then 1 else v.size) * v.width < 2 ^ 32 := by
      split
      · rw [Nat.one_mul]
        exact v.width_ok.2
      · rw [H.size]
        exact H.lt_of_le H.length_le
    obtain ⟨v', h', P, hk, -⟩ := resizeContainer_spec H hn
      (fits_of_lt hbytes (length_take_le _ _))
    rw [htake] at P
    exact ⟨v', h', P.holds, hk⟩
  · exact ⟨v, rfl, H, rfl, rfl, rfl⟩

theorem popFront_spec (H : v.Holds (x :: l)) :
    ∃ v', v.popFront = some v' ∧ v'.Holds l ∧ SameKind v v' := by
  have hm := H.membegin_le
  have hend := H.end_eq
  simp only [length_cons] at hend
  unfold popFront
  rw [if_pos (by omega)]
  apply shrink_spec
  refine { H with membegin_le := le_succ_of_le hm, end_eq := ?_, stored := ?_ }
  · simp only [destroy]
    omega
  · apply H.stored.2.congr
    intro a ha _
    exact if_neg (by omega)

theorem popBack_spec (H : v.Holds (l ++ [x])) :
    ∃ v', v.popBack = some v' ∧ v'.Holds l ∧ SameKind v v' := by
  have hend := H.end_eq
  have hle := H.end_le
  simp only [length_append, length_singleton] at hend
  unfold popBack
  rw [if_pos (by omega)]
  apply shrink_spec
  refine { H with end_eq := ?_, end_le := ?_, stored := ?_ }
  · simp only [destroy]
    omega
  · simp only [destroy]
    omega
  · apply (Stored.append_iff.mp H.stored).1.congr
    intro a _ (ha : a < v.begin_ + l.length)
    exact if_neg (by omega)

section

variable (H : v.Holds l)
include H

theorem fill_spec {v₀ : Vector α} {k : Nat} (hk : v.end_ + k = v.memend)
    (hread : ∀ v' : Vector α, (∀ b, b < v.end_ → v'.mem b = v.mem b) → 0 < k →
      read v₀ v' a = some x) :
    ∃ v', fill v₀ a k v = some v' ∧ v'.Holds (l ++ List.replicate k x) ∧ SameKind v v' ∧
      v'.begin_ = v.begin_ ∧ v'.membegin = v.membegin := by
  induction k generalizing v l with
  | zero => exact ⟨v, rfl, by simpa using H, ⟨rfl, rfl, rfl⟩, rfl, rfl⟩
  | succ k ih =>
    have hm := H.membegin_le
    have hend := H.end_eq
    have hin := construct_inside (v := v) x (by omega : v.membegin ≤ v.end_) (by omega)
    obtain ⟨v1, h1, H1, hk1, hb1, hm1⟩ := H.construct x (by omega)
    have hv1 : v1 = { v with mem := update v.mem v.end_ (some x), end_ := v.end_ + 1 } := by
      rw [construct_inside x (by simp only; omega) (by simp only; omega)] at h1
      exact (Option.some.inj h1).symm
    have hk' : v1.end_ + k = v1.memend := by
      rw [hv1]
      simp only
      omega
    have hread1 : ∀ v' : Vector α, (∀ b, b < v1.end_ → v'.mem b = v1.mem b) → 0 < k →
        Vector.read v₀ v' a = some x := by
      intro v' hsame _
      apply hread v' _ (succ_pos k)
      intro b hb
      rw [hsame b (by rw [hv1]; exact lt_succ_of_lt hb), hv1]
      exact update_of_ne (Nat.ne_of_lt hb) _ _
    obtain ⟨v2, h2, H2, hk2, hb2, hm2⟩ := ih H1 hk' hread1
    refine ⟨v2, ?_, ?_, hk1.trans hk2, hb2.trans hb1, hm2.trans hm1⟩
    · rw [fill, hread v (fun _ _ => rfl) (succ_pos k)]
      simp only [hin, bind_eq_bind, bind_some]
      rw [← hv1]
      exact h2
    · rw [append_assoc] at H2
      exact H2

/-- `resize` cuts or fills up. -/
theorem resize_spec (hx : a.value l = some x)
    (hn : n ≤ v.maxcap) (hok : v.Ok (.resize n a)) :
    ∃ v', v.resize n a = some v' ∧ v'.Holds (l.take n ++ List.replicate (n - l.length) x) ∧
      SameKind v v' ∧ v'.begin_ = v'.membegin := by
  obtain ⟨hlives, hroom⟩ := hok hn
  rw [H.size] at hlives
  -- in both cases the elements now start where the storage of `n` slots starts
  obtain ⟨v1, h1, P, hk, hsame⟩ : ∃ v1, v.resizeContainer n = some v1 ∧ Packed v1 (l.take n) n ∧
      SameKind v v1 ∧ (n = v.capacity → v1 = v) := by
    split at hroom
    · rename_i hc
      have hlen := H.length_le
      have htake : l.take n = l := take_of_length_le (by omega)
      rw [htake, hc]
      exact ⟨v, v.resizeContainer_same, ⟨H, hroom, rfl⟩, ⟨rfl, rfl, rfl⟩, fun _ => rfl⟩
    rename_i hc
    obtain ⟨hdvd, hfit⟩ := hroom
    have hslots : v.slots n = n :=
      Nat.le_antisymm (Nat.div_le_of_le_mul (Nat.mul_comm n _ ▸ mod_le _ _)) hfit
    obtain ⟨v1, h1, P, hk, -⟩ := resizeContainer_spec H hc
      ⟨hdvd, Nat.le_trans (length_take_le n l) hfit⟩
    rw [hslots] at P
    exact ⟨v1, h1, P, hk, fun h => absurd h hc⟩
  have hend := P.holds.end_eq
  have hle := P.holds.end_le
  have hlen : v1.memend - v1.end_ = n - l.length := by
    rw [hend, P.memend, length_take]
    omega
  have hread : ∀ v' : Vector α, (∀ b, b < v1.end_ → v'.mem b = v1.mem b) →
      0 < v1.memend - v1.end_ → Vector.read v v' a = some x := by
    intro v' hkeep hpos
    apply H.read hx
    rintro i rfl
    have hc : n = v.capacity := not_not.mp (hlives (by omega))
    rw [hsame hc] at hkeep
    apply hkeep
    have hi := (List.getElem?_eq_some_iff.mp hx).1
    rw [H.end_eq]
    omega
  obtain ⟨v2, h2, H2, hk2, hb2, hm2⟩ := fill_spec P.holds (by omega) hread
  refine ⟨v2, ?_, hlen ▸ H2, hk.trans hk2, by rw [hb2, hm2, P.begin_eq]⟩
  unfold resize
  rw [if_neg (by omega), h1, bind_eq_bind, bind_some, if_pos hle]
  exact h2

theorem reserve_spec (hok : v.Ok (.reserve n)) :
    ∃ v', v.reserve n = some v' ∧ v'.Holds l ∧ SameKind v v' := by
  unfold reserve
  split
  · rename_i hn
    have hlen := H.length_le
    have htake : l.take n = l := take_of_length_le (by omega)
    have hfit := hok hn.1 hn.2
    rw [H.size] at hfit
    obtain ⟨v', h', P, hk, -⟩ := resizeContainer_spec H (Nat.ne_of_gt hn.1) (htake.symm ▸ hfit)
    rw [htake] at P
    exact ⟨v', h', P.holds, hk⟩
  · exact ⟨v, rfl, H, rfl, rfl, rfl⟩

theorem clear_spec : ∃ v', v.clear = some v' ∧ v'.Holds [] ∧ SameKind v v' := by
  have hm := H.membegin_le
  have hend := H.end_eq
  have hle := H.end_le
  have H0 : Holds { v.destroy v.begin_ v.end_ with begin_ := v.membegin, end_ := v.membegin }
      ([] : List α) := by
    refine { H with membegin_le := Nat.le_refl _, end_eq := rfl, end_le := ?_, stored := trivial }
    simp only [destroy]
    omega
  simp only [clear]
  split
  · rename_i hc
    simp only [Bool.and_eq_true, decide_eq_true_eq] at hc
    obtain ⟨v', h', P, hk, -⟩ := resizeContainer_spec H0 (Nat.ne_of_lt hc.2)
      (fits_of_lt (by rw [Nat.one_mul]; exact v.width_ok.2) (length_take_le _ _))
    exact ⟨v', h', by simpa using P.holds, hk⟩
  · exact ⟨_, rfl, H0, rfl, rfl, rfl⟩

theorem Holds.get (i : Nat) : v.get i = l[i]? := by
  unfold Vector.get
  rw [H.size]
  split
  · rename_i h
    rw [H.stored.getElem h, List.getElem?_eq_getElem h]
  · rename_i h
    rw [List.getElem?_eq_none (Nat.le_of_not_lt h)]

theorem set_spec {i : Nat} (x : α) (h : i < l.length) :
    ∃ v', v.set i x = some v' ∧ v'.Holds (l.set i x) ∧ SameKind v v' ∧
      v'.begin_ = v.begin_ ∧ v'.membegin = v.membegin := by
  have hi : i < v.size := by
    rw [H.size]
    exact h
  refine ⟨_, if_pos hi, { H with end_eq := ?_, stored := H.stored.set x },
    ⟨rfl, rfl, rfl⟩, rfl, rfl⟩
  rw [length_set]
  exact H.end_eq

end

/-! ## Where the condition fails -/

theorem construct_eq_some {pos : Nat} (h : v.construct pos x = some v') :
    pos < v.memend ∧ v' = { v with mem := update v.mem pos (some x) } := by
  unfold construct at h
  split at h
  · rename_i hin
    exact ⟨hin.2, (Option.some.inj h).symm⟩
  · cases h

/-- The last slot filled lies in the storage. -/
theorem room_of_move {old v : Vector α} {k src : Nat} (h : move old (k + 1) v src = some v') :
    v.end_ + k < v.memend := by
  rw [move] at h
  split at h
  · obtain ⟨x, -, h⟩ := bind_eq_some_iff.mp h
    obtain ⟨v1, hv1, h⟩ := bind_eq_some_iff.mp h
    obtain ⟨hin, rfl⟩ := construct_eq_some hv1
    cases k with
    | zero => exact hin
    | succ k =>
      have hroom : v.end_ + 1 + k < v.memend := room_of_move h
      omega
  · cases h

/-- New storage comes about only if it has room for what is moved there. -/
theorem Holds.resized (H : v.Holds l) (hn : n ≠ v.capacity) (h : v.resizeContainer n = some v') :
    v.Fits n (l.take n).length ∧ Packed v' (l.take n) (v.slots n) ∧
      ∀ a, v.begin_ ≤ a → a < v.end_ → v'.mem a = none := by
  have hfit : v.Fits n (l.take n).length := by
    have h' := h
    unfold resizeContainer at h'
    rw [if_neg hn] at h'
    rw [H.moved n] at h'
    split_ifs at h' with hnull hdvd hb
    · obtain rfl : n = 0 := by omega
      exact fits_of_lt (by omega) (length_take_le _ _)
    · refine ⟨hdvd, ?_⟩
      obtain ⟨v1, hv1, -⟩ := bind_eq_some_iff.mp h'
      cases hk : (l.take n).length with
      | zero => exact Nat.zero_le _
      | succ k =>
        rw [hk] at hv1
        exact Nat.lt_of_add_lt_add_left (room_of_move hv1)
    · rw [H.eq_nil (not_not.mp hb), take_nil]
      exact ⟨hdvd, Nat.zero_le _⟩
  obtain ⟨v₁, hv₁, P, -, hgone⟩ := resizeContainer_spec H hn hfit
  obtain rfl := Option.some.inj (h.symm.trans hv₁)
  exact ⟨hfit, P, hgone⟩

/-- An argument that is read where the old objects are gone is no element. -/
theorem Holds.outlives (H : v.Holds l) {moved : Prop} (hvalid : v.Valid (.pushBack a))
    (h : moved → ∃ (w : Vector α) (x : α), Vector.read v w a = some x ∧
      ∀ b, v.begin_ ≤ b → b < v.end_ → w.mem b = none) : a.Outlives moved := by
  cases a with
  | val y => trivial
  | ref i =>
    intro hm
    obtain ⟨w, x, hx, hgone⟩ := h hm
    have hi : i < v.size := hvalid
    rw [H.size] at hi
    have hnone := hgone (v.begin_ + i) (Nat.le_add_right _ _) (by rw [H.end_eq]; omega)
    exact absurd (hnone.symm.trans hx) (by simp)

theorem Holds.ok_of_pushBack (H : v.Holds l) {r : Option Nat}
    (hmax : v.maxcap < 2 ^ 32) (hvalid : v.Valid (.pushBack a))
    (h : v.pushBack a = some (r, v')) (hlen : l.length < v.maxcap → v'.size = l.length + 1) :
    v.Ok (.pushBack a) := by
  intro hs
  have hsize := H.size
  have hend := H.end_eq
  have hm := H.membegin_le
  have hgrow : v.end_ = v.memend → (∃ (w : Vector α) (x : α), Vector.read v w a = some x ∧
      ∀ b, v.begin_ ≤ b → b < v.end_ → w.mem b = none) ∧
      v.begin_ = v.membegin ∧ v.Fits v.grown (v.size + 1) := by
    intro hfull
    obtain ⟨⟨r', v1⟩, hpush, h⟩ := bind_eq_some_iff.mp h
    unfold push at hpush
    rw [if_neg (by omega), if_pos (by omega)] at hpush
    obtain ⟨v2, hv2, hpush⟩ := bind_eq_some_iff.mp hpush
    cases hpush
    obtain ⟨x, hx, h⟩ := bind_eq_some_iff.mp h
    obtain ⟨v3, hv3, h⟩ := bind_eq_some_iff.mp h
    cases h
    obtain ⟨hin, rfl⟩ := construct_eq_some hv3
    have hcap : v.capacity = l.length := by
      have hone := hlen (by omega)
      simp only [Vector.size] at hone
      omega
    obtain ⟨hfit, P, hgone⟩ := H.resized (Nat.ne_of_gt (capacity_lt_grown (by omega) hmax)) hv2
    refine ⟨⟨_, x, hx, hgone⟩, ?_, hfit.1, ?_⟩
    · unfold Vector.capacity at hcap
      omega
    · simp only [P.memend] at hin
      omega
  exact ⟨H.outlives hvalid fun hfull => (hgrow hfull).1, fun hfull => (hgrow hfull).2⟩

theorem fill_shape {v₀ v : Vector α} {k : Nat} (h : fill v₀ a k v = some v') :
    v'.begin_ = v.begin_ ∧ v'.end_ = v.end_ + k ∧ (0 < k → ∃ x, read v₀ v a = some x) := by
  induction k generalizing v with
  | zero =>
    cases h
    exact ⟨rfl, rfl, fun hk => absurd hk (Nat.lt_irrefl 0)⟩
  | succ k ih =>
    rw [fill] at h
    obtain ⟨x, hx, h⟩ := bind_eq_some_iff.mp h
    obtain ⟨v1, hv1, h⟩ := bind_eq_some_iff.mp h
    obtain ⟨-, rfl⟩ := construct_eq_some hv1
    obtain ⟨hb, he, -⟩ := ih h
    refine ⟨hb, ?_, fun _ => ⟨x, hx⟩⟩
    simp only [he]
    omega

theorem Holds.ok_of_resize (H : v.Holds l)
    (hvalid : v.Valid (.resize n a)) (h : v.resize n a = some v')
    (hlen : n ≤ v.maxcap → v'.size = n) : v.Ok (.resize n a) := by
  intro hn
  have hsize := hlen hn
  have hend := H.end_eq
  have hm := H.membegin_le
  unfold resize at h
  rw [if_neg (by omega)] at h
  obtain ⟨v1, hv1, h⟩ := bind_eq_some_iff.mp h
  split_ifs at h with hle
  obtain ⟨hb, he, hread⟩ := fill_shape h
  unfold Vector.size at hsize
  have hvalid' : v.Valid (.pushBack a) := by cases a <;> exact hvalid
  by_cases hc : n = v.capacity
  · refine ⟨fun _ => H.outlives hvalid' fun hne => absurd hc hne, ?_⟩
    rw [hc, resizeContainer_same] at hv1
    cases hv1
    rw [if_pos hc]
    unfold Vector.capacity at hc
    omega
  obtain ⟨⟨hdvd, -⟩, P, hgone⟩ := H.resized hc hv1
  have he1 := P.holds.end_eq
  have hm1 := P.memend
  rw [length_take] at he1
  rw [if_neg hc]
  refine ⟨fun hlt => H.outlives hvalid' fun _ => ?_, hdvd, by omega⟩
  rw [H.size] at hlt
  obtain ⟨x, hx⟩ := hread (by omega)
  exact ⟨v1, x, hx, hgone⟩

theorem Holds.ok_of_reserve (H : v.Holds l) (h : v.reserve n = some v') : v.Ok (.reserve n) := by
  intro hn hmax
  unfold reserve at h
  rw [if_pos ⟨hn, hmax⟩] at h
  have hlen := H.length_le
  have hfit := (H.resized (Nat.ne_of_gt hn) h).1
  rwa [take_of_length_le (by omega), ← H.size] at hfit

/-! ## Runs -/

/-- A vector together with the abstract list. -/
abbrev Pair (α : Type) := Vector α × List α

def Fresh (s : Pair α) : Prop :=
  ∃ width hw n contract maxcap, n ≤ maxcap ∧ maxcap < 2 ^ 32 ∧ width ∣ wrap (n * width) ∧
    s = (new width hw n contract maxcap, [])

/-- The same operation on both. -/
def both (s : Pair α) (o : Op α) : Option (Pair α) :=
  (s.1.step o).map fun v => (v, listStep s.1.maxcap s.2 o)

/-- The elements from `begin()` to `end()` are the list, and the pointers are in order. -/
def Shows (s : Pair α) : Prop :=
  s.1.elements = s.2.map some ∧
    s.1.membegin ≤ s.1.begin_ ∧ s.1.begin_ ≤ s.1.end_ ∧ s.1.end_ ≤ s.1.memend

structure Inv (s : Pair α) : Prop where
  holds : s.1.Holds s.2
  length : s.2.length ≤ s.1.maxcap
  size : s.1.maxcap < 2 ^ 32

variable {s : Pair α}

theorem Inv.shows (I : Inv s) : Shows s := by
  refine ⟨I.holds.elements, I.holds.membegin_le, ?_, I.holds.end_le⟩
  rw [I.holds.end_eq]
  exact Nat.le_add_right _ _

theorem Shows.size (h : Shows s) : s.1.size = s.2.length := by
  have hlen := congrArg List.length h.1
  simpa [Vector.elements] using hlen

/-- A valid reference is to an element of the list. -/
theorem Holds.value (H : v.Holds l) (h : v.Valid (.pushBack a)) : ∃ x, a.value l = some x := by
  cases a with
  | val x => exact ⟨x, rfl⟩
  | ref i =>
    have hi : i < v.size := h
    rw [H.size] at hi
    exact ⟨_, List.getElem?_eq_getElem hi⟩

theorem Inv.pushBack (I : Inv s) (hvalid : s.1.Valid (.pushBack a)) (hok : s.1.Ok (.pushBack a)) :
    ∃ r v', s.1.pushBack a = some (r, v') ∧ (r = none ↔ s.2.length = s.1.maxcap) ∧
      Inv (v', listStep s.1.maxcap s.2 (.pushBack a)) := by
  obtain ⟨x, hx⟩ := I.holds.value hvalid
  simp only [listStep, hx]
  by_cases h : s.2.length < s.1.maxcap
  · rw [if_pos h]
    obtain ⟨pos, v', h', H, hk, -⟩ := pushBack_spec I.holds hx h I.size hok
    refine ⟨some pos, v', h', ?_, H, ?_, ?_⟩
    · constructor
      · intro hn
        cases hn
      · intro hn
        omega
    · simp only [length_append, toList_some, length_singleton, hk.2.1]
      omega
    · simp only [hk.2.1]
      exact I.size
  · rw [if_neg h]
    have hlen := I.length
    refine ⟨none, s.1, pushBack_refused I.holds a (by omega), ?_, I⟩
    simp only [true_iff]
    omega

/-- Every operation that meets the condition succeeds, and does to the elements what it
does to the list. -/
theorem Inv.both (I : Inv s) {o : Op α} (hvalid : s.1.Valid o) (hok : s.1.Ok o) :
    ∃ t, both s o = some t ∧ Inv t := by
  obtain ⟨H, hlen, hmax⟩ := I
  -- what is left to show once the vector has taken its step to a shorter list
  have hdone : ∀ {v' : Vector α} {l' : List α}, s.1.step o = some v' → v'.Holds l' →
      SameKind s.1 v' → listStep s.1.maxcap s.2 o = l' → l'.length ≤ s.1.maxcap →
      ∃ t, Vector.both s o = some t ∧ Inv t := by
    intro v' l' hstep H' hk hl hle
    refine ⟨(v', l'), ?_, H', ?_, ?_⟩
    · unfold Vector.both
      rw [hstep, hl]
      rfl
    · simpa only [hk.2.1] using hle
    · simpa only [hk.2.1] using hmax
  cases o with
  | pushBack a =>
    obtain ⟨r, v', h', -, I'⟩ := Inv.pushBack ⟨H, hlen, hmax⟩ hvalid hok
    refine ⟨_, ?_, I'⟩
    simp [Vector.both, step, h']
  | emplaceBack a =>
    obtain ⟨r, v', h', -, I'⟩ := Inv.pushBack (a := a) ⟨H, hlen, hmax⟩
      (by cases a <;> exact hvalid) hok
    refine ⟨_, ?_, I'⟩
    simp [Vector.both, step, listStep, emplaceBack, h']
  | popBack =>
    have hne : s.2 ≠ [] := by
      intro hn
      exact hvalid (by rw [H.size, hn]; rfl)
    rw [← dropLast_concat_getLast hne] at H
    obtain ⟨v', h', H', hk⟩ := popBack_spec H
    refine hdone h' H' hk rfl ?_
    rw [length_dropLast]
    omega
  | popFront =>
    obtain ⟨v, l⟩ := s
    cases l with
    | nil => exact absurd H.size hvalid
    | cons x l =>
      obtain ⟨v', h', H', hk⟩ := popFront_spec H
      exact hdone h' H' hk rfl (le_of_succ_le hlen)
  | resize n a =>
    by_cases hn : n ≤ s.1.maxcap
    · obtain ⟨x, hx⟩ := H.value (a := a) (by cases a <;> exact hvalid)
      obtain ⟨v', h', H', hk, -⟩ := resize_spec H hx hn hok
      refine hdone h' H' hk ?_ ?_
      · simp only [listStep, hx]
        rw [if_neg (by omega)]
        rfl
      · simp only [length_append, length_take, length_replicate]
        omega
    · refine hdone ?_ H ⟨rfl, rfl, rfl⟩ ?_ hlen
      · simp only [step, resize]
        rw [if_pos (by omega)]
      · simp only [listStep]
        rw [if_pos (by omega)]
  | reserve n =>
    obtain ⟨v', h', H', hk⟩ := reserve_spec H hok
    exact hdone h' H' hk rfl hlen
  | clear =>
    obtain ⟨v', h', H', hk⟩ := clear_spec H
    exact hdone h' H' hk rfl (Nat.zero_le _)

/-- Only operations that meet the condition do to the elements what they do to the list. -/
theorem Inv.ok_of_shows {t : Pair α} (I : Inv s) {o : Op α} (hvalid : s.1.Valid o)
    (hstep : Vector.both s o = some t) (ht : Shows t) : s.1.Ok o := by
  obtain ⟨v', hv', rfl⟩ := map_eq_some_iff.mp hstep
  have hsize := ht.size
  have hpush : ∀ a, s.1.Valid (.pushBack a) → listStep s.1.maxcap s.2 o =
      listStep s.1.maxcap s.2 (.pushBack a) → (s.1.pushBack a).map (·.2) = some v' →
      s.1.Ok (.pushBack a) := by
    intro a hvalid heq h
    obtain ⟨⟨r, v₁⟩, hpair, rfl⟩ := map_eq_some_iff.mp h
    refine I.holds.ok_of_pushBack I.size hvalid hpair fun hlt => ?_
    obtain ⟨x, hx⟩ := I.holds.value hvalid
    simp only [heq] at hsize
    simpa [listStep, hx, hlt] using hsize
  cases o with
  | pushBack a => exact hpush a hvalid rfl hv'
  | emplaceBack a => exact hpush a (by cases a <;> exact hvalid) rfl hv'
  | resize n a =>
    refine I.holds.ok_of_resize hvalid hv' fun hn => ?_
    obtain ⟨x, hx⟩ := I.holds.value (a := a) (by cases a <;> exact hvalid)
    simp only [listStep, hx, elim_some, if_neg (Nat.not_lt.mpr hn), length_append,
      length_take, length_replicate] at hsize
    omega
  | reserve n => exact I.holds.ok_of_reserve hv'
  | popBack => trivial
  | popFront => trivial
  | clear => trivial

theorem reach_inv (h : Reach Fresh Vector.both (fun s o => s.1.Valid o ∧ s.1.Ok o) s) : Inv s := by
  apply h.invariant
  · intro s hs
    obtain ⟨width, hw, n, contract, maxcap, hn, hmax, -, rfl⟩ := hs
    exact ⟨.new hw n contract maxcap, Nat.zero_le _, hmax⟩
  · intro s o t I hok hstep
    obtain ⟨t', ht', I'⟩ := I.both hok.1 hok.2
    rw [hstep] at ht'
    cases ht'
    exact I'

/-- The vector shows the list, its pointers are in order, a push is refused only at the
bound, and an operation succeeds and shows the list again exactly if it meets the condition. -/
theorem vector_refines {s : Pair α}
    (h : Reach Fresh Vector.both (fun s o => s.1.Valid o ∧ s.1.Ok o) s) : Shows s ∧
    (∀ a, s.1.Valid (.pushBack a) → s.1.Ok (.pushBack a) →
      ∃ r v', s.1.pushBack a = some (r, v') ∧ (r = none ↔ s.2.length = s.1.maxcap)) ∧
    ∀ o, s.1.Valid o → ((∃ t, Vector.both s o = some t ∧ Shows t) ↔ s.1.Ok o) := by
  have I := reach_inv h
  refine ⟨I.shows, ?_, ?_⟩
  · intro a hvalid hok
    obtain ⟨r, v', h', hr, -⟩ := I.pushBack hvalid hok
    exact ⟨r, v', h', hr⟩
  intro o hvalid
  constructor
  · rintro ⟨t, ht, hshows⟩
    exact I.ok_of_shows hvalid ht hshows
  · intro hok
    obtain ⟨t, ht, I'⟩ := I.both hvalid hok
    exact ⟨t, ht, I'.shows⟩

/-- Growth, a drifting start and contraction. -/
def pushesAndPops : List (Op Nat) :=
  [.pushBack (.val 1), .pushBack (.val 2), .pushBack (.val 3), .emplaceBack (.val 4), .popFront,
    .popBack, .resize 6 (.val 7), .popFront, .popFront, .reserve 9, .pushBack (.ref 0)]

theorem vector_refines_sample : ∃ s : Pair Nat,
    Reach Fresh Vector.both (fun s o => s.1.Valid o ∧ s.1.Ok o) s ∧ s.2 = [7, 7, 7, 7, 7] ∧
      s.1.elements = [some 7, some 7, some 7, some 7, some 7] := by
  have hrun : (run (guarded Vector.both (fun s o => s.1.Valid o ∧ s.1.Ok o))
      (new 4 (by decide) 1 true (2 ^ 32 - 1), []) pushesAndPops).map (·.2) =
        some [7, 7, 7, 7, 7] := by
    decide +kernel
  obtain ⟨s, hs, hl⟩ := run_of_map hrun
  have h : Reach Fresh Vector.both (fun s o => s.1.Valid o ∧ s.1.Ok o) s := Reach.runGuarded
    (.init ⟨4, by decide, 1, true, 2 ^ 32 - 1, by decide, by decide, by decide, rfl⟩) hs
  refine ⟨s, h, hl, ?_⟩
  rw [(vector_refines h).1.1, hl]
  rfl

/-- After `pop_front` has emptied a vector of capacity 1, the next push leaves a gap
before its element; at the bound, it constructs its element behind the storage. So does a
`reserve` whose size wraps, and a push of an element of the full vector reads a freed one. -/
theorem push_after_popFront : (run step (new 4 (by decide) 1 true (2 ^ 32 - 1))
      [.pushBack (.val 1), .popFront, .pushBack (.val 2)]).map elements = some [none, some 2] ∧
    [Op.pushBack (.val 1), .popFront, .pushBack (.val 2)].foldl (listStep (2 ^ 32 - 1)) [] = [2] ∧
    (run step (new 4 (by decide) 2 false 2) [.pushBack (.val 1), .pushBack (.val 2), .popFront,
      .pushBack (.val 3)]).map elements = none ∧
    (run step (new 4 (by decide) 1 true (2 ^ 32 - 1)) [.pushBack (.val 1), .pushBack (.val 2),
      .reserve 0x40000001]).map elements = none ∧
    (run step (new 4 (by decide) 1 true (2 ^ 32 - 1))
      [.pushBack (.val 1), .pushBack (.ref 0)]).map elements = none := by
  refine ⟨?_, ?_, ?_, ?_, ?_⟩
  · decide +kernel
  · decide +kernel
  · decide +kernel
  · decide +kernel
  · decide +kernel

end Vector

end Sysint.Container
