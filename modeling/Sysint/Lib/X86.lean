import Mathlib.Data.BitVec
import Mathlib.Data.List.Induction
import Mathlib.Logic.Function.Basic
import Mathlib.Tactic.Simps.Basic

/-! A part of the 32-bit x86 instruction set: what code needs that saves and restores
the registers of an interrupted program. Memory is made of bytes; an address leads to
a byte through the page directory in `cr3`. -/
namespace X86

open List

abbrev Word := BitVec 32

/-- Where an address leads in each page directory. One directory leads different
addresses to different bytes. -/
structure Space (ι : Type) where
  place : Word → Word → ι
  inj : ∀ d, Function.Injective (place d)

section Memory

variable {ι : Type} [DecidableEq ι] (S : Space ι)

def load (m : ι → BitVec 8) (d a : Word) : Word :=
  m (S.place d (a + 3)) ++ m (S.place d (a + 2)) ++ m (S.place d (a + 1)) ++ m (S.place d a)

def store (m : ι → BitVec 8) (d a v : Word) : ι → BitVec 8 := fun x =>
  if x = S.place d a then v.extractLsb' 0 8
  else if x = S.place d (a + 1) then v.extractLsb' 8 8
  else if x = S.place d (a + 2) then v.extractLsb' 16 8
  else if x = S.place d (a + 3) then v.extractLsb' 24 8
  else m x

/-- The word at `a` and the word at `b` have no byte in common. -/
def Apart (d a d' b : Word) : Prop :=
  ∀ i j : Word, i < 4 → j < 4 → S.place d (a + i) ≠ S.place d' (b + j)

/-- Two words at these distances from one address have no byte in common. -/
def far (c c' : Word) : Bool := 4 ≤ (c - c').toNat && 4 ≤ (c' - c).toNat

variable {S} {m : ι → BitVec 8} {d d' a b c c' v : Word}

theorem bytes_append (v : Word) :
    v.extractLsb' 24 8 ++ v.extractLsb' 16 8 ++ v.extractLsb' 8 8 ++ v.extractLsb' 0 8 = v := by
  apply BitVec.eq_of_getLsbD_eq
  intro i hi
  simp only [BitVec.getLsbD_append, BitVec.getLsbD_extractLsb']
  grind

theorem and_not_eq_iff {f g : Word} : f &&& ~~~ g = f ↔ f &&& g = 0 := by
  constructor <;>
  · intro h
    apply BitVec.eq_of_getLsbD_eq
    intro i hi
    have hbit := congrArg (BitVec.getLsbD · i) h
    simp only [BitVec.getLsbD_and, BitVec.getLsbD_not] at hbit ⊢
    grind

theorem load_store_self : load S (store S m d a v) d a = v := by
  have hne : ∀ i j : Word, i ≠ j → S.place d (a + i) ≠ S.place d (a + j) := by
    intro i j hij h
    exact hij (add_left_cancel (S.inj d h))
  have hne0 : ∀ i : Word, i ≠ 0 → S.place d (a + i) ≠ S.place d a := by
    intro i hi h
    have h0 := hne i 0 hi
    rw [add_zero] at h0
    exact h0 h
  simp only [load, store, hne0 1 (by decide), hne0 2 (by decide), hne0 3 (by decide),
    hne 2 1 (by decide), hne 3 1 (by decide), hne 3 2 (by decide), if_true, if_false]
  exact bytes_append v

theorem load_store_apart (h : Apart S d a d' b) :
    load S (store S m d a v) d' b = load S m d' b := by
  have hbyte : ∀ j : Word, j < 4 →
      store S m d a v (S.place d' (b + j)) = m (S.place d' (b + j)) := by
    intro j hj
    have h0 := h 0 j (by decide) hj
    rw [add_zero] at h0
    simp only [store, h0.symm, (h 1 j (by decide) hj).symm, (h 2 j (by decide) hj).symm,
      (h 3 j (by decide) hj).symm, if_false]
  have h0 := hbyte 0 (by decide)
  rw [add_zero] at h0
  simp only [load, h0, hbyte 1 (by decide), hbyte 2 (by decide), hbyte 3 (by decide)]

omit [DecidableEq ι] in
theorem apart_of_far (h : far c c' = true) : Apart S d (a + c) d (a + c') := by
  intro i j hi hj heq
  have hcancel : c + i = c' + j := by
    have hplace := S.inj d heq
    rw [add_assoc, add_assoc] at hplace
    exact add_left_cancel hplace
  simp only [far, Bool.and_eq_true, decide_eq_true_eq] at h
  have hi' : i.toNat < 4 := hi
  have hj' : j.toNat < 4 := hj
  have hsum := congrArg BitVec.toNat hcancel
  simp only [BitVec.toNat_add, BitVec.toNat_sub] at hsum h
  omega

theorem load_store_far (h : far c c' = true) :
    load S (store S m d (a + c) v) d (a + c') = load S m d (a + c') :=
  load_store_apart (apart_of_far h)

end Memory

inductive Reg where
  | eax
  | ecx
  | edx
  | ebx
  | esp
  | ebp
  | esi
  | edi
  deriving DecidableEq

structure Cpu (ι : Type) where
  reg : Reg → Word
  eip : Word
  eflags : Word
  cs : Word
  ss : Word
  ds : Word
  cr3 : Word
  mem : ι → BitVec 8

namespace Cpu

variable {ι : Type} [DecidableEq ι]

@[simps -fullyApplied]
def set (s : Cpu ι) (r : Reg) (v : Word) : Cpu ι := { s with reg := Function.update s.reg r v }

@[simps -fullyApplied]
def setMem (s : Cpu ι) (m : ι → BitVec 8) : Cpu ι := { s with mem := m }

@[simps -fullyApplied]
def setFlags (s : Cpu ι) (v : Word) : Cpu ι := { s with eflags := v }

@[simps -fullyApplied]
def jump (s : Cpu ι) (v : Word) : Cpu ι := { s with eip := v }

@[simps -fullyApplied]
def setCr3 (s : Cpu ι) (v : Word) : Cpu ι := { s with cr3 := v }

@[simps -fullyApplied]
def setCs (s : Cpu ι) (v : Word) : Cpu ι := { s with cs := v }

@[simps -fullyApplied]
def setSs (s : Cpu ι) (v : Word) : Cpu ι := { s with ss := v }

@[simps -fullyApplied]
def setDs (s : Cpu ι) (v : Word) : Cpu ι := { s with ds := v }

variable (S : Space ι)

def read (s : Cpu ι) (a : Word) : Word := load S s.mem s.cr3 a

def write (s : Cpu ι) (a v : Word) : Cpu ι := s.setMem (store S s.mem s.cr3 a v)

def push (s : Cpu ι) (v : Word) : Cpu ι :=
  (s.write S (s.reg .esp + -4) v).set .esp (s.reg .esp + -4)

/-- The word on top of the stack goes to `r`. -/
def pop (s : Cpu ι) (r : Reg) : Cpu ι :=
  (s.set .esp (s.reg .esp + 4)).set r (s.read S (s.reg .esp))

end Cpu

section Pushes

variable {ι : Type} [DecidableEq ι] (S : Space ι)

/-- The distance down from an address by `k` words. -/
def down (k : Nat) : Word := -(BitVec.ofNat 32 (4 * k))

theorem down_succ (k : Nat) : down k + -4 = down (k + 1) := by
  unfold down
  rw [Nat.mul_succ, BitVec.ofNat_add, neg_add]
  rfl

theorem down_add (j k : Nat) : down j + down k = down (j + k) := by
  unfold down
  rw [Nat.mul_add, BitVec.ofNat_add, neg_add]

theorem far_down {i k : Nat} (h : i < k) (hk : k < 2 ^ 30) : far (down k) (down i) = true := by
  simp only [far, down, BitVec.toNat_sub, BitVec.toNat_neg, BitVec.toNat_ofNat, Bool.and_eq_true,
    decide_eq_true_eq]
  omega

/-- Push the words of a list, the first one first. -/
def Cpu.pushes (s : Cpu ι) (vs : List Word) : Cpu ι := vs.foldl (Cpu.push S) s

variable {S} {s : Cpu ι} {vs : List Word}

theorem Cpu.pushes_concat (v : Word) : s.pushes S (vs ++ [v]) = (s.pushes S vs).push S v := by
  simp [Cpu.pushes]

/-- Pushes change the memory and the stack pointer. -/
theorem Cpu.pushes_eq (s : Cpu ι) (vs : List Word) : ∃ m, s.pushes S vs =
    (s.setMem m).set .esp (s.reg .esp + down vs.length) := by
  induction vs using List.reverseRecOn with
  | nil => exact ⟨s.mem, by simp [Cpu.pushes, Cpu.set, Cpu.setMem, down]⟩
  | append_singleton vs v ih =>
    obtain ⟨m, hm⟩ := ih
    rw [Cpu.pushes_concat, hm, length_append, length_singleton, ← down_succ,
      ← add_assoc]
    refine ⟨store S m s.cr3 (s.reg .esp + down vs.length + -4) v, ?_⟩
    simp [Cpu.push, Cpu.write, Cpu.set, Cpu.setMem]

theorem Cpu.pushes_append (vs ws : List Word) :
    s.pushes S (vs ++ ws) = (s.pushes S vs).pushes S ws := foldl_append

@[simp]
theorem Cpu.pushes_esp : (s.pushes S vs).reg .esp = s.reg .esp + down vs.length := by
  obtain ⟨m, hm⟩ := Cpu.pushes_eq (S := S) s vs
  rw [hm]
  simp

@[simp]
theorem Cpu.pushes_reg {r : Reg} (hr : r ≠ .esp) : (s.pushes S vs).reg r = s.reg r := by
  obtain ⟨m, hm⟩ := Cpu.pushes_eq (S := S) s vs
  rw [hm]
  simp [hr]

@[simp]
theorem Cpu.pushes_cr3 : (s.pushes S vs).cr3 = s.cr3 := by
  obtain ⟨m, hm⟩ := Cpu.pushes_eq (S := S) s vs
  rw [hm]
  rfl

@[simp]
theorem Cpu.pushes_cs : (s.pushes S vs).cs = s.cs := by
  obtain ⟨m, hm⟩ := Cpu.pushes_eq (S := S) s vs
  rw [hm]
  rfl

theorem Cpu.pushes_concat_mem (v : Word) : (s.pushes S (vs ++ [v])).mem =
    store S (s.pushes S vs).mem s.cr3 (s.reg .esp + down (vs.length + 1)) v := by
  rw [Cpu.pushes_concat, ← down_succ, ← add_assoc]
  simp [Cpu.push, Cpu.write]

/-- What pushes write depends on the memory, the stack pointer and the page directory. -/
theorem Cpu.pushes_mem_congr {t : Cpu ι} (hm : t.mem = s.mem) (he : t.reg .esp = s.reg .esp)
    (hc : t.cr3 = s.cr3) : (t.pushes S vs).mem = (s.pushes S vs).mem := by
  induction vs using List.reverseRecOn with
  | nil => exact hm
  | append_singleton vs v ih =>
    simp [Cpu.pushes_concat, Cpu.push, Cpu.write, ih, he, hc]

/-- The words lie one below the other. -/
theorem Cpu.pushes_read {i : Nat} {v : Word} (hlen : vs.length < 2 ^ 30) (hi : vs[i]? = some v) :
    load S (s.pushes S vs).mem s.cr3 (s.reg .esp + down (i + 1)) = v := by
  induction vs using List.reverseRecOn with
  | nil => simp at hi
  | append_singleton vs w ih =>
    rw [length_append, length_singleton] at hlen
    rw [Cpu.pushes_concat_mem]
    by_cases h : i = vs.length
    · subst h
      have hv : w = v := by simpa using hi
      rw [load_store_self, hv]
    have hlt : i < vs.length := by
      have hb := (List.getElem?_eq_some_iff.mp hi).1
      rw [length_append, length_singleton] at hb
      omega
    rw [load_store_far (far_down (by omega) (by omega))]
    apply ih (by omega)
    rwa [List.getElem?_append_left hlt] at hi

theorem Cpu.pushes_read_up {i n : Nat} {c v : Word} (hlen : vs.length < 2 ^ 30)
    (hc : down n + c = down (i + 1)) (hi : vs[i]? = some v) :
    load S (s.pushes S vs).mem s.cr3 (s.reg .esp + down n + c) = v := by
  rw [add_assoc, hc]
  exact Cpu.pushes_read hlen hi

/-- Pushes leave the words that lie apart. -/
theorem Cpu.pushes_read_apart {x : Word}
    (h : ∀ i < vs.length, Apart S s.cr3 (s.reg .esp + down (i + 1)) s.cr3 x) :
    load S (s.pushes S vs).mem s.cr3 x = load S s.mem s.cr3 x := by
  induction vs using List.reverseRecOn with
  | nil => rfl
  | append_singleton vs w ih =>
    rw [length_append, length_singleton] at h
    rw [Cpu.pushes_concat_mem, load_store_apart (h vs.length (by omega))]
    apply ih
    intro i hi
    exact h i (by omega)

/-- Below the words nothing changes. -/
theorem Cpu.pushes_read_below {j : Nat} (hj : vs.length < j) (hlt : j < 2 ^ 30) :
    load S (s.pushes S vs).mem s.cr3 (s.reg .esp + down j) =
      load S s.mem s.cr3 (s.reg .esp + down j) := by
  apply Cpu.pushes_read_apart
  intro i hi
  apply apart_of_far
  rw [far, Bool.and_comm]
  exact far_down (by omega) hlt

end Pushes

/-- The flags that `popf` does not load: it clears the resume flag, and those of the virtual
modes stay, clear as long as these modes are not used. -/
def systemFlags : Word := 0x1b0000

/-- The flag that enables interrupts. -/
def interruptFlag : Word := 0x200

/-- The carry, zero, sign and overflow flags. -/
def compareMask : Word := 0x8c1

/-- These flags after a comparison of `a` with `b`. -/
def compareFlags (a b : Word) : Word :=
  (if a < b then 0x001 else 0) ||| (if a = b then 0x040 else 0) |||
  (if (a - b).msb then 0x080 else 0) |||
  (if a.msb ≠ b.msb ∧ (a - b).msb ≠ a.msb then 0x800 else 0)

/-- The condition of `jge`: the sign flag is the overflow flag. -/
def greaterEqual (flags : Word) : Bool := flags.getLsbD 7 == flags.getLsbD 11

inductive Instr where
  | pusha
  | popa
  | push (r : Reg)
  | pushImm (v : Word)
  | pop (r : Reg)
  | mov (dst src : Reg)
  | movImm (dst : Reg) (v : Word)
  /-- A move to the lower half of a register. -/
  | mov16 (dst : Reg) (v : Word)
  /-- Load the segment registers for data from the lower half of a register. -/
  | movSegs (src : Reg)
  | movFromDs (dst : Reg)
  | load (dst base : Reg) (off : Word)
  | store (base : Reg) (off : Word) (src : Reg)
  | lea (dst base : Reg) (off : Word)
  | addImm (dst : Reg) (v : Word)
  | cmpImm (r : Reg) (v : Word)
  | movCr3 (src : Reg)
  | pushf
  | popf
  | cli
  | sti
  /-- A call that returns to `ret`; the instructions of the callee follow. -/
  | call (ret : Word)
  | ret
  | iret
  /-- A jump through a word of the table at `base`. -/
  | jmpTable (base : Word) (index : Reg)
  /-- With 8 as the kernel's code segment. -/
  | sysexit

/-- The lower half of a word replaced. -/
def low16 (w v : Word) : Word := (w &&& 0xffff0000) ||| (v &&& 0xffff)

/-- The privilege level of a code segment. -/
def cpl (cs : Word) : Word := cs &&& 3

section Exec

variable {ι : Type} [DecidableEq ι] (S : Space ι) (alu : Word → Word → Word → Word)

/-- One instruction; `alu` gives the flags after an addition, and those after a comparison that
are not modelled. -/
def exec (s : Cpu ι) : Instr → Cpu ι
  | .pusha =>
    let esp := s.reg .esp
    let s := ((s.push S (s.reg .eax)).push S (s.reg .ecx)).push S (s.reg .edx)
    let s := ((s.push S (s.reg .ebx)).push S esp).push S (s.reg .ebp)
    (s.push S (s.reg .esi)).push S (s.reg .edi)
  | .popa =>
    let s := ((s.pop S .edi).pop S .esi).pop S .ebp
    -- the stack pointer on the stack is left out
    let s := s.set .esp (s.reg .esp + 4)
    (((s.pop S .ebx).pop S .edx).pop S .ecx).pop S .eax
  | .push r => s.push S (s.reg r)
  | .pushImm v => s.push S v
  | .pop r => s.pop S r
  | .mov dst src => s.set dst (s.reg src)
  | .movImm dst v => s.set dst v
  | .mov16 dst v => s.set dst (low16 (s.reg dst) v)
  | .movSegs src => s.setDs (s.reg src &&& 0xffff)
  | .movFromDs dst => s.set dst (low16 (s.reg dst) s.ds)
  | .load dst base off => s.set dst (s.read S (s.reg base + off))
  | .store base off src => s.write S (s.reg base + off) (s.reg src)
  | .lea dst base off => s.set dst (s.reg base + off)
  | .addImm dst v => (s.setFlags (alu s.eflags (s.reg dst) v)).set dst (s.reg dst + v)
  | .cmpImm r v => s.setFlags
    ((alu s.eflags (s.reg r) v &&& ~~~ compareMask) ||| compareFlags (s.reg r) v)
  | .movCr3 src => s.setCr3 (s.reg src)
  | .pushf => s.push S s.eflags
  | .popf => (s.setFlags (s.read S (s.reg .esp) &&& ~~~ systemFlags)).set .esp (s.reg .esp + 4)
  | .cli => s.setFlags (s.eflags &&& ~~~ interruptFlag)
  | .sti => s.setFlags (s.eflags ||| interruptFlag)
  | .call ret => s.push S ret
  | .ret => (s.jump (s.read S (s.reg .esp))).set .esp (s.reg .esp + 4)
  | .iret =>
    let esp := s.reg .esp
    let s' := ((s.jump (s.read S esp)).setCs (s.read S (esp + 4))).setFlags (s.read S (esp + 8))
    -- the stack is switched as well on a return to an outer level
    if cpl (s.read S (esp + 4)) = cpl s.cs then s'.set .esp (esp + 12)
    else (s'.set .esp (s.read S (esp + 12))).setSs (s.read S (esp + 16))
  | .jmpTable base index => s.jump (s.read S (4 * s.reg index + base))
  | .sysexit => (((s.set .esp (s.reg .ecx)).jump (s.reg .edx)).setCs 0x1b).setSs 0x23

theorem exec_pusha (s : Cpu ι) : exec S alu s .pusha = s.pushes S
    [s.reg .eax, s.reg .ecx, s.reg .edx, s.reg .ebx, s.reg .esp, s.reg .ebp, s.reg .esi,
      s.reg .edi] := by
  simp [exec, Cpu.pushes, Cpu.push, Cpu.write]

/-- The registers that `popa` finds on the stack. -/
def popped (s : Cpu ι) : Reg → Word
  | .edi => s.read S (s.reg .esp)
  | .esi => s.read S (s.reg .esp + 4)
  | .ebp => s.read S (s.reg .esp + 8)
  | .esp => s.reg .esp + 32
  | .ebx => s.read S (s.reg .esp + 16)
  | .edx => s.read S (s.reg .esp + 20)
  | .ecx => s.read S (s.reg .esp + 24)
  | .eax => s.read S (s.reg .esp + 28)

theorem exec_popa (s : Cpu ι) : exec S alu s .popa = { s with reg := popped S s } := by
  have hreg : (exec S alu s .popa).reg = popped S s := by
    funext r
    cases r <;> simp [exec, popped, Cpu.pop, Cpu.read, add_assoc]
  rw [← hreg]
  rfl

/-- A return to an outer level switches the stack. -/
theorem exec_iret_outer {s : Cpu ι} (h : cpl (s.read S (s.reg .esp + 4)) ≠ cpl s.cs) :
    (exec S alu s .iret).reg = Function.update s.reg .esp (s.read S (s.reg .esp + 12)) ∧
      (exec S alu s .iret).eip = s.read S (s.reg .esp) ∧
      (exec S alu s .iret).eflags = s.read S (s.reg .esp + 8) := by
  simp only [exec]
  rw [if_neg h]
  exact ⟨rfl, rfl, rfl⟩

def run (s : Cpu ι) (is : List Instr) : Cpu ι := is.foldl (exec S alu) s

theorem run_append (s : Cpu ι) (is js : List Instr) :
    run S alu s (is ++ js) = run S alu (run S alu s is) js := foldl_append

/-- What the processor does at an interrupt whose gate leads to the kernel: from an
outer level it switches to the stack at `esp0`. -/
def interrupt (s : Cpu ι) (kernelCs kernelSs esp0 : Word) : Cpu ι :=
  let s' :=
    if cpl s.cs = 0 then s
    else ((((s.setSs kernelSs).set .esp esp0).push S s.ss).push S (s.reg .esp))
  (((((s'.push S s.eflags).push S s.cs).push S s.eip).setCs kernelCs).setFlags
    (s.eflags &&& ~~~ interruptFlag))

/-- What the processor does at `sysenter`. -/
def sysenter (s : Cpu ι) (kernelCs esp eip : Word) : Cpu ι :=
  ((((s.set .esp esp).jump eip).setCs kernelCs).setSs (kernelCs + 8)).setFlags
    (s.eflags &&& ~~~ interruptFlag)

end Exec

/-! ## Comparisons -/

theorem compareFlags_sign (a b : Word) : (compareFlags a b).getLsbD 7 = (a - b).msb := by
  unfold compareFlags
  cases (a - b).msb <;> split_ifs <;> first | rfl | contradiction

theorem compareFlags_overflow (a b : Word) :
    (compareFlags a b).getLsbD 11 = decide (a.msb ≠ b.msb ∧ (a - b).msb ≠ a.msb) := by
  unfold compareFlags
  by_cases h : a.msb ≠ b.msb ∧ (a - b).msb ≠ a.msb
  · rw [decide_eq_true h, if_pos h]
    split_ifs <;> rfl
  · rw [decide_eq_false h, if_neg h]
    split_ifs <;> rfl

/-- `jge` after a comparison is the order of signed numbers. -/
theorem greaterEqual_compare (f a b : Word) :
    greaterEqual ((f &&& ~~~ compareMask) ||| compareFlags a b) = decide (b.toInt ≤ a.toInt) := by
  have hsign : ((f &&& ~~~ compareMask) ||| compareFlags a b).getLsbD 7 = (a - b).msb := by
    rw [BitVec.getLsbD_or, compareFlags_sign]
    simp [compareMask]
  have hover : ((f &&& ~~~ compareMask) ||| compareFlags a b).getLsbD 11 =
      decide (a.msb ≠ b.msb ∧ (a - b).msb ≠ a.msb) := by
    rw [BitVec.getLsbD_or, compareFlags_overflow]
    simp [compareMask]
  rw [greaterEqual, hsign, hover]
  have ha := a.isLt
  have hb := b.isLt
  simp only [BitVec.msb_eq_decide, BitVec.toNat_sub, BitVec.toInt_eq_toNat_cond]
  rw [Bool.eq_iff_iff]
  simp only [beq_iff_eq, decide_eq_decide, decide_eq_true_eq, ne_eq]
  generalize a.toNat = x at *
  generalize b.toNat = y at *
  by_cases h : y ≤ x
  · have hmod : (2 ^ 32 - y + x) % 2 ^ 32 = x - y := by omega
    rw [hmod]
    omega
  · have hmod : (2 ^ 32 - y + x) % 2 ^ 32 = 2 ^ 32 - y + x := by omega
    rw [hmod]
    omega

end X86
