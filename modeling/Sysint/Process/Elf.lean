import Sysint.Paging.AllocPages

/-! `elf::load` of `kernel/proc/elf.cpp`. The image is a constant: it lies in kernel memory. -/
namespace Sysint.Process.Elf

open Paging Hoare Nat BitVec

def efault : Int := 14

def enoexec : Int := 8

def enomem : Int := 12

def einval : Int := 22

/-- The fields of `Elf32_Ehdr` that the loader reads. -/
structure Ehdr where
  ident : Nat → BitVec 8
  type : BitVec 16
  machine : BitVec 16
  entry : BitVec 32
  phoff : BitVec 32
  phnum : BitVec 16

def Ehdr.valid (h : Ehdr) : Bool :=
  h.ident 0 = 0x7f && h.ident 1 = 0x45 && h.ident 2 = 0x4c && h.ident 3 = 0x46 &&
    -- class, data encoding, machine, version and OS
    h.ident 4 = 1 && h.ident 5 = 1 && h.machine = 3 && h.ident 6 = 1 && h.ident 7 = 0 &&
    (h.type = 1 || h.type = 2)

def ptLoad : BitVec 32 := 1

def ptPhdr : BitVec 32 := 6

def pfW : BitVec 32 := 2

structure Phdr where
  type : BitVec 32
  offset : BitVec 32
  vaddr : BitVec 32
  filesz : BitVec 32
  memsz : BitVec 32
  flags : BitVec 32
  align : BitVec 32

structure Image where
  hdr : Ehdr
  /-- The program headers from `e_phoff` on. -/
  phdr : Nat → Phdr
  byte : Nat → BitVec 8

def Image.phdrs (img : Image) : List Phdr := (List.range img.hdr.phnum.toNat).map img.phdr

/-- The first page of a segment, as an address. -/
def Phdr.start (ph : Phdr) : Nat := ph.vaddr.toNat &&& 0xFFFFF000

/-- Behind the last page of a segment. -/
def Phdr.stop (ph : Phdr) : Nat := alignAddr (u32 (ph.vaddr.toNat + ph.memsz.toNat))

/-- The first pass; `brk` is `brk_start`. -/
def allocSegments (d : Nat) : List Phdr → Nat → Kernel (Except Int Nat)
  | [], brk => return .ok brk
  | ph :: phs, brk => do
    if ph.type = ptPhdr then allocSegments d phs brk
    else if ph.type = ptLoad then
      if ← allocBlock d ph.start (sub32 ph.stop ph.start) (pagePresent ||| pageUs ||| pageRw) then
        allocSegments d phs (max brk ph.stop)
      else return .error (-enomem)
    else return .error (-einval)

/-- Write the bytes `k` to `k + n` of `src` behind `dst`, as the string instructions do. -/
def fill (d dst : Nat) (src : Nat → BitVec 8) : Nat → Nat → Kernel Unit
  | 0, _ => return
  | n + 1, k => do
    storeByte d (u32 (dst + k)) (src k)
    fill d dst src n (k + 1)

def memcpy (d dst : Nat) (src : Nat → BitVec 8) (n : Nat) : Kernel Unit := fill d dst src n 0

def memcpyd (d dst : Nat) (src : Nat → BitVec 8) (n : Nat) : Kernel Unit := fill d dst src (4 * n) 0

/-- Set the pages from `a` on read-only. -/
def setReadOnly (d : Nat) : Nat → Nat → Kernel Unit
  | 0, _ => return
  | n + 1, a => do
    match ← getPage d (a >>> pageShift) with
    | none => throw .wild
    | some p =>
      modify fun vm => vm.setPage p ⟨(vm.page p).value &&& ~~~ pageRw⟩
      setReadOnly d n (a + pageSize)

/-- Write `n` bytes, by words where `n` allows it. -/
def copyOut (d dst : Nat) (src : Nat → BitVec 8) (n : Nat) : Kernel Unit :=
  if n &&& 3 ≠ 0 then memcpy d dst src n else memcpyd d dst src (n / 4)

/-- Clear the memory of a segment behind its bytes in the file. -/
def clearExtra (d : Nat) (ph : Phdr) : Kernel Unit :=
  if ph.memsz > ph.filesz then
    copyOut d (u32 (ph.vaddr.toNat + ph.filesz.toNat)) (fun _ => 0)
      (ph.memsz.toNat - ph.filesz.toNat)
  else return

/-- Set the pages of a segment as read-only if we are able to. -/
def protect (d : Nat) (ph : Phdr) : Kernel Unit :=
  if ph.align.toNat ≥ pageSize ∧ ph.flags &&& pfW = 0 then
    setReadOnly d ((ph.stop - ph.start) / pageSize) ph.start
  else return

/-- The second pass, for one segment. -/
def copySegment (d : Nat) (img : Image) (ph : Phdr) : Kernel Unit := do
  copyOut d ph.vaddr.toNat (fun k => img.byte (ph.offset.toNat + k)) ph.filesz.toNat
  clearExtra d ph
  protect d ph

def copySegments (d : Nat) (img : Image) : List Phdr → Kernel Unit
  | [] => return
  | ph :: phs => do
    if ph.type = ptPhdr then copySegments d img phs
    else
      copySegment d img ph
      copySegments d img phs

structure Loaded where
  entry : BitVec 32
  brkStart : Nat

def load (buf : Option Image) (dir : Option Nat) : Kernel (Except Int Loaded) := do
  match buf, dir with
  | some img, some d =>
    if ¬ img.hdr.valid then return .error (-enoexec)
    if img.hdr.phoff = 0 then return .error (-enoexec)
    match ← allocSegments d img.phdrs 0 with
    | .error e => return .error e
    | .ok brk =>
      modify (·.setCurDir d)
      copySegments d img img.phdrs
      return .ok ⟨img.hdr.entry, brk⟩
  | _, _ => return .error (-efault)

/-! ## What the loader may touch -/

/-- The segment ends below the kernel, its bytes in the file have room in its memory, and an
empty segment has no page. -/
def Phdr.Fits (ph : Phdr) : Prop :=
  ph.vaddr.toNat + ph.memsz.toNat ≤ kernelVirtualBase ∧ ph.filesz ≤ ph.memsz ∧
    (ph.memsz = 0 → ph.vaddr.toNat % pageSize = 0)

/-- An address of the segment. -/
def Phdr.Holds (ph : Phdr) (a : Nat) : Prop :=
  ph.vaddr.toNat ≤ a ∧ a < ph.vaddr.toNat + ph.memsz.toNat

/-- Page `n` overlaps the segment. -/
def Phdr.Overlaps (ph : Phdr) (n : Nat) : Prop :=
  n * pageSize < ph.vaddr.toNat + ph.memsz.toNat ∧ ph.vaddr.toNat < (n + 1) * pageSize ∧
    0 < ph.memsz.toNat

/-- The pages that an image may change. -/
def Image.Pages (img : Image) (n : Nat) : Prop :=
  n * pageSize < kernelVirtualBase ∧ ∃ ph ∈ img.phdrs, ph.type = ptLoad ∧ ph.Overlaps n

theorem Phdr.start_eq (ph : Phdr) : ph.start = ph.vaddr.toNat / 4096 * 4096 :=
  and_high ph.vaddr.isLt 12 _ (by decide) (by decide)

/-- The end of the segment, rounded up to a page, is an address. -/
def Phdr.NoWrap (ph : Phdr) : Prop := ph.vaddr.toNat + ph.memsz.toNat + 4095 < 2 ^ 32

variable {ph : Phdr}

theorem Phdr.NoWrap.of_le (h : ph.vaddr.toNat + ph.memsz.toNat ≤ kernelVirtualBase) :
    ph.NoWrap := by
  unfold kernelVirtualBase at h
  unfold Phdr.NoWrap
  omega

theorem Phdr.stop_eq (h : ph.NoWrap) :
    ph.stop = (ph.vaddr.toNat + ph.memsz.toNat + 4095) / 4096 * 4096 := by
  unfold Phdr.NoWrap at h
  rw [Phdr.stop, u32_of_lt (by omega), alignAddr_eq (by omega), u32_of_lt (by omega)]

/-- The pages of a segment, as `alloc_block` counts them. -/
def Phdr.Spans (ph : Phdr) : Nat → Prop :=
  Within (ph.start >>> pageShift) (sub32 ph.stop ph.start >>> pageShift)

theorem Phdr.size_eq (h : ph.NoWrap) : sub32 ph.stop ph.start >>> pageShift =
      (ph.vaddr.toNat + ph.memsz.toNat + 4095) / 4096 - ph.vaddr.toNat / 4096 := by
  have hlt := h
  unfold Phdr.NoWrap at hlt
  rw [ph.stop_eq h, ph.start_eq, sub32_of_le (by omega) (by omega)]
  simp only [shiftRight_eq_div_pow, pageShift]
  omega

theorem Phdr.start_page (ph : Phdr) : ph.start >>> pageShift = ph.vaddr.toNat / 4096 := by
  rw [ph.start_eq, shiftRight_eq_div_pow, pageShift]
  omega

theorem Phdr.spans_iff (h : ph.NoWrap) (n : Nat) : ph.Spans n ↔
    ph.vaddr.toNat / 4096 ≤ n ∧ n < (ph.vaddr.toNat + ph.memsz.toNat + 4095) / 4096 := by
  unfold Phdr.Spans Within
  rw [ph.size_eq h, ph.start_page]
  omega

theorem Phdr.spans_bound (h : ph.NoWrap) :
    ph.start >>> pageShift + sub32 ph.stop ph.start >>> pageShift ≤ 2 ^ 20 := by
  have hlt := h
  unfold Phdr.NoWrap at hlt
  rw [ph.size_eq h, ph.start_page]
  omega

variable {vm₀ : Vm} {d : Nat} {A T : Nat → Prop}

/-- The headers in front of the first one of another type, for which an image is refused. -/
def seen (phs : List Phdr) : List Phdr :=
  phs.takeWhile fun ph => ph.type = ptPhdr ∨ ph.type = ptLoad

/-- From `vm₁` on, pages of `A` have changed in their flags, and bytes only at addresses of
`B`. -/
structure Copying (vm₁ : Vm) (d : Nat) (A B : Nat → Prop) (vm : Vm) : Prop where
  sound : vm.Sound d
  dir : vm.dir = vm₁.dir
  pte : ∀ n, ¬ A n → vm.pte d n = vm₁.pte d n
  kept : ∀ n, (vm.pte d n).present = (vm₁.pte d n).present ∧
    (vm.pte d n).addr = (vm₁.pte d n).addr
  bytes : ∀ f o, vm.frame f o ≠ vm₁.frame f o → ∃ a, B a ∧ vm₁.translate d a = some (f, o)

variable {vm₁ vm : Vm} {B : Nat → Prop}

theorem Copying.refl (hs : vm.Sound d) : Copying vm d A B vm where
  sound := hs
  dir := rfl
  pte _ _ := rfl
  kept _ := ⟨rfl, rfl⟩
  bytes _ _ h := absurd rfl h

theorem Copying.translate (h : Copying vm₁ d A B vm) (a : Nat) :
    vm.translate d a = vm₁.translate d a := by
  obtain ⟨hp, ha⟩ := h.kept (a >>> pageShift)
  simp [Vm.translate, h.dir, hp, ha]

theorem Copying.setByte (h : Copying vm₁ d A B vm) {a f o : Nat} (ha : B a)
    (hf : vm.translate d a = some (f, o)) (v : BitVec 8) :
    Copying vm₁ d A B (vm.setByte f o v) where
  sound := ⟨h.sound.inj, h.sound.unused, h.sound.nodup⟩
  dir := h.dir
  pte := h.pte
  kept := h.kept
  bytes := by
    intro g q hg
    by_cases heq : g = f ∧ q = o
    · obtain ⟨rfl, rfl⟩ := heq
      exact ⟨a, ha, by rw [← h.translate, hf]⟩
    · apply h.bytes g q
      have hsame : (vm.setByte f o v).frame g q = vm.frame g q := by
        simp only [Vm.setByte_frame, Function.update_apply]
        grind
      rwa [hsame] at hg

theorem clear_rw (p : Page) : (Page.mk (p.value &&& ~~~ pageRw)).present = p.present ∧
    (Page.mk (p.value &&& ~~~ pageRw)).addr = p.addr := by
  constructor
  · simp [Page.present, pageRw]
  simp only [Page.addr, pageShift, ← toNat_ushiftRight]
  congr 1
  apply eq_of_getLsbD_eq
  intro i hi
  have hrw : pageRw.getLsbD (12 + i) = false := by
    apply testBit_lt_two_pow
    exact Nat.lt_of_lt_of_le (by decide) (Nat.pow_le_pow_right (by decide) (Nat.le_add_right 12 i))
  simp only [getLsbD_ushiftRight, getLsbD_and, getLsbD_not, hrw]
  cases h : p.value.getLsbD (12 + i) with
  | false => rfl
  | true => simpa using lt_of_getLsbD h

theorem Copying.clearRw (h : Copying vm₁ d A B vm) {n : Nat} {p : Slot} (hn : A n)
    (hp : vm.At d n p) : Copying vm₁ d A B (vm.setPage p ⟨(vm.page p).value &&& ~~~ pageRw⟩) := by
  obtain ⟨t, i⟩ := p
  obtain ⟨ht, rfl⟩ := hp
  have hpte := h.sound.pte_setPage ht ⟨(vm.page ⟨t, n &&& 1023⟩).value &&& ~~~ pageRw⟩
  constructor
  · exact ⟨h.sound.inj, h.sound.unused, h.sound.nodup⟩
  · exact h.dir
  · intro m hm
    have hne : m ≠ n := by
      rintro rfl
      exact hm hn
    rw [hpte, if_neg hne, h.pte m hm]
  · intro m
    rw [hpte]
    split
    · rename_i heq
      have hclear := clear_rw (vm.page ⟨t, n &&& 1023⟩)
      rw [← Vm.pte_of_table ht] at hclear ⊢
      rw [heq, hclear.1, hclear.2]
      exact h.kept n
    · exact h.kept m
  · exact h.bytes

theorem storeByte_spec {a : Nat} (ha : B a) (v : BitVec 8) :
    Triple (Copying vm₁ d A B) (storeByte d a v) (fun _ => Copying vm₁ d A B)
      (fun e vm => Copying vm₁ d A B vm ∧ e ≠ .wild) := by
  apply Triple.get
  intro vm hvm
  cases hf : vm.translate d a with
  | none =>
    apply Triple.throw
    rintro _ ⟨h, -⟩
    exact ⟨h, by decide⟩
  | some fo =>
    apply Triple.modify
    rintro _ ⟨h, rfl⟩
    exact h.setByte ha hf v

theorem fill_spec {dst : Nat} (src : Nat → BitVec 8) (n k : Nat)
    (hB : ∀ j, j < n → B (u32 (dst + (k + j)))) :
    Triple (Copying vm₁ d A B) (fill d dst src n k) (fun _ => Copying vm₁ d A B)
      (fun e vm => Copying vm₁ d A B vm ∧ e ≠ .wild) := by
  induction n generalizing k with
  | zero => exact Triple.pure fun _ h => h
  | succ n ih =>
    apply Triple.bind (storeByte_spec (hB 0 (by omega)) (src k))
    intro _
    apply ih
    intro j hj
    have hnext : k + 1 + j = k + (j + 1) := by omega
    rw [hnext]
    exact hB (j + 1) (by omega)

theorem Image.Pages.index {img : Image} {n : Nat} (h : img.Pages n) :
    n >>> 10 < kernelVirtualBase >>> 22 := by
  have hlt := h.1
  have hbase : kernelVirtualBase >>> 22 = 768 := by decide
  have hpage : pageSize = 4096 := rfl
  rw [hbase, shiftRight_eq_div_pow]
  rw [hpage, kernelVirtualBase] at hlt
  omega

variable {img : Image}

/-- An image of one segment with `n` bytes at `vaddr`. -/
def sampleImage (vaddr n : BitVec 32) : Image where
  hdr :=
    { ident := fun i => [0x7f, 0x45, 0x4c, 0x46, 1, 1, 1].getD i 0
      type := 2
      machine := 3
      entry := vaddr
      phoff := 52
      phnum := 1 }
  phdr := fun _ =>
    { type := ptLoad
      offset := 84
      vaddr := vaddr
      filesz := n
      memsz := n
      flags := 7
      align := 4096 }
  byte := fun _ => 0x90

/-- The result of a load, and what `f` finds in the state after it. -/
def loaded {α : Type} (img : Image) (f : Vm → α) : Option (Bool × α) :=
  match load (some img) (some 0) sampleVm with
  | .ok r vm => some (r.isOk, f vm)
  | .error _ _ => none

end Sysint.Process.Elf
