import Sysint.Lib.X86

/-! The system call gate: `syscall_entry` of `kernel/syscall/entry.s`, from `sysenter` to the
handler in `syscall_table` and from its return to `sysexit`. -/
namespace Sysint.Syscall

open X86 BitVec

/-- `SYSCALL_COUNT` -/
def syscallCount : Word := 11

def enosys : Word := 88

/-- `KERNEL_CODE_SEG`, in `IA32_SYSENTER_CS` -/
def kernelCodeSeg : Word := 0x08

/-- `paging::KERNEL_STACK_TOP`, in `IA32_SYSENTER_ESP` -/
def kernelStackTop : Word := 0xFFFFC000

/-- From the check of the id to the jump into the handler; `table` is the address of
`syscall_table` and `back` that of the label `.ret`. -/
def dispatch (table back : Word) : List Instr :=
  [.push .ecx, .push .edx, .push .esi, .push .edi, .mov16 .ecx 0x10, .movSegs .ecx,
    .pushImm back, .jmpTable table .eax]

/-- `.ret_enosys` -/
def retEnosys : List Instr :=
  [.movImm .eax (-enosys), .mov .ecx .ebp, .mov .edx .ebx, .sti, .sysexit]

/-- The instructions at `.ret` that take the arguments off the stack. -/
def dropArgs : List Instr := [.cli, .addImm .esp 16]

/-- The instructions at `.ret` after them. -/
def leave : List Instr :=
  [.mov16 .ecx 0x23, .movSegs .ecx, .mov .ecx .ebp, .mov .edx .ebx, .sti, .sysexit]

/-- `.ret` -/
def ret : List Instr := dropArgs ++ leave

/-- Where `syscall_entry` goes: into a handler, or back to the user. -/
inductive Exit (ι : Type) where
  | handler (s : Cpu ι)
  | user (s : Cpu ι)

section Gate

variable {ι : Type} [DecidableEq ι] (S : Space ι) (alu : Word → Word → Word → Word)

/-- `syscall_entry` -/
def syscallEntry (table back : Word) (s : Cpu ι) : Exit ι :=
  let s := run S alu s [.cmpImm .eax syscallCount]
  if greaterEqual s.eflags then .user (run S alu s retEnosys)
  else .handler (run S alu s (dispatch table back))

/-- `sysenter` with the registers of `syscall::init`; `entry` is the address of
`syscall_entry`. -/
def enter (entry : Word) (s : Cpu ι) : Cpu ι := sysenter s kernelCodeSeg kernelStackTop entry

/-- The user goes on: at the address in `ebx`, with the stack in `ebp` and a result. -/
structure Returned (s u : Cpu ι) (result : Word) : Prop where
  eax : u.reg .eax = result
  esp : u.reg .esp = s.reg .ebp
  eip : u.eip = s.reg .ebx
  cpl : cpl u.cs = 3

/-- A handler is entered by a call with the arguments of a system call. -/
structure Called (table back : Word) (s t : Cpu ι) : Prop where
  eip : t.eip = load S s.mem s.cr3 (table + 4 * s.reg .eax)
  back : t.read S (t.reg .esp) = back
  first : t.read S (t.reg .esp + 4) = s.reg .edi
  second : t.read S (t.reg .esp + 8) = s.reg .esi
  third : t.read S (t.reg .esp + 12) = s.reg .edx
  fourth : t.read S (t.reg .esp + 16) = s.reg .ecx

/-- A function that was entered at `t` returns at `v`: it keeps the registers that are not
volatile and leaves the arguments to its caller. -/
structure Cdecl (t v : Cpu ι) : Prop where
  eip : v.eip = t.read S (t.reg .esp)
  esp : v.reg .esp = t.reg .esp + 4
  ebx : v.reg .ebx = t.reg .ebx
  ebp : v.reg .ebp = t.reg .ebp
  esi : v.reg .esi = t.reg .esi
  edi : v.reg .edi = t.reg .edi

variable {S} {table back entry : Word} {s t v : Cpu ι}

/-- The id is compared as a signed number. -/
theorem syscallEntry_eq : syscallEntry S alu table back s = if (11 : Int) ≤ (s.reg .eax).toInt
    then .user (run S alu (run S alu s [.cmpImm .eax syscallCount]) retEnosys)
    else .handler (run S alu (run S alu s [.cmpImm .eax syscallCount]) (dispatch table back)) := by
  have hge : greaterEqual (run S alu s [.cmpImm .eax syscallCount]).eflags =
      decide ((11 : Int) ≤ (s.reg .eax).toInt) := greaterEqual_compare _ _ _
  rw [syscallEntry, hge]
  simp

theorem retEnosys_returned : Returned s (run S alu s retEnosys) (-enosys) := by
  constructor <;> simp [run, retEnosys, exec]
  rfl

/-- What the gate pushes: the arguments and the address to return to. -/
def frame (back : Word) (s : Cpu ι) : List Word :=
  [s.reg .ecx, s.reg .edx, s.reg .esi, s.reg .edi, back]

theorem dispatch_mem (table back : Word) (s : Cpu ι) : (run S alu s (dispatch table back)).mem =
    (s.pushes S (frame back s)).mem := by
  simp [run, dispatch, exec, frame, Cpu.pushes, Cpu.push, Cpu.write]

theorem dispatch_esp : (run S alu s (dispatch table back)).reg .esp =
    s.reg .esp + down (frame back s).length := by
  rw [← Cpu.pushes_esp (S := S)]
  simp [run, dispatch, exec, frame, Cpu.pushes, Cpu.push, Cpu.write]

theorem dispatch_cr3 : (run S alu s (dispatch table back)).cr3 = s.cr3 := rfl

theorem dispatch_reg {r : Reg} (hesp : r ≠ .esp) (hecx : r ≠ .ecx) :
    (run S alu s (dispatch table back)).reg r = s.reg r := by
  simp [run, dispatch, exec, Cpu.push, Cpu.write, hesp, hecx]

theorem dispatch_eip : (run S alu s (dispatch table back)).eip =
    load S (s.pushes S (frame back s)).mem s.cr3 (table + 4 * s.reg .eax) := by
  rw [← dispatch_mem alu table, add_comm table]
  simp [run, dispatch, exec, Cpu.push, Cpu.write, Cpu.read]

/-- The arguments lie above the address to return to, the first one first. -/
theorem dispatch_called (table back : Word) (s : Cpu ι) (htable : ∀ i < 5,
      Apart S s.cr3 (s.reg .esp + down (i + 1)) s.cr3 (table + 4 * s.reg .eax)) :
    Called S table back s (run S alu s (dispatch table back)) := by
  have hread : ∀ (i : Nat) (c w : Word), down 5 + c = down (i + 1) →
      (frame back s)[i]? = some w →
      (run S alu s (dispatch table back)).read S
        ((run S alu s (dispatch table back)).reg .esp + c) = w := by
    intro i c w hc hw
    rw [Cpu.read, dispatch_mem, dispatch_cr3, dispatch_esp]
    exact Cpu.pushes_read_up (Nat.lt_of_lt_of_le (by decide : 5 < 6) (by decide)) hc hw
  constructor
  case eip =>
    rw [dispatch_eip]
    exact Cpu.pushes_read_apart htable
  case back =>
    have h := hread 4 0 back (by decide) rfl
    rwa [add_zero] at h
  case first => exact hread 3 4 _ (by decide) rfl
  case second => exact hread 2 8 _ (by decide) rfl
  case third => exact hread 1 12 _ (by decide) rfl
  case fourth => exact hread 0 16 _ (by decide) rfl

/-- The address to return to is popped by the handler, the arguments are dropped. -/
theorem dropArgs_esp (hv : Cdecl S (run S alu s (dispatch table back)) v) :
    (run S alu v dropArgs).reg .esp = s.reg .esp := by
  have hesp : (run S alu v dropArgs).reg .esp = v.reg .esp + 16 := by
    simp [run, dropArgs, exec]
  rw [hesp, hv.esp, dispatch_esp, add_assoc, add_assoc]
  exact add_eq_left.mpr (by decide : down 5 + (4 + 16) = 0)

theorem ret_returned (hv : Cdecl S (run S alu s (dispatch table back)) v) :
    Returned s (run S alu v ret) (v.reg .eax) := by
  have hebp : v.reg .ebp = s.reg .ebp := by
    rw [hv.ebp, dispatch_reg alu (by decide) (by decide)]
  have hebx : v.reg .ebx = s.reg .ebx := by
    rw [hv.ebx, dispatch_reg alu (by decide) (by decide)]
  constructor
  case eax => simp [run, ret, dropArgs, leave, exec]
  case esp => simp [run, ret, dropArgs, leave, exec, hebp]
  case eip => simp [run, ret, dropArgs, leave, exec, hebx]
  case cpl => simp [run, ret, dropArgs, leave, exec]; rfl

omit [DecidableEq ι] in
/-- The table is below the kernel stack. -/
theorem table_apart {d : Word} {i : Nat} {id : Word} (hi : i < 5) (hid : id.toNat < 11)
    (hlow : 0xC0000000 ≤ table.toNat) (hhigh : table.toNat + 44 ≤ 0xD0000000) :
    Apart S d (kernelStackTop + down (i + 1)) d (table + 4 * id) := by
  intro j k hj hk heq
  have hj' : j.toNat < 4 := hj
  have hk' : k.toNat < 4 := hk
  have hsum := congrArg BitVec.toNat (S.inj d heq)
  have hstack : (kernelStackTop + down (i + 1)).toNat = 0xFFFFC000 - 4 * (i + 1) := by
    have htop : kernelStackTop.toNat = 0xFFFFC000 := rfl
    simp only [down, toNat_add, toNat_neg, toNat_ofNat, htop]
    omega
  rw [toNat_add, hstack, toNat_add, toNat_add, toNat_mul] at hsum
  have hfour : (4 : Word).toNat = 4 := rfl
  rw [hfour] at hsum
  omega

variable (S) in
/-- An id out of range is refused; otherwise the handler in the table is called with the user's
arguments, and when it returns the kernel stack is as it was and the user has the result. -/
structure Served (table back entry : Word) (s : Cpu ι) : Prop where
  refused : 11 ≤ (s.reg .eax).toNat →
    ∃ u, syscallEntry S alu table back (enter entry s) = .user u ∧
      Returned s u (-enosys) ∧ u.mem = s.mem
  called : (s.reg .eax).toNat < 11 →
    ∃ t, syscallEntry S alu table back (enter entry s) = .handler t ∧
      Called S table back s t ∧ ∀ v, Cdecl S t v → v.eip = back ∧
        (run S alu v dropArgs).reg .esp = kernelStackTop ∧
        Returned s (run S alu v ret) (v.reg .eax)

omit [DecidableEq ι] in
theorem enter_eax : (enter entry s).reg .eax = s.reg .eax := by simp [enter, sysenter]

theorem served_of_lt (hlow : 0xC0000000 ≤ table.toNat) (hhigh : table.toNat + 44 ≤ 0xD0000000)
    (hid : (s.reg .eax).toNat < 2 ^ 31) : Served S alu table back entry s := by
  have hint : (s.reg .eax).toInt = (s.reg .eax).toNat := by
    rw [toInt_eq_toNat_cond, if_pos (by omega)]
  obtain ⟨e, he⟩ : ∃ e, e = run S alu (enter entry s) [.cmpImm .eax syscallCount] := ⟨_, rfl⟩
  have hreg : ∀ r, r ≠ .esp → e.reg r = s.reg r := by
    intro r hr
    rw [he]
    simp [run, exec, enter, sysenter, hr]
  have hesp : e.reg .esp = kernelStackTop := by
    rw [he]
    simp [run, exec, enter, sysenter]
  have hmem : e.mem = s.mem := by
    rw [he]
    rfl
  have hcr3 : e.cr3 = s.cr3 := by
    rw [he]
    rfl
  have hgate : syscallEntry S alu table back (enter entry s) = _ := syscallEntry_eq alu
  rw [enter_eax, hint, ← he] at hgate
  have hback : ∀ u w, Returned e u w → Returned s u w := by
    intro u w h
    exact ⟨h.eax, h.esp.trans (hreg _ (by decide)), h.eip.trans (hreg _ (by decide)), h.cpl⟩
  constructor
  · intro h
    rw [if_pos (by omega)] at hgate
    exact ⟨_, hgate, hback _ _ (retEnosys_returned alu), hmem⟩
  intro h
  rw [if_neg (by omega)] at hgate
  have hcalled : Called S table back e (run S alu e (dispatch table back)) := by
    apply dispatch_called
    intro i hi
    rw [hesp, hreg _ (by decide)]
    exact table_apart hi h hlow hhigh
  refine ⟨_, hgate, ?_, ?_⟩
  · exact ⟨by rw [hcalled.eip, hmem, hcr3, hreg _ (by decide)], hcalled.back,
      hcalled.first.trans (hreg _ (by decide)), hcalled.second.trans (hreg _ (by decide)),
      hcalled.third.trans (hreg _ (by decide)), hcalled.fourth.trans (hreg _ (by decide))⟩
  · intro v hv
    exact ⟨hv.eip.trans hcalled.back, (dropArgs_esp alu hv).trans hesp,
      hback _ _ (ret_returned alu hv)⟩

/-- A system call is served if its id is not negative as a signed number. Otherwise the gate jumps
through a word outside of the table. -/
theorem system_call (table back entry : Word) (s : Cpu ι)
    (hlow : 0xC0000000 ≤ table.toNat) (hhigh : table.toNat + 44 ≤ 0xD0000000) :
    Served S alu table back entry s ↔ (s.reg .eax).toNat < 2 ^ 31 := by
  refine ⟨fun h => ?_, served_of_lt alu hlow hhigh⟩
  by_contra hid
  have hsign : ¬ (11 : Int) ≤ (s.reg .eax).toInt := by
    rw [toInt_eq_toNat_cond, if_neg (by omega)]
    have := (s.reg .eax).isLt
    omega
  obtain ⟨u, hu, -⟩ := h.refused (by omega)
  rw [syscallEntry_eq, enter_eax, if_neg hsign] at hu
  cases hu

end Gate

/-- Every address leads to a byte of its own. -/
def flatSpace : Space Word := ⟨fun _ a => a, fun _ _ _ h => h⟩

/-- A user with an id in `eax` that has 7, 8, 9 and 10 as arguments. -/
def userAt (id : Word) (mem : Word → BitVec 8) : Cpu Word where
  reg
    | .eax => id
    | .edi => 7
    | .esi => 8
    | .edx => 9
    | .ecx => 10
    | .ebp => 0xBFFFF000
    | .ebx => 0x8048010
    | .esp => 0xBFFFF000
  eip := 0x8048010
  eflags := 0x202
  cs := 0x1b
  ss := 0x23
  ds := 0x23
  cr3 := 0x1000
  mem := mem

/-- The addition keeps the flags. -/
def keepFlags (flags _ _ : Word) : Word := flags

theorem system_call_brk : ∃ t, syscallEntry flatSpace keepFlags 0xC0105000 0xC0100040
        (enter 0xC0100000 (userAt 10 fun _ => 0)) = .handler t ∧
      Called flatSpace 0xC0105000 0xC0100040 (userAt 10 fun _ => 0) t := by
  have h := (system_call (S := flatSpace) keepFlags 0xC0105000 0xC0100040 0xC0100000
    (userAt 10 fun _ => 0) (by decide) (by decide)).mpr (by decide)
  obtain ⟨t, ht, hcalled, -⟩ := h.called (by decide)
  exact ⟨t, ht, hcalled⟩

/-- Where the handler is that the gate calls. -/
def Exit.target {ι : Type} : Exit ι → Option Word
  | .handler s => some s.eip
  | .user _ => none

/-- A negative id is not refused: the gate jumps through the word below the table. -/
theorem system_call_outside : (syscallEntry flatSpace keepFlags 0xC0105000 0xC0100040
      (enter 0xC0100000 (userAt 0xFFFFFFFF
        (store flatSpace (fun _ => 0) 0x1000 0xC0104FFC 0x41414141)))).target =
      some 0x41414141 := by
  decide +kernel

end Sysint.Syscall
