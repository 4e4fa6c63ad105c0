import Sysint.Lib.X86

/-! The registers of a process across a switch: the stub of the timer interrupt in
`kernel/irq.s`, `irq_handler`, the part of `schedule` that saves the registers,
`switch_proc` and `switch_proc_user` of `kernel/proc/switch.s`, and the way of
`__schedule` through `kernel/proc/schedcall.s` and `kernel/proc/save.s`. -/
namespace Sysint.Process.Switch

open X86
open Function

/-- The page directories agree on the kernel's part of the address space, except for
the page tables of the kernel stack: every process has its own, at the same address. -/
def Shared (a : Word) : Prop := 0xC0000000 ≤ a ∧ a < 0xFFC00000

instance (a : Word) : Decidable (Shared a) := inferInstanceAs (Decidable (_ ∧ _))

def Agree {ι : Type} (S : Space ι) : Prop := ∀ d d' a, Shared a → S.place d a = S.place d' a

/-- Memory whose bytes are the kernel's or a page directory's own. -/
def kernelSpace : Space (Option Word × Word) where
  place d a := (if Shared a then none else some d, a)
  inj _ _ _ h := congrArg Prod.snd h

theorem agree_kernelSpace : Agree kernelSpace := by
  intro d d' a ha
  simp [kernelSpace, if_pos ha]

abbrev Machine := Cpu (Option Word × Word)

/-- `proc_state`, in its order, without the FPU buffer. -/
structure ProcState where
  eflags : Word
  eip : Word
  edi : Word
  esi : Word
  ebp : Word
  esp : Word
  ebx : Word
  edx : Word
  ecx : Word
  eax : Word

/-- `isr::registers`, in its order. -/
structure Registers where
  edi : Word
  esi : Word
  ebp : Word
  esp : Word
  ebx : Word
  edx : Word
  ecx : Word
  eax : Word
  intNo : Word
  err : Word
  eip : Word
  cs : Word
  eflags : Word
  espcpu : Word
  ss : Word

section Model

variable {ι : Type} [DecidableEq ι] (S : Space ι)

def ProcState.at (m : ι → BitVec 8) (d p : Word) : ProcState where
  eflags := load S m d p
  eip := load S m d (p + 4)
  edi := load S m d (p + 8)
  esi := load S m d (p + 12)
  ebp := load S m d (p + 16)
  esp := load S m d (p + 20)
  ebx := load S m d (p + 24)
  edx := load S m d (p + 28)
  ecx := load S m d (p + 32)
  eax := load S m d (p + 36)

def Registers.at (m : ι → BitVec 8) (d p : Word) : Registers where
  edi := load S m d p
  esi := load S m d (p + 4)
  ebp := load S m d (p + 8)
  esp := load S m d (p + 12)
  ebx := load S m d (p + 16)
  edx := load S m d (p + 20)
  ecx := load S m d (p + 24)
  eax := load S m d (p + 28)
  intNo := load S m d (p + 32)
  err := load S m d (p + 36)
  eip := load S m d (p + 40)
  cs := load S m d (p + 44)
  eflags := load S m d (p + 48)
  espcpu := load S m d (p + 52)
  ss := load S m d (p + 56)

end Model

/-! ## The code -/

def setKernelState : List Instr := [.pusha, .movFromDs .ebx, .mov16 .eax 0x10, .movSegs .eax]

/-- `irq0`, up to the entry of `irq_handler`. -/
def irq0 (ret : Word) : List Instr :=
  [.pushImm 0, .pushImm 32] ++ setKernelState ++ [.call ret]

/-- `irq_handler`: calculate the correct `esp`. -/
def irqHandler (regs : Registers) : Registers :=
  { regs with esp := if regs.cs &&& 3 ≠ 0 then regs.espcpu else regs.esp + 5 * 4 }

/-- `schedule`: the registers go to the state of the process. -/
def saveRegs (regs : Registers) : ProcState where
  edi := regs.edi
  esi := regs.esi
  ebp := regs.ebp
  ebx := regs.ebx
  edx := regs.edx
  ecx := regs.ecx
  eax := regs.eax
  eip := regs.eip
  esp := regs.esp
  eflags := regs.eflags

/-- `flags.user`. -/
def saveUser (regs : Registers) : Bool := regs.cs &&& 3 ≠ 0

def setUserDatasegs : List Instr := [.mov16 .eax 0x23, .movSegs .eax]

def switchProc : List Instr :=
  [.cli, .addImm .esp 16, .popa,
    .load .eax .esp (-44), .movCr3 .eax,
    .mov .ecx .esp, .load .esp .esp (-20),
    .load .eax .ecx (-36), .push .eax,
    .load .eax .ecx (-40), .push .eax,
    .load .eax .ecx (-4), .load .ecx .ecx (-8),
    .popf, .ret]

def switchProcUser : List Instr :=
  [.cli, .addImm .esp 16, .popa, .push .eax,
    .pushImm 0x23,
    .load .eax .esp (-12), .push .eax,
    .load .eax .esp (-28), .push .eax,
    .pushImm 0x1b,
    .load .eax .esp (-16), .push .eax,
    .load .eax .esp (-20), .movCr3 .eax] ++ setUserDatasegs ++
  [.load .eax .esp 20, .iret]

def saveStateNoEipEsp : List Instr :=
  [.mov .eax .esp, .load .esp .esp 4, .addImm .esp 40, .pusha, .addImm .esp (-4), .pushf,
    .mov .esp .eax, .ret]

/-- `__schedule_switch_kstack_and_call_save`, up to its change of the stack. -/
def scheduleSave (ret : Word) : List Instr :=
  [.load .ecx .esp 4, .push .ecx, .call ret] ++ saveStateNoEipEsp ++
  [.pop .ecx, .load .eax .esp 0, .store .ecx 4 .eax, .lea .eax .esp 4, .store .ecx 20 .eax]

/-! ## What the interrupt captures -/

variable {vs : List Word} {k : Word}

section Capture

variable {ι : Type} [DecidableEq ι] (S : Space ι) (alu : Word → Word → Word → Word)

/-- The registers as `irq_handler` has them after its correction, for a timer interrupt
at `s`. -/
def captured (s : Cpu ι) (esp0 ret : Word) : Registers :=
  let t := run S alu (interrupt S s 0x08 0x10 esp0) (irq0 ret)
  irqHandler (Registers.at S t.mem t.cr3 (t.reg .esp + 4))

/-- The saved state has the registers of the interrupted program. -/
structure Saves (s : Cpu ι) (st : ProcState) : Prop where
  edi : st.edi = s.reg .edi
  esi : st.esi = s.reg .esi
  ebp : st.ebp = s.reg .ebp
  ebx : st.ebx = s.reg .ebx
  edx : st.edx = s.reg .edx
  ecx : st.ecx = s.reg .ecx
  eax : st.eax = s.reg .eax
  esp : st.esp = s.reg .esp
  eip : st.eip = s.eip
  eflags : st.eflags = s.eflags

/-- The words that the stub pushes. -/
def stubFrame (u : Cpu ι) (ret : Word) : List Word :=
  [0, 32, u.reg .eax, u.reg .ecx, u.reg .edx, u.reg .ebx, u.reg .esp + down 2, u.reg .ebp,
    u.reg .esi, u.reg .edi, ret]

/-- The stub leaves its frame on the stack. -/
theorem irq0_spec (u : Cpu ι) (ret : Word) : (run S alu u (irq0 ret)).cr3 = u.cr3 ∧
    (run S alu u (irq0 ret)).reg .esp = u.reg .esp + down 11 ∧
    (run S alu u (irq0 ret)).mem = (u.pushes S (stubFrame u ret)).mem := by
  -- the state after `pusha`; what follows touches neither the stack nor its pointer
  have hpusha : exec S alu (u.pushes S [0, 32]) .pusha = u.pushes S (stubFrame u ret).dropLast := by
    rw [exec_pusha, ← Cpu.pushes_append]
    simp [stubFrame]
  have hrun : run S alu u (irq0 ret) = run S alu (u.pushes S (stubFrame u ret).dropLast)
      [.movFromDs .ebx, .mov16 .eax 0x10, .movSegs .eax, .call ret] := by
    rw [← hpusha]
    rfl
  have hframe : stubFrame u ret = (stubFrame u ret).dropLast ++ [ret] := by simp [stubFrame]
  rw [hrun, hframe, Cpu.pushes_concat, List.dropLast_concat]
  generalize hv : (stubFrame u ret).dropLast = vs
  have hlen : vs.length = 10 := by rw [← hv]; rfl
  refine ⟨?_, ?_, ?_⟩
  · simp [run, exec, Cpu.push, Cpu.write]
  · simp only [run, List.foldl, exec, Cpu.push, Cpu.set_reg, update_self]
    simp [hlen, add_assoc, down]
  · simp [run, exec, Cpu.push, Cpu.write]

/-- What `irq_handler` finds is the frame of the interrupt, `vs`, and that of the stub: the
word `i` lies `i + 1` words below the stack pointer of `b`. -/
theorem irq0_read {b u : Cpu ι} {ret : Word} (hm : u.mem = (b.pushes S vs).mem)
    (he : u.reg .esp = b.reg .esp + down vs.length) (hc : u.cr3 = b.cr3) (hlen : vs.length ≤ 5)
    {i : Nat} {c v : Word} (hd : down (vs.length + 10) + c = down (i + 1))
    (hi : (vs ++ stubFrame u ret)[i]? = some v) :
    load S (run S alu u (irq0 ret)).mem (run S alu u (irq0 ret)).cr3
      ((run S alu u (irq0 ret)).reg .esp + 4 + c) = v := by
  obtain ⟨hcr3, hesp, hmem⟩ := irq0_spec S alu u ret
  have hup : down 11 + 4 = down 10 := by decide
  have hmem' : (u.pushes S (stubFrame u ret)).mem = (b.pushes S (vs ++ stubFrame u ret)).mem := by
    rw [Cpu.pushes_append]
    exact Cpu.pushes_mem_congr hm (by rw [he, Cpu.pushes_esp]) (by rw [hc, Cpu.pushes_cr3])
  rw [hmem, hmem', hcr3, hc, hesp, he, add_assoc _ (down 11), hup, add_assoc _ _ (down 10),
    down_add]
  apply Cpu.pushes_read_up _ hd hi
  rw [List.length_append]
  have h11 : (stubFrame u ret).length = 11 := rfl
  omega

/-- The words that the processor pushes at every interrupt. -/
def trapFrame (s : Cpu ι) : List Word := [s.eflags, s.cs, s.eip]

/-- The registers that `irq_handler` finds, but for the stack pointer. -/
structure Found (s : Cpu ι) (regs : Registers) : Prop where
  edi : regs.edi = s.reg .edi
  esi : regs.esi = s.reg .esi
  ebp : regs.ebp = s.reg .ebp
  ebx : regs.ebx = s.reg .ebx
  edx : regs.edx = s.reg .edx
  ecx : regs.ecx = s.reg .ecx
  eax : regs.eax = s.reg .eax
  eip : regs.eip = s.eip
  cs : regs.cs = s.cs
  eflags : regs.eflags = s.eflags

theorem irq0_found {s b u : Cpu ι} (ret : Word) (hm : u.mem = (b.pushes S (vs ++ trapFrame s)).mem)
    (he : u.reg .esp = b.reg .esp + down (vs ++ trapFrame s).length) (hc : u.cr3 = b.cr3)
    (hr : ∀ r, r ≠ .esp → u.reg r = s.reg r) (hlen : vs.length ≤ 2) {t : Cpu ι}
    (ht : run S alu u (irq0 ret) = t) : Found s (Registers.at S t.mem t.cr3 (t.reg .esp + 4)) ∧
      (Registers.at S t.mem t.cr3 (t.reg .esp + 4)).esp = u.reg .esp + down 2 := by
  have hn : (vs ++ trapFrame s).length = vs.length + 3 := by simp [trapFrame]
  -- the words before the flags move both the frame and the place in the list
  have hread : ∀ (i : Nat) (c v : Word), down 13 + c = down (i + 1) →
      (trapFrame s ++ stubFrame u ret)[i]? = some v →
      load S t.mem t.cr3 (t.reg .esp + 4 + c) = v := by
    intro i c v hd hi
    rw [← ht]
    apply irq0_read S alu hm he hc (by omega) (i := vs.length + i)
    · rw [hn, Nat.add_assoc, ← down_add vs.length, add_assoc, hd, down_add, Nat.add_assoc]
    · rw [List.append_assoc, List.getElem?_append_right (Nat.le_add_right _ _),
        Nat.add_sub_cancel_left]
      exact hi
  have hedi := hread 12 0 (u.reg .edi) (by decide) rfl
  rw [add_zero] at hedi
  constructor
  · constructor
    · exact hedi.trans (hr _ (by decide))
    · exact (hread 11 4 _ (by decide) rfl).trans (hr .esi (by decide))
    · exact (hread 10 8 _ (by decide) rfl).trans (hr .ebp (by decide))
    · exact (hread 8 16 _ (by decide) rfl).trans (hr .ebx (by decide))
    · exact (hread 7 20 _ (by decide) rfl).trans (hr .edx (by decide))
    · exact (hread 6 24 _ (by decide) rfl).trans (hr .ecx (by decide))
    · exact (hread 5 28 _ (by decide) rfl).trans (hr .eax (by decide))
    · exact hread 2 40 _ (by decide) rfl
    · exact hread 1 44 _ (by decide) rfl
    · exact hread 0 48 _ (by decide) rfl
  · exact hread 9 12 _ (by decide) rfl

omit [DecidableEq ι] in
/-- Once `irq_handler` has corrected the stack pointer, the saved state is complete. -/
theorem Found.saves {s : Cpu ι} {regs : Registers} (F : Found s regs)
    (hesp : (irqHandler regs).esp = s.reg .esp) : Saves s (saveRegs (irqHandler regs)) where
  edi := F.edi
  esi := F.esi
  ebp := F.ebp
  ebx := F.ebx
  edx := F.edx
  ecx := F.ecx
  eax := F.eax
  esp := hesp
  eip := F.eip
  eflags := F.eflags

omit [DecidableEq ι] in
theorem Found.user {s : Cpu ι} {regs : Registers} (F : Found s regs) :
    saveUser (irqHandler regs) = decide (cpl s.cs ≠ 0) := by
  rw [cpl, ← F.cs]
  rfl

theorem captured_kernel (s : Cpu ι) (esp0 ret : Word) (h : cpl s.cs = 0) :
    Saves s (saveRegs (captured S alu s esp0 ret)) ∧
      saveUser (captured S alu s esp0 ret) = false := by
  have hu : interrupt S s 0x08 0x10 esp0 =
      ((s.pushes S (trapFrame s)).setCs 0x08).setFlags (s.eflags &&& ~~~ interruptFlag) := by
    simp [interrupt, h, trapFrame, Cpu.pushes]
  unfold captured
  generalize interrupt S s 0x08 0x10 esp0 = u at hu
  have hm : u.mem = (s.pushes S ([] ++ trapFrame s)).mem := by simp [hu]
  have he : u.reg .esp = s.reg .esp + down ([] ++ trapFrame s).length := by simp [hu]
  have hc : u.cr3 = s.cr3 := by simp [hu]
  have hr : ∀ r, r ≠ .esp → u.reg r = s.reg r := by
    intro r hr
    simp [hu, hr]
  generalize ht : run S alu u (irq0 ret) = t
  obtain ⟨F, hesp⟩ := irq0_found S alu ret hm he hc hr (by simp) ht
  have hcs : ¬ (s.cs &&& 3 ≠ 0) := not_not.mpr h
  refine ⟨F.saves ?_, F.user.trans (decide_eq_false (not_not.mpr h))⟩
  have h5 : down 3 + (down 2 + 5 * 4) = 0 := by decide
  simp only [irqHandler, F.cs, if_neg hcs, hesp, he]
  change s.reg .esp + down 3 + down 2 + 5 * 4 = s.reg .esp
  rw [add_assoc, add_assoc, h5, add_zero]

/-- At an interrupt of a user program the processor pushes the stack pointer itself. -/
theorem captured_user (s : Cpu ι) (esp0 ret : Word) (h : cpl s.cs ≠ 0) :
    Saves s (saveRegs (captured S alu s esp0 ret)) ∧
      saveUser (captured S alu s esp0 ret) = true := by
  let b := (s.setSs 0x10).set .esp esp0
  have hu : interrupt S s 0x08 0x10 esp0 =
      ((b.pushes S ([s.ss, s.reg .esp] ++ trapFrame s)).setCs 0x08).setFlags
        (s.eflags &&& ~~~ interruptFlag) := by
    unfold interrupt
    rw [if_neg h]
    rfl
  unfold captured
  generalize interrupt S s 0x08 0x10 esp0 = u at hu
  have hm : u.mem = (b.pushes S ([s.ss, s.reg .esp] ++ trapFrame s)).mem := by simp [hu]
  have he : u.reg .esp = b.reg .esp + down ([s.ss, s.reg .esp] ++ trapFrame s).length := by
    simp [hu]
  have hc : u.cr3 = b.cr3 := by simp [hu]
  have hr : ∀ r, r ≠ .esp → u.reg r = s.reg r := by
    intro r hr
    simp [hu, hr, b]
  generalize ht : run S alu u (irq0 ret) = t
  obtain ⟨F, -⟩ := irq0_found S alu ret hm he hc hr (by simp) ht
  have hcs : s.cs &&& 3 ≠ 0 := h
  refine ⟨F.saves ?_, F.user.trans (decide_eq_true h)⟩
  simp only [irqHandler, F.cs, if_pos hcs]
  rw [← ht]
  exact irq0_read S alu hm he hc (by simp [trapFrame]) (i := 1) (c := 52)
    (by simp [trapFrame, down]) rfl

end Capture

/-! ## What the switch restores -/

section Restore

variable {ι : Type} [DecidableEq ι] (S : Space ι) (alu : Word → Word → Word → Word)

/-- The entry of `switch_proc(dir, state)` or `switch_proc_user(dir, state)`. -/
structure Called (c : Cpu ι) (dir : Word) (st : ProcState) : Prop where
  dir : load S c.mem c.cr3 (c.reg .esp + 4) = dir
  state : ProcState.at S c.mem c.cr3 (c.reg .esp + 8) = st
  kernel : cpl c.cs = 0

/-- The arguments lie at the same place in the new page directory. -/
def SameStack (c : Cpu ι) (dir : Word) : Prop :=
  ∀ k : Word, k < 48 → S.place dir (c.reg .esp + k) = S.place c.cr3 (c.reg .esp + k)

variable {S} {c w v : Cpu ι} {dir : Word} {st : ProcState}

omit [DecidableEq ι] in
/-- A word of the arguments, read in the new page directory. -/
theorem SameStack.load (h : SameStack S c dir) (m : ι → BitVec 8) (hk : k < 45) :
    X86.load S m dir (c.reg .esp + k) = X86.load S m c.cr3 (c.reg .esp + k) := by
  have hb : ∀ i : Word, i < 4 →
      S.place dir (c.reg .esp + k + i) = S.place c.cr3 (c.reg .esp + k + i) := by
    intro i hi
    rw [add_assoc]
    apply h
    bv_omega
  have h0 := hb 0 (by decide)
  rw [add_zero] at h0
  simp only [X86.load, h0, hb 1 (by decide), hb 2 (by decide), hb 3 (by decide)]

omit [DecidableEq ι] in
/-- The words of the saved state that the code reads by their distance. -/
theorem Called.words (H : Called S c dir st) : load S c.mem c.cr3 (c.reg .esp + 8) = st.eflags ∧
    load S c.mem c.cr3 (c.reg .esp + 12) = st.eip ∧ load S c.mem c.cr3 (c.reg .esp + 28) = st.esp ∧
    load S c.mem c.cr3 (c.reg .esp + 40) = st.ecx ∧
    load S c.mem c.cr3 (c.reg .esp + 44) = st.eax := by
  have hst := H.state
  simp only [ProcState.at, add_assoc] at hst
  subst hst
  exact ⟨rfl, rfl, rfl, rfl, rfl⟩

/-- The registers that `popa` has restored. -/
structure Popped (c w : Cpu ι) (st : ProcState) : Prop where
  mem : w.mem = c.mem
  cr3 : w.cr3 = c.cr3
  cs : w.cs = c.cs
  esp : w.reg .esp = c.reg .esp + 48
  edi : w.reg .edi = st.edi
  esi : w.reg .esi = st.esi
  ebp : w.reg .ebp = st.ebp
  ebx : w.reg .ebx = st.ebx
  edx : w.reg .edx = st.edx
  ecx : w.reg .ecx = st.ecx
  eax : w.reg .eax = st.eax

theorem Called.popped (H : Called S c dir st) :
    Popped c (run S alu c [.cli, .addImm .esp 16, .popa]) st := by
  have hst := H.state
  simp only [ProcState.at, add_assoc] at hst
  subst hst
  simp only [run, List.foldl, exec_popa]
  constructor <;> simp [exec, popped, Cpu.read, add_assoc]

/-- The code goes on where the saved state says, with its registers. -/
structure Resumes (t : Cpu ι) (st : ProcState) : Prop where
  edi : t.reg .edi = st.edi
  esi : t.reg .esi = st.esi
  ebp : t.reg .ebp = st.ebp
  ebx : t.reg .ebx = st.ebx
  edx : t.reg .edx = st.edx
  ecx : t.reg .ecx = st.ecx
  eax : t.reg .eax = st.eax
  esp : t.reg .esp = st.esp
  eip : t.eip = st.eip
  eflags : t.eflags = st.eflags

/-- Load a word from below the stack to `eax` and push it. -/
theorem load_push {a off : Word} (n j : Nat) (hn : vs.length = n)
    (hd : down n + off = down j) (hj : n < j) (hlt : j < 2 ^ 30) :
    run S alu ((w.pushes S vs).set .eax a) [.load .eax .esp off, .push .eax] =
      (w.pushes S (vs ++ [load S w.mem w.cr3 (w.reg .esp + down j)])).set .eax
        (load S w.mem w.cr3 (w.reg .esp + down j)) := by
  have hread : load S (w.pushes S vs).mem w.cr3 (w.reg .esp + down vs.length + off) =
      load S w.mem w.cr3 (w.reg .esp + down j) := by
    rw [add_assoc, hn, hd]
    exact Cpu.pushes_read_below (by omega) hlt
  rw [Cpu.pushes_concat]
  simp [run, exec, Cpu.read, Cpu.push, Cpu.write, hread, Cpu.set, Cpu.setMem,
    update_comm]

/-- The frame that `switch_proc_user` builds for `iret`, below the saved `eax`. -/
def userFrame (st : ProcState) : List Word := [st.eax, 0x23, st.esp, st.eflags, 0x1b, st.eip]

omit [DecidableEq ι] in
/-- A word of the arguments, from the stack pointer behind them. -/
theorem Popped.arg (W : Popped c w st) {j : Nat} (hk : 48 + down j = k) :
    load S w.mem w.cr3 (w.reg .esp + down j) = load S c.mem c.cr3 (c.reg .esp + k) := by
  rw [W.mem, W.cr3, W.esp, add_assoc, hk]

/-- The part of `switch_proc_user` that pushes the frame for `iret`. -/
def pushUserFrame : List Instr :=
  ([.push .eax, .pushImm 0x23] : List Instr) ++
    ([.load .eax .esp (-12), .push .eax] : List Instr) ++
    ([.load .eax .esp (-28), .push .eax] : List Instr) ++ ([.pushImm 0x1b] : List Instr) ++
    ([.load .eax .esp (-16), .push .eax] : List Instr)

theorem Popped.userFrame (H : Called S c dir st) (W : Popped c w st) :
    run S alu w pushUserFrame = (w.pushes S (userFrame st)).set .eax st.eip := by
  obtain ⟨heflags, heip, hesp, -, -⟩ := H.words
  rw [← W.arg (by decide : 48 + down 10 = 8)] at heflags
  rw [← W.arg (by decide : 48 + down 9 = 12)] at heip
  rw [← W.arg (by decide : 48 + down 5 = 28)] at hesp
  have h1 : run S alu w [.push .eax, .pushImm 0x23] =
      (w.pushes S [st.eax, 0x23]).set .eax st.eax := by
    rw [← W.eax]
    simp [run, exec, Cpu.pushes, Cpu.push, Cpu.write, Cpu.set, Cpu.setMem]
  have h4 : ∀ (vs : List Word) (a : Word),
      run S alu ((w.pushes S vs).set .eax a) [.pushImm 0x1b] =
        (w.pushes S (vs ++ [0x1b])).set .eax a := by
    intro vs a
    rw [Cpu.pushes_concat]
    simp [run, exec, Cpu.push, Cpu.write, Cpu.set, Cpu.setMem, update_comm]
  simp only [pushUserFrame, run_append]
  rw [h1, load_push alu 2 5 rfl (by decide) (by decide) (by decide), hesp,
    load_push alu 3 10 rfl (by decide) (by decide) (by decide), heflags, h4,
    load_push alu 5 9 rfl (by decide) (by decide) (by decide), heip]
  rfl

/-- The end of `switch_proc_user`: the new page directory, the data segments and the saved
`eax` are loaded. -/
def reloadAndReturn (off off' : Word) : List Instr :=
  ([.load .eax .esp off, .movCr3 .eax] : List Instr) ++ setUserDatasegs ++
    ([.load .eax .esp off', .iret] : List Instr)

theorem reload_iret (y : Cpu ι) (off off' : Word) : ∃ d, run S alu y (reloadAndReturn off off') =
      exec S alu (((y.setCr3 (y.read S (y.reg .esp + off))).setDs d).set .eax
        (load S y.mem (y.read S (y.reg .esp + off)) (y.reg .esp + off'))) .iret := by
  refine ⟨low16 (y.read S (y.reg .esp + off)) 0x23 &&& 0xffff, ?_⟩
  simp only [run, reloadAndReturn, setUserDatasegs, List.cons_append, List.nil_append, List.foldl]
  congr 1
  simp [exec, Cpu.read, Cpu.set, Cpu.setDs, Cpu.setCr3]

/-- `switch_proc_user` resumes the saved state. -/
theorem switchProcUser_resumes (H : Called S c dir st) (hs : SameStack S c dir) :
    Resumes (run S alu c switchProcUser) st := by
  have W := H.popped alu
  have hrun : run S alu c switchProcUser = run S alu
      (run S alu (run S alu c [.cli, .addImm .esp 16, .popa]) pushUserFrame)
      (reloadAndReturn (-20) 20) := by
    rw [← run_append, ← run_append]
    rfl
  rw [hrun, W.userFrame alu H]
  generalize run S alu c [.cli, .addImm .esp 16, .popa] = w at W
  -- the frame is read back in the new page directory
  have hread : ∀ (i : Nat) (k v : Word), down 6 + k = down (i + 1) →
      (userFrame st)[i]? = some v → 24 + k < (45 : Word) →
      load S (w.pushes S (userFrame st)).mem dir (w.reg .esp + down 6 + k) = v := by
    intro i k v hk hi hlt
    have hA : w.reg .esp + down 6 + k = c.reg .esp + (24 + k) := by
      have h24 : 48 + down 6 = 24 := by decide
      rw [W.esp, add_assoc _ _ (down 6), h24, add_assoc]
    rw [hA, hs.load _ hlt, ← hA, ← W.cr3]
    exact Cpu.pushes_read_up (by simp [userFrame]) hk hi
  have hdir : load S (w.pushes S (userFrame st)).mem w.cr3 (w.reg .esp + down 6 + -20) = dir := by
    have h11 : down 6 + -20 = down 11 := by decide
    rw [add_assoc, h11, Cpu.pushes_read_below (by simp [userFrame]) (by decide),
      W.arg (by decide : 48 + down 11 = 4)]
    exact H.dir
  have hcs : cpl 0x1b ≠ cpl w.cs := by
    rw [W.cs, H.kernel]
    decide
  have hlen : (userFrame st).length = 6 := rfl
  have heip := hread 5 0 st.eip (by decide) rfl (by decide)
  rw [add_zero] at heip
  have heflags := hread 3 8 st.eflags (by decide) rfl (by decide)
  have hesp := hread 2 12 st.esp (by decide) rfl (by decide)
  have heax := hread 0 20 st.eax (by decide) rfl (by decide)
  have hcs' := hread 4 4 0x1b (by decide) rfl (by decide)
  obtain ⟨d, htail⟩ := reload_iret alu ((w.pushes S (userFrame st)).set .eax st.eip) (-20) 20
  simp only [Cpu.read, Cpu.set_mem, Cpu.set_cr3, Cpu.set_reg, Cpu.pushes_cr3,
    update_of_ne (show Reg.esp ≠ .eax by decide), Cpu.pushes_esp] at htail
  rw [hlen, hdir, heax] at htail
  rw [htail]
  generalize hz : ((((w.pushes S (userFrame st)).set .eax st.eip).setCr3 dir).setDs d).set .eax
    st.eax = z
  have hzesp : z.reg .esp = w.reg .esp + down 6 := by simp [← hz, hlen]
  have hzread : ∀ a, z.read S a = load S (w.pushes S (userFrame st)).mem dir a := by
    intro a
    simp [← hz, Cpu.read]
  have hzcs : z.cs = w.cs := by simp [← hz]
  have hzreg : ∀ r, r ≠ .esp → r ≠ .eax → z.reg r = w.reg r := by
    intro r hr hr'
    simp [← hz, hr, hr']
  have hzeax : z.reg .eax = st.eax := by simp [← hz]
  have hout : cpl (z.read S (z.reg .esp + 4)) ≠ cpl z.cs := by
    rw [hzread, hzesp, hcs', hzcs]
    exact hcs
  obtain ⟨hreg, hip, hfl⟩ := exec_iret_outer S alu hout
  rw [hzread, hzesp] at hreg hip hfl
  rw [hesp] at hreg
  constructor
  · simp [hreg, hzreg, W.edi]
  · simp [hreg, hzreg, W.esi]
  · simp [hreg, hzreg, W.ebp]
  · simp [hreg, hzreg, W.ebx]
  · simp [hreg, hzreg, W.edx]
  · simp [hreg, hzreg, W.ecx]
  · simp [hreg, hzeax]
  · simp [hreg]
  · exact hip.trans heip
  · exact hfl.trans heflags

/-- The two words below the saved stack pointer, which `switch_proc` uses, lie apart from its
arguments. -/
def Room (c : Cpu ι) (esp : Word) : Prop :=
  ∀ j k : Word, j < 8 → k < 48 → esp + -8 + j ≠ c.reg .esp + k

omit [DecidableEq ι] in
theorem Room.apart {e : Word} (h : Room c e) {d j : Word} (hj : j < 5) (hk : k < 45) :
    Apart S d (e + -8 + j) d (c.reg .esp + k) := by
  intro a b ha hb heq
  have hne := h (j + a) (k + b) (by bv_omega) (by bv_omega)
  apply hne
  rw [← add_assoc, ← add_assoc]
  exact S.inj d heq

/-- The arguments stay while two words are pushed to the new stack. -/
theorem Room.pushes (h : Room c (v.reg .esp)) (hvs : vs.length ≤ 2) (hk : k < 45) :
    load S (v.pushes S vs).mem v.cr3 (c.reg .esp + k) = load S v.mem v.cr3 (c.reg .esp + k) := by
  apply Cpu.pushes_read_apart
  intro i hi
  have hdown : ∃ j : Word, j < 5 ∧ down (i + 1) = -8 + j := by
    obtain rfl | rfl : i = 0 ∨ i = 1 := by omega
    · exact ⟨4, by decide, by decide⟩
    · exact ⟨0, by decide, by decide⟩
  obtain ⟨j, hj, hdown⟩ := hdown
  rw [hdown, ← add_assoc]
  exact h.apart hj hk

/-- Load a word by `ecx` to `eax` and push it. -/
theorem load_push_ecx {z o x : Word} (hx : load S (v.pushes S vs).mem v.cr3 (v.reg .ecx + o) = x) :
    run S alu ((v.pushes S vs).set .eax z) [.load .eax .ecx o, .push .eax] =
      (v.pushes S (vs ++ [x])).set .eax x := by
  rw [Cpu.pushes_concat]
  simp [run, exec, Cpu.read, hx, Cpu.push, Cpu.write, Cpu.set, Cpu.setMem, update_comm]

/-- The end of `switch_proc`: the instruction pointer and the flags go over the new stack. -/
def popAndReturn (o o' p q : Word) : List Instr :=
  ([.load .eax .ecx o, .push .eax] : List Instr) ++
    ([.load .eax .ecx o', .push .eax] : List Instr) ++
    ([.load .eax .ecx p, .load .ecx .ecx q] : List Instr) ++ ([.popf, .ret] : List Instr)

theorem pop_ret {o o' p q x f a : Word} (hx : load S v.mem v.cr3 (v.reg .ecx + o) = x)
    (hf : load S (v.pushes S [x]).mem v.cr3 (v.reg .ecx + o') = f)
    (ha : load S (v.pushes S [x, f]).mem v.cr3 (v.reg .ecx + p) = a)
    (hk : load S (v.pushes S [x, f]).mem v.cr3 (v.reg .ecx + q) = k) {t : Cpu ι}
    (ht : run S alu v (popAndReturn o o' p q) = t) :
    t.reg = update (update v.reg .eax a) .ecx k ∧ t.eip = x ∧
      t.eflags = f &&& ~~~ systemFlags := by
  have hv : v = (v.pushes S []).set .eax (v.reg .eax) := by
    simp [Cpu.pushes, Cpu.set]
  have hload : run S alu ((v.pushes S [x, f]).set .eax f) [.load .eax .ecx p, .load .ecx .ecx q] =
      ((v.pushes S [x, f]).set .eax a).set .ecx k := by
    simp [run, exec, Cpu.read, ha, hk, Cpu.set]
  have htop : load S (v.pushes S [x, f]).mem v.cr3 (v.reg .esp + down 2) = f :=
    Cpu.pushes_read (by simp) rfl
  have hnext : load S (v.pushes S [x, f]).mem v.cr3 (v.reg .esp + down 2 + 4) = x :=
    Cpu.pushes_read_up (by simp) (by decide) (i := 0) rfl
  have hback : v.reg .esp + down 2 + 4 + 4 = v.reg .esp := by
    have h0 : down 2 + (4 + 4) = 0 := by decide
    rw [add_assoc, add_assoc, h0, add_zero]
  have hlast : ∀ y : Cpu ι, run S alu y [.popf, .ret] =
      (((y.setFlags (y.read S (y.reg .esp) &&& ~~~ systemFlags)).set .esp (y.reg .esp + 4)).jump
        (y.read S (y.reg .esp + 4))).set .esp (y.reg .esp + 4 + 4) := by
    intro y
    simp [run, exec, Cpu.read, Cpu.set, Cpu.setFlags, Cpu.jump]
  have h1 : run S alu v [.load .eax .ecx o, .push .eax] = (v.pushes S [x]).set .eax x := by
    have hx' : load S (v.pushes S []).mem v.cr3 (v.reg .ecx + o) = x := hx
    have hpush := load_push_ecx alu (z := v.reg .eax) hx'
    rwa [← hv] at hpush
  have h2 : run S alu ((v.pushes S [x]).set .eax x) [.load .eax .ecx o', .push .eax] =
      (v.pushes S [x, f]).set .eax f := load_push_ecx alu hf
  rw [popAndReturn, run_append, run_append, run_append, h1, h2, hload, hlast] at ht
  generalize hy : ((v.pushes S [x, f]).set .eax a).set .ecx k = y at ht
  have hesp : y.reg .esp = v.reg .esp + down 2 := by simp [← hy]
  have hread : ∀ b, y.read S b = load S (v.pushes S [x, f]).mem v.cr3 b := by
    intro b
    simp [← hy, Cpu.read]
  rw [hesp, hread, hread, htop, hnext, hback] at ht
  subst ht
  refine ⟨?_, by simp, by simp⟩
  funext r
  cases r <;> simp [← hy]

/-- `switch_proc` resumes the saved state, but for the flags that `popf` does not load. -/
theorem switchProc_resumes (H : Called S c dir st) (hs : SameStack S c dir)
    (hroom : Room c st.esp) : Resumes (run S alu c switchProc)
      { st with eflags := st.eflags &&& ~~~ systemFlags } := by
  have W := H.popped alu
  have hrun : run S alu c switchProc = run S alu
      (run S alu (run S alu c [.cli, .addImm .esp 16, .popa])
        [.load .eax .esp (-44), .movCr3 .eax, .mov .ecx .esp, .load .esp .esp (-20)])
      (popAndReturn (-36) (-40) (-4) (-8)) := by
    rw [← run_append, ← run_append]
    rfl
  rw [hrun]
  generalize run S alu c [.cli, .addImm .esp 16, .popa] = w at W
  have hnew : ∀ (w : Cpu ι) (o o' : Word), run S alu w
      [.load .eax .esp o, .movCr3 .eax, .mov .ecx .esp, .load .esp .esp o'] =
      (((w.set .eax (w.read S (w.reg .esp + o))).setCr3 (w.read S (w.reg .esp + o))).set .ecx
        (w.reg .esp)).set .esp
          (load S w.mem (w.read S (w.reg .esp + o)) (w.reg .esp + o')) := by
    intro w o o'
    simp [run, exec, Cpu.read, Cpu.set, Cpu.setCr3]
  obtain ⟨heflags, heip, hesp, hecx, heax⟩ := H.words
  have hdir : w.read S (w.reg .esp + -44) = dir := by
    have h4 : 48 + -44 = (4 : Word) := by decide
    rw [Cpu.read, W.mem, W.cr3, W.esp, add_assoc, h4]
    exact H.dir
  have hsp : load S w.mem dir (w.reg .esp + -20) = st.esp := by
    have h28 : 48 + -20 = (28 : Word) := by decide
    rw [W.mem, W.esp, add_assoc, h28, hs.load _ (by decide), hesp]
  rw [hnew, hdir, hsp]
  generalize hv : (((w.set .eax dir).setCr3 dir).set .ecx (w.reg .esp)).set .esp st.esp = v
  have hvesp : v.reg .esp = st.esp := by simp [← hv]
  rw [← hvesp] at hroom
  have hvcr3 : v.cr3 = dir := by simp [← hv]
  have hvecx : v.reg .ecx = w.reg .esp := by simp [← hv]
  have hvmem : v.mem = c.mem := by simp [← hv, W.mem]
  have hvreg : ∀ r, r ≠ .esp → r ≠ .eax → r ≠ .ecx → v.reg r = w.reg r := by
    intro r h1 h2 h3
    simp [← hv, h1, h2, h3]
  -- an argument is read in the new page directory, behind the words that were pushed
  have hread : ∀ (vs : List Word) (o k x : Word), vs.length ≤ 2 → 48 + o = k → k < 45 →
      load S c.mem c.cr3 (c.reg .esp + k) = x →
      load S (v.pushes S vs).mem v.cr3 (v.reg .ecx + o) = x := by
    intro vs o k x hvs ho hk hx
    rw [hvecx, W.esp, add_assoc, ho, Room.pushes hroom hvs hk, hvmem, hvcr3, hs.load _ hk, hx]
  generalize ht : run S alu v _ = t
  obtain ⟨hreg, hip, hfl⟩ := pop_ret alu (v := v)
    (hread [] (-36) 12 _ (by decide) (by decide) (by decide) heip)
    (hread [_] (-40) 8 _ (by simp) (by decide) (by decide) heflags)
    (hread [_, _] (-4) 44 _ (by simp) (by decide) (by decide) heax)
    (hread [_, _] (-8) 40 _ (by simp) (by decide) (by decide) hecx) ht
  constructor
  · simp [hreg, hvreg, W.edi]
  · simp [hreg, hvreg, W.esi]
  · simp [hreg, hvreg, W.ebp]
  · simp [hreg, hvreg, W.ebx]
  · simp [hreg, hvreg, W.edx]
  · simp [hreg]
  · simp [hreg]
  · simp [hreg, hvesp]
  · exact hip
  · exact hfl

end Restore

/-! ## `__schedule` -/

section Call

variable {ι : Type} [DecidableEq ι] {S : Space ι} (alu : Word → Word → Word → Word)

/-- The words of the stack that the call uses lie apart from the `proc_state` at `p`. -/
def Clear (s : Cpu ι) (p : Word) : Prop :=
  ∀ j k : Word, j < 40 → k < 16 → p + j ≠ s.reg .esp + -8 + k

variable {s : Cpu ι} {p : Word}

omit [DecidableEq ι] in
theorem Clear.apart (h : Clear s p) {d j : Word} (hj : j < 37) (hk : k < 13) :
    Apart S d (p + j) d (s.reg .esp + -8 + k) := by
  intro a b ha hb heq
  have hne := h (j + a) (k + b) (by bv_omega) (by bv_omega)
  apply hne
  rw [← add_assoc, ← add_assoc]
  exact S.inj d heq

/-- What `save_state_no_eip_esp` leaves before it returns: the state at `p`, and the
registers but for `eax`. -/
structure Saved (S : Space ι) (a t : Cpu ι) (p : Word) : Prop where
  reg : ∀ r, r ≠ .eax → t.reg r = a.reg r
  cr3 : t.cr3 = a.cr3
  other : ∀ x, (∀ j : Word, j < 37 → Apart S a.cr3 (p + j) a.cr3 x) →
    load S t.mem a.cr3 x = load S a.mem a.cr3 x
  edi : load S t.mem a.cr3 (p + 8) = a.reg .edi
  esi : load S t.mem a.cr3 (p + 12) = a.reg .esi
  ebp : load S t.mem a.cr3 (p + 16) = a.reg .ebp
  ebx : load S t.mem a.cr3 (p + 24) = a.reg .ebx

/-- The stack pointer goes to the saved state, and `eax` keeps the old one. -/
theorem save_enter (a : Cpu ι) (o v : Word) : ∃ f,
    run S alu a [.mov .eax .esp, .load .esp .esp o, .addImm .esp v] =
      ((a.set .eax (a.reg .esp)).setFlags f).set .esp
        (load S a.mem a.cr3 (a.reg .esp + o) + v) := by
  refine ⟨alu a.eflags (load S a.mem a.cr3 (a.reg .esp + o)) v, ?_⟩
  simp [run, exec, Cpu.read, Cpu.set, Cpu.setFlags]

/-- The flags are pushed, and the stack pointer comes back. -/
theorem save_leave (y : Cpu ι) (v : Word) : ∃ f,
    run S alu y [.addImm .esp v, .pushf, .mov .esp .eax] =
      ((y.setFlags f).setMem (store S y.mem y.cr3 (y.reg .esp + v + -4) f)).set .esp
        (y.reg .eax) := by
  refine ⟨alu y.eflags (y.reg .esp) v, ?_⟩
  simp [run, exec, Cpu.push, Cpu.write, Cpu.set, Cpu.setFlags, Cpu.setMem]

/-- `save_state_no_eip_esp`, up to its return. -/
def saveStatePushes : List Instr :=
  ([.mov .eax .esp, .load .esp .esp 4, .addImm .esp 40] : List Instr) ++ ([.pusha] : List Instr) ++
    ([.addImm .esp (-4), .pushf, .mov .esp .eax] : List Instr)

theorem saveState_spec {a : Cpu ι} (hp : load S a.mem a.cr3 (a.reg .esp + 4) = p) :
    Saved S a (run S alu a saveStatePushes) p := by
  obtain ⟨f, henter⟩ := save_enter (S := S) alu a 4 40
  rw [saveStatePushes, run_append, run_append, henter, hp]
  generalize hb : ((a.set .eax (a.reg .esp)).setFlags f).set .esp (p + 40) = b
  have hbesp : b.reg .esp = p + 40 := by simp [← hb]
  have hbeax : b.reg .eax = a.reg .esp := by simp [← hb]
  have hbcr3 : b.cr3 = a.cr3 := by simp [← hb]
  have hbmem : b.mem = a.mem := by simp [← hb]
  have hbreg : ∀ r, r ≠ .eax → r ≠ .esp → b.reg r = a.reg r := by
    intro r h1 h2
    simp [← hb, h1, h2]
  have hpusha : run S alu b [.pusha] = b.pushes S [b.reg .eax, b.reg .ecx, b.reg .edx, b.reg .ebx,
      b.reg .esp, b.reg .ebp, b.reg .esi, b.reg .edi] := exec_pusha S alu b
  rw [hpusha]
  generalize hvs : [b.reg .eax, b.reg .ecx, b.reg .edx, b.reg .ebx, b.reg .esp, b.reg .ebp,
    b.reg .esi, b.reg .edi] = vs
  have hlen : vs.length = 8 := by rw [← hvs]; rfl
  obtain ⟨g, hleave⟩ := save_leave alu (b.pushes S vs) (-4)
  have hflags : (b.pushes S vs).reg .esp + -4 + -4 = p := by
    have hdown : 40 + (down 8 + (-4 + -4)) = 0 := by decide
    rw [Cpu.pushes_esp, hbesp, hlen, add_assoc, add_assoc, add_assoc, hdown, add_zero]
  rw [hleave, hflags]
  -- a word of the frame of `pusha`, under the flags
  have hpushed : ∀ (i : Nat) (o v : Word), 40 + down (i + 1) = o → far 0 o = true →
      vs[i]? = some v →
      load S (store S (b.pushes S vs).mem (b.pushes S vs).cr3 p g) a.cr3 (p + o) = v := by
    intro i o v ho hfar hv
    have hread := Cpu.pushes_read (S := S) (s := b) (by omega) hv
    rw [hbesp, add_assoc, ho, hbcr3] at hread
    have hapart := apart_of_far (S := S) (d := a.cr3) (a := p) hfar
    rw [add_zero] at hapart
    rw [Cpu.pushes_cr3, hbcr3, load_store_apart hapart, hread]
  constructor
  · intro r hr
    by_cases h : r = .esp
    · simp [h, hbeax]
    · simp [h, hbreg r hr h]
  · simp [hbcr3]
  · intro x hx
    have h0 := hx 0 (by decide)
    rw [add_zero] at h0
    have hkeep : load S (b.pushes S vs).mem b.cr3 x = load S b.mem b.cr3 x := by
      apply Cpu.pushes_read_apart
      intro i hi
      have hlow : ∀ i < 8, 40 + down (i + 1) < 37 := by decide
      rw [hbcr3, hbesp, add_assoc]
      exact hx _ (hlow i (by omega))
    rw [hbcr3, hbmem] at hkeep
    simp only [Cpu.set_mem, Cpu.setMem_mem]
    rw [Cpu.pushes_cr3, hbcr3, load_store_apart h0, hkeep]
  · exact hpushed 7 8 _ (by decide) (by decide) (by simp [← hvs, hbreg])
  · exact hpushed 6 12 _ (by decide) (by decide) (by simp [← hvs, hbreg])
  · exact hpushed 5 16 _ (by decide) (by decide) (by simp [← hvs, hbreg])
  · exact hpushed 3 24 _ (by decide) (by decide) (by simp [← hvs, hbreg])

/-- What `__schedule` leaves in the state of the process: the caller goes on at `r`, with the
argument still on its stack. -/
structure Yields (s : Cpu ι) (r : Word) (st : ProcState) : Prop where
  edi : st.edi = s.reg .edi
  esi : st.esi = s.reg .esi
  ebp : st.ebp = s.reg .ebp
  ebx : st.ebx = s.reg .ebx
  esp : st.esp = s.reg .esp + 4
  eip : st.eip = r

/-- After the return of `save_state_no_eip_esp`. -/
theorem save_rest (y : Cpu ι) (o o' v v' : Word) {x e : Word} (hx : y.read S (y.reg .esp + 4) = x)
    (he : y.reg .esp + 4 + 4 = e) {t : Cpu ι}
    (ht : run S alu y [.ret, .pop .ecx, .load .eax .esp o, .store .ecx v .eax, .lea .eax .esp o',
      .store .ecx v' .eax] = t) :
    t.cr3 = y.cr3 ∧ t.mem = store S (store S y.mem y.cr3 (x + v) (load S y.mem y.cr3 (e + o)))
      y.cr3 (x + v') (e + o') := by
  subst hx he ht
  simp [run, exec, Cpu.pop, Cpu.read, Cpu.write]

/-- At the entry of `save_state_no_eip_esp`: its argument, and above it the return address
of the caller. -/
structure Entered (S : Space ι) (s a : Cpu ι) (p r : Word) : Prop where
  cr3 : a.cr3 = s.cr3
  esp : a.reg .esp = s.reg .esp + -8
  reg : ∀ q, q ≠ .ecx → q ≠ .esp → a.reg q = s.reg q
  arg : load S a.mem s.cr3 (s.reg .esp + -8 + 4) = p
  back : load S a.mem s.cr3 (s.reg .esp + -8 + 8) = r

theorem scheduleSave_enters {r : Word} (ret : Word) (hr : load S s.mem s.cr3 (s.reg .esp) = r)
    (hp : load S s.mem s.cr3 (s.reg .esp + 4) = p) :
    Entered S s (run S alu s [.load .ecx .esp 4, .push .ecx, .call ret]) p r := by
  have hcall : ∀ o, run S alu s [.load .ecx .esp o, .push .ecx, .call ret] =
      (s.set .ecx (load S s.mem s.cr3 (s.reg .esp + o))).pushes S
        [load S s.mem s.cr3 (s.reg .esp + o), ret] := by
    intro o
    simp [run, exec, Cpu.read, Cpu.pushes]
  rw [hcall, hp]
  generalize hb : s.set .ecx p = b
  have hbesp : b.reg .esp = s.reg .esp := by simp [← hb]
  have hbcr3 : b.cr3 = s.cr3 := by simp [← hb]
  have hbmem : b.mem = s.mem := by simp [← hb]
  constructor
  · rw [Cpu.pushes_cr3, hbcr3]
  · rw [Cpu.pushes_esp, hbesp]
    rfl
  · intro q hq hq'
    rw [Cpu.pushes_reg hq', ← hb]
    simp [hq]
  · have hread : load S (b.pushes S [p, ret]).mem b.cr3 (b.reg .esp + down 2 + 4) = p :=
      Cpu.pushes_read_up (by simp) (by decide) (i := 0) rfl
    rw [hbcr3, hbesp] at hread
    exact hread
  · have h8 : -8 + 8 = (0 : Word) := by decide
    have hkeep : load S (b.pushes S [p, ret]).mem b.cr3 (b.reg .esp + 0) =
        load S b.mem b.cr3 (b.reg .esp + 0) := by
      apply Cpu.pushes_read_apart
      intro i hi
      have hfar : ∀ i < 2, far (down (i + 1)) 0 = true := by decide
      exact apart_of_far (hfar i hi)
    rw [hbcr3, hbesp, hbmem] at hkeep
    rw [add_assoc, h8, hkeep, add_zero, hr]

theorem scheduleSave_yields {r : Word} (ret : Word) (hr : load S s.mem s.cr3 (s.reg .esp) = r)
    (hp : load S s.mem s.cr3 (s.reg .esp + 4) = p) (hclear : Clear s p) {t : Cpu ι}
    (ht : run S alu s (scheduleSave ret) = t) : Yields s r (ProcState.at S t.mem t.cr3 p) := by
  have hrun : run S alu s (scheduleSave ret) = run S alu (run S alu
      (run S alu s [.load .ecx .esp 4, .push .ecx, .call ret]) saveStatePushes)
      [.ret, .pop .ecx, .load .eax .esp 0, .store .ecx 4 .eax, .lea .eax .esp 4,
        .store .ecx 20 .eax] := by
    rw [← run_append, ← run_append]
    rfl
  have E := scheduleSave_enters alu ret hr hp
  rw [hrun] at ht
  generalize run S alu s [.load .ecx .esp 4, .push .ecx, .call ret] = a at E ht
  have V := saveState_spec alu (a := a) (p := p) (by rw [E.cr3, E.esp, E.arg])
  generalize run S alu a _ = y at V ht
  have hkeep : ∀ k, k < 13 → load S y.mem a.cr3 (s.reg .esp + -8 + k) =
      load S a.mem a.cr3 (s.reg .esp + -8 + k) := by
    intro k hk
    apply V.other
    intro j hj
    exact hclear.apart hj hk
  have hyesp : y.reg .esp = s.reg .esp + -8 := by rw [V.reg _ (by decide), E.esp]
  have hx : y.read S (y.reg .esp + 4) = p := by
    rw [Cpu.read, V.cr3, hyesp, hkeep 4 (by decide), E.cr3, E.arg]
  have he : y.reg .esp + 4 + 4 = s.reg .esp + -8 + 8 := by
    have h8 : 4 + 4 = (8 : Word) := by decide
    rw [hyesp, add_assoc, h8]
  obtain ⟨hcr3, hmem⟩ := save_rest alu y 0 4 4 20 hx he ht
  rw [add_zero, V.cr3, hkeep 8 (by decide), E.cr3, E.back] at hmem
  rw [V.cr3, E.cr3] at hcr3
  have hfield : ∀ (k v : Word), far 20 k = true → far 4 k = true →
      load S y.mem a.cr3 (p + k) = v → load S t.mem t.cr3 (p + k) = v := by
    intro k v h20 h4 hv
    rw [E.cr3] at hv
    rw [hmem, hcr3, load_store_far h20, load_store_far h4, hv]
  constructor
  · exact hfield 8 _ (by decide) (by decide) (V.edi.trans (E.reg .edi (by decide) (by decide)))
  · exact hfield 12 _ (by decide) (by decide) (V.esi.trans (E.reg .esi (by decide) (by decide)))
  · exact hfield 16 _ (by decide) (by decide) (V.ebp.trans (E.reg .ebp (by decide) (by decide)))
  · exact hfield 24 _ (by decide) (by decide) (V.ebx.trans (E.reg .ebx (by decide) (by decide)))
  · have h4 : -8 + (8 + 4) = (4 : Word) := by decide
    simp only [ProcState.at]
    rw [hmem, hcr3, load_store_self, add_assoc, add_assoc, h4]
  · simp only [ProcState.at]
    rw [hmem, hcr3, load_store_far (by decide), load_store_self]

end Call

/-! ## The way out and back -/

section Whole

variable {ι : Type} [DecidableEq ι] {S : Space ι} (alu : Word → Word → Word → Word)

/-- The code goes on as if nothing had happened. -/
def Uninterrupted (s t : Cpu ι) : Prop := t.reg = s.reg ∧ t.eip = s.eip ∧ t.eflags = s.eflags

/-- `schedule` calls the switch on a stack that all page directories have at the same place,
or it stays in the page directory. -/
def StackShared (c : Cpu ι) (dir : Word) : Prop :=
  c.cr3 = dir ∨ ∀ k : Word, k < 48 → Shared (c.reg .esp + k)

omit [DecidableEq ι] in
theorem StackShared.same {c : Cpu ι} {dir : Word} (hS : Agree S) (h : StackShared c dir) :
    SameStack S c dir := by
  intro k hk
  obtain h | h := h
  · rw [h]
  · exact hS _ _ _ (h k hk)

/-- The switch that `schedule` takes back to a process. -/
def switchTo (user : Bool) : List Instr := if user then switchProcUser else switchProc

omit [DecidableEq ι] in
/-- What a saved state has and what the switch restores of it. -/
theorem Saves.uninterrupted {s t : Cpu ι} {st : ProcState} (h : Saves s st) (h' : Resumes t st) :
    Uninterrupted s t := by
  refine ⟨?_, h'.eip.trans h.eip, h'.eflags.trans h.eflags⟩
  funext r
  cases r with
  | eax => exact h'.eax.trans h.eax
  | ecx => exact h'.ecx.trans h.ecx
  | edx => exact h'.edx.trans h.edx
  | ebx => exact h'.ebx.trans h.ebx
  | esp => exact h'.esp.trans h.esp
  | ebp => exact h'.ebp.trans h.ebp
  | esi => exact h'.esi.trans h.esi
  | edi => exact h'.edi.trans h.edi

/-- An interrupted process goes on, back from the switch, as if nothing had happened, unless it is
kernel code with flags that `popf` does not restore. -/
theorem interrupt_uninterrupted (hS : Agree S) {s c : Cpu ι} {esp0 ret dir : Word}
    (H : Called S c dir (saveRegs (captured S alu s esp0 ret)))
    (hs : StackShared c dir) (hroom : cpl s.cs = 0 → Room c (s.reg .esp)) :
    Uninterrupted s (run S alu c (switchTo (saveUser (captured S alu s esp0 ret)))) ↔
      (cpl s.cs = 0 → s.eflags &&& systemFlags = 0) := by
  by_cases h : cpl s.cs = 0
  · obtain ⟨hsaves, huser⟩ := captured_kernel S alu s esp0 ret h
    replace hroom := hroom h
    rw [← hsaves.esp] at hroom
    have hresumes := switchProc_resumes alu H (hs.same hS) hroom
    rw [huser, ← hsaves.eflags, ← and_not_eq_iff]
    generalize saveRegs (captured S alu s esp0 ret) = st at *
    constructor
    · intro hun _
      exact hresumes.eflags.symm.trans (hun.2.2.trans hsaves.eflags.symm)
    · intro hflag
      rw [hflag h] at hresumes
      exact hsaves.uninterrupted hresumes
  · obtain ⟨hsaves, huser⟩ := captured_user S alu s esp0 ret h
    rw [huser]
    exact ⟨fun _ h' => absurd h' h,
      fun _ => hsaves.uninterrupted (switchProcUser_resumes alu H (hs.same hS))⟩

/-- A process that gave up the processor goes on behind its call. -/
theorem schedule_uninterrupted (hS : Agree S) {s c : Cpu ι} {ret dir p r : Word}
    (hr : s.read S (s.reg .esp) = r) (hp : s.read S (s.reg .esp + 4) = p)
    (hclear : Clear s p) {t : Cpu ι} (ht : run S alu s (scheduleSave ret) = t)
    (H : Called S c dir (ProcState.at S t.mem t.cr3 p))
    (hs : StackShared c dir) (hroom : Room c (s.reg .esp + 4)) {u : Cpu ι}
    (hu : run S alu c switchProc = u) :
    u.reg .ebx = s.reg .ebx ∧ u.reg .esi = s.reg .esi ∧ u.reg .edi = s.reg .edi ∧
      u.reg .ebp = s.reg .ebp ∧ u.reg .esp = s.reg .esp + 4 ∧ u.eip = r := by
  have Y := scheduleSave_yields alu ret hr hp hclear ht
  rw [← Y.esp] at hroom
  have hresumes := switchProc_resumes alu H (hs.same hS) hroom
  rw [hu] at hresumes
  exact ⟨hresumes.ebx.trans Y.ebx, hresumes.esi.trans Y.esi, hresumes.edi.trans Y.edi,
    hresumes.ebp.trans Y.ebp, hresumes.esp.trans Y.esp, hresumes.eip.trans Y.eip⟩

/-- Preemption and `__schedule` are transparent, where the switch has its arguments on a
stack that all page directories share and apart from the words that it writes; the flags of
kernel code come back exactly if `popf` loads them. -/
theorem preemption_transparent (hS : Agree S) (s : Cpu ι) (esp0 ret : Word) :
    (∀ (c : Cpu ι) (dir : Word),
      Called S c dir (saveRegs (captured S alu s esp0 ret)) →
      StackShared c dir → (cpl s.cs = 0 → Room c (s.reg .esp)) →
      (Uninterrupted s (run S alu c (switchTo (saveUser (captured S alu s esp0 ret)))) ↔
        (cpl s.cs = 0 → s.eflags &&& systemFlags = 0))) ∧
    ∀ (c t u : Cpu ι) (dir p r : Word), s.read S (s.reg .esp) = r →
      s.read S (s.reg .esp + 4) = p → Clear s p →
      run S alu s (scheduleSave ret) = t →
      Called S c dir (ProcState.at S t.mem t.cr3 p) →
      StackShared c dir → Room c (s.reg .esp + 4) → run S alu c switchProc = u →
      u.reg .ebx = s.reg .ebx ∧ u.reg .esi = s.reg .esi ∧ u.reg .edi = s.reg .edi ∧
        u.reg .ebp = s.reg .ebp ∧ u.reg .esp = s.reg .esp + 4 ∧ u.eip = r := by
  constructor
  · intro c dir H hs hroom
    exact interrupt_uninterrupted alu hS H hs hroom
  · intro c t u dir p r hr hp hclear ht H hs hroom hu
    exact schedule_uninterrupted alu hS hr hp hclear ht H hs hroom hu

end Whole

/-- The call of the switch by `schedule`: the state is passed by value. -/
def callSwitch (c : Machine) (dir : Word) (st : ProcState) (ret : Word) : Machine :=
  c.pushes kernelSpace [st.eax, st.ecx, st.edx, st.ebx, st.esp, st.ebp, st.esi, st.edi, st.eip,
    st.eflags, dir, ret]

theorem called_callSwitch {c : Machine} (hc : cpl c.cs = 0) (dir : Word) (st : ProcState)
    (ret : Word) : Called kernelSpace (callSwitch c dir st ret) dir st := by
  have hread : ∀ (i : Nat) (k v : Word), down 12 + k = down (i + 1) →
      [st.eax, st.ecx, st.edx, st.ebx, st.esp, st.ebp, st.esi, st.edi, st.eip, st.eflags, dir,
        ret][i]? = some v →
      load kernelSpace (callSwitch c dir st ret).mem (callSwitch c dir st ret).cr3
        ((callSwitch c dir st ret).reg .esp + k) = v := by
    intro i k v hk hi
    simp only [callSwitch, Cpu.pushes_cr3, Cpu.pushes_esp]
    exact Cpu.pushes_read_up (by simp) hk hi
  constructor
  · exact hread 10 4 _ (by decide) rfl
  · simp only [ProcState.at, add_assoc]
    rw [hread 9 8 st.eflags (by decide) rfl, hread 8 (8 + 4) st.eip (by decide) rfl,
      hread 7 (8 + 8) st.edi (by decide) rfl, hread 6 (8 + 12) st.esi (by decide) rfl,
      hread 5 (8 + 16) st.ebp (by decide) rfl, hread 4 (8 + 20) st.esp (by decide) rfl,
      hread 3 (8 + 24) st.ebx (by decide) rfl, hread 2 (8 + 28) st.edx (by decide) rfl,
      hread 1 (8 + 32) st.ecx (by decide) rfl, hread 0 (8 + 36) st.eax (by decide) rfl]
  · rw [callSwitch, Cpu.pushes_cs]
    exact hc

/-- A machine with empty memory. -/
def fresh (cs esp cr3 : Word) : Machine where
  reg := update (fun _ => 1) .esp esp
  eip := 0x08048000
  eflags := 0x202
  cs := cs
  ss := 0x23
  ds := 0x23
  cr3 := cr3
  mem := fun _ => 0

/-- The programs of the samples: one in user mode, one in the kernel on the stack of its
process, and one that has called `__schedule_switch_kstack_and_call_save`. -/
def sampleUser : Machine := fresh 0x1b 0xB0000000 0x2000

def sampleKernel : Machine := fresh 0x08 0xFFFFBF00 0x2000

def sampleCaller : Machine := sampleKernel.pushes kernelSpace [0xC0300000, 0xC0100040]

def sampleAlu (f _ _ : Word) : Word := f

def sampleSaved (s : Machine) : ProcState :=
  saveRegs (captured kernelSpace sampleAlu s 0xC0101000 0xC0100000)

def sampleYielded : ProcState :=
  let t := run kernelSpace sampleAlu sampleCaller (scheduleSave 0xC0100000)
  ProcState.at kernelSpace t.mem t.cr3 0xC0300000

/-- `schedule` calls the switch to `st` with its stack pointer at `esp`. -/
def sampleCall (st : ProcState) (esp : Word) : Machine :=
  callSwitch (fresh 0x08 esp 0x1000) 0x2000 st 0xC0100000

theorem sampleCall_esp (st : ProcState) (esp : Word) :
    (sampleCall st esp).reg .esp = esp + -48 := by
  have h12 : down 12 = -48 := by decide
  rw [sampleCall, callSwitch, Cpu.pushes_esp, ← h12]
  rfl

theorem sampleCall_shared (st : ProcState) : StackShared (sampleCall st 0xC0101000) 0x2000 := by
  right
  intro k hk
  rw [sampleCall_esp, Shared]
  bv_omega

theorem sampleCall_room (st : ProcState) {esp : Word} (h : 0xFFFFB000 ≤ esp) :
    Room (sampleCall st 0xC0101000) esp := by
  intro j k hj hk
  rw [sampleCall_esp]
  bv_omega

theorem sampleCaller_esp : sampleCaller.reg .esp = 0xFFFFBEF8 := by
  rw [sampleCaller, Cpu.pushes_esp]
  decide

theorem preemption_transparent_sample : Uninterrupted sampleUser (run kernelSpace sampleAlu
      (sampleCall (sampleSaved sampleUser) 0xC0101000)
      (switchTo (saveUser (captured kernelSpace sampleAlu sampleUser 0xC0101000 0xC0100000)))) ∧
    Uninterrupted sampleKernel (run kernelSpace sampleAlu
      (sampleCall (sampleSaved sampleKernel) 0xC0101000)
      (switchTo (saveUser (captured kernelSpace sampleAlu sampleKernel 0xC0101000 0xC0100000)))) ∧
    (run kernelSpace sampleAlu (sampleCall sampleYielded 0xC0101000) switchProc).eip =
      0xC0100040 := by
  refine ⟨?_, ?_, ?_⟩
  · apply ((preemption_transparent sampleAlu agree_kernelSpace sampleUser
      0xC0101000 0xC0100000).1 _ 0x2000 (called_callSwitch rfl _ _ _) (sampleCall_shared _) _).mpr
    · decide
    · exact fun h => absurd h (by decide)
  · apply ((preemption_transparent sampleAlu agree_kernelSpace sampleKernel
      0xC0101000 0xC0100000).1 _ 0x2000 (called_callSwitch rfl _ _ _) (sampleCall_shared _) _).mpr
    · decide
    · exact fun _ => sampleCall_room _ (by decide)
  · have hyield := (preemption_transparent sampleAlu agree_kernelSpace sampleCaller 0 0xC0100000).2
      (sampleCall sampleYielded 0xC0101000) _ _ 0x2000 0xC0300000 0xC0100040
      (by decide +kernel) (by decide +kernel)
      (by intro j k hj hk; rw [sampleCaller_esp]; bv_omega) rfl
      (called_callSwitch rfl _ _ _) (sampleCall_shared _)
      (sampleCall_room _ (by rw [sampleCaller_esp]; decide)) rfl
    exact hyield.2.2.2.2.2

/-- The kernel stack of the process that was running is left with its page directory: the
switch takes its frame from the stack of the other process. -/
theorem preemption_loses_frame :
    Called kernelSpace (sampleCall (sampleSaved sampleUser) 0xFFFFC000) 0x2000
        (sampleSaved sampleUser) ∧
      ¬ Uninterrupted sampleUser (run kernelSpace sampleAlu
        (sampleCall (sampleSaved sampleUser) 0xFFFFC000)
        (switchTo (saveUser
          (captured kernelSpace sampleAlu sampleUser 0xC0101000 0xC0100000)))) := by
  refine ⟨called_callSwitch rfl _ _ _, ?_⟩
  rintro ⟨-, heip, -⟩
  revert heip
  decide +kernel

end Sysint.Process.Switch
