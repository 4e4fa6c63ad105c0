import Sysint.Paging.Mapping

/-! The system call `brk` of `kernel/mem/memory.cpp`. -/
namespace Sysint.Memory

open Paging Hoare Dyadic Nat
open Option hiding bind get get_bind
open Machine

/-- The fields of `process::proc` that `brk` uses. -/
structure Proc where
  brkStart : Nat
  brkEnd : Nat
  stackBot : Nat
  dir : Nat

/-- The loop of `brk` that frees pages, with `n` pages left from the address `a` on. -/
def freePages (d : Nat) : Nat → Nat → Kernel Unit
  | 0, _ => return
  | n + 1, a => do
    freePage d a
    freePages d n (a + pageSize)

/-- The end of `brk`: set the new end and flush the directory. -/
def setEnd (p : Proc) (addr : Nat) : Kernel (Proc × Nat) := do
  modify (·.setCurDir p.dir)
  return ({ p with brkEnd := addr }, addr)

def brkFlags : BitVec 32 := pagePresent ||| pageUs ||| pageRw

/-- `brk` refuses the address, or there is nothing to do. -/
def Proc.Refuses (p : Proc) (addr : Nat) : Prop :=
  addr < p.brkStart ∨ p.stackBot ≤ addr ∨ addr = p.brkEnd

instance (p : Proc) (addr : Nat) : Decidable (p.Refuses addr) :=
  inferInstanceAs (Decidable (_ ∨ _ ∨ _))

def brk (p : Proc) (addr : Nat) : Kernel (Proc × Nat) := do
  if p.Refuses addr then return (p, p.brkEnd)
  else if p.brkEnd < addr then
    -- allocate new memory
    let start := p.brkEnd &&& 0xFFFFF000
    if ← allocBlock p.dir start (sub32 (alignAddr addr) start) brkFlags then setEnd p addr
    else return (p, p.brkEnd)
  else
    let start := addr &&& 0xFFFFF000
    freePages p.dir ((alignAddr p.brkEnd - start) / pageSize) start
    setEnd p addr

/-! ## Freeing pages -/

/-- From `vm₀` on, the pages `i` to `i + k` have been freed; blocks that were not theirs are
still held. -/
structure Freed (b : Boot) (vm₀ : Vm) (held : List Block) (d i k : Nat) (vm : Vm) : Prop where
  sound : vm.Sound d
  dir : vm.dir = vm₀.dir
  frame : vm.frame = vm₀.frame
  pte : ∀ m, vm.pte d m =
    if Within i k m ∧ (vm₀.pte d m).present = true then ⟨0⟩ else vm₀.pte d m
  frames : ∃ held', Reachable b always ⟨vm.buddy, held'⟩ ∧
    ∀ c ∈ held, (∀ m, Within i k m → (vm₀.pte d m).present = true →
      c ≠ ⟨(vm₀.pte d m).addr, 0⟩) → c ∈ held'

variable {b : Boot} {vm vm₀ : Vm} {held : List Block} {d i k a m : Nat}

theorem freePage_run (ha : a >>> pageShift = m) (hm : m < 2 ^ 20) (d : Nat) (vm : Vm) :
    (vm.pte d m).present = false ∧ freePage d a vm = .ok ⟨⟩ vm ∨
    ∃ p, vm.At d m p ∧ (vm.page p).present = true ∧
      ∀ t n, freeFrames vm.buddy ((vm.page p).addr <<< pageShift) = some (t, n) →
        freePage d a vm = .ok ⟨⟩ ((vm.setBuddy t).setPage p ⟨0⟩) := by
  subst ha
  have hget := getPage_run hm d vm
  cases ht : (vm.dir d).tables (a >>> pageShift >>> 10) with
  | none =>
    left
    rw [ht] at hget
    refine ⟨by simp [Vm.pte, ht, Page.present], ?_⟩
    rw [freePage, bind_of_ok hget]
    rfl
  | some t =>
    have hat : vm.At d (a >>> pageShift) ⟨t, a >>> pageShift &&& 1023⟩ := ⟨ht, rfl⟩
    rw [ht] at hget
    cases hpres : (vm.page ⟨t, a >>> pageShift &&& 1023⟩).present with
    | false =>
      left
      refine ⟨by rw [hat.pte, hpres], ?_⟩
      rw [freePage, bind_of_ok hget]
      simp [hpres]
    | true =>
      right
      refine ⟨_, hat, hpres, ?_⟩
      intro t' n hfree
      have hput : freeFrame (u32 ((vm.page ⟨t, a >>> pageShift &&& 1023⟩).addr <<< pageShift)) vm =
          .ok ⟨⟩ (vm.setBuddy t') := by
        rw [freeFrame, get_bind, Page.addr_shift, hfree]
        rfl
      rw [freePage, bind_of_ok hget]
      simp only [Option.map_some, get_bind, hpres, ↓reduceIte]
      rw [bind_of_ok hput]
      rfl

/-- The page `i + k` is freed next. -/
theorem Freed.next (h : Freed b vm₀ held d i k vm)
    (hown : ∀ m, Within i (k + 1) m → (vm₀.pte d m).present = true →
      ⟨(vm₀.pte d m).addr, 0⟩ ∈ held)
    (hinj : ∀ m j, Within i (k + 1) m → Within i (k + 1) j → (vm₀.pte d m).present = true →
      (vm₀.pte d j).present = true → (vm₀.pte d m).addr = (vm₀.pte d j).addr → m = j)
    (ha : a >>> pageShift = i + k) (hk : i + k < 2 ^ 20) :
    ∃ vm', freePage d a vm = .ok ⟨⟩ vm' ∧ Freed b vm₀ held d i (k + 1) vm' := by
  have hsame : vm.pte d (i + k) = vm₀.pte d (i + k) := by
    rw [h.pte, if_neg fun hc => not_within_end i k hc.1]
  have hlast : Within i (k + 1) (i + k) := ⟨by omega, by omega⟩
  obtain ⟨held', hreach, hheld⟩ := h.frames
  rcases freePage_run ha hk d vm with ⟨habs, hrun⟩ | ⟨p, hat, hpres, hrun⟩
  · rw [hsame] at habs
    refine ⟨vm, hrun, h.sound, h.dir, h.frame, ?_, held', hreach, ?_⟩
    · intro m
      rw [h.pte]
      by_cases hm : m = i + k
      · simp [within_succ, hm, habs]
      · simp [within_succ, hm]
    · intro c hc hne
      apply hheld c hc
      intro m hm hp
      exact hne m (within_succ.mpr (.inl hm)) hp
  · have hpage : vm.page p = vm₀.pte d (i + k) := by rw [← hat.pte, hsame]
    rw [hpage] at hpres hrun
    have hmem : (⟨(vm₀.pte d (i + k)).addr, 0⟩ : Block) ∈ held' := by
      apply hheld _ (hown _ hlast hpres)
      intro m hm hp heq
      have := hinj _ _ hlast (within_succ.mpr (.inl hm)) hpres hp (congrArg Block.idx heq)
      unfold Within at hm
      omega
    obtain ⟨t, n, hfree, hreach'⟩ := hreach.freeFrame hmem
    have hat' : (vm.setBuddy t).At d (i + k) p := hat
    have hsound : (vm.setBuddy t).Sound d := ⟨h.sound.inj, h.sound.unused, h.sound.nodup⟩
    refine ⟨_, hrun t n hfree, ⟨h.sound.inj, h.sound.unused, h.sound.nodup⟩, h.dir, h.frame, ?_,
      _, hreach', ?_⟩
    · intro m
      have hold : (vm.setBuddy t).pte d m = vm.pte d m := rfl
      rw [hat'.pte_setPage hsound, hold, h.pte]
      by_cases hm : m = i + k
      · simp [within_succ, hm, hpres]
      · simp [within_succ, hm]
    intro c hc hne
    have hc' : c ∈ held' := by
      apply hheld c hc
      intro m hm hp
      exact hne m (within_succ.mpr (.inl hm)) hp
    exact (List.mem_erase_of_ne (hne _ hlast hpres)).mpr hc'

theorem freePages_freed {n : Nat}
    (hown : ∀ m, Within i n m → (vm₀.pte d m).present = true → ⟨(vm₀.pte d m).addr, 0⟩ ∈ held)
    (hinj : ∀ m j, Within i n m → Within i n j → (vm₀.pte d m).present = true →
      (vm₀.pte d j).present = true → (vm₀.pte d m).addr = (vm₀.pte d j).addr → m = j)
    (hi : i + n ≤ 2 ^ 20) (l : Nat) (hl : k + l = n) (h : Freed b vm₀ held d i k vm) :
    ∃ vm', freePages d l ((i + k) * pageSize) vm = .ok ⟨⟩ vm' ∧ Freed b vm₀ held d i n vm' := by
  induction l generalizing k vm with
  | zero =>
    obtain rfl : k = n := hl
    exact ⟨vm, rfl, h⟩
  | succ l ih =>
    have hsub : ∀ m, Within i (k + 1) m → Within i n m := by
      unfold Within
      omega
    have hshift : ((i + k) * pageSize) >>> pageShift = i + k := by
      rw [shiftRight_eq_div_pow]
      exact Nat.mul_div_cancel _ (by decide)
    obtain ⟨vm₁, hrun₁, h₁⟩ := h.next (fun m hm => hown m (hsub m hm))
      (fun m j hm hj => hinj m j (hsub m hm) (hsub j hj)) hshift (by omega)
    obtain ⟨vm₂, hrun₂, h₂⟩ := ih (k := k + 1) (by omega) h₁
    have hnext : (i + k) * pageSize + pageSize = (i + (k + 1)) * pageSize := by ring
    refine ⟨vm₂, ?_, h₂⟩
    rw [freePages, bind_of_ok hrun₁, hnext, hrun₂]

/-! ## The heap of a process -/

/-- The page lies between the start of the heap and the stack. -/
def Proc.Room (p : Proc) (m : Nat) : Prop :=
  p.brkStart ≤ m * pageSize ∧ m * pageSize < p.stackBot

/-- The page overlaps the heap. -/
def Proc.Heap (p : Proc) (m : Nat) : Prop :=
  p.brkStart ≤ m * pageSize ∧ m * pageSize < p.brkEnd

/-- Between the start of the heap and the stack, just the pages of the heap are present. -/
structure Exact (b : Boot) (p : Proc) (vm : Vm) : Prop where
  sound : vm.Sound p.dir
  wired : Wired vm p.dir
  start : pageSize ∣ p.brkStart
  top : pageSize ∣ p.stackBot ∧ p.stackBot ≤ kernelVirtualBase
  ends : p.brkStart ≤ p.brkEnd ∧ (p.brkEnd = p.brkStart ∨ p.brkEnd < p.stackBot)
  mapped : ∀ m, p.Room m → ((vm.pte p.dir m).present = true ↔ p.Heap m)
  frames : ∃ held, Reachable b always ⟨vm.buddy, held⟩ ∧ Owns vm p.dir p.Heap held

/-- What a call leaves alone. -/
structure Keeps (p p' : Proc) (vm vm' : Vm) : Prop where
  frame : vm'.frame = vm.frame
  other : ∀ e, e ≠ p.dir → vm'.dir e = vm.dir e
  entries : ∀ j, kernelVirtualBase >>> 22 ≤ j ∨ (vm.dir p.dir).tables j ≠ none →
    (vm'.dir p.dir).entries j = (vm.dir p.dir).entries j
  heap : ∀ m, p.Heap m → p'.Heap m → (vm'.pte p.dir m).addr = (vm.pte p.dir m).addr
  outside : ∀ m, ¬ p.Room m → vm'.pte p.dir m = vm.pte p.dir m

variable {p : Proc} {addr : Nat}

theorem Exact.heap_room (h : Exact b p vm) (hm : p.Heap m) : p.Room m := by
  have hends := h.ends
  unfold Proc.Heap at hm
  unfold Proc.Room
  omega

/-- There is enough memory for the heap to grow to `addr`: frames for its pages, and page tables
in the kernel heap as it is. -/
def Enough (p : Proc) (vm : Vm) (addr : Nat) : Prop :=
  let i := p.brkEnd / pageSize
  let n := (addr + pageSize - 1) / pageSize - i
  ((vm.absent p.dir i n).length : Int) ≤ vm.buddy.available ∧
    (vm.missing p.dir i n).card ≤ vm.spare.length

theorem pageSize_eq : pageSize = 4096 := rfl

theorem grow_range (h : p.brkEnd < addr) (haddr : addr < kernelVirtualBase) :
    (p.brkEnd &&& 0xFFFFF000) >>> pageShift = p.brkEnd / pageSize ∧
    sub32 (alignAddr addr) (p.brkEnd &&& 0xFFFFF000) >>> pageShift =
      (addr + pageSize - 1) / pageSize - p.brkEnd / pageSize := by
  unfold kernelVirtualBase at haddr
  have hstart : p.brkEnd &&& 0xFFFFF000 = p.brkEnd / 4096 * 4096 :=
    and_high (by omega) 12 _ (by decide) (by decide)
  have hstop : alignAddr addr = (addr + 4095) / 4096 * 4096 := by
    rw [alignAddr_eq (by omega), u32_of_lt (by omega)]
  rw [hstart, hstop, sub32_of_le (by omega) (by omega), pageSize_eq]
  simp only [shiftRight_eq_div_pow, pageShift]
  constructor
  · omega
  · omega

theorem brkFlags_user : UserFlags brkFlags := ⟨by decide, by decide, by decide⟩

/-- A call that moves the end of the heap to `addr`. -/
def Moves (b : Boot) (p : Proc) (vm : Vm) (addr : Nat) : Prop :=
  ∃ vm', brk p addr vm = .ok ({ p with brkEnd := addr }, addr) vm' ∧
    Exact b { p with brkEnd := addr } vm' ∧ Keeps p { p with brkEnd := addr } vm vm'

theorem setEnd_run (p : Proc) (addr : Nat) (vm : Vm) :
    setEnd p addr vm = .ok ({ p with brkEnd := addr }, addr) (vm.setCurDir p.dir) := rfl

/-- The heap grows. -/
theorem Exact.grow (h : Exact b p vm) (hacc : ¬ p.Refuses addr) (hlt : p.brkEnd < addr)
    (henough : Enough p vm addr) : Moves b p vm addr := by
  obtain ⟨hlo, hhi, -⟩ : p.brkStart ≤ addr ∧ addr < p.stackBot ∧ addr ≠ p.brkEnd := by
    unfold Proc.Refuses at hacc
    omega
  have htop := h.top
  have hends := h.ends
  have hstart := h.start
  obtain ⟨hi, hn⟩ := grow_range hlt (by omega : addr < kernelVirtualBase)
  obtain ⟨held, hreach, howns⟩ := h.frames
  obtain ⟨hframes, htables⟩ := henough
  rw [pageSize_eq] at hi hn hframes htables htop hstart
  have hbase : kernelVirtualBase = 0xC0000000 := rfl
  have hstop : ∀ e t, ¬ Stops vm p.dir (p.brkEnd / 4096)
      ((addr + 4096 - 1) / 4096 - p.brkEnd / 4096) e t := by
    unfold Stops
    omega
  obtain ⟨r, vm', hrun, rfl, fs, hmap⟩ :=
    (allocPages_drawn hreach h.sound brkFlags hframes).returns rfl hstop
  have hblock : allocBlock p.dir (p.brkEnd &&& 0xFFFFF000)
      (sub32 (alignAddr addr) (p.brkEnd &&& 0xFFFFF000)) brkFlags vm = .ok true vm' := by
    rw [allocBlock, hi, hn]
    exact hrun
  have hrange : ∀ m, Within (p.brkEnd / 4096) ((addr + 4096 - 1) / 4096 - p.brkEnd / 4096) m ↔
      p.brkEnd / 4096 ≤ m ∧ m * 4096 < addr := by
    unfold Within
    omega
  have hroom : ∀ m, Within (p.brkEnd / 4096) ((addr + 4096 - 1) / 4096 - p.brkEnd / 4096) m →
      p.Room m := by
    intro m hm
    rw [hrange] at hm
    unfold Proc.Room
    rw [pageSize_eq]
    omega
  refine ⟨vm'.setCurDir p.dir, ?_, ?_, ?_⟩
  · simp only [brk, hacc, hlt, ↓reduceIte]
    rw [bind_of_ok hblock]
    rfl
  · refine ⟨⟨hmap.changes.sound.inj, hmap.changes.sound.unused, hmap.changes.sound.nodup⟩,
      hmap.wired brkFlags_user h.wired, h.start, h.top, ⟨hlo, .inr hhi⟩, ?_, _, hmap.supply.1, ?_⟩
    · intro m hm
      have hm' : p.Room m := hm
      change (vm'.pte p.dir m).present = true ↔ p.brkStart ≤ m * pageSize ∧ m * pageSize < addr
      have hold := h.mapped m hm'
      unfold Proc.Heap at hold
      unfold Proc.Room at hm'
      rw [pageSize_eq] at *
      by_cases hw : Within (p.brkEnd / 4096) ((addr + 4096 - 1) / 4096 - p.brkEnd / 4096) m
      · rw [(hmap.page_cases brkFlags_user hw).1]
        rw [hrange] at hw
        simp only [true_iff]
        omega
      · rw [hmap.rest m hw, hold]
        rw [hrange] at hw
        omega
    · have hnew : Owns vm' p.dir (Proc.Heap { p with brkEnd := addr })
          ((fs.map Prod.snd).map (⟨·, 0⟩) ++ held) := by
        apply hmap.owns howns
        intro m hm
        have hm' : p.brkStart ≤ m * pageSize ∧ m * pageSize < addr := hm
        by_cases hw : Within (p.brkEnd / 4096) ((addr + 4096 - 1) / 4096 - p.brkEnd / 4096) m
        · rcases (hmap.page_cases brkFlags_user hw).2 with ⟨hpres, heq⟩ | ⟨-, hx⟩
          · exact .inl ⟨(h.mapped m (hroom m hw)).mp hpres, heq⟩
          · exact .inr hx
        left
        rw [hmap.rest m hw]
        rw [hrange] at hw
        unfold Proc.Heap
        rw [pageSize_eq] at *
        exact ⟨by omega, rfl⟩
      exact ⟨hnew.held, hnew.inj⟩
  · refine ⟨hmap.changes.frame, hmap.changes.other, ?_, ?_, ?_⟩
    · rintro j (hj | hj)
      · apply (hmap.changes.entries j _).2
        rintro m rfl hw
        rw [hrange] at hw
        rw [shiftRight_eq_div_pow, shiftRight_eq_div_pow] at hj
        omega
      · obtain ⟨t, ht⟩ := ne_none_iff_exists'.mp hj
        exact (hmap.changes.tables j t ht).2
    · intro m hm _
      change (vm'.pte p.dir m).addr = _
      by_cases hw : Within (p.brkEnd / 4096) ((addr + 4096 - 1) / 4096 - p.brkEnd / 4096) m
      · rcases (hmap.page_cases brkFlags_user hw).2 with ⟨-, heq⟩ | ⟨habs, -⟩
        · exact heq
        · rw [(h.mapped m (h.heap_room hm)).mpr hm] at habs
          cases habs
      · rw [hmap.rest m hw]
    · intro m hm
      exact hmap.rest m fun hw => hm (hroom m hw)

/-- The number of pages that are freed when the heap shrinks to `addr`. -/
def Proc.surplus (p : Proc) (addr : Nat) : Nat := (p.brkEnd + 4095) / 4096 - addr / 4096

theorem shrink_range (hlt : addr < p.brkEnd) (hend : p.brkEnd < kernelVirtualBase) :
    addr &&& 0xFFFFF000 = addr / 4096 * 4096 ∧
      (alignAddr p.brkEnd - (addr &&& 0xFFFFF000)) / pageSize = p.surplus addr := by
  have hbase : kernelVirtualBase = 0xC0000000 := rfl
  have hfirst : addr &&& 0xFFFFF000 = addr / 4096 * 4096 :=
    and_high (by omega) 12 _ (by decide) (by decide)
  have hlast : alignAddr p.brkEnd = (p.brkEnd + 4095) / 4096 * 4096 := by
    rw [alignAddr_eq (by omega), u32_of_lt (by omega)]
  refine ⟨hfirst, ?_⟩
  rw [hfirst, hlast, pageSize_eq, Proc.surplus]
  omega

theorem within_surplus (m : Nat) :
    Within (addr / 4096) (p.surplus addr) m ↔ addr / 4096 ≤ m ∧ m * 4096 < p.brkEnd := by
  unfold Within Proc.surplus
  omega

theorem heap_of_surplus (hstart : pageSize ∣ p.brkStart) (hlo : p.brkStart ≤ addr)
    (hm : Within (addr / 4096) (p.surplus addr) m) : p.Heap m := by
  rw [within_surplus] at hm
  unfold Proc.Heap
  rw [pageSize_eq] at *
  omega

/-- Shrinking the heap frees the pages from the one that holds the new end on. -/
theorem Exact.freed (h : Exact b p vm) (hacc : ¬ p.Refuses addr) (hlt : addr < p.brkEnd) :
    ∃ held vm', Owns vm p.dir p.Heap held ∧
      brk p addr vm = .ok ({ p with brkEnd := addr }, addr) (vm'.setCurDir p.dir) ∧
      Freed b vm held p.dir (addr / 4096) (p.surplus addr) vm' := by
  have hlo : p.brkStart ≤ addr := by
    unfold Proc.Refuses at hacc
    omega
  have htop := h.top
  have hends := h.ends
  obtain ⟨held, hreach, howns⟩ := h.frames
  obtain ⟨hfirst, hcount⟩ := shrink_range hlt (by omega : p.brkEnd < kernelVirtualBase)
  have hheap : ∀ m, Within (addr / 4096) (p.surplus addr) m → p.Heap m :=
    fun _ hm => heap_of_surplus h.start hlo hm
  have hbegin : Freed b vm held p.dir (addr / 4096) 0 vm := by
    refine ⟨h.sound, rfl, rfl, ?_, held, hreach, fun c hc _ => hc⟩
    intro m
    rw [if_neg]
    rintro ⟨hw, -⟩
    unfold Within at hw
    omega
  have hlast : addr / 4096 + p.surplus addr ≤ 2 ^ 20 := by
    have hbase : kernelVirtualBase = 0xC0000000 := rfl
    unfold Proc.surplus
    omega
  obtain ⟨vm', hrun, hfreed⟩ := freePages_freed (n := p.surplus addr)
    (fun m hm _ => howns.held m (hheap m hm))
    (fun m j hm hj _ _ => howns.inj m j (hheap m hm) (hheap j hj)) hlast _ (Nat.zero_add _)
    hbegin
  have hloop : freePages p.dir ((alignAddr p.brkEnd - (addr &&& 0xFFFFF000)) / pageSize)
      (addr &&& 0xFFFFF000) vm = .ok ⟨⟩ vm' := by
    rw [hcount, hfirst]
    exact hrun
  have hnotlt : ¬ p.brkEnd < addr := by omega
  refine ⟨held, vm', howns, ?_, hfreed⟩
  simp only [brk, hacc, hnotlt, ↓reduceIte]
  rw [bind_of_ok hloop]
  rfl

section
variable {vm' : Vm} (h : Exact b p vm) (halign : pageSize ∣ addr) (hlo : p.brkStart ≤ addr)

include halign in
theorem Freed.below (hf : Freed b vm held p.dir (addr / 4096) (p.surplus addr) vm')
    (hm : m * 4096 < addr) : vm'.pte p.dir m = vm.pte p.dir m := by
  rw [hf.pte, if_neg]
  rintro ⟨hw, -⟩
  rw [within_surplus] at hw
  rw [pageSize_eq] at halign
  omega

include h halign hlo

/-- Without the pages behind `addr`, the heap ends there. -/
theorem Exact.of_freed (hhi : addr < p.stackBot) (hlt : addr < p.brkEnd)
    (howns : Owns vm p.dir p.Heap held)
    (hf : Freed b vm held p.dir (addr / 4096) (p.surplus addr) vm') :
    Exact b { p with brkEnd := addr } vm' := by
  obtain ⟨held', hreach', hheld⟩ := hf.frames
  have hsub : ∀ m, Proc.Heap { p with brkEnd := addr } m → p.Heap m ∧ m * 4096 < addr := by
    intro m hm
    unfold Proc.Heap at *
    rw [pageSize_eq] at *
    simp only at hm
    omega
  refine ⟨hf.sound, ?_, h.start, h.top, ⟨hlo, .inr hhi⟩, ?_, held', hreach', ?_, ?_⟩
  · unfold Wired
    rw [hf.dir]
    exact h.wired
  · intro m hm
    have hm' : p.Room m := hm
    have hold := h.mapped m hm'
    change (vm'.pte p.dir m).present = true ↔ p.brkStart ≤ m * pageSize ∧ m * pageSize < addr
    by_cases hb : m * 4096 < addr
    · rw [hf.below halign hb, hold]
      unfold Proc.Heap
      rw [pageSize_eq]
      omega
    have habs : (vm'.pte p.dir m).present = false := by
      rw [hf.pte]
      split
      · rfl
      rename_i hno
      rw [within_surplus, hold] at hno
      cases hp : (vm.pte p.dir m).present with
      | false => rfl
      | true =>
        have hheap := hold.mp hp
        unfold Proc.Heap at *
        rw [pageSize_eq] at *
        omega
    rw [habs, pageSize_eq]
    simp only [Bool.false_eq_true, false_iff]
    omega
  · intro m hm
    obtain ⟨hp, hb⟩ := hsub m hm
    change (⟨(vm'.pte p.dir m).addr, 0⟩ : Block) ∈ held'
    rw [hf.below halign hb]
    apply hheld _ (howns.held m hp)
    intro j hj _ heq
    have := howns.inj m j hp (heap_of_surplus h.start hlo hj) (congrArg Block.idx heq)
    rw [within_surplus] at hj
    rw [pageSize_eq] at halign
    omega
  · intro m j hm hj heq
    obtain ⟨hp, hb⟩ := hsub m hm
    obtain ⟨hp', hb'⟩ := hsub j hj
    change (vm'.pte p.dir m).addr = (vm'.pte p.dir j).addr at heq
    rw [hf.below halign hb, hf.below halign hb'] at heq
    exact howns.inj m j hp hp' heq

theorem Keeps.of_freed (hf : Freed b vm held p.dir (addr / 4096) (p.surplus addr) vm') :
    Keeps p { p with brkEnd := addr } vm vm' := by
  refine ⟨hf.frame, fun e _ => congrFun hf.dir e, fun j _ => by rw [hf.dir], ?_, ?_⟩
  · intro m _ hm
    unfold Proc.Heap at hm
    rw [pageSize_eq] at hm
    exact congrArg Page.addr (hf.below halign hm.2)
  · intro m hm
    rw [hf.pte, if_neg]
    rintro ⟨hw, -⟩
    exact hm (h.heap_room (heap_of_surplus h.start hlo hw))

end

/-- The heap shrinks to a page boundary. -/
theorem Exact.shrink (h : Exact b p vm) (hacc : ¬ p.Refuses addr) (hlt : addr < p.brkEnd)
    (halign : pageSize ∣ addr) : Moves b p vm addr := by
  obtain ⟨hlo, hhi, -⟩ : p.brkStart ≤ addr ∧ addr < p.stackBot ∧ addr ≠ p.brkEnd := by
    unfold Proc.Refuses at hacc
    omega
  obtain ⟨held, vm', howns, hrun, hfreed⟩ := h.freed hacc hlt
  have hexact := h.of_freed halign hlo hhi hlt howns hfreed
  have hkeeps := Keeps.of_freed h halign hlo hfreed
  refine ⟨vm'.setCurDir p.dir, hrun, ?_, ?_⟩
  · exact ⟨⟨hexact.sound.inj, hexact.sound.unused, hexact.sound.nodup⟩, hexact.wired, hexact.start,
      hexact.top, hexact.ends, hexact.mapped,
      hexact.frames.imp fun _ hh => ⟨hh.1, hh.2.held, hh.2.inj⟩⟩
  · exact ⟨hkeeps.frame, hkeeps.other, hkeeps.entries, hkeeps.heap, hkeeps.outside⟩

/-- The heap shrinks to an address inside of a page: this page is gone too. -/
theorem Exact.cut (h : Exact b p vm) (hacc : ¬ p.Refuses addr) (hlt : addr < p.brkEnd)
    (hbad : ¬ pageSize ∣ addr) : ∃ vm', brk p addr vm = .ok ({ p with brkEnd := addr }, addr) vm' ∧
      Proc.Heap { p with brkEnd := addr } (addr / pageSize) ∧
      vm'.translate p.dir (addr / pageSize * pageSize) = none := by
  obtain ⟨held, vm', -, hrun, hfreed⟩ := h.freed hacc hlt
  have hlo : p.brkStart ≤ addr := by
    unfold Proc.Refuses at hacc
    omega
  have htop := h.top
  have hends := h.ends
  have hstart := h.start
  rw [pageSize_eq] at hbad hstart
  have hin : Within (addr / 4096) (p.surplus addr) (addr / 4096) := by
    rw [within_surplus]
    omega
  have hheap := heap_of_surplus h.start hlo hin
  have hgone : vm'.pte p.dir (addr / 4096) = ⟨0⟩ := by
    rw [hfreed.pte, if_pos ⟨hin, (h.mapped _ (h.heap_room hheap)).mpr hheap⟩]
  have hwired : Wired (vm'.setCurDir p.dir) p.dir := by
    unfold Wired
    rw [Vm.setCurDir_dir, hfreed.dir]
    exact h.wired
  refine ⟨_, hrun, ⟨hheap.1, ?_⟩, ?_⟩
  · rw [pageSize_eq]
    change addr / 4096 * 4096 < addr
    omega
  have hshift : (addr / 4096 * 4096) >>> pageShift = addr / 4096 := by
    rw [shiftRight_eq_div_pow, pageShift]
    omega
  rw [pageSize_eq, hwired.translate (by omega), hshift]
  change (if (vm'.pte p.dir (addr / 4096)).present = true then _ else _) = _
  rw [hgone]
  rfl

/-! ## Runs -/

/-- The process calls `brk`; the kernel may stop. -/
def step (s : Proc × Vm) (addr : Nat) : Option (Proc × Vm) :=
  match brk s.1 addr s.2 with
  | .ok (p, _) vm => some (p, vm)
  | .error _ _ => none

/-- There is enough memory for the call. -/
def Supplied (s : Proc × Vm) (addr : Nat) : Prop :=
  s.1.Refuses addr ∨ (s.1.brkEnd < addr → Enough s.1 s.2 addr)

/-- There is enough memory for the call, and it does not end the heap inside of a page that it
has to keep. -/
def Whole (s : Proc × Vm) (addr : Nat) : Prop :=
  s.1.Refuses addr ∨ (s.1.brkEnd < addr → Enough s.1 s.2 addr) ∧
    (addr < s.1.brkEnd → pageSize ∣ addr)

/-- A call either changes nothing or moves the end of the heap. -/
theorem Exact.call (h : Exact b p vm) (hok : Whole (p, vm) addr) :
    p.Refuses addr ∧ brk p addr vm = .ok (p, p.brkEnd) vm ∨
      ¬ p.Refuses addr ∧ Moves b p vm addr := by
  by_cases hacc : p.Refuses addr
  · left
    refine ⟨hacc, ?_⟩
    simp only [brk, hacc, ↓reduceIte]
    rfl
  right
  refine ⟨hacc, ?_⟩
  obtain ⟨hgrow, hshrink⟩ := hok.resolve_left hacc
  have hne : addr ≠ p.brkEnd := fun he => hacc (.inr (.inr he))
  rcases Nat.lt_or_gt_of_ne hne with hlt | hgt
  · exact h.shrink hacc hlt (hshrink hlt)
  · exact h.grow hacc hgt (hgrow hgt)

theorem reach_exact {s : Proc × Vm}
    (h : Reach (fun s => Exact b s.1 s.2) step Whole s) : Exact b s.1 s.2 := by
  apply Reach.invariant (fun _ hs => hs) _ h
  rintro ⟨p, vm⟩ addr t hex hok hstep
  rcases hex.call hok with ⟨-, hrun⟩ | ⟨-, vm', hrun, hex', -⟩
  · simp only [step, hrun, some.injEq] at hstep
    exact hstep ▸ hex
  · simp only [step, hrun, some.injEq] at hstep
    exact hstep ▸ hex'

theorem Exact.translate_isSome (h : Exact b p vm) (hlo : p.brkStart ≤ a)
    (hhi : a < p.stackBot) : (vm.translate p.dir a).isSome = true ↔ p.Heap (a / pageSize) := by
  have htop := h.top
  have hstart := h.start
  have hshift : a >>> pageShift = a / pageSize := shiftRight_eq_div_pow a 12
  have hroom : p.Room (a / pageSize) := by
    unfold Proc.Room
    rw [pageSize_eq] at *
    omega
  rw [h.wired.translate (by omega), hshift, ← h.mapped _ hroom]
  cases (vm.pte p.dir (a / pageSize)).present <;> simp

/-- Every byte of the heap is mapped. -/
theorem Exact.translate_byte (h : Exact b p vm) (hlo : p.brkStart ≤ a)
    (hhi : a < p.brkEnd) : p.Heap (a / pageSize) ∧
      vm.translate p.dir a = some ((vm.pte p.dir (a / pageSize)).addr, a &&& 0xFFF) := by
  have hends := h.ends
  have htop := h.top
  have hstart := h.start
  have hheap : p.Heap (a / pageSize) := by
    unfold Proc.Heap
    rw [pageSize_eq] at *
    omega
  have hpres := (h.mapped _ (h.heap_room hheap)).mpr hheap
  have hshift : a >>> pageShift = a / pageSize := shiftRight_eq_div_pow a 12
  rw [h.wired.translate (by omega), hshift, if_pos hpres]
  exact ⟨hheap, rfl⟩

/-- An address outside is led to the same place, with the same rights. -/
theorem Keeps.outside_same {p' : Proc} {vm' : Vm} (hk : Keeps p p' vm vm')
    (hw : Wired vm p.dir) (hw' : Wired vm' p.dir) (htop : pageSize ∣ p.stackBot)
    (hstart : pageSize ∣ p.brkStart) (ha : a < p.brkStart ∨ p.stackBot ≤ a) :
    vm'.translate p.dir a = vm.translate p.dir a ∧
      vm'.pte p.dir (a >>> pageShift) = vm.pte p.dir (a >>> pageShift) ∧
      (vm.translate p.dir a ≠ none →
        (vm'.dir p.dir).entries (a >>> 22) = (vm.dir p.dir).entries (a >>> 22)) := by
  have hshift : a >>> pageShift = a / pageSize := shiftRight_eq_div_pow a 12
  have hpte : vm'.pte p.dir (a >>> pageShift) = vm.pte p.dir (a >>> pageShift) := by
    apply hk.outside
    unfold Proc.Room
    rw [hshift, pageSize_eq] at *
    omega
  have hidx : a >>> 22 = a >>> pageShift >>> 10 := by rw [← shiftRight_add, pageShift]
  by_cases hlow : a < kernelVirtualBase
  · refine ⟨by rw [hw.translate hlow, hw'.translate hlow, hpte], hpte, fun hne => ?_⟩
    apply hk.entries
    right
    intro hnone
    apply hne
    rw [hw.translate hlow, Vm.pte, ← hidx, hnone]
    simp [Page.present]
  · have hentry := hk.entries (a >>> 22) (.inl (by
      rw [shiftRight_eq_div_pow, shiftRight_eq_div_pow]
      omega))
    exact ⟨by simp [Vm.translate, hentry, hpte], hpte, fun _ => hentry⟩

/-- What a call is for. In the range of the heap just its pages are mapped, the bytes below both
ends are where they were, and what lies outside is as it was, with its rights. -/
structure Serves (p p' : Proc) (vm vm' : Vm) : Prop where
  mapped : ∀ a, p'.brkStart ≤ a → a < p'.stackBot →
    ((vm'.translate p'.dir a).isSome = true ↔ p'.Heap (a / pageSize))
  kept : ∀ a, p.brkStart ≤ a → a < min p.brkEnd p'.brkEnd → ∃ f o,
    vm.translate p.dir a = some (f, o) ∧ vm'.translate p.dir a = some (f, o) ∧
      vm'.frame f o = vm.frame f o
  outside : ∀ a, a < p.brkStart ∨ p.stackBot ≤ a →
    vm'.translate p.dir a = vm.translate p.dir a ∧
    vm'.pte p.dir (a >>> pageShift) = vm.pte p.dir (a >>> pageShift) ∧
    (vm.translate p.dir a ≠ none →
      (vm'.dir p.dir).entries (a >>> 22) = (vm.dir p.dir).entries (a >>> 22))
  frame : vm'.frame = vm.frame
  other : ∀ e, e ≠ p.dir → vm'.dir e = vm.dir e

theorem Exact.serves_refl (h : Exact b p vm) : Serves p p vm vm where
  mapped _ := h.translate_isSome
  kept a hlo hhi := by
    obtain ⟨-, htr⟩ := h.translate_byte hlo (Nat.lt_of_lt_of_le hhi (Nat.min_le_left _ _))
    exact ⟨_, _, htr, htr, rfl⟩
  outside _ _ := ⟨rfl, rfl, fun _ => rfl⟩
  frame := rfl
  other _ _ := rfl

theorem Exact.serves {vm' : Vm} (h : Exact b p vm) (h' : Exact b { p with brkEnd := addr } vm')
    (hk : Keeps p { p with brkEnd := addr } vm vm') :
    Serves p { p with brkEnd := addr } vm vm' where
  mapped _ := h'.translate_isSome
  kept a hlo hhi := by
    obtain ⟨hheap, htr⟩ := h.translate_byte hlo (Nat.lt_of_lt_of_le hhi (Nat.min_le_left _ _))
    obtain ⟨hheap', htr'⟩ :=
      h'.translate_byte hlo (Nat.lt_of_lt_of_le hhi (Nat.min_le_right _ _))
    refine ⟨_, _, htr, ?_, by rw [hk.frame]⟩
    rw [← hk.heap _ hheap hheap']
    exact htr'
  outside _ := hk.outside_same h.wired h'.wired h.top.1 h.start
  frame := hk.frame
  other := hk.other

/-- **`brk` maps exactly the heap**, in every run whose calls have enough memory and only
shrink the heap to page boundaries. The next call with enough memory returns the end of the heap
that it leaves, and it does what it is for just when it shrinks the heap to a page boundary or
not at all. -/
theorem brk_maps_heap {s : Proc × Vm} (h : Reach (fun s => Exact b s.1 s.2) step Whole s) :
    (∀ a, s.1.brkStart ≤ a → a < s.1.stackBot →
      ((s.2.translate s.1.dir a).isSome = true ↔ s.1.Heap (a / pageSize))) ∧
    ∀ addr, Supplied s addr → ∃ p' vm', brk s.1 addr s.2 = .ok (p', p'.brkEnd) vm' ∧
      (p' = if s.1.Refuses addr then s.1 else { s.1 with brkEnd := addr }) ∧
      (Serves s.1 p' s.2 vm' ↔ Whole s addr) := by
  obtain ⟨p, vm⟩ := s
  have hex : Exact b p vm := reach_exact h
  refine ⟨fun a => hex.translate_isSome, fun addr hsup => ?_⟩
  by_cases hok : Whole (p, vm) addr
  · rcases hex.call hok with ⟨href, hrun⟩ | ⟨hacc, vm', hrun, hex', hk⟩
    · exact ⟨p, vm, hrun, (if_pos href).symm, fun _ => hok, fun _ => hex.serves_refl⟩
    · exact ⟨{ p with brkEnd := addr }, vm', hrun, (if_neg hacc).symm, fun _ => hok,
        fun _ => hex.serves hex' hk⟩
  have hacc : ¬ p.Refuses addr := fun href => hok (.inl href)
  have hbad : addr < p.brkEnd ∧ ¬ pageSize ∣ addr := by
    have hcut : ¬ (addr < p.brkEnd → pageSize ∣ addr) := fun hal =>
      hok (.inr ⟨hsup.resolve_left hacc, hal⟩)
    exact Classical.not_imp.mp hcut
  obtain ⟨vm', hrun, hheap, hnone⟩ := hex.cut hacc hbad.1 hbad.2
  refine ⟨{ p with brkEnd := addr }, vm', hrun, (if_neg hacc).symm, fun hserves => ?_,
    fun hw => absurd hw hok⟩
  have hin : addr ≤ p.stackBot := by
    unfold Proc.Refuses at hacc
    omega
  have hmapped := (hserves.mapped (addr / pageSize * pageSize) hheap.1
    (Nat.lt_of_lt_of_le hheap.2 hin)).mpr (by
      rw [Nat.mul_div_cancel _ (by decide)]
      exact hheap)
  change (vm'.translate p.dir _).isSome = true at hmapped
  rw [hnone] at hmapped
  cases hmapped

/-- A process with an empty heap at `0x08000000`. -/
def sampleProc : Proc where
  brkStart := 0x08000000
  brkEnd := 0x08000000
  stackBot := 0xBFFFF000
  dir := 0

theorem sampleProc_exact : Exact bootOne sampleProc sampleVm where
  sound := sampleVm_sound
  wired := by
    intro j hj
    have hne : j ≠ 0x340 := by
      rintro rfl
      exact absurd hj (by decide)
    simp [sampleVm, sampleProc, hne]
  start := by decide
  top := by decide
  ends := by decide
  mapped := by
    intro m hm
    have hidx : m >>> 10 ≠ 0x340 := by
      have hlt := hm.2
      rw [pageSize_eq] at hlt
      simp only [sampleProc] at hlt
      rw [shiftRight_eq_div_pow]
      omega
    have habs : (sampleVm.pte sampleProc.dir m).present = false := by
      simp [Vm.pte, sampleVm, hidx, Page.present]
    rw [habs]
    unfold Proc.Heap
    simp only [sampleProc, Bool.false_eq_true, false_iff]
    omega
  frames := by
    have hinit : (⟨sampleVm.buddy, []⟩ : Frames) = .init bootOne := by
      simp [sampleVm, Frames.init]
    refine ⟨[], .init hinit, ?_, ?_⟩
    · intro m hm
      unfold Proc.Heap at hm
      simp only [sampleProc] at hm
      omega
    · intro m n hm
      unfold Proc.Heap at hm
      simp only [sampleProc] at hm
      omega

instance (p : Proc) (vm : Vm) (addr : Nat) : Decidable (Enough p vm addr) :=
  inferInstanceAs (Decidable (_ ∧ _))

instance (s : Proc × Vm) (addr : Nat) : Decidable (Whole s addr) :=
  inferInstanceAs (Decidable (_ ∨ (_ → _) ∧ (_ → _)))

theorem brk_maps_heap_sample : ∃ s, run (guarded step Whole) (sampleProc, sampleVm)
        [0x08001800, 0x08001000] = some s ∧ s.1.brkEnd = 0x08001000 ∧
      ∀ a, s.1.brkStart ≤ a → a < s.1.stackBot →
        ((s.2.translate s.1.dir a).isSome = true ↔ s.1.Heap (a / pageSize)) := by
  have hrun : (run (guarded step Whole) (sampleProc, sampleVm)
      [0x08001800, 0x08001000]).map (fun s => s.1.brkEnd) = some 0x08001000 := by
    decide +kernel
  obtain ⟨s, hs, hend⟩ := run_of_map hrun
  have hreach : Reach (fun s => Exact bootOne s.1 s.2) step Whole s :=
    Reach.runGuarded (.init sampleProc_exact) hs
  exact ⟨s, hs, hend, (brk_maps_heap hreach).1⟩

/-- Shrinking the heap to an address inside of a page frees this page, although the heap still
ends in it. -/
theorem brk_frees_last_page : Exact bootOne sampleProc sampleVm ∧
    ∃ s, run step (sampleProc, sampleVm) [0x08001800, 0x08000800] = some s ∧
      s.1.brkEnd = 0x08000800 ∧ s.1.Heap 0x8000 ∧ s.2.translate 0 0x08000000 = none := by
  have hrun : (run step (sampleProc, sampleVm) [0x08001800, 0x08000800]).map
      (fun s => (s.1.brkStart, s.1.brkEnd, s.2.translate 0 0x08000000)) =
        some (0x08000000, 0x08000800, none) := by
    decide +kernel
  obtain ⟨s, hs, hv⟩ := run_of_map hrun
  simp only [Prod.mk.injEq] at hv
  obtain ⟨h1, h2, h3⟩ := hv
  refine ⟨sampleProc_exact, s, hs, h2, ?_, h3⟩
  unfold Proc.Heap
  rw [h1, h2]
  decide

end Sysint.Memory
