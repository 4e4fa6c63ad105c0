import Sysint.Memory.Remap

/-! `page_dir::clone` and `page_table::clone` of `kernel/mem/paging.cpp`, with the copy of a frame
through two temporary mappings at the end of the address space. -/
namespace Sysint.Paging

open Hoare Memory
open Function

/-! ## The functions -/

/-- The kernel reads a byte; a page that is not there is a page fault. -/
def loadByte (d a : Nat) : Kernel (BitVec 8) := do
  let vm ← get
  match vm.translate d a with
  | none => throw .halt
  | some (f, o) => return vm.frame f o

/-- One turn of `rep movsd`. -/
def moveDword (d dst src : Nat) : Kernel Unit := do
  let b0 ← loadByte d src
  let b1 ← loadByte d (src + 1)
  let b2 ← loadByte d (src + 2)
  let b3 ← loadByte d (src + 3)
  storeByte d dst b0
  storeByte d (dst + 1) b1
  storeByte d (dst + 2) b2
  storeByte d (dst + 3) b3

def memcpyd (d : Nat) : Nat → Nat → Nat → Kernel Unit
  | _, _, 0 => return
  | dst, src, num + 1 => do
    moveDword d dst src
    memcpyd d (u32 (dst + 4)) (u32 (src + 4)) num

def dstVaddr : Nat := 0xFFFFE000

def srcVaddr : Nat := 0xFFFFF000

/-- The loop of `memcpyd_phys_aligned`, for at most `fuel` turns. -/
def copyPages (d : Nat) (dst src : Slot) : Nat → Nat → Kernel Unit
  | 0, _ => return
  | fuel + 1, count => do
    if count = 0 then return
    let c := min count (pageSize / 4)
    memcpyd d dstVaddr srcVaddr c
    modify fun vm => vm.setPage dst ((vm.page dst).setAddr ((vm.page dst).addr + 1))
    modify fun vm => vm.setPage src ((vm.page src).setAddr ((vm.page src).addr + 1))
    copyPages d dst src fuel (count - c)

/-- The entry of a temporary mapping, and its old value. -/
def tempPage (d addr : Nat) (found : Option Slot) (old : Page) : Kernel (Slot × Page) :=
  match found with
  | some p => return (p, old)
  | none => do
    let p ← makePage d addr (pagePresent ||| pageRw)
    return (p, ⟨0⟩)

/-- The value of an entry that was found. -/
def Vm.found (vm : Vm) (p : Option Slot) : Page := (p.map vm.page).getD ⟨0⟩

def memcpydPhysAligned (dst src count : Nat) : Kernel Unit := do
  let d := (← get).curDir
  let foundDst ← getPage d (dstVaddr >>> pageShift)
  let foundSrc ← getPage d (srcVaddr >>> pageShift)
  let vm ← get
  let (pageDst, oldDst) ← tempPage d (dstVaddr >>> pageShift) foundDst (vm.found foundDst)
  let (pageSrc, oldSrc) ← tempPage d (srcVaddr >>> pageShift) foundSrc (vm.found foundSrc)
  modify (·.setPage pageSrc (Page.make (pagePresent ||| pageRw) (src >>> pageShift)))
  modify (·.setPage pageDst (Page.make (pagePresent ||| pageRw) (dst >>> pageShift)))
  copyPages d pageDst pageSrc count count
  -- restore old pages
  modify (·.setPage pageDst oldDst)
  modify (·.setPage pageSrc oldSrc)

/-- The loop of `page_table::clone`, with `n` pages left from page `i` on. -/
def clonePages (t u : Nat) : Nat → Nat → Kernel Unit
  | 0, _ => return
  | n + 1, i => do
    let pg := (← get).page ⟨t, i⟩
    if pg.present then
      modify (·.setPage ⟨u, i⟩ pg)
      let frame ← allocFrame
      if frame = 0 then throw .halt
      modify fun vm => vm.setPage ⟨u, i⟩ ((vm.page ⟨u, i⟩).setAddr (frame >>> pageShift))
      memcpydPhysAligned frame (u32 (pg.addr <<< pageShift)) (pageSize / 4)
    clonePages t u n (i + 1)

/-- `page_table::clone`. -/
def cloneTable (t : Nat) : Kernel Nat := do
  let u ← kmalloc
  modify (·.setTable u ⟨fun _ => ⟨0⟩⟩)
  clonePages t u 1024 0
  return u

def cloneVm : Nat := 0x100

def kernelHighmemStart : Nat := kernelVirtualBase >>> 22

/-- The tables of the kernel stack. -/
def KstackTable (i : Nat) : Prop := kernelStackBot >>> 22 ≤ i ∧ i ≤ remapEnd >>> 22

instance (i : Nat) : Decidable (KstackTable i) := inferInstanceAs (Decidable (_ ∧ _))

/-- The flags and the range of the user stack that a directory is cloned with. -/
structure CloneArgs where
  flags : Nat
  stackTableBot : Int
  stackTableTop : Int

/-- The table of an index is linked and not copied. -/
def CloneArgs.Links (c : CloneArgs) (i : Nat) : Prop :=
  c.flags &&& cloneVm ≠ 0 ∧ ¬ KstackTable i ∧ ¬ (c.stackTableBot ≤ i ∧ (i : Int) ≤ c.stackTableTop)

instance (c : CloneArgs) (i : Nat) : Decidable (c.Links i) :=
  inferInstanceAs (Decidable (_ ∧ _ ∧ ¬ (_ ∧ _)))

/-- The index belongs to the kernel alone. -/
def Highmem (i : Nat) : Prop := kernelHighmemStart ≤ i ∧ ¬ KstackTable i

instance (i : Nat) : Decidable (Highmem i) := inferInstanceAs (Decidable (_ ∧ _))

/-- One turn of the loop of `page_dir::clone`; `k` is `kernel_page_dir`, `e` the new directory. -/
def cloneIndex (k d e : Nat) (c : CloneArgs) (i : Nat) : Kernel Unit := do
  let vm ← get
  if Highmem i then modify (·.setEntry e i ((vm.dir k).entries i) ((vm.dir k).tables i))
  else
    match (vm.dir d).tables i with
    | some t =>
      if c.Links i then modify (·.setEntry e i ((vm.dir d).entries i) (some t))
      else
        let u ← cloneTable t
        modify fun vm => vm.setEntry e i (Page.make ((vm.dir d).entries i) u).value (some u)
    | none =>
      if (vm.dir d).entries i &&& pagePresent ≠ 0 ∧ (vm.dir d).entries i &&& pageDir4m ≠ 0 then
        if (vm.dir d).entries i = (vm.dir k).entries i then
          modify (·.setEntry e i ((vm.dir k).entries i) ((vm.dir k).tables i))
        -- copying 4 MiB pages is not implemented
        else throw .halt

def cloneIndices (k d e : Nat) (c : CloneArgs) : Nat → Nat → Kernel Unit
  | 0, _ => return
  | n + 1, i => do
    cloneIndex k d e c i
    cloneIndices k d e c n (i + 1)

/-- `page_dir::clone` of the directory `d`. -/
def cloneDir (k d : Nat) (c : CloneArgs) : Kernel Nat := do
  let e ← kmalloc
  modify fun vm => { vm with dir := update vm.dir e ⟨fun _ => 0, fun _ => none⟩ }
  cloneIndices k d e c 1024 0
  return e

/-! ## Copying a frame -/

variable {vm : Vm}

theorem loadByte_run {d a f o : Nat} (h : vm.translate d a = some (f, o)) :
    loadByte d a vm = .ok (vm.frame f o) vm := by
  simp only [loadByte, get_bind, h, pure_run]

theorem storeByte_run {d a f o : Nat} (h : vm.translate d a = some (f, o))
    (v : BitVec 8) : storeByte d a v vm = .ok ⟨⟩ (vm.setByte f o v) := by
  simp only [storeByte, get_bind, h, modify_run]

/-- The first `n` bytes of the frame `f` have been copied to the frame `g`. -/
@[simps -fullyApplied]
def Vm.copyFrame (vm : Vm) (f g n : Nat) : Vm :=
  { vm with
    frame := update vm.frame g fun o => if o < n then vm.frame f o else vm.frame g o }

@[simp] theorem Vm.page_copyFrame (vm : Vm) (f g n : Nat) (p : Slot) :
    (vm.copyFrame f g n).page p = vm.page p := rfl

theorem Vm.copyFrame_zero (vm : Vm) (f g : Nat) : vm.copyFrame f g 0 = vm := by
  simp [Vm.copyFrame]

theorem Vm.copyFrame_succ (vm : Vm) {f g : Nat} (n : Nat) :
    (vm.copyFrame f g n).setByte g n (vm.frame f n) = vm.copyFrame f g (n + 1) := by
  simp only [Vm.setByte, Vm.copyFrame, update_self, update_idem]
  congr 2
  funext o
  by_cases ho : o = n
  · simp [ho]
  · have hlt : o < n + 1 ↔ o < n := by omega
    simp [ho, hlt]

theorem moveDword_run {d dst src f g n : Nat} (hne : f ≠ g)
    (hsrc : ∀ i < 4, vm.translate d (src + i) = some (f, n + i))
    (hdst : ∀ i < 4, vm.translate d (dst + i) = some (g, n + i)) :
    moveDword d dst src (vm.copyFrame f g n) = .ok ⟨⟩ (vm.copyFrame f g (n + 4)) := by
  have hload : ∀ i < 4, loadByte d (src + i) (vm.copyFrame f g n) =
      .ok (vm.frame f (n + i)) (vm.copyFrame f g n) := by
    intro i hi
    have ht : (vm.copyFrame f g n).translate d (src + i) = some (f, n + i) := hsrc i hi
    rw [loadByte_run ht]
    simp [hne]
  have hstore : ∀ i < 4, storeByte d (dst + i) (vm.frame f (n + i)) (vm.copyFrame f g (n + i)) =
      .ok ⟨⟩ (vm.copyFrame f g (n + i + 1)) := by
    intro i hi
    have ht : (vm.copyFrame f g (n + i)).translate d (dst + i) = some (g, n + i) := hdst i hi
    rw [storeByte_run ht, vm.copyFrame_succ]
  have hload₀ := hload 0 (by decide)
  have hstore₀ := hstore 0 (by decide)
  simp only [Nat.add_zero] at hload₀ hstore₀
  unfold moveDword
  rw [bind_of_ok hload₀, bind_of_ok (hload 1 (by decide)),
    bind_of_ok (hload 2 (by decide)), bind_of_ok (hload 3 (by decide)),
    bind_of_ok hstore₀, bind_of_ok (hstore 1 (by decide)), bind_of_ok (hstore 2 (by decide))]
  exact hstore 3 (by decide)

/-- The bytes of the page at `a` lead to the frame `f`. -/
def Vm.Leads (vm : Vm) (d a f : Nat) : Prop := ∀ o < pageSize, vm.translate d (a + o) = some (f, o)

theorem memcpyd_run {d a b f g : Nat} (hne : f ≠ g) (hsrc : vm.Leads d a f)
    (hdst : vm.Leads d b g) (ha : a + pageSize ≤ 2 ^ 32) (hb : b + pageSize ≤ 2 ^ 32)
    (num n src dst : Nat) (hn : n + 4 * num ≤ pageSize) (hs : 0 < num → src = a + n ∧ dst = b + n) :
    memcpyd d dst src num (vm.copyFrame f g n) = .ok ⟨⟩ (vm.copyFrame f g (n + 4 * num)) := by
  induction num generalizing n src dst with
  | zero => rfl
  | succ num ih =>
    obtain ⟨rfl, rfl⟩ := hs (Nat.succ_pos _)
    have hmove : moveDword d (b + n) (a + n) (vm.copyFrame f g n) =
        .ok ⟨⟩ (vm.copyFrame f g (n + 4)) := by
      apply moveDword_run hne
      · intro i hi
        rw [Nat.add_assoc]
        exact hsrc _ (by omega)
      · intro i hi
        rw [Nat.add_assoc]
        exact hdst _ (by omega)
    rw [memcpyd, bind_of_ok hmove, ih (n + 4) _ _ (by omega)]
    · congr 2
      omega
    -- the addresses wrap only behind the last page, when nothing is left
    · intro hpos
      exact ⟨u32_of_lt (by omega), u32_of_lt (by omega)⟩

/-! ## Writes to entries -/

theorem Vm.page_setPage (vm : Vm) (p q : Slot) (v : Page) :
    (vm.setPage p v).page q = if q = p then v else vm.page q := by
  obtain ⟨t, i⟩ := p
  obtain ⟨u, j⟩ := q
  simp only [Vm.page, Vm.setPage, Vm.setTable, Slot.mk.injEq]
  by_cases ht : u = t
  · subst ht
    by_cases hi : j = i
    · simp [hi]
    · simp [hi]
  · simp [ht]

theorem Vm.setPage_page (vm : Vm) (p : Slot) : vm.setPage p (vm.page p) = vm := by
  simp [Vm.setPage, Vm.setTable, Vm.page]

theorem Vm.setPage_setPage (vm : Vm) (p : Slot) (v w : Page) :
    (vm.setPage p v).setPage p w = vm.setPage p w := by
  simp [Vm.setPage, Vm.setTable]

theorem Vm.setPage_comm (vm : Vm) {p q : Slot} (h : p ≠ q) (v w : Page) :
    (vm.setPage p v).setPage q w = (vm.setPage q w).setPage p v := by
  obtain ⟨t, i⟩ := p
  obtain ⟨u, j⟩ := q
  by_cases ht : t = u
  · subst ht
    have hi : i ≠ j := by
      rintro rfl
      exact h rfl
    simp [Vm.setPage, Vm.setTable, update_comm hi]
  · simp [Vm.setPage, Vm.setTable, update_of_ne ht, update_of_ne (Ne.symm ht), update_comm ht]

theorem Vm.copyFrame_setPage (vm : Vm) (p : Slot) (v : Page) (f g n : Nat) :
    (vm.setPage p v).copyFrame f g n = (vm.copyFrame f g n).setPage p v := rfl

/-! ## The temporary mappings -/

/-- The current directory has the table `t` for the end of the address space. -/
structure Vm.Ends (vm : Vm) (t : Nat) : Prop where
  table : (vm.dir vm.curDir).tables 1023 = some t
  present : (vm.dir vm.curDir).entries 1023 &&& pagePresent ≠ 0
  small : (vm.dir vm.curDir).entries 1023 &&& pageDir4m = 0

variable {vm : Vm} {t : Nat}

theorem last_slot {i : Nat} (hi : i < 1024) :
    (0xFFC00 + i) >>> 10 = 1023 ∧ (0xFFC00 + i) &&& 1023 = i := by
  have hand : (0xFFC00 + i) &&& 1023 = (0xFFC00 + i) % 1024 := and_low _ 10
  rw [Nat.shiftRight_eq_div_pow]
  omega

/-- An address of the last table leads where the entry of its page says. -/
theorem Vm.Ends.leads (h : vm.Ends t) {i : Nat} (hi : i < 1024)
    (hp : (vm.page ⟨t, i⟩).present = true) :
    vm.Leads vm.curDir (0xFFC00000 + i * pageSize) (vm.page ⟨t, i⟩).addr := by
  intro o ho
  have hsize : pageSize = 4096 := rfl
  rw [hsize] at ho ⊢
  obtain ⟨a, ha⟩ : ∃ a, a = 0xFFC00000 + i * 4096 + o := ⟨_, rfl⟩
  rw [← ha]
  have hlow : a &&& 0xFFF = o := by
    have hand : a &&& 0xFFF = a % 4096 := and_low a 12
    omega
  have hpage : a >>> pageShift = 0xFFC00 + i := by
    rw [Nat.shiftRight_eq_div_pow, pageShift]
    omega
  have hidx : a >>> 22 = 1023 := by
    rw [Nat.shiftRight_eq_div_pow]
    omega
  obtain ⟨htab, hslot⟩ := last_slot hi
  have hpte : vm.pte vm.curDir (0xFFC00 + i) = vm.page ⟨t, i⟩ := by
    rw [Vm.pte, htab, h.table, hslot]
  simp only [Vm.translate, hidx, hpage, hpte, hp, hlow, h.present, h.small, ↓reduceIte,
    ne_eq, not_true_eq_false]

theorem Vm.Ends.getPage_run (h : vm.Ends t) {i : Nat} (hi : i < 1024) :
    getPage vm.curDir (0xFFC00 + i) vm = .ok (some ⟨t, i⟩) vm := by
  obtain ⟨htab, hslot⟩ := last_slot hi
  rw [Paging.getPage_run (by omega), htab, hslot, h.table]
  rfl

theorem Vm.Ends.setPage (h : vm.Ends t) (p : Slot) (v : Page) : (vm.setPage p v).Ends t :=
  ⟨h.table, h.present, h.small⟩

/-- What a temporary mapping of the frame `f` looks like. -/
def tempEntry (f : Nat) : Page := Page.make (pagePresent ||| pageRw) f

theorem tempEntry_present (f : Nat) : (tempEntry f).present = true := Page.make_present _ f

theorem tempEntry_addr {f : Nat} (hf : f < 2 ^ 20) : (tempEntry f).addr = f := Page.make_addr _ hf

theorem copyPages_done (d : Nat) (p q : Slot) (fuel : Nat) (vm : Vm) :
    copyPages d p q fuel 0 vm = .ok ⟨⟩ vm := by
  cases fuel with
  | zero => rfl
  | succ fuel => rfl

/-- One page is copied in one turn of the loop. -/
theorem Vm.Ends.copyPages_run (h : vm.Ends t) {f g : Nat} (hf : f < 2 ^ 20) (hg : g < 2 ^ 20)
    (hne : f ≠ g) (hsrc : vm.page ⟨t, 1023⟩ = tempEntry f) (hdst : vm.page ⟨t, 1022⟩ = tempEntry g)
    (fuel : Nat) : ∃ v w, copyPages vm.curDir ⟨t, 1022⟩ ⟨t, 1023⟩ (fuel + 1) (pageSize / 4) vm =
      .ok ⟨⟩ (((vm.copyFrame f g pageSize).setPage ⟨t, 1022⟩ v).setPage ⟨t, 1023⟩ w) := by
  have hls : vm.Leads vm.curDir srcVaddr f := by
    have hl := h.leads (i := 1023) (by decide) (by rw [hsrc]; exact tempEntry_present f)
    rwa [hsrc, tempEntry_addr hf] at hl
  have hld : vm.Leads vm.curDir dstVaddr g := by
    have hl := h.leads (i := 1022) (by decide) (by rw [hdst]; exact tempEntry_present g)
    rwa [hdst, tempEntry_addr hg] at hl
  have hcopy : memcpyd vm.curDir dstVaddr srcVaddr (pageSize / 4) vm =
      .ok ⟨⟩ (vm.copyFrame f g pageSize) := by
    have hrun := memcpyd_run hne hls hld (by decide) (by decide) (pageSize / 4) 0 srcVaddr dstVaddr
      (by decide) fun _ => ⟨rfl, rfl⟩
    rwa [Vm.copyFrame_zero] at hrun
  have hcount : ¬ pageSize / 4 = 0 := by decide
  simp only [copyPages, hcount, ↓reduceIte, Nat.min_self, Nat.sub_self]
  rw [bind_of_ok hcopy]
  simp only [modify_bind, copyPages_done]
  exact ⟨_, _, rfl⟩

/-- The frame is copied, and nothing else changes: the old mappings are back. -/
theorem Vm.Ends.memcpydPhysAligned_run (h : vm.Ends t) {f g : Nat} (hf : f < 2 ^ 20)
    (hg : g < 2 ^ 20) (hne : f ≠ g) :
    memcpydPhysAligned (g <<< pageShift) (f <<< pageShift) (pageSize / 4) vm =
      .ok ⟨⟩ (vm.copyFrame f g pageSize) := by
  have hds : (⟨t, 1022⟩ : Slot) ≠ ⟨t, 1023⟩ := by simp
  have hgd : getPage vm.curDir (dstVaddr >>> pageShift) vm = .ok (some ⟨t, 1022⟩) vm :=
    h.getPage_run (i := 1022) (by decide)
  have hgs : getPage vm.curDir (srcVaddr >>> pageShift) vm = .ok (some ⟨t, 1023⟩) vm :=
    h.getPage_run (i := 1023) (by decide)
  obtain ⟨vm₁, hvm₁⟩ : ∃ vm₁, vm₁ =
      (vm.setPage ⟨t, 1023⟩ (tempEntry f)).setPage ⟨t, 1022⟩ (tempEntry g) := ⟨_, rfl⟩
  have hends : vm₁.Ends t := hvm₁ ▸ (h.setPage _ _).setPage _ _
  have hsrc : vm₁.page ⟨t, 1023⟩ = tempEntry f := by
    rw [hvm₁, Vm.page_setPage, if_neg hds.symm, Vm.page_setPage, if_pos rfl]
  have hdst : vm₁.page ⟨t, 1022⟩ = tempEntry g := by
    rw [hvm₁, Vm.page_setPage, if_pos rfl]
  have hcur : vm₁.curDir = vm.curDir := hvm₁ ▸ rfl
  obtain ⟨v, w, hrun⟩ := hends.copyPages_run hf hg hne hsrc hdst (pageSize / 4 - 1)
  have hfuel : pageSize / 4 - 1 + 1 = pageSize / 4 := by decide
  rw [hcur, hfuel] at hrun
  have hback : ((((vm₁.copyFrame f g pageSize).setPage ⟨t, 1022⟩ v).setPage ⟨t, 1023⟩ w).setPage
      ⟨t, 1022⟩ (vm.page ⟨t, 1022⟩)).setPage ⟨t, 1023⟩ (vm.page ⟨t, 1023⟩) =
      vm.copyFrame f g pageSize := by
    have h1 : (vm.copyFrame f g pageSize).page ⟨t, 1022⟩ = vm.page ⟨t, 1022⟩ := rfl
    have h2 : (vm.copyFrame f g pageSize).page ⟨t, 1023⟩ = vm.page ⟨t, 1023⟩ := rfl
    rw [hvm₁, Vm.copyFrame_setPage, Vm.copyFrame_setPage, Vm.setPage_setPage,
      Vm.setPage_comm _ hds.symm w, Vm.setPage_setPage, Vm.setPage_setPage,
      Vm.setPage_comm _ hds.symm (tempEntry f), Vm.setPage_setPage, ← h1, Vm.setPage_page, ← h2,
      Vm.setPage_page]
  unfold memcpydPhysAligned
  rw [get_bind, bind_of_ok hgd, bind_of_ok hgs, get_bind]
  simp only [tempPage, pure_bind, modify_bind, Nat.shiftLeft_shiftRight]
  change (copyPages vm.curDir ⟨t, 1022⟩ ⟨t, 1023⟩ _ _ >>= _)
    ((vm.setPage ⟨t, 1023⟩ (tempEntry f)).setPage ⟨t, 1022⟩ (tempEntry g)) = _
  rw [← hvm₁, bind_of_ok hrun]
  simp [Vm.found, hback]

end Sysint.Paging
