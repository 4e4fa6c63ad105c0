import Sysint.Paging.Mapping

/-! `memory::remap` of `kernel/mem/memory.cpp`: windows on physical memory. -/
namespace Sysint.Memory

open Paging Hoare Option Nat
open Machine

def kernelIdmapSize : Nat := 0x10000000

def heapEnd : Nat := kernelVirtualBase + kernelIdmapSize + 0x20000000

def remapEnd : Nat := 0xFFFFC000

def kernelStackBot : Nat := remapEnd - 8192

def pageWritethrough : BitVec 32 := 8

def pageNocache : BitVec 32 := 16

/-- The loop of `page_dir::map_pages`, with `n` pages left from page `i` on. -/
def mapPages (d : Nat) (makeTable : Bool) (flags : BitVec 32) : Nat → Nat → Nat → Kernel Bool
  | 0, _, _ => return true
  | n + 1, i, addr => do
    let p ← if makeTable then some <$> makePage d i (pagePresent ||| pageRw) else getPage d i
    match p with
    | none => return false
    | some p =>
      modify (·.setPage p (Page.make flags (addr >>> pageShift)))
      mapPages d makeTable flags n (i + 1) (u32 (addr + pageSize))

/-- `page_dir::map_block`. -/
def mapBlock (d start addr sz : Nat) (makeTable : Bool) (flags : BitVec 32) : Kernel Bool :=
  mapPages d makeTable flags (sz >>> pageShift) (start >>> pageShift) addr

def remapFlags (cache : Bool) : BitVec 32 :=
  pagePresent ||| pageRw ||| if cache then 0 else pageWritethrough ||| pageNocache

/-- The call is served from the identity map. -/
def Idmapped (phys sz : Nat) (cache : Bool) : Prop :=
  cache = true ∧ u32 (phys + sz) < kernelIdmapSize

instance (phys sz : Nat) (cache : Bool) : Decidable (Idmapped phys sz cache) :=
  inferInstanceAs (Decidable (_ ∧ _))

/-- `d` is `kernel_page_dir`. Returns the window, 0 for the null pointer, and the new value of
the static variable `curpos`. -/
def remap (d curpos phys sz : Nat) (cache : Bool) : Kernel (Nat × Nat) := do
  if Idmapped phys sz cache then return (u32 (phys + kernelVirtualBase), curpos)
  else if phys < kernelIdmapSize then return (0, curpos)
  else
    -- round down the address and round up the size
    let sz := alignAddr (u32 (sz + (phys &&& 0xFFF)))
    let phys := phys &&& 0xFFFFF000
    if sub32 remapEnd curpos ≤ sz then return (0, curpos)
    else if ← mapBlock d curpos phys sz false (remapFlags cache) then
      return (curpos, u32 (curpos + sz))
    else return (0, curpos)

/-! ## Mapping pages that have tables -/

variable {vm : Vm} {d : Nat}

/-- Pages that have tables are all mapped, to consecutive frames. -/
theorem mapPages_run (flags : BitVec 32) {n i addr : Nat} (hi : i + n ≤ 2 ^ 20)
    (haddr : addr < 2 ^ 32) (hs : vm.Sound d)
    (ht : ∀ m, Within i n m → (vm.dir d).tables (m >>> 10) ≠ none) :
    ∃ vm', mapPages d false flags n i addr vm = .ok true vm' ∧ vm'.Sound d ∧ vm'.dir = vm.dir ∧
      ∀ m, vm'.pte d m = if Within i n m then
        Page.make flags (u32 (addr + (m - i) * pageSize) >>> pageShift) else vm.pte d m := by
  induction n generalizing i addr vm with
  | zero =>
    refine ⟨vm, rfl, hs, rfl, fun m => ?_⟩
    rw [if_neg]
    unfold Within
    omega
  | succ n ih =>
    obtain ⟨t, hti⟩ := ne_none_iff_exists'.mp (ht i ⟨by omega, by omega⟩)
    have hat : vm.At d i ⟨t, i &&& 1023⟩ := ⟨hti, rfl⟩
    have hget := getPage_run (by omega : i < 2 ^ 20) d vm
    rw [hti] at hget
    have hrest : ∀ m, Within (i + 1) n m → (vm.dir d).tables (m >>> 10) ≠ none := by
      rintro m ⟨h1, h2⟩
      exact ht m ⟨by omega, by omega⟩
    have hset : (vm.setPage ⟨t, i &&& 1023⟩ (Page.make flags (addr >>> pageShift))).Sound d :=
      ⟨hs.inj, hs.unused, hs.nodup⟩
    obtain ⟨vm', hrun, hs', hdir, hpte⟩ :=
      ih (by omega : i + 1 + n ≤ 2 ^ 20) (u32_lt (addr + pageSize)) hset hrest
    refine ⟨vm', ?_, hs', hdir, fun m => ?_⟩
    · simp only [mapPages, Bool.false_eq_true, ↓reduceIte]
      rw [bind_of_ok hget]
      simp [hrun]
    rw [hpte m, hat.pte_setPage hs]
    by_cases hm : m = i
    · subst hm
      have h1 : ¬ Within (m + 1) n m := by
        unfold Within
        omega
      have h2 : Within m (n + 1) m := ⟨by omega, by omega⟩
      rw [if_neg h1, if_pos rfl, if_pos h2, Nat.sub_self, Nat.zero_mul, Nat.add_zero,
        u32_of_lt haddr]
    · have hiff : Within (i + 1) n m ↔ Within i (n + 1) m := by
        unfold Within
        omega
      have hnext : Within i (n + 1) m → u32 (u32 (addr + pageSize) + (m - (i + 1)) * pageSize) =
          u32 (addr + (m - i) * pageSize) := by
        rintro ⟨h1, -⟩
        obtain ⟨j, rfl⟩ : ∃ j, m = i + 1 + j := ⟨m - (i + 1), by omega⟩
        rw [show i + 1 + j - (i + 1) = j by omega, show i + 1 + j - i = j + 1 by omega,
          succ_mul]
        simp only [u32]
        omega
      by_cases hw : Within i (n + 1) m
      · rw [if_pos hw, if_pos (hiff.mpr hw), hnext hw]
      · rw [if_neg hw, if_neg fun h => hw (hiff.mp h), if_neg hm]

/-! ## Where windows lead -/

/-- The physical address that an address leads to. -/
def physical (vm : Vm) (d a : Nat) : Option Nat :=
  (vm.translate d a).map fun (f, o) => f * pageSize + o

/-- The entry of the identity map for its 4 MiB page `k`. -/
def idmapEntry (k : Nat) : BitVec 32 := 0x83 ||| BitVec.ofNat 32 (k <<< 22)

/-- What `paging::init` leaves of `kernel_page_dir`: 4 MiB pages for the identity map, and
tables for the remap area. -/
structure Booted (vm : Vm) (d : Nat) : Prop where
  sound : vm.Sound d
  idmap : ∀ k, k < 64 → (vm.dir d).entries (0x300 + k) = idmapEntry k
  tables : ∀ j, heapEnd >>> 22 ≤ j → j < 1024 → (vm.dir d).tables j ≠ none ∧
    (vm.dir d).entries j &&& pagePresent ≠ 0 ∧ (vm.dir d).entries j &&& pageDir4m = 0

theorem idmapEntry_spec : ∀ k < 64, idmapEntry k &&& pagePresent ≠ 0 ∧
    idmapEntry k &&& pageDir4m ≠ 0 ∧ (idmapEntry k).toNat >>> pageShift = k * 1024 := by
  decide +kernel

theorem physical_pair {f o a : Nat} (ho : o = a &&& 0xFFF) : f * pageSize + o =
    f * 4096 + a % 4096 := by
  have hlow : a &&& 0xFFF = a % 4096 := and_low a 12
  rw [ho, hlow]
  rfl

/-- The identity map. -/
theorem Booted.physical_idmap (h : Booted vm d) {a : Nat} (hlo : kernelVirtualBase ≤ a)
    (hhi : a < kernelVirtualBase + kernelIdmapSize) :
    physical vm d a = some (a - kernelVirtualBase) := by
  unfold kernelVirtualBase kernelIdmapSize at *
  have hidx : a >>> 22 = 0x300 + (a - 0xC0000000) / 2 ^ 22 := by
    rw [shiftRight_eq_div_pow]
    omega
  obtain ⟨h1, h2, h3⟩ := idmapEntry_spec ((a - 0xC0000000) / 2 ^ 22) (by omega)
  have hpage : (a >>> pageShift) &&& 1023 = a / 4096 % 1024 := by
    rw [shiftRight_eq_div_pow]
    exact and_low _ 10
  simp only [physical, Vm.translate, hidx, h.idmap _ (by omega : (a - 0xC0000000) / 2 ^ 22 < 64),
    h1, h2, h3, hpage, ↓reduceIte, ne_eq, not_false_eq_true, map_some, physical_pair rfl,
    some.injEq]
  omega

/-- The remap area. -/
theorem Booted.physical_remap (h : Booted vm d) {a : Nat} (hlo : heapEnd ≤ a) (hhi : a < 2 ^ 32) :
    physical vm d a = if (vm.pte d (a / 4096)).present then
      some ((vm.pte d (a / 4096)).addr * 4096 + a % 4096) else none := by
  have hidx : heapEnd >>> 22 ≤ a >>> 22 := by
    rw [shiftRight_eq_div_pow, shiftRight_eq_div_pow]
    exact Nat.div_le_div_right hlo
  have hlt : a >>> 22 < 1024 := by
    rw [shiftRight_eq_div_pow]
    omega
  obtain ⟨-, h1, h2⟩ := h.tables _ hidx hlt
  have hpage : a >>> pageShift = a / 4096 := shiftRight_eq_div_pow a 12
  simp only [physical, Vm.translate, h1, h2, hpage, ↓reduceIte, ne_eq, not_true_eq_false]
  cases (vm.pte d (a / 4096)).present with
  | true => simp [physical_pair rfl]
  | false => rfl

/-! ## Runs -/

/-- A window, and whether it was served from the identity map. -/
structure Window where
  va : Nat
  phys : Nat
  sz : Nat
  ident : Bool

def Window.Apart (v w : Window) : Prop := v.va + v.sz ≤ w.va ∨ w.va + w.sz ≤ v.va

instance (v w : Window) : Decidable (v.Apart w) := inferInstanceAs (Decidable (_ ∨ _))

/-- The arguments of `remap`. -/
structure Call where
  phys : Nat
  sz : Nat
  cache : Bool

/-- The state that calls of `remap` go through, with the windows they have returned. -/
structure Remaps where
  vm : Vm
  curpos : Nat
  windows : List Window

def Remaps.step (d : Nat) (s : Remaps) (c : Call) : Option Remaps :=
  match remap d s.curpos c.phys c.sz c.cache s.vm with
  | .ok (va, pos) vm =>
    let w : Window := ⟨va, c.phys, c.sz, decide (Idmapped c.phys c.sz c.cache)⟩
    some ⟨vm, pos, if va = 0 then s.windows else w :: s.windows⟩
  | .error _ _ => none

def Remaps.Start (d : Nat) (s : Remaps) : Prop :=
  Booted s.vm d ∧ s.curpos = heapEnd ∧ s.windows = []

/-- No sum of the call wraps. A call for the identity map asks for memory that it has not been
asked for before; any other call that is not refused asks for whole pages, and its window ends
below the kernel stack. -/
structure Proper (s : Remaps) (c : Call) : Prop where
  pos : 0 < c.sz
  fits : c.phys + c.sz ≤ 2 ^ 32 ∧ (c.cache = true → c.phys + c.sz < 2 ^ 32)
  ident : Idmapped c.phys c.sz c.cache → ∀ w ∈ s.windows, w.ident = true →
    Window.Apart ⟨c.phys + kernelVirtualBase, c.phys, c.sz, true⟩ w
  area : ¬ Idmapped c.phys c.sz c.cache → kernelIdmapSize ≤ c.phys → pageSize ∣ c.phys ∧
    (s.curpos + alignAddr c.sz ≤ kernelStackBot ∨ remapEnd ≤ s.curpos + alignAddr c.sz)

structure Remaps.Inv (d : Nat) (s : Remaps) : Prop where
  booted : Booted s.vm d
  cursor : heapEnd ≤ s.curpos ∧ s.curpos ≤ kernelStackBot ∧ pageSize ∣ s.curpos
  leads : ∀ w ∈ s.windows, ∀ o < w.sz, physical s.vm d (w.va + o) = some (w.phys + o)
  place : ∀ w ∈ s.windows, (w.ident = true → kernelVirtualBase ≤ w.va ∧ w.va + w.sz ≤ heapEnd) ∧
    (w.ident = false → heapEnd ≤ w.va ∧ w.va + w.sz ≤ s.curpos)
  apart : s.windows.Pairwise Window.Apart

variable {s t : Remaps} {c : Call}

theorem heapEnd_eq : heapEnd = 0xF0000000 := rfl

theorem remapEnd_eq : remapEnd = 0xFFFFC000 := rfl

theorem kernelStackBot_eq : kernelStackBot = 0xFFFFA000 := rfl

/-- The part of `remap` behind its tests does not fail. -/
theorem Booted.mapBlock (h : Booted vm d) {curpos phys sz : Nat} (flags : BitVec 32)
    (hlo : heapEnd ≤ curpos) (hhi : curpos + sz ≤ remapEnd) (hphys : phys < 2 ^ 32) :
    ∃ vm', Memory.mapBlock d curpos phys sz false flags vm = .ok true vm' ∧ Booted vm' d ∧
      vm'.dir = vm.dir ∧ ∀ m, vm'.pte d m = if Within (curpos / 4096) (sz / 4096) m then
        Page.make flags (u32 (phys + (m - curpos / 4096) * pageSize) >>> pageShift)
          else vm.pte d m := by
  have hshift : ∀ a, a >>> pageShift = a / 4096 := fun a => shiftRight_eq_div_pow a 12
  rw [heapEnd_eq] at hlo
  rw [remapEnd_eq] at hhi
  have htables : ∀ m, Within (curpos / 4096) (sz / 4096) m →
    (vm.dir d).tables (m >>> 10) ≠ none := by
    rintro m ⟨h1, h2⟩
    refine (h.tables _ ?_ ?_).1
    · rw [heapEnd_eq, shiftRight_eq_div_pow, shiftRight_eq_div_pow]
      omega
    · rw [shiftRight_eq_div_pow]
      omega
  obtain ⟨vm', hrun, hs, hdir, hpte⟩ := mapPages_run flags (by omega) hphys h.sound htables
  refine ⟨vm', ?_, ⟨hs, ?_, ?_⟩, hdir, hpte⟩
  · rw [Memory.mapBlock, hshift, hshift]
    exact hrun
  · rw [hdir]
    exact h.idmap
  · rw [hdir]
    exact h.tables

/-- A call that passes the tests of `remap`. -/
theorem Booted.remap_run (h : Booted vm d) {curpos phys sz : Nat} {cache : Bool}
    (hid : ¬ Idmapped phys sz cache) (hphys : kernelIdmapSize ≤ phys) (hlt : phys < 2 ^ 32)
    (hlo : heapEnd ≤ curpos) (hroom : curpos + alignAddr (u32 (sz + (phys &&& 0xFFF))) < remapEnd) :
    ∃ vm', remap d curpos phys sz cache vm =
        .ok (curpos, curpos + alignAddr (u32 (sz + (phys &&& 0xFFF)))) vm' ∧
      Booted vm' d ∧ vm'.dir = vm.dir ∧ ∀ m, vm'.pte d m =
        if Within (curpos / 4096) (alignAddr (u32 (sz + (phys &&& 0xFFF))) / 4096) m then
          Page.make (remapFlags cache)
            (u32 ((phys &&& 0xFFFFF000) + (m - curpos / 4096) * pageSize) >>> pageShift)
        else vm.pte d m := by
  have hend := Nat.le_of_lt hroom
  rw [remapEnd_eq] at hroom
  have hlow : phys &&& 0xFFFFF000 < 2 ^ 32 := Nat.lt_of_le_of_lt and_le_left hlt
  have hsub : ¬ sub32 remapEnd curpos ≤ alignAddr (u32 (sz + (phys &&& 0xFFF))) := by
    rw [sub32_of_le (by decide) (by rw [remapEnd_eq]; omega), remapEnd_eq]
    omega
  obtain ⟨vm', hmap, hboot, hdir, hpte⟩ := h.mapBlock (remapFlags cache) hlo hend hlow
  refine ⟨vm', ?_, hboot, hdir, hpte⟩
  have hnext := u32_of_lt (by omega :
    curpos + alignAddr (u32 (sz + (phys &&& 0xFFF))) < 2 ^ 32)
  simp only [remap, hid, ↓reduceIte, Nat.not_lt.mpr hphys, hsub]
  rw [bind_of_ok hmap, if_pos rfl, hnext, pure_run]

/-- The null pointer is returned before anything changes. -/
theorem Remaps.Inv.null (h : s.Inv d) {phys sz pos : Nat} {cache : Bool} {vm' : Vm}
    (hlt : phys < 2 ^ 32) (hrun : remap d s.curpos phys sz cache s.vm = .ok (0, pos) vm') :
    vm' = s.vm ∧ pos = s.curpos := by
  obtain ⟨hlo, hhi, -⟩ := h.cursor
  have hret : ∀ va, remap d s.curpos phys sz cache s.vm = .ok (va, s.curpos) s.vm →
      vm' = s.vm ∧ pos = s.curpos := by
    intro va hr
    rw [hr] at hrun
    obtain ⟨h1, h2⟩ := EStateM.Result.ok.inj hrun
    exact ⟨h2.symm, (congrArg Prod.snd h1).symm⟩
  by_cases hid : Idmapped phys sz cache
  · apply hret
    simp only [remap, hid, ↓reduceIte, pure_run]
    rfl
  by_cases hphys : kernelIdmapSize ≤ phys
  · by_cases hroom : s.curpos + alignAddr (u32 (sz + (phys &&& 0xFFF))) < remapEnd
    · obtain ⟨vm₁, hr, -⟩ := h.booted.remap_run hid hphys hlt hlo hroom
      rw [hr] at hrun
      have hva : s.curpos = 0 := congrArg Prod.fst (EStateM.Result.ok.inj hrun).1
      rw [heapEnd_eq] at hlo
      omega
    apply hret
    have hsub : sub32 remapEnd s.curpos ≤ alignAddr (u32 (sz + (phys &&& 0xFFF))) := by
      rw [kernelStackBot_eq] at hhi
      rw [sub32_of_le (by decide) (by rw [remapEnd_eq]; omega)]
      omega
    simp only [remap, hid, ↓reduceIte, Nat.not_lt.mpr hphys, hsub, pure_run]
    rfl
  · apply hret
    simp only [remap, hid, ↓reduceIte, Nat.lt_of_not_le hphys, pure_run]
    rfl

/-- Windows lie below the cursor. -/
theorem Remaps.Inv.below (h : s.Inv d) {w : Window} (hw : w ∈ s.windows) :
    w.va + w.sz ≤ s.curpos := by
  cases hwi : w.ident with
  | true => exact Nat.le_trans ((h.place w hw).1 hwi).2 h.cursor.1
  | false => exact ((h.place w hw).2 hwi).2

/-- A call returns the window `w`. -/
theorem Remaps.Inv.add (h : s.Inv d) {w : Window} {pos : Nat} {vm' : Vm}
    (hrun : remap d s.curpos c.phys c.sz c.cache s.vm = .ok (w.va, pos) vm')
    (hw : w = ⟨w.va, c.phys, c.sz, decide (Idmapped c.phys c.sz c.cache)⟩) (hva : w.va ≠ 0)
    (hboot : Booted vm' d) (hpos : s.curpos ≤ pos ∧ pos ≤ kernelStackBot ∧ pageSize ∣ pos)
    (hkeep : ∀ a, a < s.curpos → physical vm' d a = physical s.vm d a)
    (hleads : ∀ o < w.sz, physical vm' d (w.va + o) = some (w.phys + o))
    (hplace : (w.ident = true → kernelVirtualBase ≤ w.va ∧ w.va + w.sz ≤ heapEnd) ∧
      (w.ident = false → heapEnd ≤ w.va ∧ w.va + w.sz ≤ pos))
    (hapart : ∀ v ∈ s.windows, w.Apart v) : ∃ t, s.step d c = some t ∧ t.Inv d := by
  have hstep : s.step d c = some ⟨vm', pos, w :: s.windows⟩ := by
    simp [Remaps.step, hrun, hva, ← hw]
  refine ⟨_, hstep, hboot, ⟨Nat.le_trans h.cursor.1 hpos.1, hpos.2⟩, ?_, ?_, ?_⟩
  · intro v hv o ho
    rcases List.mem_cons.mp hv with rfl | hv
    · exact hleads o ho
    · have := h.below hv
      exact (hkeep _ (by omega)).trans (h.leads v hv o ho)
  · intro v hv
    rcases List.mem_cons.mp hv with rfl | hv
    · exact hplace
    · have hold := h.place v hv
      refine ⟨hold.1, fun hi => ⟨(hold.2 hi).1, Nat.le_trans (hold.2 hi).2 hpos.1⟩⟩
  · exact List.Pairwise.cons hapart h.apart

/-- A call for the identity map. -/
theorem Remaps.Inv.step_ident (h : s.Inv d) (hok : Proper s c)
    (hid : Idmapped c.phys c.sz c.cache) : ∃ t, s.step d c = some t ∧ t.Inv d := by
  have hlow := hid.2
  rw [u32_of_lt (hok.fits.2 hid.1)] at hlow
  have hbase : kernelVirtualBase = 0xC0000000 := rfl
  have hsize : kernelIdmapSize = 0x10000000 := rfl
  obtain ⟨va, hva⟩ : ∃ va, va = c.phys + kernelVirtualBase := ⟨_, rfl⟩
  have hapart := hok.ident hid
  rw [← hva] at hapart
  have hsum : u32 (c.phys + kernelVirtualBase) = va := by
    rw [hva]
    exact u32_of_lt (by omega)
  have hrun : remap d s.curpos c.phys c.sz c.cache s.vm = .ok (va, s.curpos) s.vm := by
    simp [remap, hid, hsum]
  have hcur := h.cursor
  apply h.add (w := ⟨va, c.phys, c.sz, true⟩) hrun
  · rw [decide_eq_true hid]
  · simp only
    omega
  · exact h.booted
  · exact ⟨Nat.le_refl _, hcur.2⟩
  · exact fun _ _ => rfl
  · intro o ho
    simp only at ho ⊢
    have hback : va + o - kernelVirtualBase = c.phys + o := by omega
    rw [h.booted.physical_idmap (by omega) (by omega), hback]
  · constructor
    · intro _
      rw [heapEnd_eq]
      simp only
      omega
    · intro hf
      cases hf
  · intro v hv
    cases hvi : v.ident with
    | true => exact hapart v hv hvi
    | false =>
      left
      have := ((h.place v hv).2 hvi).1
      rw [heapEnd_eq] at this
      simp only
      omega

theorem remapFlags_present : ∀ cache, (remapFlags cache).getLsbD 0 = true := by decide

/-- A call for the remap area asks for whole pages, so rounding leaves its arguments alone. -/
theorem Proper.rounded (hok : Proper s c) (hid : ¬ Idmapped c.phys c.sz c.cache)
    (hphys : kernelIdmapSize ≤ c.phys) : 4096 ∣ c.phys ∧
      u32 (c.sz + (c.phys &&& 0xFFF)) = c.sz ∧ c.phys &&& 0xFFFFF000 = c.phys ∧
      alignAddr c.sz = (c.sz + 4095) / 4096 * 4096 := by
  have hpal : 4096 ∣ c.phys := (hok.area hid hphys).1
  have hfits := hok.fits.1
  have hpos := hok.pos
  have hsize : kernelIdmapSize = 0x10000000 := rfl
  have hlow : c.phys &&& 0xFFF = 0 := by
    have : c.phys &&& 0xFFF = c.phys % 4096 := and_low c.phys 12
    omega
  refine ⟨hpal, ?_, ?_, ?_⟩
  · rw [hlow]
    exact u32_of_lt (by omega)
  · rw [and_high (by omega) 12 _ (by decide) (by decide)]
    omega
  · rw [alignAddr_eq (by omega), u32_of_lt (by omega)]

/-- A call that takes the next pages of the remap area. -/
theorem Remaps.Inv.step_area (h : s.Inv d) (hok : Proper s c)
    (hid : ¬ Idmapped c.phys c.sz c.cache) (hphys : kernelIdmapSize ≤ c.phys)
    (hroom : s.curpos + alignAddr c.sz ≤ kernelStackBot) : ∃ t, s.step d c = some t ∧ t.Inv d := by
  obtain ⟨hlo, hhi, hal⟩ := h.cursor
  obtain ⟨hpal, hsz, hhigh, halign⟩ := hok.rounded hid hphys
  have hfits := hok.fits.1
  have hpos := hok.pos
  have hpage : pageSize = 4096 := rfl
  rw [hpage] at hal
  rw [kernelStackBot_eq] at hroom
  obtain ⟨vm', hrun, hboot, hdir, hpte⟩ := h.booted.remap_run hid hphys (by omega) hlo
    (by rw [hsz, remapEnd_eq]; omega)
  rw [hsz] at hrun
  rw [hsz, hhigh] at hpte
  rw [heapEnd_eq] at hlo
  rw [halign] at hpte hrun hroom
  apply h.add (w := ⟨s.curpos, c.phys, c.sz, false⟩) hrun
  · rw [decide_eq_false hid]
  · simp only
    omega
  · exact hboot
  · rw [kernelStackBot_eq, hpage]
    exact ⟨by omega, by omega, by omega⟩
  · intro a ha
    have hout : ¬ Within (s.curpos / 4096) ((c.sz + 4095) / 4096 * 4096 / 4096)
        (a >>> pageShift) := by
      have hshift : a >>> pageShift = a / 4096 := shiftRight_eq_div_pow a 12
      rw [hshift]
      unfold Within
      omega
    simp only [physical, Vm.translate, hdir, hpte, if_neg hout]
  · intro o ho
    simp only at ho ⊢
    have hin : Within (s.curpos / 4096) ((c.sz + 4095) / 4096 * 4096 / 4096)
        ((s.curpos + o) / 4096) := by
      unfold Within
      omega
    have hframe : u32 (c.phys + ((s.curpos + o) / 4096 - s.curpos / 4096) * pageSize) >>>
        pageShift = c.phys / 4096 + o / 4096 := by
      rw [hpage, u32_of_lt (by omega), shiftRight_eq_div_pow, pageShift]
      omega
    rw [hboot.physical_remap (by rw [heapEnd_eq]; omega) (by omega), hpte, if_pos hin,
      Page.make_present, remapFlags_present, hframe, Page.make_addr _ (by omega), if_pos rfl]
    have hsum : (c.phys / 4096 + o / 4096) * 4096 + (s.curpos + o) % 4096 = c.phys + o := by omega
    rw [hsum]
  · constructor
    · intro hf
      cases hf
    · intro _
      simp only [heapEnd_eq]
      omega
  · intro v hv
    right
    exact h.below hv

theorem Remaps.Inv.step (h : s.Inv d) (hok : Proper s c) : ∃ t, s.step d c = some t ∧ t.Inv d := by
  by_cases hid : Idmapped c.phys c.sz c.cache
  · exact h.step_ident hok hid
  have hnull : remap d s.curpos c.phys c.sz c.cache s.vm = .ok (0, s.curpos) s.vm →
      ∃ t, s.step d c = some t ∧ t.Inv d := by
    intro hrun
    refine ⟨s, ?_, h⟩
    simp [Remaps.step, hrun]
  by_cases hphys : kernelIdmapSize ≤ c.phys
  · by_cases hroom : s.curpos + alignAddr c.sz ≤ kernelStackBot
    · exact h.step_area hok hid hphys hroom
    apply hnull
    obtain ⟨-, hsz, -⟩ := hok.rounded hid hphys
    have hfull := (hok.area hid hphys).2.resolve_left hroom
    have hcur := h.cursor
    rw [kernelStackBot_eq] at hcur
    have hsub : sub32 remapEnd s.curpos ≤ alignAddr c.sz := by
      rw [sub32_of_le (by decide) (by rw [remapEnd_eq]; omega)]
      omega
    simp [remap, hid, Nat.not_lt.mpr hphys, hsz, hsub]
  · apply hnull
    simp [remap, hid, Nat.lt_of_not_le hphys]

theorem reach_remaps (h : Reach (Remaps.Start d) (Remaps.step d) Proper s) : s.Inv d := by
  apply Reach.invariant _ _ h
  · rintro s ⟨hboot, hcur, hnil⟩
    refine ⟨hboot, ?_, by simp [hnil], by simp [hnil], by simp [hnil]⟩
    rw [hcur]
    decide
  · intro s c t hi hok hstep
    obtain ⟨t', ht, hi'⟩ := hi.step hok
    rw [ht] at hstep
    exact Option.some.inj hstep ▸ hi'

/-- **Windows are private and lead where they should**, in every run of proper calls from
`paging::init`; and a null pointer is returned before anything changes, whatever the call. -/
theorem remap_windows (h : Reach (Remaps.Start d) (Remaps.step d) Proper s) :
    (∀ w ∈ s.windows, (∀ o < w.sz, physical s.vm d (w.va + o) = some (w.phys + o)) ∧
      (w.ident = false → heapEnd ≤ w.va ∧ w.va + w.sz ≤ kernelStackBot)) ∧
    s.windows.Pairwise Window.Apart ∧ (∀ c, Proper s c → ∃ t, s.step d c = some t) ∧
    ∀ phys sz cache pos vm', phys < 2 ^ 32 →
      remap d s.curpos phys sz cache s.vm = .ok (0, pos) vm' → vm' = s.vm ∧ pos = s.curpos := by
  have hi := reach_remaps h
  refine ⟨?_, hi.apart, ?_, ?_⟩
  · intro w hw
    refine ⟨hi.leads w hw, fun hwi => ?_⟩
    have hplace := (hi.place w hw).2 hwi
    exact ⟨hplace.1, Nat.le_trans hplace.2 hi.cursor.2.1⟩
  · intro c hok
    obtain ⟨t, ht, -⟩ := hi.step hok
    exact ⟨t, ht⟩
  · intro phys sz cache pos vm' hphys hrun
    exact hi.null hphys hrun

/-- The kernel's directory as `paging::init` makes it. -/
def kernelVm : Vm where
  buddy := init bootOne
  frame := fun _ _ => 0
  table := fun _ => ⟨fun _ => ⟨0⟩⟩
  dir := fun _ =>
    { entries := fun j =>
        if 0x340 ≤ j ∧ j < 1024 then (Page.make (pagePresent ||| pageRw) j).value
        else if 0x300 ≤ j ∧ j < 0x340 then idmapEntry (j - 0x300) else 0
      tables := fun j => if 0x340 ≤ j ∧ j < 1024 then some j else none }
  spare := []
  curDir := 0

theorem kernelVm_booted : Booted kernelVm 0 where
  sound := by
    refine ⟨?_, ?_, List.nodup_nil⟩
    · intro i j t hi hj
      simp only [kernelVm] at hi hj
      grind
    · intro i t ht
      cases ht
  idmap := by
    intro k hk
    have h1 : ¬ (0x340 ≤ 0x300 + k ∧ 0x300 + k < 1024) := by omega
    have h2 : 0x300 ≤ 0x300 + k ∧ 0x300 + k < 0x340 := by omega
    simp [kernelVm, h1, h2]
  tables := by
    intro j hlo hhi
    have hj : 0x340 ≤ j ∧ j < 1024 := by
      have : heapEnd >>> 22 = 0x3C0 := by decide
      omega
    simp only [kernelVm, hj, and_self, ↓reduceIte]
    refine ⟨by simp, ?_, ?_⟩
    · rw [Page.make_and_flag (by decide)]
      decide
    · rw [Page.make_and_flag (by decide)]
      decide

theorem kernelVm_start : Remaps.Start 0 ⟨kernelVm, heapEnd, []⟩ := ⟨kernelVm_booted, rfl, rfl⟩

instance (s : Remaps) (c : Call) : Decidable (Proper s c) :=
  decidable_of_iff (0 < c.sz ∧
    (c.phys + c.sz ≤ 2 ^ 32 ∧ (c.cache = true → c.phys + c.sz < 2 ^ 32)) ∧
    (Idmapped c.phys c.sz c.cache → ∀ w ∈ s.windows, w.ident = true →
      Window.Apart ⟨c.phys + kernelVirtualBase, c.phys, c.sz, true⟩ w) ∧
    (¬ Idmapped c.phys c.sz c.cache → kernelIdmapSize ≤ c.phys → pageSize ∣ c.phys ∧
      (s.curpos + alignAddr c.sz ≤ kernelStackBot ∨ remapEnd ≤ s.curpos + alignAddr c.sz)))
    ⟨fun h => ⟨h.1, h.2.1, h.2.2.1, h.2.2.2⟩, fun h => ⟨h.pos, h.fits, h.ident, h.area⟩⟩

theorem remap_windows_sample : ∃ s, run (guarded (Remaps.step 0) Proper) ⟨kernelVm, heapEnd, []⟩
        [⟨0xFEC00000, 0x1800, false⟩, ⟨0xB8000, 4000, true⟩, ⟨0xFEE00000, 0x400, false⟩] = some s ∧
      s.windows.map Window.va = [0xF0002000, 0xC00B8000, 0xF0000000] ∧
      s.windows.Pairwise Window.Apart := by
  have hrun : (run (guarded (Remaps.step 0) Proper) ⟨kernelVm, heapEnd, []⟩
      [⟨0xFEC00000, 0x1800, false⟩, ⟨0xB8000, 4000, true⟩, ⟨0xFEE00000, 0x400, false⟩]).map
        (fun s => s.windows.map Window.va) = some [0xF0002000, 0xC00B8000, 0xF0000000] := by
    decide +kernel
  obtain ⟨s, hs, hva⟩ := run_of_map hrun
  have hreach : Reach (Remaps.Start 0) (Remaps.step 0) Proper s :=
    Reach.runGuarded (.init kernelVm_start) hs
  exact ⟨s, hs, hva, (remap_windows hreach).2.1⟩

/-- An address inside of a page: the window leads to the start of the page. A size that wraps:
one page is mapped for almost 4 GiB. A cached address that wraps: nothing is mapped at the
window. Two windows of the identity map at one address. A window over the kernel stack. -/
theorem remap_wrong_windows : Remaps.Start 0 ⟨kernelVm, heapEnd, []⟩ ∧
    outcome (remap 0 heapEnd 0xFEC00010 4 false) kernelVm
      (fun r vm => (r.1, physical vm 0 r.1)) = some (0xF0000000, some 0xFEC00000) ∧
    outcome (remap 0 heapEnd 0xFEC00010 0xFFFFFFF8 false) kernelVm
      (fun r vm => (r, physical vm 0 (r.1 + 0x1000))) = some ((0xF0000000, 0xF0001000), none) ∧
    outcome (remap 0 heapEnd 0xFFFFF000 0x2000 true) kernelVm
      (fun r vm => (r.1, physical vm 0 r.1)) = some (0xBFFFF000, none) ∧
    (run (Remaps.step 0) ⟨kernelVm, heapEnd, []⟩
      [⟨0xB8000, 4000, true⟩, ⟨0xB8000, 4000, true⟩]).map (fun s => s.windows.map Window.va) =
        some [0xC00B8000, 0xC00B8000] ∧
    ∃ vm, remap 0 heapEnd 0x10000000 0x0FFFB000 false kernelVm = .ok (heapEnd, 0xFFFFB000) vm ∧
      kernelStackBot < heapEnd + 0x0FFFB000 := by
  refine ⟨kernelVm_start, by decide +kernel, by decide +kernel, by decide +kernel,
    by decide +kernel, ?_⟩
  obtain ⟨vm, hrun, -⟩ := kernelVm_booted.remap_run
    (by decide : ¬ Idmapped 0x10000000 0x0FFFB000 false) (by decide) (by decide)
    (Nat.le_refl heapEnd) (by decide)
  have hend : heapEnd + alignAddr (u32 (0x0FFFB000 + (0x10000000 &&& 0xFFF))) = 0xFFFFB000 := by
    decide
  rw [hend] at hrun
  exact ⟨vm, hrun, by decide⟩

end Sysint.Memory
