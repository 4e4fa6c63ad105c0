import Sysint.Memory.Brk
import Sysint.Process.Elf

/-! The frames that `brk` and `elf::load` map: the bytes that a process finds in them, and what
is left behind when there are not enough of them. -/
namespace Sysint.Memory

open Paging Hoare Dyadic List Finset

variable {vm : Vm} {p : Proc} {addr : Nat}

/-! ## What a growing heap shows -/

/-- What the process reads at an address. -/
def read (vm : Vm) (d a : Nat) : Option (BitVec 8) :=
  (vm.translate d a).map fun (f, o) => vm.frame f o

/-- The frame is in no block on the free lists. -/
def Taken (s : Buddy) (f : Nat) : Prop := ∀ c ∈ s.freeBlocks, ¬ c.Mem f

/-- The states are equal except for the bytes of frames on the free lists. -/
structure SameTaken (vm₁ vm₂ : Vm) : Prop where
  rest : vm₂ = { vm₁ with frame := vm₂.frame }
  bytes : ∀ f, Taken vm₁.buddy f → vm₂.frame f = vm₁.frame f

/-- A heap that grows to an address which `brk` does not refuse. -/
def Proc.Grows (p : Proc) (addr : Nat) : Prop :=
  p.stackBot ≤ kernelVirtualBase ∧ p.brkEnd < addr ∧ ¬ p.Refuses addr

/-- The pages that `brk` maps when the heap grows to `addr`. -/
def Proc.growth (p : Proc) (addr : Nat) : Nat × Nat :=
  (p.brkEnd / pageSize, (addr + pageSize - 1) / pageSize - p.brkEnd / pageSize)

theorem Proc.Grows.below (h : p.Grows addr) : addr < kernelVirtualBase := by
  obtain ⟨htop, -, hacc⟩ := h
  unfold Proc.Refuses at hacc
  omega

theorem Proc.Grows.run (h : p.Grows addr) : brk p addr = do
    if ← allocPages p.dir brkFlags (p.growth addr).2 (p.growth addr).1 then setEnd p addr
    else return (p, p.brkEnd) := by
  obtain ⟨hi, hn⟩ := grow_range h.2.1 h.below
  rw [brk, if_neg h.2.2, if_pos h.2.1]
  simp [allocBlock, hi, hn, Proc.growth]

theorem Proc.Grows.not_over (h : p.Grows addr) :
    (p.growth addr).1 + (p.growth addr).2 ≤ 2 ^ 20 := by
  have hbelow := h.below
  have hlt := h.2.1
  unfold kernelVirtualBase at hbelow
  simp only [Proc.growth, pageSize_eq]
  omega

/-- A heap that has the frames it needs grows. -/
theorem brk_mapping {J : Buddy → List Nat → Prop} {room : Nat} (hgrow : p.Grows addr)
    (hs : vm.Sound p.dir) (hJ : Supplies J room) (h0 : J vm.buddy [])
    (hroom : (vm.absent p.dir (p.growth addr).1 (p.growth addr).2).length ≤ room) :
    Triple (· = vm) (brk p addr) (fun r vm' => r = ({ p with brkEnd := addr }, addr) ∧
      ∃ vm₁ fs, vm' = vm₁.setCurDir p.dir ∧ Mapping J vm p.dir brkFlags (p.growth addr).1
        (p.growth addr).2 (p.growth addr).2 fs vm₁)
      (Stops vm p.dir (p.growth addr).1 (p.growth addr).2) := by
  rw [hgrow.run]
  apply Triple.bind ((allocPages_mapping hJ (Nat.zero_add _) (Nat.le_refl _) hroom).pre _)
  · rintro (_ | _)
    · rintro vm' ⟨hfalse, -⟩
      cases hfalse
    · rintro vm₁ ⟨-, fs, hmap⟩
      exact ⟨rfl, vm₁, fs, rfl, hmap⟩
  · rintro _ rfl
    exact ⟨[], Mapping.start hs h0 brkFlags _ _⟩

section

variable {p' : Proc} {vm' : Vm} (hrun : brk p addr vm = .ok (p', addr) vm')
include hrun

theorem grows_of_run (htop : p.stackBot ≤ kernelVirtualBase) (hlt : p.brkEnd < addr) :
    p.Grows addr := by
  refine ⟨htop, hlt, fun hacc => ?_⟩
  simp only [brk, hacc, ↓reduceIte] at hrun
  have := congrArg Prod.snd (EStateM.Result.ok.inj hrun).1
  simp only at this
  omega

/-- A call that has grown the heap has mapped its pages: an address of the new part leads to the
frame that it led to before, or to one that was taken from the allocator. -/
theorem translate_grown {J : Buddy → List Nat → Prop} {room : Nat} (hgrow : p.Grows addr)
    (hs : vm.Sound p.dir) (hw : Wired vm p.dir) (hJ : Supplies J room) (h0 : J vm.buddy [])
    (hroom : (vm.absent p.dir (p.growth addr).1 (p.growth addr).2).length ≤ room) :
    vm'.frame = vm.frame ∧ ∃ s fs, J s fs ∧ ∀ a, p.brkEnd ≤ a → a < addr →
      ∃ f, vm'.translate p.dir a = some (f, a &&& 0xFFF) ∧
        (vm.translate p.dir a = some (f, a &&& 0xFFF) ∨ vm.translate p.dir a = none ∧ f ∈ fs) := by
  obtain ⟨-, vm₁, fs, rfl, hmap⟩ := (brk_mapping hgrow hs hJ h0 hroom).ok rfl hrun
  refine ⟨hmap.changes.frame, _, _, hmap.supply, ?_⟩
  intro a hlo hhi
  have hlow := Nat.lt_trans hhi hgrow.below
  have hwithin : Within (p.growth addr).1 (p.growth addr).2 (a >>> pageShift) := by
    simp only [Within, Proc.growth, pageSize_eq, Nat.shiftRight_eq_div_pow, pageShift]
    omega
  have hcur : (vm₁.setCurDir p.dir).translate p.dir a = vm₁.translate p.dir a := rfl
  obtain ⟨hnew, hcases⟩ := hmap.page_cases brkFlags_user hwithin
  rw [hcur, (hmap.wired brkFlags_user hw).translate hlow, hw.translate hlow, hnew]
  refine ⟨_, rfl, ?_⟩
  rcases hcases with ⟨hold, heq⟩ | ⟨habs, hx⟩
  · left
    rw [hold, heq, if_pos rfl]
  · right
    rw [habs]
    exact ⟨rfl, List.mem_map_of_mem hx⟩

/-- Growing the heap over pages that are mapped already shows the bytes that were there. -/
theorem read_grown (hgrow : p.Grows addr) (hs : vm.Sound p.dir) (hw : Wired vm p.dir)
    (hmapped : ∀ a, p.brkEnd ≤ a → a < addr → vm.translate p.dir a ≠ none) {a : Nat}
    (hlo : p.brkEnd ≤ a) (hhi : a < addr) : read vm' p.dir a = read vm p.dir a := by
  have hbelow := hgrow.below
  have hnone : vm.absent p.dir (p.growth addr).1 (p.growth addr).2 = [] := by
    apply filter_eq_nil_iff.mpr
    intro m hm
    rw [mem_range'_1] at hm
    simp only [Proc.growth, pageSize_eq] at hm
    -- the page holds an address of the new part of the heap
    have hin := hmapped (max p.brkEnd (m * 4096)) (Nat.le_max_left _ _) (by omega)
    rw [hw.translate (by omega), Nat.shiftRight_eq_div_pow,
      show max p.brkEnd (m * 4096) / 2 ^ pageShift = m by unfold pageShift; omega] at hin
    simpa using hin
  have hsupply : Supplies (fun _ _ => True) 0 := fun _ _ _ h => absurd h (Nat.not_lt_zero _)
  obtain ⟨hbytes, -, fs, -, hframe⟩ := translate_grown hrun hgrow hs hw hsupply trivial
    (Nat.le_of_eq (congrArg List.length hnone))
  obtain ⟨f, hnew, hold | ⟨hold, -⟩⟩ := hframe a hlo hhi
  · rw [read, read, hnew, hold, hbytes]
  · exact absurd hold (hmapped a hlo hhi)

end

variable {b : Boot} {held : List Block}

/-- Without a frame for each absent page, `brk` reports failure and leaves such a page present. -/
theorem brk_fails (hreach : Reachable b Machine.always ⟨vm.buddy, held⟩) (hs : vm.Sound p.dir)
    (hgrow : p.Grows addr) (hroom : ¬ ((vm.absent p.dir (p.growth addr).1
      (p.growth addr).2).length : Int) ≤ vm.buddy.available) :
    Triple (· = vm) (brk p addr) (fun r vm' => r.2 = p.brkEnd ∧
      ∃ m, (vm.pte p.dir m).present = false ∧ (vm'.pte p.dir m).present = true)
      (Stops vm p.dir (p.growth addr).1 (p.growth addr).2) := by
  rw [hgrow.run]
  apply Triple.bind (allocPages_fails hreach hs brkFlags_user.present (Int.not_le.mp hroom))
  rintro (_ | _)
  · exact Triple.pure fun vm' h => ⟨rfl, h.2⟩
  · rintro vm' ⟨hfalse, -⟩
    cases hfalse

/-- The frames drawn come from the blocks that were on the free lists of `s₀`. -/
def FromFree (b : Boot) (held : List Block) (s₀ s : Buddy) (fs : List Nat) : Prop :=
  Drawn b held s₀.available s fs ∧ (∀ f, Taken s₀ f → Taken s f) ∧ ∀ f ∈ fs, ¬ Taken s₀ f

theorem fromFree_supplies (b : Boot) (held : List Block) (s₀ : Buddy) :
    Supplies (FromFree b held s₀) s₀.available.toNat := by
  rintro s fs ⟨⟨hreach, hcount⟩, hfree, hfs⟩ hlen
  obtain ⟨t, f, hrun, hpos, hlt, hreach', hcount', ⟨c, hc, hf⟩, hrest⟩ :=
    hreach.allocFrame (by omega)
  refine ⟨t, f, hrun, hpos, hlt, ⟨hreach', by rw [length_cons]; omega⟩, ?_, ?_⟩
  · intro g hg c hc hmem
    obtain ⟨c', hc', hmem'⟩ := hrest c hc g hmem
    exact hfree g hg c' hc' hmem'
  · intro g hg
    rcases mem_cons.mp hg with rfl | hg
    · exact fun htaken => hfree g htaken c hc hf
    · exact hfs g hg

/-- What a call that has grown the heap had. -/
theorem grown_room {p' : Proc} {vm' : Vm} (hgrow : p.Grows addr) (hs : vm.Sound p.dir)
    (hreach : Reachable b Machine.always ⟨vm.buddy, held⟩)
    (hrun : brk p addr vm = .ok (p', addr) vm') :
    ((vm.absent p.dir (p.growth addr).1 (p.growth addr).2).length : Int) ≤ vm.buddy.available ∧
      (vm.missing p.dir (p.growth addr).1 (p.growth addr).2).card ≤ vm.spare.length := by
  have hroom : ((vm.absent p.dir (p.growth addr).1 (p.growth addr).2).length : Int) ≤
      vm.buddy.available := by
    by_contra hroom
    exact Nat.ne_of_gt hgrow.2.1 ((brk_fails hreach hs hgrow hroom).ok rfl hrun).1
  have hdrawn : Drawn b held vm.buddy.available vm.buddy [] := ⟨hreach, by simp⟩
  obtain ⟨-, vm₁, fs, -, hmap⟩ := (brk_mapping hgrow hs (drawn_supplies b held hroom) hdrawn
    (Int.toNat_natCast _).ge).ok rfl hrun
  have hcount := hmap.tables
  rw [hmap.missing_eq, card_empty] at hcount
  exact ⟨hroom, by omega⟩

/-- An address that does not lead to a taken frame already shows a byte of a free frame. -/
theorem read_free {p' : Proc} {vm' : Vm} (hgrow : p.Grows addr) (hs : vm.Sound p.dir)
    (hw : Wired vm p.dir) (hreach : Reachable b Machine.always ⟨vm.buddy, held⟩)
    (hrun : brk p addr vm = .ok (p', addr) vm') {a : Nat} (hlo : p.brkEnd ≤ a) (hhi : a < addr)
    (hnot : ¬ ∃ f o, vm.translate p.dir a = some (f, o) ∧ Taken vm.buddy f) :
    ∃ f o, read vm' p.dir a = some (vm.frame f o) ∧ ¬ Taken vm.buddy f := by
  have hroom := (grown_room hgrow hs hreach hrun).1
  have h0 : FromFree b held vm.buddy vm.buddy [] := ⟨⟨hreach, by simp⟩, fun _ h => h, by simp⟩
  obtain ⟨hbytes, s, fs, ⟨-, -, hfree⟩, hframe⟩ :=
    translate_grown hrun hgrow hs hw (fromFree_supplies b held vm.buddy) h0 (by omega)
  obtain ⟨f, hnew, hold | ⟨-, hf⟩⟩ := hframe a hlo hhi
  · exact ⟨f, _, by rw [read, hnew, hbytes]; rfl, fun htaken => hnot ⟨f, _, hold, htaken⟩⟩
  · exact ⟨f, _, by rw [read, hnew, hbytes]; rfl, hfree f hf⟩

/-- The new part of the heap is mapped already, to frames that are not free. -/
def Proc.Mapped (p : Proc) (vm : Vm) (addr : Nat) : Prop := ∀ a, p.brkEnd ≤ a → a < addr →
  ∃ f o, vm.translate p.dir a = some (f, o) ∧ Taken vm.buddy f

/-- The process reads the same, whatever the free frames hold. -/
def ShowsNothing (vm vm₁ : Vm) (p : Proc) (addr : Nat) : Prop := ∀ vm₂ vm₂' p₂,
  SameTaken vm vm₂ → brk p addr vm₂ = .ok (p₂, addr) vm₂' →
    ∀ a, p.brkEnd ≤ a → a < addr → read vm₁ p.dir a = read vm₂' p.dir a

theorem SameTaken.keeps {vm₂ : Vm} {d : Nat} (h : SameTaken vm vm₂) (hs : vm.Sound d)
    (hw : Wired vm d) : vm₂.Sound d ∧ Wired vm₂ d ∧
      ∀ a, vm₂.translate d a = vm.translate d a := by
  rw [h.rest]
  exact ⟨⟨hs.inj, hs.unused, hs.nodup⟩, hw, fun _ => rfl⟩

/-- Otherwise free frames that hold other bytes than those read change what is read. -/
theorem mapped_of_shows {vm₁ : Vm} {p₁ : Proc} (hgrow : p.Grows addr) (hs : vm.Sound p.dir)
    (hw : Wired vm p.dir) (hreach : Reachable b Machine.always ⟨vm.buddy, held⟩)
    (hrun : brk p addr vm = .ok (p₁, addr) vm₁) (hshows : ShowsNothing vm vm₁ p addr) :
    p.Mapped vm addr := by
  classical
  intro a hlo hhi
  by_contra hnot
  obtain ⟨hroom, htables⟩ := grown_room hgrow hs hreach hrun
  obtain ⟨f₁, o₁, hread₁, -⟩ := read_free hgrow hs hw hreach hrun hlo hhi hnot
  let vm₂ : Vm := { vm with
    frame := fun f o => if Taken vm.buddy f then vm.frame f o else vm.frame f₁ o₁ + 1 }
  have hsame : SameTaken vm vm₂ := ⟨rfl, fun f hf => by simp [vm₂, hf]⟩
  obtain ⟨hs₂, hw₂, htr⟩ := hsame.keeps hs hw
  have hstop : ∀ e t, ¬ Stops vm₂ p.dir (p.growth addr).1 (p.growth addr).2 e t := by
    rintro e t (⟨-, hlack⟩ | ⟨-, hover⟩)
    · exact Nat.not_lt.mpr htables hlack
    · exact absurd hgrow.not_over (Nat.not_le.mpr hover)
  have hdrawn : Drawn b held vm.buddy.available vm₂.buddy [] := ⟨hreach, by simp [vm₂]⟩
  obtain ⟨_, vm₂', hrun₂, rfl, -⟩ := (brk_mapping hgrow hs₂ (drawn_supplies b held hroom)
    hdrawn (Int.toNat_natCast _).ge).returns rfl hstop
  obtain ⟨f₂, o₂, hread₂, hfree⟩ := read_free hgrow hs₂ hw₂ hreach hrun₂ hlo hhi (htr a ▸ hnot)
  have heq := hshows vm₂ vm₂' _ hsame hrun₂ a hlo hhi
  rw [hread₁, hread₂, Option.some.injEq, show vm₂.frame f₂ o₂ = vm.frame f₁ o₁ + 1 from
    if_neg hfree] at heq
  bv_omega

/-- **A growing heap shows nothing of the free frames** while it grows over pages that are
mapped already, to frames that are not free. Otherwise it does show something of them. -/
theorem brk_shows_nothing {vm₁ : Vm} {p₁ : Proc} (htop : p.stackBot ≤ kernelVirtualBase)
    (hs : vm.Sound p.dir) (hw : Wired vm p.dir) (hlt : p.brkEnd < addr)
    (hrun : brk p addr vm = .ok (p₁, addr) vm₁) :
    (p.Mapped vm addr → ShowsNothing vm vm₁ p addr) ∧
    ∀ b held, Reachable b Machine.always ⟨vm.buddy, held⟩ → ShowsNothing vm vm₁ p addr →
      p.Mapped vm addr := by
  have hgrow := grows_of_run hrun htop hlt
  refine ⟨?_, fun b held hreach => mapped_of_shows hgrow hs hw hreach hrun⟩
  intro hmapped vm₂ vm₂' p₂ hsame hrun₂ a hlo hhi
  obtain ⟨hs₂, hw₂, htr⟩ := hsame.keeps hs hw
  have hsome : ∀ a, p.brkEnd ≤ a → a < addr → vm.translate p.dir a ≠ none := by
    intro a hlo hhi
    obtain ⟨f, o, ht, -⟩ := hmapped a hlo hhi
    simp [ht]
  obtain ⟨f, o, ht, htaken⟩ := hmapped a hlo hhi
  rw [read_grown hrun hgrow hs hw hsome hlo hhi,
    read_grown hrun₂ hgrow hs₂ hw₂ (fun a h1 h2 => htr a ▸ hsome a h1 h2) hlo hhi,
    read, read, htr, ht]
  simp [hsame.bytes f htaken]

/-- The machine with a page of the user at `0x08000000`, in frame 5. -/
def heapVm : Vm := sampleVm.setEntry 0 32 0x6007 (some 6)

/-- The same machine with other bytes in the frames of the allocator. -/
def staleVm (vm : Vm) : Vm :=
  { vm with frame := fun f _ => if 7168 ≤ f ∧ f < 8192 then 1 else 0 }

theorem sampleVm_freeBlocks : sampleVm.buddy.freeBlocks = [⟨7168, 10⟩] := by decide +kernel

theorem sample_taken (f : Nat) : Taken sampleVm.buddy f ↔ ¬ (7168 ≤ f ∧ f < 8192) := by
  simp [Taken, sampleVm_freeBlocks, Block.Mem]

theorem sameTaken_stale (hb : vm.buddy = sampleVm.buddy) (hf : vm.frame = fun _ _ => 0) :
    SameTaken vm (staleVm vm) where
  rest := rfl
  bytes := by
    intro f htaken
    rw [hb, sample_taken] at htaken
    funext o
    simp [staleVm, if_neg htaken, hf]

/-- The heap ends inside of this page. -/
def heapProc : Proc where
  brkStart := 0x08000000
  brkEnd := 0x08000800
  stackBot := 0xBFFFF000
  dir := 0

theorem heapVm_buddy : heapVm.buddy = sampleVm.buddy := by rw [heapVm, Vm.setEntry_buddy]

theorem heapVm_frame : heapVm.frame = fun _ _ => 0 := by
  rw [heapVm, Vm.setEntry_frame, sampleVm]

theorem heapVm_sound : heapVm.Sound 0 where
  inj := by
    intro i j t hi hj
    simp only [heapVm, Vm.setEntry_dir, Function.update_self, Function.update_apply,
      sampleVm] at hi hj
    grind
  unused := by
    intro i t ht
    simp only [heapVm, Vm.setEntry_dir, Vm.setEntry_spare, Function.update_self,
      Function.update_apply, sampleVm] at ht ⊢
    grind
  nodup := by decide

theorem heapVm_wired : Wired heapVm 0 := by
  intro j hj
  have hne : j ≠ 0x340 := by
    rintro rfl
    exact absurd hj (by decide)
  by_cases h32 : j = 32
  · subst h32
    decide +kernel
  · simp [heapVm, sampleVm, hne, h32]

theorem brk_shows_nothing_sample : ∃ p₁ p₂ vm₁ vm₂,
      brk heapProc 0x08000900 heapVm =
        .ok (p₁, 0x08000900) vm₁ ∧
      brk heapProc 0x08000900 (staleVm heapVm) =
        .ok (p₂, 0x08000900) vm₂ ∧
      ∀ a, 0x08000800 ≤ a → a < 0x08000900 → read vm₁ 0 a = read vm₂ 0 a := by
  have hout₁ : outcome (brk heapProc 0x08000900) heapVm
      (fun r _ => r.2) = some 0x08000900 := by decide +kernel
  have hout₂ : outcome (brk heapProc 0x08000900) (staleVm heapVm)
      (fun r _ => r.2) = some 0x08000900 := by decide +kernel
  obtain ⟨⟨p₁, r₁⟩, vm₁, hrun₁, hr₁⟩ := ok_of_outcome hout₁
  obtain ⟨⟨p₂, r₂⟩, vm₂, hrun₂, hr₂⟩ := ok_of_outcome hout₂
  simp only at hr₁ hr₂
  subst hr₁ hr₂
  refine ⟨p₁, p₂, vm₁, vm₂, hrun₁, hrun₂, ?_⟩
  apply (brk_shows_nothing (by decide) heapVm_sound heapVm_wired (by decide) hrun₁).1 _ _ _ _
    (sameTaken_stale heapVm_buddy heapVm_frame) hrun₂
  intro a hlo hhi
  have hpage : a >>> pageShift = 0x8000 := by
    have hlo' : 0x08000800 ≤ a := hlo
    rw [Nat.shiftRight_eq_div_pow, pageShift]
    omega
  have htr : heapVm.translate 0 a = some (5, a &&& 0xFFF) := by
    have hpte : (heapVm.pte 0 0x8000).present = true ∧ (heapVm.pte 0 0x8000).addr = 5 := by
      decide +kernel
    rw [heapVm_wired.translate (by unfold kernelVirtualBase; omega), hpage, hpte.1, hpte.2,
      if_pos rfl]
  refine ⟨5, a &&& 0xFFF, htr, ?_⟩
  rw [heapVm_buddy, sample_taken]
  omega

/-- A page that `brk` maps shows what its frame held before. -/
theorem brk_shows_stale_bytes : SameTaken sampleVm (staleVm sampleVm) ∧
    outcome (brk sampleProc 0x08001000) sampleVm (fun r vm => (r.2, read vm 0 0x08000000)) =
      some (0x08001000, some 0) ∧
    outcome (brk sampleProc 0x08001000) (staleVm sampleVm)
      (fun r vm => (r.2, read vm 0 0x08000000)) = some (0x08001000, some 1) := by
  exact ⟨sameTaken_stale rfl rfl, by decide +kernel, by decide +kernel⟩

/-! ## Mappings that have the frames they need -/

open Process.Elf

/-- The pages that `elf::load` allocates. -/
def loadPages : List Phdr → Finset Nat
  | [] => ∅
  | ph :: phs =>
    if ph.type = ptLoad then
      Finset.Ico (ph.start >>> pageShift)
        (ph.start >>> pageShift + sub32 ph.stop ph.start >>> pageShift) ∪ loadPages phs
    else loadPages phs

def absentIn (vm : Vm) (d : Nat) (S : Finset Nat) : Finset Nat :=
  S.filter fun m => (vm.pte d m).present = false

theorem absent_card (vm : Vm) (d i n : Nat) :
    (absentIn vm d (Finset.Ico i (i + n))).card = (vm.absent d i n).length := by
  have hnodup : (vm.absent d i n).Nodup := List.Nodup.filter _ nodup_range'
  rw [← toFinset_card_of_nodup hnodup]
  congr 1
  ext m
  simp [absentIn, Vm.absent]

theorem absentIn_card_le (vm : Vm) (d : Nat) {S T : Finset Nat} (h : S ⊆ T) :
    (absentIn vm d S).card ≤ (absentIn vm d T).card :=
  card_le_card (filter_subset_filter _ h)

/-- The state of the allocator is sound, and if the user's pages had frames of their own (`B`),
they still have. -/
def Backed (b : Boot) (B : Prop) (d : Nat) (vm : Vm) : Prop :=
  vm.Sound d ∧ ∃ held, Reachable b Machine.always ⟨vm.buddy, held⟩ ∧
    (B → Owns vm d (UserPage vm d) held)

variable {B : Prop} {d : Nat}

/-- The mapping of a segment leaves the frames for the others. -/
theorem room_of_mapping {J : Buddy → List Nat → Prop} {vm₀ : Vm} {flags : BitVec 32} {i n : Nat}
    {fs : List (Nat × Nat)} (h : Mapping J vm₀ d flags i n n fs vm) (hflags : UserFlags flags)
    (S : Finset Nat) : (absentIn vm d S).card + fs.length ≤
      (absentIn vm₀ d (Finset.Ico i (i + n) ∪ S)).card := by
  have hlen : fs.length = (absentIn vm₀ d (Finset.Ico i (i + n))).card := by
    rw [absent_card, ← h.pages.length_eq, length_map]
  have hsub : absentIn vm₀ d (Finset.Ico i (i + n)) ⊆
      absentIn vm₀ d (Finset.Ico i (i + n) ∪ S) :=
    filter_subset_filter _ subset_union_left
  have hrest : absentIn vm d S ⊆ absentIn vm₀ d (Finset.Ico i (i + n) ∪ S) \
      absentIn vm₀ d (Finset.Ico i (i + n)) := by
    intro m hm
    obtain ⟨hmS, habs⟩ := Finset.mem_filter.mp hm
    have hout : ¬ Within i n m := by
      intro hw
      rw [(h.page_cases hflags hw).1] at habs
      cases habs
    rw [h.rest m hout] at habs
    refine mem_sdiff.mpr ⟨Finset.mem_filter.mpr ⟨Finset.mem_union_right _ hmS, habs⟩, ?_⟩
    intro hin
    exact hout (mem_Ico.mp (Finset.mem_filter.mp hin).1)
  have hcard := card_le_card hrest
  rw [card_sdiff_of_subset hsub] at hcard
  have := card_le_card hsub
  omega

/-- Flags and bytes do not matter. -/
theorem Backed.congr {vm' : Vm} (h : Backed b B d vm) (hs : vm'.Sound d)
    (hb : vm'.buddy = vm.buddy) (hp : ∀ m, (vm'.pte d m).present = (vm.pte d m).present ∧
      (vm'.pte d m).addr = (vm.pte d m).addr) : Backed b B d vm' := by
  obtain ⟨-, held, hreach, hown⟩ := h
  refine ⟨hs, held, hb ▸ hreach, fun hB => ?_⟩
  have hu : ∀ m, UserPage vm' d m → UserPage vm d m := by
    rintro m ⟨hlow, hpres⟩
    exact ⟨hlow, (hp m).1 ▸ hpres⟩
  constructor
  · intro m hm
    rw [(hp m).2]
    exact (hown hB).held m (hu m hm)
  · intro m n hm hn heq
    rw [(hp m).2, (hp n).2] at heq
    exact (hown hB).inj m n (hu m hm) (hu n hn) heq

end Sysint.Memory
