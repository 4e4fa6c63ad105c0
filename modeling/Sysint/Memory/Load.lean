import Sysint.Memory.Frames
import Sysint.Process.ElfFlags

/-! What a process finds in its memory after `elf::load`. The second pass is described by what
it does to the bytes of the user's addresses, as a function on them. -/
namespace Sysint.Memory

open Paging Hoare Dyadic Process.Elf Nat Finset
open Option hiding or or_assoc
open Function

variable {b : Boot} {d n a : Nat} {vm vm₀ vm₁ : Vm} {F : Nat → Prop} {g : Nat → BitVec 8}
  {ph : Phdr} {phs : List Phdr}

/-! ## The address space -/

/-- Below the kernel the directory has tables for the user, and each page that is present has a
frame of its own, which was allocated. -/
structure Space (b : Boot) (d : Nat) (vm : Vm) : Prop where
  sound : vm.Sound d
  wired : Wired vm d
  user : ∀ j, j < kernelVirtualBase >>> 22 → (vm.dir d).tables j ≠ none →
    (vm.dir d).entries j &&& pageUs ≠ 0
  frames : ∃ held, Reachable b Machine.always ⟨vm.buddy, held⟩ ∧ Owns vm d (UserPage vm d) held

/-- The user can read the page. -/
def Shown (vm : Vm) (d n : Nat) : Prop :=
  (vm.pte d n).present = true ∧ (vm.pte d n).user = true

/-- The directory lets the user get to the page as well. -/
def Accessible (vm : Vm) (d n : Nat) : Prop :=
  (vm.dir d).entries (n >>> 10) &&& pagePresent ≠ 0 ∧
    (vm.dir d).entries (n >>> 10) &&& pageUs ≠ 0 ∧ Shown vm d n

theorem tables_of_present (h : (vm.pte d n).present = true) :
    (vm.dir d).tables (n >>> 10) ≠ none := by
  intro hnone
  simp [Vm.pte, hnone, Page.present] at h

theorem user_index (h : n * pageSize < kernelVirtualBase) :
    n >>> 10 < kernelVirtualBase >>> 22 := by
  rw [pageSize_eq] at h
  rw [shiftRight_eq_div_pow]
  unfold kernelVirtualBase at *
  omega

theorem Space.accessible (h : Space b d vm) (hn : n * pageSize < kernelVirtualBase)
    (hs : Shown vm d n) : Accessible vm d n := by
  have ht := tables_of_present hs.1
  have hidx := user_index hn
  exact ⟨((h.wired _ hidx).2 ht).1, h.user _ hidx ht, hs⟩

theorem low_bits (a : Nat) : a &&& 0xFFF = a % 4096 := and_low a 12

/-- Different addresses of the user lead to different bytes. -/
theorem Space.translate_inj (h : Space b d vm) {c : Nat} {x : Nat × Nat}
    (ha : a < kernelVirtualBase) (hc : c < kernelVirtualBase)
    (hx : vm.translate d a = some x) (hy : vm.translate d c = some x) : a = c := by
  obtain ⟨held, -, hown⟩ := h.frames
  rw [h.wired.translate ha] at hx
  rw [h.wired.translate hc] at hy
  split_ifs at hx with hpa
  split_ifs at hy with hpc
  rw [← hx, some_inj, Prod.mk.injEq] at hy
  obtain ⟨haddr, hoff⟩ := hy
  have huser {e : Nat} (he : e < kernelVirtualBase) :
      (e >>> pageShift) * pageSize < kernelVirtualBase := by
    rw [pageSize_eq, shiftRight_eq_div_pow]
    simp only [pageShift]
    omega
  have hpage := hown.inj _ _ ⟨huser ha, hpa⟩ ⟨huser hc, hpc⟩ haddr.symm
  rw [low_bits, low_bits] at hoff
  simp only [shiftRight_eq_div_pow, pageShift] at hpage
  omega

/-! ## The first pass -/

/-- The indices of the tables that pages lack. -/
def missingIn (vm : Vm) (d : Nat) (S : Finset Nat) : Finset Nat :=
  (S.image (· >>> 10)).filter fun j => (vm.dir d).tables j = none

theorem missingIn_card_le (vm : Vm) (d : Nat) {S T : Finset Nat} (h : S ⊆ T) :
    (missingIn vm d S).card ≤ (missingIn vm d T).card :=
  card_le_card (filter_subset_filter _ (image_subset_image h))

section
variable {J : Buddy → List Nat → Prop} {flags : BitVec 32} {i n : Nat} {fs : List (Nat × Nat)}

/-- The mapping of a segment leaves the tables for the others. -/
theorem tables_of_mapping (h : Mapping J vm₀ d flags i n n fs vm) (S : Finset Nat)
    (hroom : (missingIn vm₀ d (Finset.Ico i (i + n) ∪ S)).card ≤ vm₀.spare.length) :
    (missingIn vm d S).card ≤ vm.spare.length := by
  have hsub : missingIn vm₀ d (Finset.Ico i (i + n)) ⊆
      missingIn vm₀ d (Finset.Ico i (i + n) ∪ S) :=
    filter_subset_filter _ (image_subset_image subset_union_left)
  have hrest : missingIn vm d S ⊆ missingIn vm₀ d (Finset.Ico i (i + n) ∪ S) \
      missingIn vm₀ d (Finset.Ico i (i + n)) := by
    intro j hj
    obtain ⟨hjS, hnone⟩ := mem_filter.mp hj
    have hold : (vm₀.dir d).tables j = none := by
      cases ht : (vm₀.dir d).tables j with
      | none => rfl
      | some t =>
        rw [(h.changes.tables j t ht).1] at hnone
        cases hnone
    refine mem_sdiff.mpr ⟨mem_filter.mpr
      ⟨image_subset_image subset_union_right hjS, hold⟩, ?_⟩
    intro hin
    obtain ⟨m, hm, rfl⟩ := mem_image.mp (mem_filter.mp hin).1
    exact h.changes.has m (Finset.mem_Ico.mp hm) hnone
  have hcount := h.tables
  rw [h.missing_eq, card_empty] at hcount
  have hcard := card_le_card hrest
  rw [card_sdiff_of_subset hsub] at hcard
  change vm.spare.length + (missingIn vm₀ d (Finset.Ico i (i + n))).card = _ at hcount
  omega

theorem Page.user_make {flags : BitVec 32} (h : flags.getLsbD 2 = true) (addr : Nat) :
    (Page.make flags addr).user = true := by
  have hlow : (0xFFF : BitVec 32).getLsbD 2 = true := by decide
  simp only [Page.user, Page.make, BitVec.getLsbD_or, BitVec.getLsbD_and, hlow, h, Bool.and_true,
    Bool.true_or]

theorem Mapping.shown (h : Mapping J vm₀ d flags i n n fs vm) (hflags : UserFlags flags)
    (huser : flags.getLsbD 2 = true) {m : Nat} (hm : Within i n m) : Shown vm d m := by
  obtain ⟨hpres, hcases⟩ := Mapping.page_cases h hflags hm
  refine ⟨hpres, ?_⟩
  obtain ⟨hold, -⟩ | ⟨-, hx⟩ := hcases
  · rw [h.kept m hm hold, Page.reflag_eq _ hflags.low]
    exact Page.user_make huser _
  · rw [(h.fresh _ hx).2]
    exact Page.user_make huser _

theorem Mapping.space {held : List Block} {room : Int}
    (h : Mapping (Drawn b held room) vm₀ d flags i n n fs vm) (hflags : UserFlags flags)
    (huser : flags &&& pageUs ≠ 0) (hs : Space b d vm₀) (ho : Owns vm₀ d (UserPage vm₀ d) held) :
    Space b d vm where
  sound := h.changes.sound
  wired := Mapping.wired h hflags hs.wired
  user := by
    intro j hj ht
    obtain ⟨htab, hent⟩ | ⟨t, -, hent⟩ := h.linked j
    · rw [hent]
      exact hs.user j hj (htab ▸ ht)
    · rw [hent, Page.make_and_flag (by decide)]
      exact huser
  frames := ⟨_, h.supply.1, Mapping.owns_user h hflags ho⟩

end

/-- The frames and the tables that the headers need are there. -/
structure Room (b : Boot) (d : Nat) (F : Nat → Prop) (phs : List Phdr) (vm : Vm) : Prop where
  space : Space b d vm
  frames : ((absentIn vm d (loadPages phs)).card : Int) ≤ vm.buddy.available
  tables : (missingIn vm d (loadPages phs)).card ≤ vm.spare.length
  shown : ∀ n, F n → Shown vm d n

/-- `brk_start` after the headers. -/
structure Ends (phs : List Phdr) (brk brk' : Nat) : Prop where
  le : brk ≤ brk'
  aligned : brk' % pageSize = 0
  above : ∀ ph ∈ phs, ph.type = ptLoad → ph.vaddr.toNat + ph.memsz.toNat ≤ brk'

theorem stop_aligned (h : ph.NoWrap) :
    ph.stop % pageSize = 0 ∧ ph.vaddr.toNat + ph.memsz.toNat ≤ ph.stop := by
  rw [ph.stop_eq h, pageSize_eq]
  omega

theorem mem_loadPages : n ∈ loadPages phs ↔ ∃ ph ∈ phs, ph.type = ptLoad ∧ ph.Spans n := by
  induction phs with
  | nil => simp [loadPages]
  | cons ph phs ih =>
    rw [loadPages]
    split
    · rename_i hl
      simp only [Finset.mem_union, Finset.mem_Ico, ih, List.exists_mem_cons_iff, hl, true_and]
      rfl
    · rename_i hl
      simp [ih, hl]

theorem allocSegments_maps (phs : List Phdr) {brk : Nat} (hbrk : brk % pageSize = 0)
    (htype : ∀ ph ∈ phs, ph.type = ptPhdr ∨ ph.type = ptLoad)
    (hwrap : ∀ ph ∈ phs, ph.type = ptLoad → ph.NoWrap) :
    Triple (Room b d F phs) (allocSegments d phs brk)
      (fun r vm => ∃ brk', r = .ok brk' ∧ Ends phs brk brk' ∧ Space b d vm ∧
        ∀ n, F n ∨ n ∈ loadPages phs → Shown vm d n)
      (fun _ _ => False) := by
  induction phs generalizing brk F with
  | nil =>
    apply Triple.pure
    intro vm h
    exact ⟨brk, rfl, ⟨le_rfl, hbrk, by simp⟩, h.space, fun n hn => h.shown n
      (by simpa [loadPages] using hn)⟩
  | cons ph phs ih =>
    rw [List.forall_mem_cons] at htype hwrap
    apply Triple.ite
    · intro hphdr
      have hload : ph.type ≠ ptLoad := by
        rw [hphdr]
        decide
      apply (ih (F := F) hbrk htype.2 hwrap.2).weaken _ _ fun _ _ h => h
      · rintro vm ⟨hs, hf, ht, hF⟩
        simp only [loadPages, if_neg hload] at hf ht
        exact ⟨hs, hf, ht, hF⟩
      · rintro r vm ⟨brk', hr, he, hs, hF⟩
        refine ⟨brk', hr, ⟨he.le, he.aligned, ?_⟩, hs, ?_⟩
        · rw [List.forall_mem_cons]
          exact ⟨fun hl => absurd hl hload, he.above⟩
        · simpa only [loadPages, if_neg hload] using hF
    · intro hphdr
      have hload : ph.type = ptLoad := htype.1.resolve_left hphdr
      apply Triple.ite
      · intro _
        rintro vm ⟨hs, hf, ht, hF⟩
        simp only [loadPages, if_pos hload] at hf ht
        obtain ⟨held, hreach, hown⟩ := hs.frames
        have hsmall : ((vm.absent d (ph.start >>> pageShift)
            (sub32 ph.stop ph.start >>> pageShift)).length : Int) ≤ vm.buddy.available := by
          rw [← absent_card]
          exact Int.le_trans (Int.ofNat_le.mpr (absentIn_card_le vm d subset_union_left)) hf
        have hspare := (missingIn_card_le vm d subset_union_left).trans ht
        have hbound := ph.spans_bound (hwrap.1 hload)
        obtain ⟨hstop, hend⟩ := stop_aligned (hwrap.1 hload)
        have hfirst := allocPages_drawn hreach hs.sound brkFlags hsmall
        refine Triple.bind (hfirst.stop ?_) ?_ vm rfl
        · rintro e _ (⟨-, hlt⟩ | ⟨-, hlt⟩)
          · exact absurd hspare (Nat.not_le_of_lt hlt)
          · exact absurd hbound (Nat.not_le_of_lt hlt)
        rintro (_ | _)
        · rintro vm' ⟨hfalse, -⟩
          cases hfalse
        have hmax : max brk ph.stop % pageSize = 0 := by
          rcases max_choice brk ph.stop with h | h <;> rw [h] <;> assumption
        apply (ih (F := fun n => F n ∨ ph.Spans n) hmax htype.2 hwrap.2).weaken _ _ fun _ _ h => h
        · rintro vm' ⟨-, fs, hmap⟩
          refine ⟨Mapping.space hmap brkFlags_user (by decide) hs hown, ?_,
            tables_of_mapping hmap _ ht, ?_⟩
          · have hrest := room_of_mapping hmap brkFlags_user (loadPages phs)
            have hcount := hmap.supply.2
            rw [List.length_map] at hcount
            omega
          · intro n hn
            by_cases hw : ph.Spans n
            · exact Mapping.shown hmap brkFlags_user (by decide) hw
            · rw [Shown, hmap.rest n hw]
              exact hF n (hn.resolve_right hw)
        · rintro r vm' ⟨brk', hr, he, hs', hF'⟩
          refine ⟨brk', hr, ⟨(le_max_left _ _).trans he.le, he.aligned, ?_⟩, hs', ?_⟩
          · rw [List.forall_mem_cons]
            exact ⟨fun _ => hend.trans ((le_max_right _ _).trans he.le), he.above⟩
          · intro n hn
            apply hF'
            simp only [loadPages, if_pos hload, Finset.mem_union, Finset.mem_Ico] at hn
            rw [or_assoc]
            exact hn
      · exact fun hl => absurd hload hl

/-! ## The second pass -/

/-- From `vm₁` on, only flags that do not concern the kernel have changed, and the user's bytes
are those of `g`. -/
structure Filled (vm₁ : Vm) (d : Nat) (g : Nat → BitVec 8) (vm : Vm) : Prop where
  sound : vm.Sound d
  dir : vm.dir = vm₁.dir
  kept : ∀ n, (vm.pte d n).present = (vm₁.pte d n).present ∧
    (vm.pte d n).addr = (vm₁.pte d n).addr ∧ (vm.pte d n).user = (vm₁.pte d n).user
  bytes : ∀ a, a < kernelVirtualBase → ∀ f o, vm₁.translate d a = some (f, o) → vm.frame f o = g a

section

variable (h : Filled vm₁ d g vm)
include h

theorem Filled.congr {g' : Nat → BitVec 8} (hg : ∀ a, g' a = g a) :
    Filled vm₁ d g' vm := by
  obtain rfl : g' = g := funext hg
  exact h

theorem Filled.translate (a : Nat) :
    vm.translate d a = vm₁.translate d a := by
  obtain ⟨hp, ha, -⟩ := h.kept (a >>> pageShift)
  simp [Vm.translate, h.dir, hp, ha]

theorem Filled.read_eq (ha : a < kernelVirtualBase)
    (hmap : (vm₁.translate d a).isSome) : read vm d a = some (g a) := by
  obtain ⟨⟨f, o⟩, hf⟩ := isSome_iff_exists.mp hmap
  simp [Memory.read, h.translate, hf, h.bytes a ha f o hf]

theorem Filled.setByte (hs : Space b d vm₁) {f o : Nat}
    (ha : a < kernelVirtualBase) (hf : vm₁.translate d a = some (f, o)) (v : BitVec 8) :
    Filled vm₁ d (update g a v) (vm.setByte f o v) where
  sound := ⟨h.sound.inj, h.sound.unused, h.sound.nodup⟩
  dir := h.dir
  kept := h.kept
  bytes := by
    intro c hc e q he
    by_cases hca : c = a
    · subst hca
      rw [he, some_inj, Prod.mk.injEq] at hf
      obtain ⟨rfl, rfl⟩ := hf
      simp
    have hne : ¬ (e = f ∧ q = o) := by
      rintro ⟨rfl, rfl⟩
      exact hca (hs.translate_inj hc ha he hf)
    have hsame : (vm.setByte f o v).frame e q = vm.frame e q := by
      simp only [Vm.setByte_frame, update_apply]
      grind
    rw [hsame, update_of_ne hca]
    exact h.bytes c hc e q he

end

theorem storeByte_fills (hs : Space b d vm₁) (ha : a < kernelVirtualBase)
    (hmap : (vm₁.translate d a).isSome) (v : BitVec 8) :
    Triple (Filled vm₁ d g) (storeByte d a v) (fun _ => Filled vm₁ d (update g a v))
      (fun _ _ => False) := by
  obtain ⟨⟨f, o⟩, hf⟩ := isSome_iff_exists.mp hmap
  apply Triple.get
  intro vm hvm
  rw [hvm.translate, hf]
  apply Triple.modify
  rintro _ ⟨h, -⟩
  exact h.setByte hs ha hf v

/-- The bytes from `dst` on are overwritten. -/
def overwrite (g : Nat → BitVec 8) (dst n : Nat) (src : Nat → BitVec 8) (a : Nat) : BitVec 8 :=
  if dst ≤ a ∧ a < dst + n then src (a - dst) else g a

theorem fill_fills (hs : Space b d vm₁) {dst : Nat} (src : Nat → BitVec 8) (n k : Nat)
    (hbelow : dst + (k + n) ≤ kernelVirtualBase)
    (hmap : ∀ j, j < n → (vm₁.translate d (dst + (k + j))).isSome) :
    Triple (Filled vm₁ d g) (fill d dst src n k)
      (fun _ => Filled vm₁ d (overwrite g (dst + k) n fun j => src (k + j)))
      (fun _ _ => False) := by
  induction n generalizing k g with
  | zero =>
    apply Triple.pure
    intro vm h
    apply h.congr
    intro a
    rw [overwrite, if_neg (by omega)]
  | succ n ih =>
    have haddr : u32 (dst + k) = dst + k := by
      unfold kernelVirtualBase at hbelow
      exact u32_of_lt (by omega)
    have hfirst : (vm₁.translate d (dst + k)).isSome := hmap 0 (by omega)
    rw [fill, haddr]
    apply Triple.bind (storeByte_fills hs (by omega) hfirst (src k))
    intro _
    apply (ih (k + 1) (by omega) fun j hj => ?_).post
    · intro _ vm h
      apply h.congr
      intro a
      unfold overwrite
      by_cases ha : a = dst + k
      · subst ha
        rw [if_pos (by omega), if_neg (by omega), update_self, Nat.sub_self]
        rfl
      rw [update_of_ne ha]
      by_cases hin : dst + (k + 1) ≤ a ∧ a < dst + (k + 1) + n
      · rw [if_pos (by omega), if_pos hin]
        have hoff : k + (a - (dst + k)) = k + 1 + (a - (dst + (k + 1))) := by omega
        exact congrArg src hoff
      · rw [if_neg (by omega), if_neg hin]
    · have hnext : k + 1 + j = k + (j + 1) := by omega
      rw [hnext]
      exact hmap (j + 1) (by omega)

theorem copyOut_fills (hs : Space b d vm₁) {dst : Nat} (src : Nat → BitVec 8) (n : Nat)
    (hbelow : dst + n ≤ kernelVirtualBase)
    (hmap : ∀ j, j < n → (vm₁.translate d (dst + j)).isSome) :
    Triple (Filled vm₁ d g) (copyOut d dst src n) (fun _ => Filled vm₁ d (overwrite g dst n src))
      (fun _ _ => False) := by
  have hfill : Triple (Filled vm₁ d g) (fill d dst src n 0)
      (fun _ => Filled vm₁ d (overwrite g dst n src)) (fun _ _ => False) := by
    have h : Triple (Filled vm₁ d g) (fill d dst src n 0)
        (fun _ => Filled vm₁ d (overwrite g (dst + 0) n fun j => src (0 + j))) (fun _ _ => False) :=
      fill_fills hs src n 0 (by omega) (by simpa using hmap)
    simpa only [Nat.zero_add, Nat.add_zero] using h
  apply Triple.ite
  · exact fun _ => hfill
  intro hword
  -- whole words
  have hlow : n &&& 3 = n % 4 := and_low n 2
  have hlen : 4 * (n / 4) = n := by omega
  rw [Process.Elf.memcpyd, hlen]
  exact hfill

/-- The bytes of a segment. -/
def segmentByte (img : Image) (ph : Phdr) (a : Nat) : BitVec 8 :=
  if a < ph.vaddr.toNat + ph.filesz.toNat then img.byte
    (ph.offset.toNat + (a - ph.vaddr.toNat)) else 0

/-- The user's bytes after the copy of a segment. -/
def withSegment (img : Image) (ph : Phdr) (g : Nat → BitVec 8) : Nat → BitVec 8 :=
  overwrite g ph.vaddr.toNat ph.memsz.toNat fun k => segmentByte img ph (ph.vaddr.toNat + k)

theorem Filled.clearRw (h : Filled vm₁ d g vm) {p : Slot} (hp : vm.At d n p) :
    Filled vm₁ d g (vm.setPage p ⟨(vm.page p).value &&& ~~~ pageRw⟩) where
  sound := ⟨h.sound.inj, h.sound.unused, h.sound.nodup⟩
  dir := h.dir
  kept m := by
    rw [hp.pte_setPage h.sound]
    split
    · rename_i hm
      obtain ⟨hpres, haddr⟩ := clear_rw (vm.page p)
      have huser : (Page.mk ((vm.page p).value &&& ~~~ pageRw)).user = (vm.page p).user := by
        have hbit : (~~~ pageRw).getLsbD 2 = true := by decide
        simp only [Page.user, BitVec.getLsbD_and, hbit, Bool.and_true]
      rw [hpres, haddr, huser, ← hp.pte, hm]
      exact h.kept n
    · exact h.kept m
  bytes := h.bytes

theorem setReadOnly_fills (n a : Nat) (ha : a / 4096 + n ≤ 2 ^ 20)
    (hT : ∀ m, Within (a / 4096) n m → (vm₁.dir d).tables (m >>> 10) ≠ none) :
    Triple (Filled vm₁ d g) (setReadOnly d n a) (fun _ => Filled vm₁ d g) (fun _ _ => False) := by
  induction n generalizing a with
  | zero => exact Triple.pure fun _ h => h
  | succ n ih =>
    have hshift : a >>> pageShift = a / 4096 := shiftRight_eq_div_pow a 12
    have hnext : (a + pageSize) / 4096 = a / 4096 + 1 := by
      rw [pageSize_eq]
      omega
    apply Triple.bind (getPage_spec (by omega) d)
    rintro (_ | p)
    · rintro vm ⟨h, hnone⟩
      rw [h.dir, hshift] at hnone
      exact hT _ ⟨by omega, by omega⟩ hnone
    apply Triple.bind (Triple.modify (R := fun _ => Filled vm₁ d g) ?_)
    · intro _
      apply ih
      · omega
      · rw [hnext]
        rintro m ⟨h1, h2⟩
        exact hT m ⟨by omega, by omega⟩
    · rintro vm ⟨h, hat⟩
      exact h.clearRw hat

/-- The segment lies below the kernel, and its pages are there. -/
structure Placed (vm₁ : Vm) (d : Nat) (ph : Phdr) : Prop where
  below : ph.vaddr.toNat + ph.memsz.toNat ≤ kernelVirtualBase
  file : ph.filesz ≤ ph.memsz
  shown : ∀ n, ph.Spans n → Shown vm₁ d n

theorem Placed.mapped (h : Placed vm₁ d ph) (hs : Space b d vm₁)
    (ha : ph.Holds a) : (vm₁.translate d a).isSome := by
  obtain ⟨h1, h2⟩ := ha
  have hspan : ph.Spans (a >>> pageShift) := by
    rw [ph.spans_iff (.of_le h.below), shiftRight_eq_div_pow]
    simp only [pageShift]
    omega
  rw [hs.wired.translate (h2.trans_le h.below), if_pos (h.shown _ hspan).1]
  rfl

theorem copySegment_fills (img : Image) (hs : Space b d vm₁) (hp : Placed vm₁ d ph) :
    Triple (Filled vm₁ d g) (copySegment d img ph) (fun _ => Filled vm₁ d (withSegment img ph g))
      (fun _ _ => False) := by
  have hbelow := hp.below
  have hfile : ph.filesz.toNat ≤ ph.memsz.toNat := hp.file
  have hwrap : ph.NoWrap := .of_le hbelow
  apply Triple.bind (copyOut_fills hs _ _ (by omega) fun j hj =>
    hp.mapped hs ⟨by omega, by omega⟩)
  intro _
  apply Triple.bind (Q := fun _ => Filled vm₁ d (withSegment img ph g))
  · have hpoint : ∀ a, withSegment img ph g a =
        overwrite (overwrite g ph.vaddr.toNat ph.filesz.toNat
          fun k => img.byte (ph.offset.toNat + k)) (ph.vaddr.toNat + ph.filesz.toNat)
          (ph.memsz.toNat - ph.filesz.toNat) (fun _ => 0) a := by
      intro a
      unfold withSegment overwrite segmentByte
      grind
    apply Triple.ite
    · intro _
      have haddr : u32 (ph.vaddr.toNat + ph.filesz.toNat) = ph.vaddr.toNat + ph.filesz.toNat := by
        unfold kernelVirtualBase at hbelow
        exact u32_of_lt (by omega)
      rw [haddr]
      apply (copyOut_fills hs _ _ (by omega) fun j hj => hp.mapped hs ⟨by omega, by omega⟩).post
      exact fun _ vm h => h.congr hpoint
    · intro hle
      have heq : ph.memsz.toNat - ph.filesz.toNat = 0 := by
        have hle' : ¬ ph.filesz.toNat < ph.memsz.toNat := hle
        omega
      apply Triple.pure
      intro vm h
      apply h.congr
      intro a
      rw [hpoint, heq, overwrite, if_neg (by omega)]
  · intro _
    apply Triple.ite
    · intro hro
      apply setReadOnly_fills
      · rw [ph.start_eq, ph.stop_eq hwrap, pageSize_eq]
        unfold kernelVirtualBase at hbelow
        omega
      · intro m hm
        have hspan := ((ph.protects_iff hwrap m).mp ⟨hro, hm⟩).2
        exact tables_of_present (hp.shown m hspan).1
    · exact fun _ => Triple.pure fun _ h => h

/-- The user's bytes after the second pass. -/
def withSegments (img : Image) : List Phdr → (Nat → BitVec 8) → Nat → BitVec 8
  | [], g => g
  | ph :: phs, g => withSegments img phs (if ph.type = ptPhdr then g else withSegment img ph g)

theorem copySegments_fills (img : Image) (phs : List Phdr) (hs : Space b d vm₁)
    (hp : ∀ ph ∈ phs, ph.type ≠ ptPhdr → Placed vm₁ d ph) :
    Triple (Filled vm₁ d g) (copySegments d img phs)
      (fun _ => Filled vm₁ d (withSegments img phs g)) (fun _ _ => False) := by
  induction phs generalizing g with
  | nil => exact Triple.pure fun _ h => h
  | cons ph phs ih =>
    rw [List.forall_mem_cons] at hp
    apply Triple.ite
    · intro htype
      rw [withSegments, if_pos htype]
      exact ih hp.2
    · intro htype
      rw [withSegments, if_neg htype]
      exact Triple.bind (copySegment_fills img hs (hp.1 htype)) fun _ => ih hp.2

/-! ## The bytes -/

theorem withSegments_outside (img : Image)
    (h : ∀ ph ∈ phs, ph.type ≠ ptPhdr → ¬ ph.Holds a) : withSegments img phs g a = g a := by
  induction phs generalizing g with
  | nil => rfl
  | cons ph phs ih =>
    rw [List.forall_mem_cons] at h
    rw [withSegments, ih h.2]
    split
    · rfl
    · rename_i htype
      exact if_neg (h.1 htype)

/-- Segments that have no byte in common do not disturb each other. -/
theorem withSegments_inside (img : Image)
    (hapart : phs.Pairwise fun p q => p.type ≠ ptPhdr → q.type ≠ ptPhdr → ¬ (p.Holds a ∧ q.Holds a))
    (hph : ph ∈ phs) (htype : ph.type ≠ ptPhdr) (ha : ph.Holds a) :
    withSegments img phs g a = segmentByte img ph a := by
  induction phs generalizing g with
  | nil => cases hph
  | cons p phs ih =>
    rw [List.pairwise_cons] at hapart
    rw [withSegments]
    obtain rfl | hph := List.mem_cons.mp hph
    · rw [if_neg htype, withSegments_outside img fun q hq hqt hqa =>
        hapart.1 q hq htype hqt ⟨ha, hqa⟩]
      have hin : ph.vaddr.toNat ≤ a ∧ a < ph.vaddr.toNat + ph.memsz.toNat := ha
      rw [withSegment, overwrite, if_pos hin, Nat.add_sub_cancel' ha.1]
    · exact ih hapart.2 hph

/-! ## The loader -/

/-- What the process finds of a segment. -/
structure Present (img : Image) (d : Nat) (vm : Vm) (ph : Phdr) : Prop where
  file : ∀ k, k < ph.filesz.toNat →
    read vm d (ph.vaddr.toNat + k) = some (img.byte (ph.offset.toNat + k))
  zero : ∀ k, ph.filesz.toNat ≤ k → k < ph.memsz.toNat → read vm d (ph.vaddr.toNat + k) = some 0
  pages : ∀ n, ph.Overlaps n → Accessible vm d n

theorem Filled.accessible (h : Filled vm₁ d g vm) (ha : Accessible vm₁ d n) :
    Accessible vm d n := by
  obtain ⟨h1, -, h3⟩ := h.kept n
  unfold Accessible Shown at *
  rw [h.dir, h1, h3]
  exact ha

theorem Space.setCurDir (h : Space b d vm) : Space b d (vm.setCurDir d) where
  sound := ⟨h.sound.inj, h.sound.unused, h.sound.nodup⟩
  wired := h.wired
  user := h.user
  frames := by
    obtain ⟨held, hreach, hown⟩ := h.frames
    exact ⟨held, hreach, hown.held, hown.inj⟩

theorem Filled.refl (hs : vm.Sound d) : Filled vm d (fun a => (read vm d a).getD 0) vm where
  sound := hs
  dir := rfl
  kept _ := ⟨rfl, rfl, rfl⟩
  bytes a _ f o hf := by simp [read, hf]

/-- **Loading is faithful.** An image whose segments lie below the kernel and have no byte in
common is loaded as it says, if there are frames and page tables for its pages. -/
theorem load_faithful (b : Boot) (img : Image) (vm : Vm) (d : Nat) (hs : Space b d vm)
    (hvalid : img.hdr.valid = true) (hphoff : img.hdr.phoff ≠ 0)
    (htype : ∀ ph ∈ img.phdrs, ph.type = ptPhdr ∨ ph.type = ptLoad)
    (hbelow : ∀ ph ∈ img.phdrs, ph.type = ptLoad →
      ph.vaddr.toNat + ph.memsz.toNat ≤ kernelVirtualBase ∧ ph.filesz ≤ ph.memsz)
    (hapart : img.phdrs.Pairwise fun p q => p.type = ptLoad → q.type = ptLoad →
      ∀ a, ¬ (p.Holds a ∧ q.Holds a))
    (hframes : ((absentIn vm d (loadPages img.phdrs)).card : Int) ≤ vm.buddy.available)
    (htables : (missingIn vm d (loadPages img.phdrs)).card ≤ vm.spare.length) :
    ∃ brk vm', load (some img) (some d) vm = .ok (.ok ⟨img.hdr.entry, brk⟩) vm' ∧
      (∀ ph ∈ img.phdrs, ph.type = ptLoad → Present img d vm' ph) ∧ brk % pageSize = 0 ∧
      ∀ ph ∈ img.phdrs, ph.type = ptLoad → ph.vaddr.toNat + ph.memsz.toNat ≤ brk := by
  have hload : ∀ ph ∈ img.phdrs, ph.type ≠ ptPhdr → ph.type = ptLoad :=
    fun ph hph hne => (htype ph hph).resolve_left hne
  have hne : ∀ {ph : Phdr}, ph.type = ptLoad → ph.type ≠ ptPhdr := by
    intro ph hl
    rw [hl]
    decide
  have hfirst := allocSegments_maps (b := b) (d := d) (F := fun _ => False) img.phdrs
    (zero_mod pageSize) htype fun ph hph hl => .of_le (hbelow ph hph hl).1
  obtain ⟨_, vm₁, hrun, brk, rfl, hends, hs₁, hshown⟩ :=
    hfirst.returns ⟨hs, hframes, htables, fun _ h => h.elim⟩ fun _ _ h => h
  have hcur := hs₁.setCurDir
  have hplaced : ∀ ph ∈ img.phdrs, ph.type = ptLoad → Placed (vm₁.setCurDir d) d ph := by
    intro ph hph hl
    refine ⟨(hbelow ph hph hl).1, (hbelow ph hph hl).2, fun n hn => ?_⟩
    exact hshown n (.inr (mem_loadPages.mpr ⟨ph, hph, hl, hn⟩))
  have hsecond := copySegments_fills
    (g := fun a => (read (vm₁.setCurDir d) d a).getD 0) img img.phdrs
    hcur fun ph hph hp => hplaced ph hph (hload ph hph hp)
  obtain ⟨_, vm', hcopy, hfill⟩ := hsecond.returns (.refl hcur.sound) fun _ _ h => h
  refine ⟨brk, vm', ?_, ?_, hends.aligned, hends.above⟩
  · simp only [load, hvalid, not_true_eq_false, if_false, if_neg hphoff]
    rw [bind_of_ok hrun]
    exact bind_of_ok hcopy
  intro ph hph hl
  have hp := hplaced ph hph hl
  have hbyte {a : Nat} (ha : ph.Holds a) : read vm' d a = some (segmentByte img ph a) := by
    rw [hfill.read_eq (ha.2.trans_le hp.below) (hp.mapped hcur ha)]
    congr 1
    apply withSegments_inside img _ hph (hne hl) ha
    exact hapart.imp_of_mem fun hp hq h hpt hqt => h (hload _ hp hpt) (hload _ hq hqt) a
  have hfile : ph.filesz.toNat ≤ ph.memsz.toNat := hp.file
  constructor
  · intro k hk
    rw [hbyte ⟨by omega, by omega⟩, segmentByte, if_pos (by omega), Nat.add_sub_cancel_left]
  · intro k hk hk'
    rw [hbyte ⟨by omega, by omega⟩, segmentByte, if_neg (by omega)]
  · intro n hn
    apply hfill.accessible
    apply hcur.accessible
    · obtain ⟨h1, -, -⟩ := hn
      exact h1.trans_le hp.below
    · exact hp.shown n (hn.spans (.of_le hp.below))

theorem sampleVm_space : Space bootOne 0 sampleVm where
  sound := sampleVm_sound
  wired := sampleProc_exact.wired
  user := by
    intro j hj ht
    have hne : j ≠ 0x340 := by
      rintro rfl
      exact absurd hj (by decide)
    simp [sampleVm, hne] at ht
  frames := by
    have hinit : (⟨sampleVm.buddy, []⟩ : Frames) = .init bootOne := by
      simp [sampleVm, Frames.init]
    have hno : ∀ m, ¬ UserPage sampleVm 0 m := by
      rintro m ⟨hlow, hpres⟩
      have hidx : m >>> 10 ≠ 0x340 := by
        have := user_index hlow
        rintro heq
        rw [heq] at this
        exact absurd this (by decide)
      simp [Vm.pte, sampleVm, hidx, Page.present] at hpres
    exact ⟨[], .init hinit, fun m hm => absurd hm (hno m), fun m _ hm => absurd hm (hno m)⟩

/-- Two segments with a page in common, and bytes of the file and zeros in both. -/
theorem load_faithful_pair :
    ∃ brk vm', load (some (pairImage (sampleSegment 0x08048000 5) (sampleSegment 0x08048800 6)))
        (some 0) sampleVm = .ok (.ok ⟨0x08048000, brk⟩) vm' ∧
      Present (pairImage (sampleSegment 0x08048000 5) (sampleSegment 0x08048800 6)) 0 vm'
        (sampleSegment 0x08048800 6) ∧ 0x08048808 ≤ brk := by
  obtain ⟨brk, vm', hload, hpres, -, habove⟩ := load_faithful bootOne
    (pairImage (sampleSegment 0x08048000 5) (sampleSegment 0x08048800 6)) sampleVm 0 sampleVm_space
    (by decide) (by decide)
    (by
      rw [forall_pairImage]
      exact ⟨.inr rfl, .inr rfl⟩)
    (by
      rw [forall_pairImage]
      decide)
    (by
      rw [pairImage_phdrs, List.pairwise_pair]
      rintro - - a ⟨⟨-, h1⟩, h2, -⟩
      simp only [sampleSegment, BitVec.reduceToNat] at h1 h2
      omega)
    (by decide +kernel) (by decide +kernel)
  rw [forall_pairImage] at hpres habove
  exact ⟨brk, vm', hload, hpres.2 rfl, habove.2 rfl⟩

end Sysint.Memory
