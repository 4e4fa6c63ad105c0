import Sysint.Paging.Mapping
import Sysint.Process.Elf

/-! Which pages `elf::load` leaves writable. The first pass makes every page of a segment
writable; in the second pass a segment without `PF_W` takes this back from all its pages, also
from those that it shares. -/
namespace Sysint.Process.Elf

open Paging Hoare

/-- A page that cannot be written is made so by this segment. -/
def Phdr.ReadOnly (ph : Phdr) : Prop := ph.align.toNat ≥ pageSize ∧ ph.flags &&& pfW = 0

instance (ph : Phdr) : Decidable ph.ReadOnly := inferInstanceAs (Decidable (_ ∧ _))

/-- The pages that the loop behind the copy goes over. -/
def Phdr.Protects (ph : Phdr) (n : Nat) : Prop :=
  ph.ReadOnly ∧ Within (ph.start / 4096) ((ph.stop - ph.start) / pageSize) n

theorem Phdr.protects_iff {ph : Phdr} (h : ph.NoWrap) (n : Nat) :
    ph.Protects n ↔ ph.ReadOnly ∧ ph.Spans n := by
  unfold Phdr.Protects
  rw [ph.spans_iff h, ph.start_eq, ph.stop_eq h]
  unfold Within
  simp only [pageSize, pageShift, Nat.one_shiftLeft]
  have hfirst : ph.vaddr.toNat / 4096 * 4096 / 4096 = ph.vaddr.toNat / 4096 := by omega
  have hcount : ((ph.vaddr.toNat + ph.memsz.toNat + 4095) / 4096 * 4096 -
      ph.vaddr.toNat / 4096 * 4096) / 2 ^ 12 =
      (ph.vaddr.toNat + ph.memsz.toNat + 4095) / 4096 - ph.vaddr.toNat / 4096 := by omega
  rw [hfirst, hcount]
  have hle : ph.vaddr.toNat / 4096 ≤ (ph.vaddr.toNat + ph.memsz.toNat + 4095) / 4096 := by omega
  rw [Nat.add_sub_cancel' hle]

/-- The pages that a segment overlaps are among those that it allocates. -/
theorem Phdr.Overlaps.spans {ph : Phdr} {n : Nat} (h : ph.NoWrap) (hn : ph.Overlaps n) :
    ph.Spans n := by
  obtain ⟨h1, h2, -⟩ := hn
  rw [ph.spans_iff h]
  simp only [pageSize, pageShift, Nat.one_shiftLeft] at h1 h2
  omega

/-! ## The first pass -/

variable {vm₀ vm vm₁ : Vm} {d : Nat} {F : Nat → Prop} {flags : BitVec 32}

/-- Nothing is said of a run that stops. -/
def Any (_ : Stop) (_ : Vm) : Prop := True

/-- The pages of `F` are writable, the others if they were so before. -/
structure Opened (vm₀ : Vm) (d : Nat) (F : Nat → Prop) (vm : Vm) : Prop where
  sound : vm.Sound d
  rw : ∀ n, (vm.pte d n).rw = true ↔ F n ∨ (vm₀.pte d n).rw = true

section

variable (h : Opened vm₀ d F vm)
include h

theorem Opened.congr {G : Nat → Prop} (hG : ∀ n, G n ↔ F n) :
    Opened vm₀ d G vm where
  sound := h.sound
  rw n := by
    rw [hG n]
    exact h.rw n

theorem Opened.setPage {m : Nat} {p : Slot} (hp : vm.At d m p) {v : Page}
    (hv : v.rw = true) : Opened vm₀ d (fun n => F n ∨ n = m) (vm.setPage p v) where
  sound := ⟨h.sound.inj, h.sound.unused, h.sound.nodup⟩
  rw n := by
    rw [hp.pte_setPage h.sound]
    split
    · simp [*]
    · simp [h.rw n, *]

theorem Opened.addTable {i t : Nat} {ts : List Nat}
    (hnone : (vm.dir d).tables i = none) (hspare : vm.spare = t :: ts) (e : BitVec 32) :
    Opened vm₀ d F (vm.addTable d i e t ts) where
  sound := h.sound.addTable hspare e
  rw n := by
    rw [h.sound.pte_addTable hnone hspare]
    exact h.rw n

theorem Opened.setBuddy (b : Buddy) : Opened vm₀ d F (vm.setBuddy b) where
  sound := ⟨h.sound.inj, h.sound.unused, h.sound.nodup⟩
  rw := h.rw

end

theorem getPage_any {P : Vm → Prop} (d n : Nat) :
    Triple P (getPage d n) (fun o vm => P vm ∧ match o with
      | some p => vm.At d n p
      | none => (vm.dir d).tables (n >>> 10) = none) Any := by
  by_cases hn : n < 2 ^ 20
  · exact getPage_spec hn d
  · intro vm _
    rw [getPage_wild (by omega)]
    trivial

theorem makePage_opened (n : Nat) (flags : BitVec 32) :
    Triple (Opened vm₀ d F) (makePage d n flags) (fun p vm => Opened vm₀ d F vm ∧ vm.At d n p)
      Any := by
  apply Triple.bind (getPage_any d n)
  rintro (_ | p)
  · apply Triple.bind (kmalloc_spec.stop fun _ _ _ => trivial)
    rintro t _ ⟨vm', ts, ⟨hvm, hnone⟩, hs, rfl⟩
    refine ⟨hvm.addTable hnone hs _, ?_, rfl⟩
    simp
  · exact Triple.pure fun vm h => h

theorem Page.rw_make (h : flags.getLsbD 1 = true) (addr : Nat) :
    (Page.make flags addr).rw = true := by
  have hlow : (0xFFF : BitVec 32).getLsbD 1 = true := by decide
  simp only [Page.rw, Page.make, BitVec.getLsbD_or, BitVec.getLsbD_and, hlow, h, Bool.and_true,
    Bool.true_or]

theorem Page.rw_reflag (h : flags.getLsbD 1 = true) (p : Page) : (p.reflag flags).rw = true := by
  simp only [Page.rw, Page.reflag, BitVec.getLsbD_or, h, Bool.or_true]

/-- The pages that `alloc_pages` has gone over are writable, if the flags say so. -/
theorem allocPages_opened (hflags : flags.getLsbD 1 = true) (n i : Nat) :
    Triple (Opened vm₀ d F) (allocPages d flags n i)
      (fun r vm => r = true → Opened vm₀ d (fun m => F m ∨ Within i n m) vm) Any := by
  induction n generalizing i F with
  | zero =>
    apply Triple.pure
    intro vm h _
    apply h.congr
    intro m
    exact or_iff_left fun hm => by unfold Within at hm; omega
  | succ n ih =>
    have hrest : Triple (Opened vm₀ d fun m => F m ∨ m = i) (allocPages d flags n (i + 1))
        (fun r vm => r = true → Opened vm₀ d (fun m => F m ∨ Within i (n + 1) m) vm) Any := by
      apply (ih (i + 1)).post
      intro r vm h hr
      apply (h hr).congr
      intro m
      rw [or_assoc]
      apply or_congr_right
      unfold Within
      omega
    apply Triple.bind (getPage_any d i)
    intro o
    apply Triple.get
    intro vm _
    cases hp : o.filter fun p => (vm.page p).present with
    | some p =>
      obtain ⟨rfl, -⟩ := Option.filter_eq_some_iff.mp hp
      apply Triple.bind (Triple.modify ?_) fun _ => hrest
      rintro _ ⟨⟨h, hat⟩, -⟩
      exact h.setPage hat (Page.rw_reflag hflags _)
    | none =>
      apply Triple.bind ((makePage_opened i flags).pre fun _ h => h.1.1)
      intro p
      let Set (vm : Vm) : Prop := Opened vm₀ d (fun m => F m ∨ m = i) vm ∧ vm.At d i p
      apply Triple.bind (Triple.modify (R := fun _ => Set) ?_)
      · intro _
        apply Triple.bind ((allocFrame_spec fun vm b h => ⟨h.1.setBuddy b, h.2⟩).stop
          fun _ _ _ => trivial)
        intro addr
        apply Triple.bind (Triple.modify (R := fun _ => Opened vm₀ d fun m => F m ∨ m = i) ?_)
        · intro _
          apply Triple.ite
          · intro _
            apply Triple.pure
            intro vm _ hr
            cases hr
          · exact fun _ => hrest
        · rintro vm ⟨h, hat⟩
          refine (h.setPage hat (Page.rw_make hflags _)).congr fun m => ?_
          rw [or_assoc, or_self]
      · rintro vm ⟨h, hat⟩
        exact ⟨h.setPage hat (Page.rw_make hflags 0), hat⟩

/-- The pages that the first pass goes over. -/
def Opens (phs : List Phdr) (n : Nat) : Prop := ∃ ph ∈ phs, ph.type = ptLoad ∧ ph.Spans n

/-- After the first pass the pages of all segments are writable. -/
theorem allocSegments_opened (phs : List Phdr) (brk : Nat) :
    Triple (Opened vm₀ d F) (allocSegments d phs brk)
      (fun r vm => r.isOk → Opened vm₀ d (fun n => F n ∨ Opens phs n) vm ∧
        ∀ ph ∈ phs, ph.type ≠ ptPhdr → ph.type = ptLoad) Any := by
  induction phs generalizing brk F with
  | nil =>
    apply Triple.pure
    intro vm h _
    exact ⟨h.congr (by simp [Opens]), by simp⟩
  | cons ph phs ih =>
    apply Triple.ite
    · intro htype
      have hne : ptPhdr ≠ ptLoad := by decide
      apply (ih brk).post
      intro r vm h hr
      obtain ⟨hw, hload⟩ := h hr
      exact ⟨hw.congr (by simp [Opens, htype, hne]), by simpa [htype] using hload⟩
    intro htype
    apply Triple.ite
    · intro hl
      apply Triple.bind (allocPages_opened (by decide) _ _)
      rintro (_ | _)
      · apply Triple.pure
        intro vm _ hr
        cases hr
      · apply (ih _).weaken (fun _ h => h rfl) _ fun _ _ h => h
        intro r vm h hr
        obtain ⟨hw, hload⟩ := h hr
        refine ⟨hw.congr fun n => ?_, by simpa [hl] using hload⟩
        simp [Opens, hl, or_assoc, Phdr.Spans]
    · intro _
      apply Triple.pure
      intro vm _ hr
      cases hr

/-! ## The second pass -/

/-- From `vm₁` on, the pages of `F` have lost their permission to write, and no others. -/
structure Locked (vm₁ : Vm) (d : Nat) (F : Nat → Prop) (vm : Vm) : Prop where
  sound : vm.Sound d
  rw : ∀ n, (vm.pte d n).rw = true ↔ (vm₁.pte d n).rw = true ∧ ¬ F n

theorem Locked.congr {G : Nat → Prop} (h : Locked vm₁ d F vm) (hG : ∀ n, G n ↔ F n) :
    Locked vm₁ d G vm where
  sound := h.sound
  rw n := by
    rw [hG n]
    exact h.rw n

theorem Page.rw_clear (p : Page) : (Page.mk (p.value &&& ~~~ pageRw)).rw = false := by
  have hbit : (~~~ pageRw).getLsbD 1 = false := by decide
  simp only [Page.rw, BitVec.getLsbD_and, hbit, Bool.and_false]

theorem Locked.clear (h : Locked vm₁ d F vm) {m : Nat} {p : Slot} (hp : vm.At d m p) :
    Locked vm₁ d (fun n => F n ∨ n = m) (vm.setPage p ⟨(vm.page p).value &&& ~~~ pageRw⟩) where
  sound := ⟨h.sound.inj, h.sound.unused, h.sound.nodup⟩
  rw n := by
    rw [hp.pte_setPage h.sound]
    split
    · rename_i hn
      simp [Page.rw_clear, hn]
    · rename_i hn
      rw [h.rw n, not_or]
      exact and_congr_right fun _ => (and_iff_left hn).symm

theorem storeByte_locked (a : Nat) (v : BitVec 8) :
    Triple (Locked vm₁ d F) (storeByte d a v) (fun _ => Locked vm₁ d F) Any := by
  apply Triple.get
  intro vm _
  cases vm.translate d a with
  | none => exact Triple.throw fun _ _ => trivial
  | some fo =>
    apply Triple.modify
    rintro _ ⟨h, rfl⟩
    exact ⟨⟨h.sound.inj, h.sound.unused, h.sound.nodup⟩, h.rw⟩

theorem fill_locked (dst : Nat) (src : Nat → BitVec 8) (n k : Nat) :
    Triple (Locked vm₁ d F) (fill d dst src n k) (fun _ => Locked vm₁ d F) Any := by
  induction n generalizing k with
  | zero => exact Triple.pure fun _ h => h
  | succ n ih => exact Triple.bind (storeByte_locked _ _) fun _ => ih (k + 1)

theorem copyOut_locked (dst : Nat) (src : Nat → BitVec 8) (n : Nat) :
    Triple (Locked vm₁ d F) (copyOut d dst src n) (fun _ => Locked vm₁ d F) Any :=
  Triple.ite (fun _ => fill_locked dst src _ 0) fun _ => fill_locked dst src _ 0

theorem setReadOnly_locked (n a : Nat) : Triple (Locked vm₁ d F) (setReadOnly d n a)
      (fun _ => Locked vm₁ d fun m => F m ∨ Within (a / 4096) n m) Any := by
  induction n generalizing a F with
  | zero =>
    apply Triple.pure
    intro vm h
    apply h.congr
    unfold Within
    intro m
    constructor
    · rintro (hm | hm)
      · exact hm
      · omega
    · exact .inl
  | succ n ih =>
    have hshift : a >>> pageShift = a / 4096 := Nat.shiftRight_eq_div_pow a 12
    have hnext : (a + pageSize) / 4096 = a / 4096 + 1 := by
      simp only [pageSize, pageShift, Nat.one_shiftLeft]
      omega
    apply Triple.bind (getPage_any d _)
    rintro (_ | p)
    · exact Triple.throw fun _ _ => trivial
    apply Triple.bind (Triple.modify (R := fun _ => Locked vm₁ d fun m => F m ∨ m = a / 4096) ?_)
    · intro _
      apply (ih (a + pageSize)).post
      intro _ vm h
      apply h.congr
      intro m
      rw [hnext, or_assoc]
      apply or_congr_right
      unfold Within
      omega
    · rintro vm ⟨h, hat⟩
      rw [hshift] at hat
      exact h.clear hat

theorem copySegment_locked (img : Image) (ph : Phdr) :
    Triple (Locked vm₁ d F) (copySegment d img ph)
      (fun _ => Locked vm₁ d fun n => F n ∨ ph.Protects n) Any := by
  apply Triple.bind (copyOut_locked _ _ _)
  intro _
  apply Triple.bind (Q := fun _ => Locked vm₁ d F)
  · exact Triple.ite (fun _ => copyOut_locked _ _ _) fun _ => Triple.pure fun _ h => h
  intro _
  apply Triple.ite
  · intro hro
    apply (setReadOnly_locked _ _).post
    intro _ vm h
    apply h.congr
    intro n
    exact or_congr_right (and_iff_right hro)
  intro hro
  apply Triple.pure
  intro vm h
  apply h.congr
  intro n
  exact or_iff_left fun hp => hro hp.1

theorem copySegments_locked (img : Image) (phs : List Phdr) :
    Triple (Locked vm₁ d F) (copySegments d img phs)
      (fun _ => Locked vm₁ d fun n => F n ∨ ∃ ph ∈ phs, ph.type ≠ ptPhdr ∧ ph.Protects n) Any := by
  induction phs generalizing F with
  | nil =>
    apply Triple.pure
    intro vm h
    exact h.congr (by simp)
  | cons ph phs ih =>
    apply Triple.ite
    · intro htype
      apply ih.post
      intro _ vm h
      apply h.congr
      intro n
      simp [htype]
    intro htype
    apply Triple.bind (copySegment_locked img ph)
    intro _
    apply ih.post
    intro _ vm h
    apply h.congr
    intro n
    simp [htype, or_assoc]

/-! ## The loader -/

/-- The pages that the second pass makes read-only. -/
def Locks (phs : List Phdr) (n : Nat) : Prop := ∃ ph ∈ phs, ph.type = ptLoad ∧ ph.Protects n

/-- Every page is writable that the first pass goes over, or that was so before, and that the
second pass leaves so. -/
def Permitted (vm : Vm) (img : Image) (d : Nat) (vm' : Vm) : Prop :=
  ∀ n, (vm'.pte d n).rw = true ↔
    (Opens img.phdrs n ∨ (vm.pte d n).rw = true) ∧ ¬ Locks img.phdrs n

theorem load_permitted (img : Image) (hs : vm.Sound d) :
    Triple (· = vm) (load (some img) (some d))
      (fun r vm' => r.isOk → Permitted vm img d vm') Any := by
  have hrefuse (e : Int) : Triple (· = vm) (return .error e : Kernel (Except Int Loaded))
      (fun r vm' => r.isOk → Permitted vm img d vm') Any := by
    apply Triple.pure
    intro _ _ hr
    cases hr
  apply Triple.ite fun _ => hrefuse _
  intro _
  apply Triple.ite fun _ => hrefuse _
  intro _
  have hfirst : Triple (Opened vm d fun _ => False) (allocSegments d img.phdrs 0) _ Any :=
    allocSegments_opened img.phdrs 0
  apply Triple.bind (hfirst.pre ?_)
  · rintro (e | brk)
    · apply Triple.pure
      intro _ _ hr
      cases hr
    intro vm₁ h
    obtain ⟨hw, hload⟩ := h rfl
    have hbegin : Locked vm₁ d (fun _ => False) (vm₁.setCurDir d) :=
      ⟨⟨hw.sound.inj, hw.sound.unused, hw.sound.nodup⟩, fun n => by simp [Vm.pte, Vm.page]⟩
    have hsecond : Triple (Locked vm₁ d fun _ => False)
        (do copySegments d img img.phdrs; return .ok ⟨img.hdr.entry, brk⟩)
        (fun (r : Except Int Loaded) vm' => r.isOk → Permitted vm img d vm') Any := by
      apply Triple.bind (copySegments_locked img img.phdrs)
      intro _
      apply Triple.pure
      intro vm' h' _ n
      have hne : ptLoad ≠ ptPhdr := by decide
      have hlocks : (∃ ph ∈ img.phdrs, ph.type ≠ ptPhdr ∧ ph.Protects n) ↔ Locks img.phdrs n := by
        constructor
        · rintro ⟨ph, hph, hty, hp⟩
          exact ⟨ph, hph, hload ph hph hty, hp⟩
        · rintro ⟨ph, hph, hty, hp⟩
          exact ⟨ph, hph, hty ▸ hne, hp⟩
      rw [h'.rw, hw.rw, false_or, false_or, hlocks]
    exact hsecond _ hbegin
  · rintro _ rfl
    exact ⟨hs, fun n => by simp⟩

/-- The page overlaps a segment with `PF_W`. -/
def Image.Writes (img : Image) (n : Nat) : Prop :=
  ∃ ph ∈ img.phdrs, ph.type = ptLoad ∧ ph.flags &&& pfW ≠ 0 ∧ ph.Overlaps n

/-- The page overlaps segments without `PF_W` only, which could be made read-only. -/
def Image.Reads (img : Image) (n : Nat) : Prop :=
  (∃ ph ∈ img.phdrs, ph.type = ptLoad ∧ ph.Overlaps n) ∧
    ∀ ph ∈ img.phdrs, ph.type = ptLoad → ph.Overlaps n → ph.ReadOnly

/-- **Permissions.** Every page has the permission that its segments ask for exactly if no page
that overlaps a segment with `PF_W` is made read-only for another one, and every page that overlaps
only others is so; a page that the first pass does not go over, because the size of its segment
wraps, has to have had the permission before. -/
theorem load_permissions (img : Image) (vm vm' : Vm) (d : Nat) (r : Loaded) (hs : vm.Sound d)
    (h : load (some img) (some d) vm = .ok (.ok r) vm') :
    ((∀ n, img.Writes n → (vm'.pte d n).rw = true) ∧ ∀ n, img.Reads n → (vm'.pte d n).rw = false) ↔
    (∀ n, img.Writes n → ¬ Locks img.phdrs n ∧ (Opens img.phdrs n ∨ (vm.pte d n).rw = true)) ∧
      ∀ n, img.Reads n →
        Locks img.phdrs n ∨ ¬ Opens img.phdrs n ∧ (vm.pte d n).rw = false := by
  have hperm := (load_permitted img hs).ok rfl h rfl
  refine and_congr (forall₂_congr fun n _ => ?_) (forall₂_congr fun n _ => ?_)
  · rw [hperm n, and_comm]
  · rw [← Bool.not_eq_true, hperm n, ← Bool.not_eq_true]
    tauto

/-- A segment of eight bytes, half of them from the file. -/
def sampleSegment (vaddr flags : BitVec 32) : Phdr where
  type := ptLoad
  offset := 84
  vaddr := vaddr
  filesz := 4
  memsz := 8
  flags := flags
  align := 4096

/-- An image of two segments. -/
def pairImage (a b : Phdr) : Image where
  hdr := { (sampleImage 0x08048000 4).hdr with phnum := 2 }
  phdr := fun i => if i = 0 then a else b
  byte := fun k => BitVec.ofNat 8 k

theorem pairImage_phdrs (a b : Phdr) : (pairImage a b).phdrs = [a, b] := rfl

theorem forall_pairImage {P : Phdr → Prop} {a b : Phdr} :
    (∀ ph ∈ (pairImage a b).phdrs, P ph) ↔ P a ∧ P b := by
  rw [pairImage_phdrs, List.forall_mem_cons, List.forall_mem_singleton]

/-- A writable segment behind one that is not. -/
def apartImage : Image := pairImage (sampleSegment 0x08049000 6) (sampleSegment 0x08048000 5)

theorem load_permissions_pair :
    ∃ r vm', load (some apartImage) (some 0) sampleVm = .ok (.ok r) vm' ∧
    (vm'.pte 0 0x8049).rw = true ∧ (vm'.pte 0 0x8048).rw = false := by
  have hrun : outcome (load (some apartImage) (some 0)) sampleVm (fun r _ => r.isOk) =
      some true := by
    decide +kernel
  have hwrap : ∀ ph ∈ apartImage.phdrs, ph.NoWrap := by
    rw [apartImage, forall_pairImage]
    unfold Phdr.NoWrap
    decide
  have hspan : ∀ ph ∈ apartImage.phdrs, ∀ n, ph.Overlaps n → ph.Spans n :=
    fun ph hph n hn => hn.spans (hwrap ph hph)
  have hshare : ∀ p ∈ apartImage.phdrs, p.flags &&& pfW ≠ 0 → ∀ q ∈ apartImage.phdrs, q.ReadOnly →
      ∀ n, p.Overlaps n → ¬ q.Spans n := by
    simp only [apartImage, forall_pairImage]
    refine ⟨fun _ => ⟨fun hro => absurd hro (by decide), fun _ n hn hq => ?_⟩, absurd rfl⟩
    rw [Phdr.spans_iff (by unfold Phdr.NoWrap; decide)] at hq
    have hfirst := hn.2.1
    simp only [sampleSegment, BitVec.reduceToNat, pageSize, pageShift, Nat.one_shiftLeft]
      at hfirst hq
    omega
  obtain ⟨r, vm', hr, hok⟩ := ok_of_outcome hrun
  cases r with
  | error e => cases hok
  | ok r =>
    obtain ⟨hw, hro⟩ := (load_permissions _ sampleVm vm' 0 r sampleVm_sound hr).mpr ⟨by
      rintro n ⟨p, hp, hl, hflag, hn⟩
      refine ⟨?_, .inl ⟨p, hp, hl, hspan p hp n hn⟩⟩
      rintro ⟨q, hq, -, hlock⟩
      obtain ⟨hqro, hqn⟩ := (q.protects_iff (hwrap q hq) n).mp hlock
      exact hshare p hp hflag q hq hqro n hn hqn, by
      rintro n ⟨⟨p, hp, hl, hn⟩, hall⟩
      refine .inl ⟨p, hp, hl, (p.protects_iff (hwrap p hp) n).mpr ?_⟩
      exact ⟨hall p hp hl hn, hspan p hp n hn⟩⟩
    refine ⟨r, vm', hr, hw _ ⟨_, .head _, rfl, by decide, ?_⟩,
      hro _ ⟨⟨_, .tail _ (.head _), rfl, ?_⟩, ?_⟩⟩
    · unfold Phdr.Overlaps
      decide
    · unfold Phdr.Overlaps
      decide
    · rw [apartImage, forall_pairImage]
      unfold Phdr.Overlaps
      decide

/-- A page that code and data share is read-only afterwards, in both orders of the headers. -/
theorem load_locks_shared_page : (sampleSegment 0x08048800 6).flags &&& pfW ≠ 0 ∧
    (sampleSegment 0x08048800 6).Overlaps 0x8048 ∧
    loaded (pairImage (sampleSegment 0x08048000 5) (sampleSegment 0x08048800 6))
      (fun vm => (vm.pte 0 0x8048).rw) = some (true, false) ∧
    loaded (pairImage (sampleSegment 0x08048800 6) (sampleSegment 0x08048000 5))
      (fun vm => (vm.pte 0 0x8048).rw) = some (true, false) := by
  unfold Phdr.Overlaps
  decide +kernel

end Sysint.Process.Elf
