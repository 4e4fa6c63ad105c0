import Mathlib.Data.Finset.Card
import Mathlib.Order.Interval.Finset.Nat
import Sysint.Paging.AllocPages

/-! `page_dir::alloc_pages` as long as there are frames for the pages that are not present:
it succeeds, every such page gets a frame of its own, and the other pages keep theirs. -/
namespace Sysint.Paging

open Hoare List Nat Finset
open BitVec hiding not_or

/-! ## Entries -/

theorem low_and (x : BitVec 32) : x &&& 0xFFF = BitVec.ofNat 32 (x.toNat % 4096) := by
  apply eq_of_toNat_eq
  have h : x.toNat &&& 4095 = x.toNat % 4096 := and_low x.toNat 12
  rw [toNat_and, toNat_ofNat, mod_eq_of_lt (b := 2 ^ 32) (by omega)]
  exact h

/-- Flags and a frame number do not overlap. -/
theorem join_toNat {f : Nat} (hf : f < 2 ^ 20) {x : BitVec 32} (hx : x.toNat < 4096) :
    (x ||| BitVec.ofNat 32 (f <<< pageShift)).toNat = f * 4096 + x.toNat := by
  have hshift : f <<< pageShift = f * 2 ^ 12 := Nat.shiftLeft_eq f 12
  rw [toNat_or, toNat_ofNat, hshift, mod_eq_of_lt (by omega), Nat.or_comm,
    Nat.mul_comm f, ← two_pow_add_eq_or_of_lt hx, Nat.mul_comm f]

theorem Page.make_addr (flags : BitVec 32) {f : Nat} (hf : f < 2 ^ 20) :
    (Page.make flags f).addr = f := by
  have hlow : (flags &&& 0xFFF).toNat < 4096 := by
    rw [low_and, toNat_ofNat]
    omega
  rw [Page.addr, Page.make, join_toNat hf hlow, shiftRight_eq_div_pow]
  simp only [pageShift]
  omega

theorem Page.make_present (flags : BitVec 32) (f : Nat) :
    (Page.make flags f).present = flags.getLsbD 0 := by
  have hlow : (0xFFF : BitVec 32).getLsbD 0 = true := by decide
  have hhigh : (BitVec.ofNat 32 (f <<< pageShift)).getLsbD 0 = false := by
    simp only [getLsbD_ofNat, testBit_shiftLeft, pageShift]
    rfl
  simp only [Page.present, Page.make, getLsbD_or, getLsbD_and, hlow, hhigh,
    Bool.and_true, Bool.or_false]

theorem Page.addr_lt (p : Page) : p.addr < 2 ^ 20 := by
  have := p.value.isLt
  rw [Page.addr, shiftRight_eq_div_pow, pageShift]
  omega

/-- The address of a frame is a 32-bit value. -/
theorem Page.addr_shift (p : Page) : u32 (p.addr <<< pageShift) = p.addr <<< pageShift := by
  have := p.addr_lt
  apply u32_of_lt
  rw [Nat.shiftLeft_eq]
  simp only [pageShift]
  omega

/-- Flags of twelve bits leave the frame alone. -/
theorem Page.reflag_eq (p : Page) {flags : BitVec 32} (h : flags &&& 0xFFF = flags) :
    p.reflag flags = Page.make flags p.addr := by
  rw [Page.reflag, Page.make, h, BitVec.or_comm]

/-! ## The loop -/

/-- The pages from page `i` on, `n` of them, that are not present. -/
def Vm.absent (vm : Vm) (d i n : Nat) : List Nat :=
  (List.range' i n).filter fun m => !(vm.pte d m).present

/-- The indices of the tables that these pages lack. -/
def Vm.missing (vm : Vm) (d i n : Nat) : Finset Nat :=
  ((Finset.Ico i (i + n)).image (· >>> 10)).filter fun j => (vm.dir d).tables j = none

theorem Vm.absent_succ (vm : Vm) (d i k : Nat) : vm.absent d i (k + 1) =
    vm.absent d i k ++ if (vm.pte d (i + k)).present then [] else [i + k] := by
  rw [Vm.absent, range'_1_concat, filter_append]
  congr 1
  cases h : (vm.pte d (i + k)).present <;> simp [h]

theorem Vm.absent_length_mono (vm : Vm) (d i k l : Nat) :
    (vm.absent d i k).length ≤ (vm.absent d i (k + l)).length := by
  induction l with
  | zero => exact Nat.le_refl _
  | succ l ih =>
    rw [← Nat.add_assoc, vm.absent_succ, length_append]
    omega

/-- What the allocator promises: while fewer than `room` frames have been taken, there is one
more. `J` relates its state to the frames taken so far. -/
def Supplies (J : Buddy → List Nat → Prop) (room : Nat) : Prop :=
  ∀ s fs, J s fs → fs.length < room →
    ∃ t f, allocFrames s 0 = some (t, f <<< pageShift) ∧ 0 < f ∧ f < 2 ^ 20 ∧ J t (f :: fs)

/-- Of the pages `i` to `i + n`, the first `k` are done. `fs` has those that were absent, with
the frames that they got. -/
structure Mapping (J : Buddy → List Nat → Prop) (vm₀ : Vm) (d : Nat) (flags : BitVec 32)
    (i n k : Nat) (fs : List (Nat × Nat)) (vm : Vm) : Prop where
  changes : Changes vm₀ d (Within i n) (Within i k) vm
  pages : (fs.map Prod.fst).Perm (vm₀.absent d i k)
  fresh : ∀ x ∈ fs, x.2 < 2 ^ 20 ∧ vm.pte d x.1 = Page.make flags x.2
  kept : ∀ m, Within i k m → (vm₀.pte d m).present = true →
    vm.pte d m = (vm₀.pte d m).reflag flags
  rest : ∀ m, ¬ Within i k m → vm.pte d m = vm₀.pte d m
  supply : J vm.buddy (fs.map Prod.snd)
  tables : vm.spare.length + (vm₀.missing d i n).card =
    vm₀.spare.length + (vm.missing d i n).card
  linked : ∀ j, (vm.dir d).tables j = (vm₀.dir d).tables j ∧
      (vm.dir d).entries j = (vm₀.dir d).entries j ∨
    ∃ t, (vm.dir d).tables j = some t ∧ (vm.dir d).entries j = (Page.make flags t).value

variable {J : Buddy → List Nat → Prop} {vm vm₀ : Vm} {d i n k m : Nat} {flags : BitVec 32}
  {fs : List (Nat × Nat)} {p : Slot}

theorem Mapping.start (hs : vm.Sound d) (hJ : J vm.buddy []) (flags : BitVec 32) (i n : Nat) :
    Mapping J vm d flags i n 0 [] vm where
  changes := (Changes.refl hs _).mono fun m hm => by
    unfold Within at hm
    omega
  pages := List.Perm.refl []
  fresh _ h := absurd h not_mem_nil
  kept m hm := by
    unfold Within at hm
    omega
  rest _ _ := rfl
  supply := hJ
  tables := rfl
  linked _ := .inl ⟨rfl, rfl⟩

theorem within_succ {i k : Nat} : Within i (k + 1) m ↔ Within i k m ∨ m = i + k := by
  unfold Within
  omega

theorem not_within_end (i k : Nat) : ¬ Within i k (i + k) := by
  unfold Within
  omega

theorem Vm.At.pte {vm : Vm} {d : Nat} (h : vm.At d m p) : vm.pte d m = vm.page p := by
  obtain ⟨t, j⟩ := p
  obtain ⟨ht, rfl⟩ := h
  exact Vm.pte_of_table ht

/-- A write to the entry of page `m` changes this page only. -/
theorem Vm.At.pte_setPage (h : vm.At d m p) (hs : vm.Sound d) (v : Page)
    (j : Nat) : (vm.setPage p v).pte d j = if j = m then v else vm.pte d j := by
  obtain ⟨t, x⟩ := p
  obtain ⟨ht, rfl⟩ := h
  exact hs.pte_setPage ht v j

theorem Changes.learn (h : Changes vm₀ d (Within i n) (Within i k) vm)
    (hp : vm.At d (i + k) p) : Changes vm₀ d (Within i n) (Within i (k + 1)) vm := by
  apply h.mono
  intro m hm
  rcases within_succ.mp hm with hm | rfl
  · exact h.has m hm
  · simp [hp.1]

section

variable (h : Mapping J vm₀ d flags i n k fs vm)
include h

/-- The next page is present. -/
theorem Mapping.keep (hk : k < n)
    (hp : vm.At d (i + k) p) (hpres : (vm.page p).present = true) :
    Mapping J vm₀ d flags i n (k + 1) fs (vm.setPage p ((vm.page p).reflag flags)) := by
  have hold : vm.page p = vm₀.pte d (i + k) := by
    rw [← hp.pte]
    exact h.rest _ (not_within_end i k)
  have hpte := hp.pte_setPage h.changes.sound ((vm.page p).reflag flags)
  have habs : vm₀.absent d i (k + 1) = vm₀.absent d i k := by
    rw [vm₀.absent_succ, ← hold, hpres, if_pos rfl, append_nil]
  constructor
  · exact (h.changes.setPage_at ⟨by omega, by omega⟩ hp _).learn hp
  · rw [habs]
    exact h.pages
  · intro x hx
    have hmem : x.1 ∈ vm₀.absent d i k := h.pages.mem_iff.mp (List.mem_map_of_mem hx)
    have hrange := mem_range'_1.mp (List.mem_of_mem_filter hmem)
    rw [hpte, if_neg (by omega)]
    exact h.fresh x hx
  · intro m hm hm₀
    rw [hpte]
    rcases within_succ.mp hm with hm | rfl
    · rw [if_neg (by unfold Within at hm; omega)]
      exact h.kept m hm hm₀
    · rw [if_pos rfl, hold]
  · intro m hm
    rw [within_succ, not_or] at hm
    rw [hpte, if_neg hm.2]
    exact h.rest m hm.1
  · exact h.supply
  · exact h.tables
  · exact h.linked

/-- The next page gets a frame. -/
theorem Mapping.take (hk : k < n)
    (hp : vm.At d (i + k) p) (habs : (vm₀.pte d (i + k)).present = false) {t : Buddy} {f : Nat}
    (hf : f < 2 ^ 20) (hJ : J t (f :: fs.map Prod.snd)) :
    Mapping J vm₀ d flags i n (k + 1) ((i + k, f) :: fs)
      ((vm.setBuddy t).setPage p (Page.make flags f)) := by
  have hp' : (vm.setBuddy t).At d (i + k) p := hp
  have hchg := h.changes.setBuddy t
  have hpte := hp'.pte_setPage hchg.sound (Page.make flags f)
  have hsame : ∀ m, (vm.setBuddy t).pte d m = vm.pte d m := fun _ => rfl
  constructor
  · exact (hchg.setPage_at ⟨by omega, by omega⟩ hp' _).learn hp'
  · rw [vm₀.absent_succ, habs]
    exact (h.pages.cons (i + k)).trans (perm_append_singleton _ _).symm
  · intro x hx
    rw [hpte]
    rcases List.mem_cons.mp hx with rfl | hx
    · exact ⟨hf, if_pos rfl⟩
    · have hmem : x.1 ∈ vm₀.absent d i k := h.pages.mem_iff.mp (List.mem_map_of_mem hx)
      have hrange := mem_range'_1.mp (List.mem_of_mem_filter hmem)
      rw [if_neg (by omega)]
      exact h.fresh x hx
  · intro m hm hm₀
    rcases within_succ.mp hm with hm | rfl
    · rw [hpte, if_neg (by unfold Within at hm; omega)]
      exact h.kept m hm hm₀
    · rw [habs] at hm₀
      cases hm₀
  · intro m hm
    rw [within_succ, not_or] at hm
    rw [hpte, if_neg hm.2]
    exact h.rest m hm.1
  · exact hJ
  · exact h.tables
  · exact h.linked

/-- The next page gets a table. -/
theorem Mapping.addTable (hk : k < n)
    (hnone : (vm.dir d).tables ((i + k) >>> 10) = none) {t : Nat} {ts : List Nat}
    (hspare : vm.spare = t :: ts) : Mapping J vm₀ d flags i n k fs
      (vm.addTable d ((i + k) >>> 10) (Page.make flags t).value t ts) := by
  have hpte := h.changes.sound.pte_addTable hnone hspare (Page.make flags t).value
  constructor
  · exact h.changes.addTable ⟨by omega, by omega⟩ hnone hspare _
  · exact h.pages
  · intro x hx
    rw [hpte]
    exact h.fresh x hx
  · intro m hm hm₀
    rw [hpte]
    exact h.kept m hm hm₀
  · intro m hm
    rw [hpte]
    exact h.rest m hm
  · exact h.supply
  · have hin : (i + k) >>> 10 ∈ vm.missing d i n := by
      refine Finset.mem_filter.mpr ⟨mem_image_of_mem _ ?_, hnone⟩
      exact mem_Ico.mpr ⟨by omega, by omega⟩
    have herase : (vm.addTable d ((i + k) >>> 10) (Page.make flags t).value t ts).missing d i n =
        (vm.missing d i n).erase ((i + k) >>> 10) := by
      ext j
      simp only [Vm.missing, Vm.addTable, Vm.setEntry_dir, Function.update_self, Vm.setTable_dir,
        Vm.setSpare_dir, Finset.mem_filter, mem_erase, Function.update_apply]
      grind
    have hpos := Finset.card_pos.mpr ⟨_, hin⟩
    have hlen : vm.spare.length = ts.length + 1 := by rw [hspare, length_cons]
    have hcount := h.tables
    rw [herase, card_erase_of_mem hin]
    change ts.length + _ = _
    omega
  · intro j
    by_cases hj : j = (i + k) >>> 10
    · right
      exact ⟨t, by simp [Vm.addTable, hj], by simp [Vm.addTable, hj]⟩
    · simpa [Vm.addTable, hj] using h.linked j

end

/-- The heap has to grow for want of page tables, or the address space ends. -/
def Stops (vm₀ : Vm) (d i n : Nat) (e : Stop) (_ : Vm) : Prop :=
  e = .grow ∧ vm₀.spare.length < (vm₀.missing d i n).card ∨ e = .wild ∧ 2 ^ 20 < i + n

theorem makePage_mapping (hk : k < n) (hpage : i + k < 2 ^ 20) :
    Triple (Mapping J vm₀ d flags i n k fs) (makePage d (i + k) flags)
      (fun p vm => Mapping J vm₀ d flags i n k fs vm ∧ vm.At d (i + k) p) (Stops vm₀ d i n) := by
  apply Triple.bind (getPage_spec hpage d)
  rintro (_ | p)
  · apply Triple.bind (kmalloc_spec.stop ?_)
    · intro t vm h
      obtain ⟨vm', ts, ⟨hvm, hnone⟩, hs, rfl⟩ := h
      refine ⟨hvm.addTable hk hnone hs, ?_, rfl⟩
      simp
    rintro e vm ⟨⟨hvm, hnone⟩, hs, rfl⟩
    left
    refine ⟨rfl, ?_⟩
    have hin : (i + k) >>> 10 ∈ vm.missing d i n := by
      refine Finset.mem_filter.mpr ⟨mem_image_of_mem _ ?_, hnone⟩
      exact mem_Ico.mpr ⟨by omega, by omega⟩
    have hpos := Finset.card_pos.mpr ⟨_, hin⟩
    have hcount := hvm.tables
    rw [hs, length_nil] at hcount
    omega
  · exact Triple.pure fun vm h => h

theorem allocFrame_run {s : Vm} {t : Buddy} {p : Nat} (h : allocFrames s.buddy 0 = some (t, p)) :
    allocFrame s = .ok p (s.setBuddy t) := by
  simp only [allocFrame, get_bind, h, modify_bind, pure_run]

/-- The first write to the new entry does not outlive the second. -/
theorem Vm.setPage_setBuddy_setPage (vm : Vm) (p : Slot) (v w : Page) (t : Buddy) :
    ((vm.setPage p v).setBuddy t).setPage p w = (vm.setBuddy t).setPage p w := by
  simp [Vm.setPage, Vm.setTable, Vm.setBuddy]

theorem getPage_wild (h : 2 ^ 20 ≤ m) (d : Nat) (vm : Vm) : getPage d m vm = .error .wild vm := by
  have hidx : 1024 ≤ m >>> 10 := by
    rw [shiftRight_eq_div_pow]
    omega
  unfold getPage
  rw [if_pos hidx]
  rfl

/-- The part of the loop for a page that is not present, before it goes on with `x`. -/
theorem takePage_mapping {room : Nat} (hJ : Supplies J room) (hk : k < n)
    (hpage : i + k < 2 ^ 20) (habs : (vm₀.pte d (i + k)).present = false)
    (hlen : (vm₀.absent d i k).length < room) {x : Kernel Bool} {Q : Bool → Vm → Prop}
    (hx : Triple (fun vm => ∃ fs, Mapping J vm₀ d flags i n (k + 1) fs vm) x Q (Stops vm₀ d i n)) :
    Triple (Mapping J vm₀ d flags i n k fs)
      (do
        let p ← makePage d (i + k) flags
        modify (·.setPage p (Page.make flags 0))
        let addr ← allocFrame
        modify (·.setPage p (Page.make flags (addr >>> pageShift)))
        if addr >>> pageShift = 0 then return false
        x) Q (Stops vm₀ d i n) := by
  apply Triple.bind (makePage_mapping hk hpage)
  intro p
  apply Triple.bind (Triple.modify (R := fun _ vm => ∃ vm', Mapping J vm₀ d flags i n k fs vm' ∧
    vm'.At d (i + k) p ∧ vm = vm'.setPage p (Page.make flags 0)) ?_)
  · intro _
    apply Triple.bind (Q := fun a vm => ∃ f, a = f <<< pageShift ∧ 0 < f ∧ ∃ fs,
      Mapping J vm₀ d flags i n (k + 1) fs (vm.setPage p (Page.make flags f)))
    · apply Triple.call
      rintro _ ⟨vm', hmap, hat, rfl⟩
      have hroom : (fs.map Prod.snd).length < room := by
        have := hmap.pages.length_eq
        rw [length_map] at this ⊢
        omega
      obtain ⟨t, f, hrun, hpos, hlt, hJ'⟩ := hJ _ _ hmap.supply hroom
      refine ⟨_, _, allocFrame_run hrun, f, rfl, hpos, (i + k, f) :: fs, ?_⟩
      rw [Vm.setPage_setBuddy_setPage]
      exact hmap.take hk hat habs hlt hJ'
    · intro a
      apply Triple.bind (Triple.modify (R := fun _ vm => a >>> pageShift ≠ 0 ∧
        ∃ fs, Mapping J vm₀ d flags i n (k + 1) fs vm) ?_)
      · intro _
        apply Triple.ite
        · intro hzero vm h
          exact absurd hzero h.1
        · exact fun _ => hx.pre fun _ h => h.2
      · rintro vm ⟨f, rfl, hpos, fs, hmap⟩
        rw [shiftLeft_shiftRight]
        exact ⟨by omega, fs, hmap⟩
  · rintro vm' ⟨hmap, hat⟩
    exact ⟨vm', hmap, hat, rfl⟩

/-- While the allocator supplies the frames, `alloc_pages` does not fail. -/
theorem allocPages_mapping {room : Nat} (hJ : Supplies J room)
    {l k' : Nat} (hl : k + l = k') (hk' : k' ≤ n) (hroom : (vm₀.absent d i k').length ≤ room) :
    Triple (fun vm => ∃ fs, Mapping J vm₀ d flags i n k fs vm) (allocPages d flags l (i + k))
      (fun r vm => r = true ∧ ∃ fs, Mapping J vm₀ d flags i n k' fs vm) (Stops vm₀ d i n) := by
  induction l generalizing k with
  | zero =>
    obtain rfl : k = k' := hl
    exact Triple.pure fun vm h => ⟨rfl, h⟩
  | succ l ih =>
    have hnext := ih (k := k + 1) (by omega)
    rw [← Nat.add_assoc] at hnext
    by_cases hpage : i + k < 2 ^ 20
    · apply Triple.bind (getPage_spec hpage d)
      intro o
      apply Triple.get
      intro vm ⟨⟨fs, hvm⟩, ho⟩
      cases hp : o.filter fun p => (vm.page p).present with
      | some p =>
        obtain ⟨rfl, hpres⟩ := Option.filter_eq_some_iff.mp hp
        apply Triple.bind (Triple.modify ?_) fun _ => hnext
        rintro _ ⟨-, rfl⟩
        exact ⟨fs, hvm.keep (by omega) ho hpres⟩
      | none =>
        have habs : (vm₀.pte d (i + k)).present = false := by
          rw [← hvm.rest _ (not_within_end i k)]
          cases o with
          | none =>
            rw [Vm.pte, ho]
            simp [Page.present]
          | some p =>
            rw [ho.pte]
            simpa using Option.filter_eq_none_iff.mp hp p rfl
        have hlen : (vm₀.absent d i k).length < room := by
          obtain rfl : k + 1 + l = k' := by omega
          have hle := vm₀.absent_length_mono d i (k + 1) l
          rw [vm₀.absent_succ, habs] at hle
          simp only [length_append, Bool.false_eq_true, ↓reduceIte, length_cons,
            length_nil] at hle
          omega
        rintro _ ⟨-, rfl⟩
        exact takePage_mapping hJ (by omega) hpage habs hlen hnext _ hvm
    · intro vm _
      have hstop : allocPages d flags (l + 1) (i + k) vm = .error .wild vm :=
        bind_of_error (getPage_wild (by omega) d vm)
      rw [hstop]
      exact Or.inr ⟨rfl, by omega⟩

/-! ## Pages after the loop -/

/-- Flags of twelve bits for pages that are present, and for tables. -/
structure UserFlags (flags : BitVec 32) : Prop where
  low : flags &&& 0xFFF = flags
  present : flags.getLsbD 0 = true
  small : flags &&& pageDir4m = 0

/-- A page of the range has kept its frame or has got one. -/
theorem Mapping.page_cases (h : Mapping J vm₀ d flags i n n fs vm) (hflags : UserFlags flags)
    (hm : Within i n m) : (vm.pte d m).present = true ∧
      (((vm₀.pte d m).present = true ∧ (vm.pte d m).addr = (vm₀.pte d m).addr) ∨
       ((vm₀.pte d m).present = false ∧ (m, (vm.pte d m).addr) ∈ fs)) := by
  cases hpres : (vm₀.pte d m).present with
  | true =>
    rw [h.kept m hm hpres, Page.reflag_eq _ hflags.low, Page.make_present, hflags.present,
      Page.make_addr _ (vm₀.pte d m).addr_lt]
    exact ⟨rfl, .inl ⟨rfl, rfl⟩⟩
  | false =>
    have habs : m ∈ vm₀.absent d i n := by
      refine List.mem_filter.mpr ⟨mem_range'_1.mpr hm, ?_⟩
      rw [hpres]
      rfl
    obtain ⟨⟨m', f⟩, hx, rfl⟩ := List.mem_map.mp (h.pages.mem_iff.mpr habs)
    obtain ⟨hlt, hpte⟩ := h.fresh _ hx
    rw [hpte, Page.make_present, hflags.present, Page.make_addr _ hlt]
    exact ⟨rfl, .inr ⟨rfl, hx⟩⟩

/-- The range has got its tables. -/
theorem Mapping.missing_eq (h : Mapping J vm₀ d flags i n n fs vm) : vm.missing d i n = ∅ := by
  refine Finset.filter_eq_empty_iff.mpr fun j hj => ?_
  obtain ⟨m, hm, rfl⟩ := Finset.mem_image.mp hj
  exact h.changes.has m (mem_Ico.mp hm)

/-- Below the kernel, an entry is present just when it has a table. -/
def Wired (vm : Vm) (d : Nat) : Prop :=
  ∀ j, j < kernelVirtualBase >>> 22 →
    ((vm.dir d).tables j = none → (vm.dir d).entries j &&& pagePresent = 0) ∧
    ((vm.dir d).tables j ≠ none → (vm.dir d).entries j &&& pagePresent ≠ 0 ∧
      (vm.dir d).entries j &&& pageDir4m = 0)

/-- Below the kernel, an address leads where its page table entry says. -/
theorem Wired.translate (h : Wired vm d) {a : Nat} (ha : a < kernelVirtualBase) :
    vm.translate d a = if (vm.pte d (a >>> pageShift)).present then
      some ((vm.pte d (a >>> pageShift)).addr, a &&& 0xFFF) else none := by
  have hidx : a >>> 22 = a >>> pageShift >>> 10 := by rw [← Nat.shiftRight_add, pageShift]
  have hlow : a >>> 22 < kernelVirtualBase >>> 22 := by
    rw [shiftRight_eq_div_pow]
    unfold kernelVirtualBase at *
    omega
  obtain ⟨hnone, hsome⟩ := h _ hlow
  cases ht : (vm.dir d).tables (a >>> 22) with
  | none =>
    have habs : (vm.pte d (a >>> pageShift)).present = false := by
      rw [Vm.pte, ← hidx, ht]
      simp [Page.present]
    simp [Vm.translate, hnone ht, habs]
  | some t =>
    obtain ⟨h1, h2⟩ := hsome (by simp [ht])
    simp only [Vm.translate, h1, h2, ↓reduceIte, ne_eq, not_true_eq_false]

theorem Page.make_present_ne {flags : BitVec 32} (hflags : UserFlags flags) (f : Nat) :
    (Page.make flags f).value &&& pagePresent ≠ 0 := by
  rw [Page.make_and_flag (by decide)]
  intro hzero
  have hbit := congrArg (BitVec.getLsbD · 0) hzero
  simp only [getLsbD_and, hflags.present, Bool.true_and] at hbit
  exact absurd hbit (by decide)

theorem Mapping.wired (h : Mapping J vm₀ d flags i n n fs vm) (hflags : UserFlags flags)
    (hw : Wired vm₀ d) : Wired vm d := by
  intro j hj
  obtain ⟨hnone, hsome⟩ := hw j hj
  rcases h.linked j with ⟨ht, he⟩ | ⟨t, ht, he⟩
  · rw [ht, he]
    exact ⟨hnone, hsome⟩
  constructor
  · intro h0
    rw [ht] at h0
    cases h0
  · intro _
    rw [he]
    refine ⟨Page.make_present_ne hflags t, ?_⟩
    rw [Page.make_and_flag (by decide), hflags.small]

/-! ## Frames of the allocator -/

open Dyadic

/-- The frames `fs` were drawn on top of the blocks `held`, when `room` frames were free. -/
def Drawn (b : Boot) (held : List Block) (room : Int) (s : Buddy) (fs : List Nat) : Prop :=
  Reachable b Machine.always ⟨s, fs.map (⟨·, 0⟩) ++ held⟩ ∧ s.available + fs.length = room

variable {b : Boot} {held : List Block} {room : Int}

theorem drawn_supplies (b : Boot) (held : List Block) {n : Int} (hn : n ≤ room) :
    Supplies (Drawn b held room) n.toNat := by
  rintro s fs ⟨hreach, hcount⟩ hlen
  obtain ⟨t, f, hrun, hpos, hlt, hreach', hcount', -⟩ := hreach.allocFrame (by omega)
  refine ⟨t, f, hrun, hpos, hlt, hreach', ?_⟩
  rw [length_cons]
  omega

/-- The frames drawn are distinct, and were in no block that was held. -/
theorem Drawn.fresh {s : Buddy} {fs : List Nat} (h : Drawn b held room s fs) :
    fs.Nodup ∧ ∀ f ∈ fs, ∀ c ∈ held, ¬ c.Mem f := by
  obtain ⟨lists, hi, -⟩ := reachable_inv h.1
  have happ := (pairwise_append.mp hi.family.apart).1
  obtain ⟨hfs, -, hcross⟩ := pairwise_append.mp happ
  constructor
  · rw [pairwise_map] at hfs
    exact hfs.imp fun hap => hap.start_ne
  · intro f hf c hc hmem
    exact hcross _ (List.mem_map_of_mem hf) c hc f (Block.mem_start _) hmem

/-- Each page of `H` has a frame of its own among the blocks held. -/
structure Owns (vm : Vm) (d : Nat) (H : Nat → Prop) (held : List Block) : Prop where
  held : ∀ m, H m → ⟨(vm.pte d m).addr, 0⟩ ∈ held
  inj : ∀ m n, H m → H n → (vm.pte d m).addr = (vm.pte d n).addr → m = n

/-- Pages that have kept their frames, and pages that have got one. -/
theorem Mapping.owns {H H' : Nat → Prop}
    (h : Mapping (Drawn b held room) vm₀ d flags i n k fs vm) (ho : Owns vm₀ d H held)
    (hcases : ∀ m, H' m → (H m ∧ (vm.pte d m).addr = (vm₀.pte d m).addr) ∨
      (m, (vm.pte d m).addr) ∈ fs) :
    Owns vm d H' ((fs.map Prod.snd).map (⟨·, 0⟩) ++ held) := by
  obtain ⟨hnodup, hfresh⟩ := h.supply.fresh
  have hdrawn : ∀ m f, (m, f) ∈ fs → ∀ j, H j → f ≠ (vm₀.pte d j).addr := by
    rintro m f hx j hj rfl
    exact hfresh _ (List.mem_map_of_mem hx) _ (ho.held j hj) (Block.mem_start _)
  constructor
  · intro m hm
    rcases hcases m hm with ⟨hp, haddr⟩ | hx
    · rw [haddr]
      exact mem_append_right _ (ho.held m hp)
    · exact mem_append_left _ (List.mem_map_of_mem (List.mem_map_of_mem hx))
  intro m j hm hj heq
  rcases hcases m hm with ⟨hpm, ham⟩ | hxm
  · rcases hcases j hj with ⟨hpj, haj⟩ | hxj
    · exact ho.inj m j hpm hpj (by rw [← ham, ← haj, heq])
    · exact absurd (heq.symm.trans ham) (hdrawn j _ hxj m hpm)
  · rcases hcases j hj with ⟨hpj, haj⟩ | hxj
    · exact absurd (heq.trans haj) (hdrawn m _ hxm j hpj)
    · rw [heq] at hxm
      exact congrArg Prod.fst (inj_on_of_nodup_map hnodup hxm hxj rfl)

/-- A page below the kernel that is present. -/
def UserPage (vm : Vm) (d m : Nat) : Prop :=
  m * pageSize < kernelVirtualBase ∧ (vm.pte d m).present = true

/-- No present page of the user maps a frame that was not allocated for it. -/
theorem Mapping.owns_user
    (h : Mapping (Drawn b held room) vm₀ d flags i n n fs vm) (hflags : UserFlags flags)
    (ho : Owns vm₀ d (UserPage vm₀ d) held) :
    Owns vm d (UserPage vm d) ((fs.map Prod.snd).map (⟨·, 0⟩) ++ held) := by
  apply h.owns ho
  rintro m ⟨hlow, hpres⟩
  by_cases hw : Within i n m
  · rcases (h.page_cases hflags hw).2 with ⟨hold, heq⟩ | ⟨-, hx⟩
    · exact .inl ⟨⟨hlow, hold⟩, heq⟩
    · exact .inr hx
  · rw [h.rest m hw] at hpres ⊢
    exact .inl ⟨⟨hlow, hpres⟩, rfl⟩

/-- A mapping that has the frames it needs, from a state of the allocator. -/
theorem allocPages_drawn (hreach : Reachable b Machine.always ⟨vm.buddy, held⟩) (hs : vm.Sound d)
    (flags : BitVec 32) {i n : Nat}
    (hroom : ((vm.absent d i n).length : Int) ≤ vm.buddy.available) :
    Triple (· = vm) (allocPages d flags n i)
      (fun r vm' => r = true ∧ ∃ fs,
        Mapping (Drawn b held vm.buddy.available) vm d flags i n n fs vm') (Stops vm d i n) := by
  have hdrawn : Drawn b held vm.buddy.available vm.buddy [] := ⟨hreach, by simp⟩
  have hcount : (vm.absent d i n).length ≤ vm.buddy.available.toNat := by omega
  rintro _ rfl
  exact allocPages_mapping (drawn_supplies b held (Int.le_refl _)) (Nat.zero_add n) (Nat.le_refl n)
    hcount _ ⟨[], Mapping.start hs hdrawn flags i n⟩

/-! ## Mappings that lack a frame -/

theorem allocPages_add (d : Nat) (flags : BitVec 32) (k l i : Nat) :
    allocPages d flags (k + l) i = do
      if ← allocPages d flags k i then allocPages d flags l (i + k) else return false := by
  induction k generalizing i with
  | zero => simp [allocPages]
  | succ k ih =>
    rw [succ_add, allocPages, allocPages]
    simp only [ih, bind_assoc, Nat.add_assoc, Nat.add_comm 1 k]
    congr 1
    funext o
    congr 1
    funext vm
    split
    · simp
    simp only [bind_assoc]
    congr 1
    funext p
    congr 1
    funext _
    congr 1
    funext a
    congr 1
    funext _
    split
    · simp
    · rfl

/-- The frames end at a page that is not present. -/
theorem Vm.exists_last (vm : Vm) (d i : Nat) {n : Nat} (h0 : 0 ≤ room)
    (h : room < (vm.absent d i n).length) :
    ∃ k < n, (vm.absent d i k).length = room ∧ (vm.pte d (i + k)).present = false := by
  induction n with
  | zero =>
    rw [Vm.absent] at h
    simp at h
    omega
  | succ n ih =>
    by_cases hn : room < (vm.absent d i n).length
    · obtain ⟨k, hk, hroom⟩ := ih hn
      exact ⟨k, by omega, hroom⟩
    rw [vm.absent_succ, length_append] at h
    cases hp : (vm.pte d (i + n)).present with
    | true =>
      simp [hp] at h
      omega
    | false =>
      simp [hp] at h
      exact ⟨n, lt_succ_self n, by omega, hp⟩

/-- The next page has to get a frame, but there is none. -/
theorem failPage_mapping (hk : k < n) (habs : (vm₀.pte d (i + k)).present = false)
    (hlen : (vm₀.absent d i k).length = room) (hflags : flags.getLsbD 0 = true) (l : Nat) :
    Triple (Mapping (Drawn b held room) vm₀ d flags i n k fs) (allocPages d flags (l + 1) (i + k))
      (fun r vm => r = false ∧ (vm.pte d (i + k)).present = true) (Stops vm₀ d i n) := by
  by_cases hpage : i + k < 2 ^ 20
  · apply Triple.bind (getPage_spec hpage d)
    intro o
    apply Triple.get
    rintro vm ⟨hvm, ho⟩
    have hnone : (o.filter fun p => (vm.page p).present) = none := by
      rw [← hvm.rest _ (not_within_end i k)] at habs
      cases o with
      | none => rfl
      | some p =>
        rw [ho.pte] at habs
        simp [habs]
    rw [hnone]
    apply Triple.bind ((makePage_mapping hk hpage).pre fun _ h => h.1.1)
    intro p
    apply Triple.bind (Triple.modify (R := fun _ vm => ∃ vm',
      Mapping (Drawn b held room) vm₀ d flags i n k fs vm' ∧ vm'.At d (i + k) p ∧
        vm = vm'.setPage p (Page.make flags 0)) fun vm h => ⟨vm, h.1, h.2, rfl⟩)
    intro _
    apply Triple.call
    rintro _ ⟨vm', hmap, hat, rfl⟩
    obtain ⟨hreach, hcount⟩ := hmap.supply
    have hlen' : ((fs.map Prod.snd).length : Int) = room := by
      rw [← hlen, ← hmap.pages.length_eq, length_map, length_map]
    have hrun : allocFrames (vm'.setPage p (Page.make flags 0)).buddy 0 = some (vm'.buddy, 0) :=
      hreach.allocFrame_none (by omega)
    refine ⟨false, ((vm'.setPage p _).setBuddy _).setPage p (Page.make flags 0),
      (bind_of_ok (allocFrame_run hrun)).trans rfl, rfl, ?_⟩
    rw [Vm.setPage_setBuddy_setPage]
    have hat' : (vm'.setBuddy vm'.buddy).At d (i + k) p := hat
    rw [hat'.pte_setPage hmap.changes.sound, if_pos rfl, Page.make_present, hflags]
  · intro vm _
    have hstop : allocPages d flags (l + 1) (i + k) vm = .error .wild vm :=
      bind_of_error (getPage_wild (by omega) d vm)
    rw [hstop]
    exact Or.inr ⟨rfl, by omega⟩

/-- Without a frame for each page that is not present, `alloc_pages` returns false and leaves
such a page present. -/
theorem allocPages_fails (hreach : Reachable b Machine.always ⟨vm.buddy, held⟩) (hs : vm.Sound d)
    (hflags : flags.getLsbD 0 = true) (hroom : vm.buddy.available < (vm.absent d i n).length) :
    Triple (· = vm) (allocPages d flags n i)
      (fun r vm' => r = false ∧
        ∃ m, (vm.pte d m).present = false ∧ (vm'.pte d m).present = true) (Stops vm d i n) := by
  obtain ⟨lists, hi, -⟩ := reachable_inv hreach
  have hpos : vm.buddy.available = (cells (blocksOf lists) : Nat) := hi.book.available
  obtain ⟨k, hk, hlen, habs⟩ := vm.exists_last d i (by omega) hroom
  obtain ⟨l, rfl⟩ : ∃ l, n = k + (l + 1) := ⟨n - k - 1, by omega⟩
  have hdrawn : Drawn b held vm.buddy.available vm.buddy [] := ⟨hreach, by simp⟩
  rw [allocPages_add]
  apply Triple.bind ((allocPages_mapping (drawn_supplies b held (Int.le_refl vm.buddy.available))
    (Nat.zero_add k) (Nat.le_add_right k _) (by omega)).pre _)
  · rintro (_ | _)
    · rintro vm' ⟨hfalse, -⟩
      cases hfalse
    · rintro vm' ⟨-, fs, hmap⟩
      exact (failPage_mapping hk habs hlen hflags l).post
        (fun _ _ h => ⟨h.1, _, habs, h.2⟩) vm' hmap
  · rintro _ rfl
    exact ⟨[], Mapping.start hs hdrawn flags i _⟩

end Sysint.Paging
