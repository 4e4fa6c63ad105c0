import Sysint.Paging.BuddyRun
import Sysint.Paging.Tables

/-! What `page_dir::alloc_pages` changes of a directory. -/
namespace Sysint.Paging

open Hoare BitVec
open Function

/-- A table serves one index of the directory, and `kmalloc` hands out tables that the
directory does not use. -/
structure Vm.Sound (vm : Vm) (d : Nat) : Prop where
  inj : ∀ i j t, (vm.dir d).tables i = some t → (vm.dir d).tables j = some t → i = j
  unused : ∀ i, ∀ t ∈ vm.spare, (vm.dir d).tables i ≠ some t
  nodup : vm.spare.Nodup

variable {vm vm₀ : Vm} {d n : Nat}

theorem page_eq_iff {m : Nat} (h : m >>> 10 = n >>> 10) : m &&& 1023 = n &&& 1023 ↔ m = n := by
  have hm : m &&& 1023 = m % 1024 := and_low m 10
  have hn : n &&& 1023 = n % 1024 := and_low n 10
  rw [hm, hn]
  simp only [Nat.shiftRight_eq_div_pow] at h
  omega

theorem Vm.pte_of_table {t : Nat} (h : (vm.dir d).tables (n >>> 10) = some t) :
    vm.pte d n = vm.page ⟨t, n &&& 1023⟩ := by
  simp only [Vm.pte, h]

/-- A write to the entry of page `m` changes no other page. -/
theorem Vm.Sound.pte_setPage (hs : vm.Sound d) {m t : Nat}
    (ht : (vm.dir d).tables (m >>> 10) = some t) (v : Page) (n : Nat) :
    (vm.setPage ⟨t, m &&& 1023⟩ v).pte d n = if n = m then v else vm.pte d n := by
  simp only [Vm.pte, Vm.setPage, Vm.setTable_dir]
  cases hn : (vm.dir d).tables (n >>> 10) with
  | none =>
    have hne : n ≠ m := by
      rintro rfl
      rw [hn] at ht
      cases ht
    rw [if_neg hne]
  | some u =>
    simp only [Vm.page, Vm.setTable_table]
    by_cases hu : u = t
    · subst hu
      have hidx := hs.inj _ _ _ hn ht
      by_cases hnm : n = m
      · simp [hnm]
      · have hne : n &&& 1023 ≠ m &&& 1023 := fun h => hnm ((page_eq_iff hidx).mp h)
        simp [hnm, hne]
    · have hne : n ≠ m := by
        rintro rfl
        rw [hn] at ht
        exact hu (Option.some.inj ht)
      simp [hu, hne]

/-- From `vm₀` on, only the pages of `A` have changed in the directory, and tables were only
added, for such pages. The pages of `T` have tables. -/
structure Changes (vm₀ : Vm) (d : Nat) (A T : Nat → Prop) (vm : Vm) : Prop where
  sound : vm.Sound d
  frame : vm.frame = vm₀.frame
  other : ∀ e, e ≠ d → vm.dir e = vm₀.dir e
  tables : ∀ i t, (vm₀.dir d).tables i = some t → (vm.dir d).tables i = some t ∧
    (vm.dir d).entries i = (vm₀.dir d).entries i
  entries : ∀ i, (∀ n, n >>> 10 = i → ¬ A n) → (vm.dir d).tables i = (vm₀.dir d).tables i ∧
    (vm.dir d).entries i = (vm₀.dir d).entries i
  pte : ∀ n, ¬ A n → vm.pte d n = vm₀.pte d n
  has : ∀ n, T n → (vm.dir d).tables (n >>> 10) ≠ none

/-- The directory has also got no 4 MiB pages. -/
structure Confined (vm₀ : Vm) (d : Nat) (A T : Nat → Prop) (vm : Vm) : Prop
    extends Changes vm₀ d A T vm where
  added : ∀ i, (vm.dir d).entries i = (vm₀.dir d).entries i ∨
    (vm.dir d).entries i &&& pageDir4m = 0

theorem Changes.refl (hs : vm.Sound d) (A : Nat → Prop) : Changes vm d A (fun _ => False) vm where
  sound := hs
  frame := rfl
  other _ _ := rfl
  tables _ _ h := ⟨h, rfl⟩
  entries _ _ := ⟨rfl, rfl⟩
  pte _ _ := rfl
  has _ h := h.elim

theorem Confined.refl (hs : vm.Sound d) (A : Nat → Prop) : Confined vm d A (fun _ => False) vm where
  toChanges := .refl hs A
  added _ := .inl rfl

variable {A T : Nat → Prop} {ts : List Nat} {P : Vm → Prop} {flags : BitVec 32}

theorem Changes.mono {T' : Nat → Prop} (h : Changes vm₀ d A T vm)
    (hT : ∀ n, T' n → (vm.dir d).tables (n >>> 10) ≠ none) : Changes vm₀ d A T' vm :=
  { h with has := hT }

theorem Confined.mono {T' : Nat → Prop} (h : Confined vm₀ d A T vm)
    (hT : ∀ n, T' n → (vm.dir d).tables (n >>> 10) ≠ none) : Confined vm₀ d A T' vm :=
  { h with has := hT }

theorem Changes.setPage (h : Changes vm₀ d A T vm) {m t : Nat} (hm : A m)
    (ht : (vm.dir d).tables (m >>> 10) = some t) (v : Page) :
    Changes vm₀ d A T (vm.setPage ⟨t, m &&& 1023⟩ v) where
  sound := ⟨h.sound.inj, h.sound.unused, h.sound.nodup⟩
  frame := h.frame
  other := h.other
  tables := h.tables
  entries := h.entries
  pte := by
    intro n hn
    have hne : n ≠ m := by
      rintro rfl
      exact hn hm
    rw [h.sound.pte_setPage ht, if_neg hne, h.pte n hn]
  has := h.has

theorem Changes.setBuddy (h : Changes vm₀ d A T vm) (b : Buddy) :
    Changes vm₀ d A T (vm.setBuddy b) where
  sound := ⟨h.sound.inj, h.sound.unused, h.sound.nodup⟩
  frame := h.frame
  other := h.other
  tables := h.tables
  entries := h.entries
  pte := h.pte
  has := h.has

theorem Confined.setBuddy (h : Confined vm₀ d A T vm) (b : Buddy) :
    Confined vm₀ d A T (vm.setBuddy b) where
  toChanges := h.toChanges.setBuddy b
  added := h.added

/-- A table that `kmalloc` has returned, for index `i`. -/
def Vm.addTable (vm : Vm) (d i : Nat) (e : BitVec 32) (t : Nat) (ts : List Nat) : Vm :=
  ((vm.setSpare ts).setTable t ⟨fun _ => ⟨0⟩⟩).setEntry d i e (some t)

/-- A new table, with no page present, changes no page. -/
theorem Vm.Sound.pte_addTable (hs : vm.Sound d) {i t : Nat}
    (hnone : (vm.dir d).tables i = none) (hspare : vm.spare = t :: ts) (e : BitVec 32) (n : Nat) :
    (vm.addTable d i e t ts).pte d n = vm.pte d n := by
  by_cases hidx : n >>> 10 = i
  · simp [Vm.addTable, Vm.pte, Vm.page, hidx, hnone]
  simp only [Vm.addTable, Vm.pte, Vm.page, Vm.setEntry_dir, update_self,
    Vm.setTable_dir, Vm.setSpare_dir, update_of_ne hidx, Vm.setEntry_table,
    Vm.setTable_table, Vm.setSpare_table]
  cases hu : (vm.dir d).tables (n >>> 10) with
  | none => rfl
  | some u =>
    have hne : u ≠ t := by
      rintro rfl
      exact hs.unused _ u (by simp [hspare]) hu
    simp [hne]

theorem Vm.Sound.addTable (hs : vm.Sound d) {i t : Nat}
    (hspare : vm.spare = t :: ts) (e : BitVec 32) : (vm.addTable d i e t ts).Sound d := by
  have hunused : ∀ j, (vm.dir d).tables j ≠ some t := fun j => hs.unused j t (by simp [hspare])
  have hnodup := hs.nodup
  rw [hspare, List.nodup_cons] at hnodup
  constructor
  · intro j k u hj hk
    have hinj := hs.inj j k u
    simp only [Vm.addTable, Vm.setEntry_dir, update_self, Vm.setTable_dir,
      Vm.setSpare_dir, update_apply] at hj hk
    grind
  · intro j u hu
    have hold := hs.unused j u (by rw [hspare]; exact List.mem_cons_of_mem t hu)
    have hne : u ≠ t := by
      rintro rfl
      exact hnodup.1 hu
    simp only [Vm.addTable, Vm.setEntry_dir, update_self, Vm.setTable_dir,
      Vm.setSpare_dir, update_apply]
    grind
  · exact hnodup.2

theorem Changes.addTable (h : Changes vm₀ d A T vm) {m t : Nat} (hm : A m)
    (hnone : (vm.dir d).tables (m >>> 10) = none) (hspare : vm.spare = t :: ts)
    (e : BitVec 32) : Changes vm₀ d A T (vm.addTable d (m >>> 10) e t ts) where
  sound := h.sound.addTable hspare e
  frame := h.frame
  other := by
    intro e' he'
    simp [Vm.addTable, he', h.other e' he']
  tables := by
    intro i u hu
    have hold := h.tables i u hu
    have hne : i ≠ m >>> 10 := by
      rintro rfl
      rw [hnone] at hold
      cases hold.1
    simpa [Vm.addTable, hne] using hold
  entries := by
    intro i hi
    have hne : i ≠ m >>> 10 := by
      rintro rfl
      exact hi m rfl hm
    simpa [Vm.addTable, hne] using h.entries i hi
  pte := by
    intro n hn
    rw [h.sound.pte_addTable hnone hspare, h.pte n hn]
  has := by
    intro n hn
    have hold := h.has n hn
    have hidx : n >>> 10 ≠ m >>> 10 := by
      intro hidx
      rw [hidx] at hold
      exact hold hnone
    simpa [Vm.addTable, hidx] using hold

theorem Confined.addTable (h : Confined vm₀ d A T vm) {m t : Nat} (hm : A m)
    (hnone : (vm.dir d).tables (m >>> 10) = none) (hspare : vm.spare = t :: ts)
    {e : BitVec 32} (he : e &&& pageDir4m = 0) :
    Confined vm₀ d A T (vm.addTable d (m >>> 10) e t ts) where
  toChanges := h.toChanges.addTable hm hnone hspare e
  added := by
    intro i
    by_cases hi : i = m >>> 10
    · right
      simpa [Vm.addTable, hi] using he
    · simpa [Vm.addTable, hi] using h.added i

/-! ## The functions -/

/-- The entry of page `n` lies at `p`. -/
def Vm.At (vm : Vm) (d n : Nat) (p : Slot) : Prop :=
  (vm.dir d).tables (n >>> 10) = some p.table ∧ p.idx = n &&& 1023

theorem Changes.setPage_at (h : Changes vm₀ d A T vm) {p : Slot} (hn : A n)
    (hp : vm.At d n p) (v : Page) : Changes vm₀ d A T (vm.setPage p v) := by
  obtain ⟨t, i⟩ := p
  obtain ⟨ht, rfl⟩ := hp
  exact h.setPage hn ht v

theorem Confined.setPage_at (h : Confined vm₀ d A T vm) {p : Slot} (hn : A n)
    (hp : vm.At d n p) (v : Page) : Confined vm₀ d A T (vm.setPage p v) where
  toChanges := h.toChanges.setPage_at hn hp v
  added := h.added

theorem getPage_run (hn : n < 2 ^ 20) (d : Nat) (vm : Vm) : getPage d n vm =
    .ok (((vm.dir d).tables (n >>> 10)).map (⟨·, n &&& 1023⟩)) vm := by
  have hidx : ¬ 1024 ≤ n >>> 10 := by
    rw [Nat.shiftRight_eq_div_pow]
    omega
  unfold getPage
  rw [if_neg hidx]
  rfl

theorem getPage_spec {E : Stop → Vm → Prop} (hn : n < 2 ^ 20) (d : Nat) :
    Triple P (getPage d n) (fun o vm => P vm ∧ match o with
      | some p => vm.At d n p
      | none => (vm.dir d).tables (n >>> 10) = none) E := by
  intro vm hvm
  rw [getPage_run hn]
  refine ⟨hvm, ?_⟩
  cases ht : (vm.dir d).tables (n >>> 10) with
  | none => rfl
  | some t => exact ⟨ht, rfl⟩

theorem kmalloc_spec : Triple P kmalloc
    (fun t vm => ∃ vm' ts, P vm' ∧ vm'.spare = t :: ts ∧ vm = vm'.setSpare ts)
    (fun e vm => P vm ∧ vm.spare = [] ∧ e = .grow) := by
  apply Triple.get
  intro vm hvm
  split
  · rename_i hs
    apply Triple.throw
    rintro _ ⟨h, rfl⟩
    exact ⟨h, hs, rfl⟩
  rename_i t ts hs
  apply Triple.bind
  · apply Triple.modify
      (R := fun _ vm => ∃ vm' ts, P vm' ∧ vm'.spare = t :: ts ∧ vm = vm'.setSpare ts)
    rintro _ ⟨h, rfl⟩
    exact ⟨_, ts, h, hs, rfl⟩
  · intro _
    apply Triple.pure
    intro _ h
    exact h

/-- The frame allocator changes nothing else. -/
theorem allocFrame_spec (hP : ∀ vm b, P vm → P (vm.setBuddy b)) :
    Triple P allocFrame (fun _ => P) (fun e vm => P vm ∧ e = .halt) := by
  apply Triple.get
  intro vm hvm
  split
  · apply Triple.throw
    rintro _ ⟨h, -⟩
    exact ⟨h, rfl⟩
  apply Triple.bind
  · apply Triple.modify (R := fun _ => P)
    rintro _ ⟨h, -⟩
    exact hP _ _ h
  · intro _
    apply Triple.pure
    intro _ h
    exact h

/-- The lower bits of an entry are its flags. -/
theorem Page.make_and_flag {k : BitVec 32} (hk : k &&& 0xFFF = k) (addr : Nat) :
    (Page.make flags addr).value &&& k = flags &&& k := by
  apply eq_of_getLsbD_eq
  intro i hi
  have hbit := congrArg (BitVec.getLsbD · i) hk
  have hlow : (0xFFF : BitVec 32).getLsbD i = decide (i < 12) := Nat.testBit_two_pow_sub_one 12 i
  simp only [getLsbD_and, hlow] at hbit
  simp only [Page.make, getLsbD_and, getLsbD_or, pageShift, hlow,
    getLsbD_ofNat, Nat.testBit_shiftLeft]
  by_cases h : i < 12
  · have hge : ¬ 12 ≤ i := by omega
    simp [h, hge]
  · simp only [h, decide_false, Bool.and_false] at hbit
    simp [← hbit]

/-- The pages that the loop of `alloc_pages` goes over. -/
def Within (i n m : Nat) : Prop := i ≤ m ∧ m < i + n

instance (i n m : Nat) : Decidable (Within i n m) := inferInstanceAs (Decidable (_ ∧ _))

theorem Confined.learn (h : Confined vm₀ d A T vm) {i : Nat} {p : Slot} (hp : vm.At d i p) :
    Confined vm₀ d A (fun m => T m ∨ m = i) vm := by
  apply h.mono
  rintro n (hn | rfl)
  · exact h.has n hn
  · simp [hp.1]

/-- One directory: a table for the first page of the kernel heap, which is present, and
nothing below the kernel. -/
def sampleVm : Vm where
  buddy := init bootOne
  frame := fun _ _ => 0
  table := fun _ => ⟨fun i => if i = 0 then Page.make (pagePresent ||| pageRw) 5 else ⟨0⟩⟩
  dir := fun _ =>
    { entries := fun i => if i = 0x340 then 0x1003 else 0
      tables := fun i => if i = 0x340 then some 1 else none }
  spare := [2, 3]
  curDir := 0

theorem sampleVm_sound : sampleVm.Sound 0 where
  inj := by
    intro i j t hi hj
    simp only [sampleVm] at hi hj
    grind
  unused := by
    intro i t ht
    simp only [sampleVm] at ht ⊢
    grind
  nodup := by decide

end Sysint.Paging
