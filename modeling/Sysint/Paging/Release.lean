import Sysint.Memory.Brk
import Sysint.Paging.Growth

/-! Giving memory back: `page_table::free`, `page_dir::free_tables`, `free_kstack_tables` and
`free_page` of `kernel/include/paging.h` and `kernel/mem/paging.cpp`, and the destructor of
`shared_page_dir`; then `brk`, which does both. -/
namespace Sysint.Paging

open Memory Hoare Dyadic Sharing Nat

/-- The loop of `page_table::free`, with `n` pages left from page `j` on. -/
def freeTable (t : Nat) : Nat → Nat → Kernel Unit
  | 0, _ => return
  | n + 1, j => do
    let pg := (← get).page ⟨t, j⟩
    if pg.present then freeFrame (u32 (pg.addr <<< pageShift))
    freeTable t n (j + 1)

/-- A table or a directory goes back to the kernel heap. `heap::free` stops on a block that is not
in use; it gives no memory back as long as the heap has not grown. -/
def kfree (x : Nat) : Kernel Unit := do
  if x ∈ (← get).spare then throw .halt
  modify fun vm => vm.setSpare (x :: vm.spare)

def dropTable (d i t : Nat) : Kernel Unit := do
  freeTable t 1024 0
  kfree t
  modify (·.setEntry d i 0 none)

/-- The loop over the tables of a directory that drops those with `mine`, with `n` left from the
index `i` on. -/
def dropTables (d : Nat) (mine : Vm → Nat → Nat → Bool) : Nat → Nat → Kernel Unit
  | 0, _ => return
  | n + 1, i => do
    let vm ← get
    match ((vm.dir d).tables i).filter (mine vm i) with
    | some t => dropTable d i t
    | none => pure ()
    dropTables d mine n (i + 1)

/-- `page_dir::free_tables`; `base` is the directory of `cloned_dir`, or `kernel_page_dir`. -/
def freeTables (d base : Nat) : Kernel Unit :=
  dropTables d (fun vm i t => (vm.dir base).tables i ≠ some t ∧ ¬ KstackTable i) 1024 0

/-- `page_dir::free_kstack_tables`. -/
def freeKstackTables (d : Nat) : Kernel Unit :=
  dropTables d (fun _ _ _ => true) (remapEnd >>> 22 + 1 - kernelStackBot >>> 22)
    (kernelStackBot >>> 22)

/-- The destructor of `shared_page_dir`. -/
def destroyDir (d base : Nat) : Kernel Unit := do
  freeTables d base
  kfree d

variable {ω : Outset} {σ : Shares} {held : List Block} {vm vm₀ vm' : Vm} {p t i : Nat}

/-! ## Pages -/

theorem kfree_run {x : Nat} (h : x ∉ vm.spare) :
    kfree x vm = .ok ⟨⟩ (vm.setSpare (x :: vm.spare)) := by
  rw [kfree, get_bind, if_neg h]
  rfl

/-- Only entries of tables of `A` have changed, and frames were given back. -/
structure Cleared (b : Boot) (A : Nat → Prop) (vm vm' : Vm) : Prop where
  dir : vm'.dir = vm.dir
  curDir : vm'.curDir = vm.curDir
  spare : vm'.spare = vm.spare
  table : ∀ t, ¬ A t → vm'.table t = vm.table t
  frame : vm'.frame = vm.frame
  frees : Frees b vm.buddy vm'.buddy

/-- `free_page` of pages of a process. -/
theorem freePages_books (hp : p ∈ σ.list) (h : Books ω σ [] held vm) (n a : Nat)
    (hlow : ∀ k < n, Low ((a + k * pageSize) >>> pageShift >>> 10)) :
    ∃ vm' held', freePages (σ.dir p) n a vm = .ok ⟨⟩ vm' ∧ Books ω σ [] held' vm' ∧
      Cleared ω.boot (σ.Tables vm p) vm vm' := by
  induction n generalizing a vm held with
  | zero => exact ⟨vm, held, rfl, h, rfl, rfl, rfl, fun _ _ => rfl, rfl, .refl⟩
  | succ n ih =>
    have hhere := hlow 0 (succ_pos n)
    rw [Nat.zero_mul, Nat.add_zero] at hhere
    have hpage : a >>> pageShift < 2 ^ 20 := by
      have := hhere.1
      rw [shiftRight_eq_div_pow _ 10] at this
      omega
    have hrest : ∀ k < n, Low ((a + pageSize + k * pageSize) >>> pageShift >>> 10) := by
      intro k hk
      have hnext := hlow (k + 1) (by omega)
      rwa [succ_mul, Nat.add_comm (k * pageSize), ← Nat.add_assoc] at hnext
    rcases freePage_run rfl hpage (σ.dir p) vm with ⟨-, hrun⟩ | ⟨s, hat, hpres, hrun⟩
    · obtain ⟨vm', held', hloop, hdone⟩ := ih h (a + pageSize) hrest
      exact ⟨vm', held', (bind_of_ok hrun).trans hloop, hdone⟩
    have hback := h.backs hp hhere hat.1
    have hj : s.idx < 1024 := hat.2 ▸ and_1023_lt _
    have hholds := Vm.holds_eq_some.mpr ⟨hpres, rfl⟩
    obtain ⟨c, m, hfree, h₁⟩ := h.clear hback hj hholds
    obtain ⟨vm', held', hloop, hbooks, C⟩ := ih h₁ (a + pageSize) hrest
    refine ⟨vm', held', (bind_of_ok (hrun c m hfree)).trans hloop, hbooks, C.dir, C.curDir,
      C.spare, fun t ht => ?_, C.frame,
        C.frees.head (h.accounts.givesBack ⟨hback, hj, hholds⟩ hfree)⟩
    have hne : t ≠ s.table := by
      rintro rfl
      exact ht ⟨_, hhere, hat.1⟩
    exact (C.table t ht).trans (Function.update_of_ne hne _ _)

/-! ## Tables -/

/-- `page_table::free` gives back the frames of the entries that are present. -/
theorem freeTable_run {b : Boot} {rest : List Block} {N : Nat → Nat → Nat → Prop}
    (hN : ∀ k g, N t k g ↔ k < 1024 ∧ vm.holds t k = some g) (n j : Nat) (hn : j + n ≤ 1024)
    (h : Accounts b rest (fun u k g => N u k g ∧ ¬ (u = t ∧ k < j)) held vm.buddy) :
    ∃ s held', freeTable t n j vm = .ok ⟨⟩ (vm.setBuddy s) ∧ Frees b vm.buddy s ∧
      Accounts b rest (fun u k g => N u k g ∧ ¬ (u = t ∧ k < j + n)) held' s := by
  induction n generalizing j vm held with
  | zero => exact ⟨vm.buddy, held, rfl, .refl, h⟩
  | succ n ih =>
    rw [freeTable, get_bind]
    have hstep : ∀ u k, ¬ (u = t ∧ k < j + 1) ↔ ¬ (u = t ∧ k < j) ∧ ¬ (u = t ∧ k = j) := by
      intro u k
      rw [Nat.lt_succ_iff_lt_or_eq]
      tauto
    cases hpres : (vm.page ⟨t, j⟩).present with
    | false =>
      have hnone : ∀ g, ¬ N t j g := by
        intro g hg
        rw [hN, Vm.holds, hpres] at hg
        cases hg.2
      have h' : Accounts b rest (fun u k g => N u k g ∧ ¬ (u = t ∧ k < j + 1)) held vm.buddy :=
        h.congr fun u k g => by
          rw [hstep, ← and_assoc]
          exact and_iff_left_of_imp fun hg => by
            rintro ⟨rfl, rfl⟩
            exact hnone g hg.1
      obtain ⟨s, held', hrun, hfrees, hacc⟩ := ih hN (j + 1) (by omega) h'
      exact ⟨s, held', hrun, hfrees, by rwa [Nat.add_right_comm] at hacc⟩
    | true =>
      have hholds : vm.holds t j = some (vm.page ⟨t, j⟩).addr := Vm.holds_eq_some.mpr ⟨hpres, rfl⟩
      have hname : N t j (vm.page ⟨t, j⟩).addr ∧ ¬ (t = t ∧ j < j) :=
        ⟨(hN j _).mpr ⟨by omega, hholds⟩, by simp⟩
      obtain ⟨c, m, hfree, h'⟩ := h.free (t := t) (j := j) hname
        fun g hg => Option.some.inj (((hN j g).mp hg.1).2.symm.trans hholds)
      have hput : freeFrame (u32 ((vm.page ⟨t, j⟩).addr <<< pageShift)) vm =
          .ok ⟨⟩ (vm.setBuddy c) := by
        rw [freeFrame, get_bind, Page.addr_shift, hfree]
        rfl
      have hN' : ∀ k g, N t k g ↔ k < 1024 ∧ (vm.setBuddy c).holds t k = some g := hN
      obtain ⟨s, held', hrun, hfrees, hacc⟩ := ih hN' (j + 1) (by omega)
        (h'.congr fun u k g => by rw [hstep, ← and_assoc])
      refine ⟨s, held', ?_, hfrees.head (h.givesBack hname hfree),
        by rwa [Nat.add_right_comm] at hacc⟩
      rw [if_pos rfl, bind_of_ok hput]
      exact hrun

/-- Only the directory `d` has changed, and only lost tables. -/
structure Released (b : Boot) (d : Nat) (vm vm' : Vm) : Prop where
  other : ∀ e, e ≠ d → vm'.dir e = vm.dir e
  tables : ∀ i t, (vm'.dir d).tables i = some t → (vm.dir d).tables i = some t
  curDir : vm'.curDir = vm.curDir
  table : vm'.table = vm.table
  frame : vm'.frame = vm.frame
  frees : Frees b vm.buddy vm'.buddy

theorem Released.trans {b : Boot} {d : Nat} {vm₁ vm₂ vm₃ : Vm} (h : Released b d vm₁ vm₂)
    (h' : Released b d vm₂ vm₃) : Released b d vm₁ vm₃ :=
  ⟨fun e he => (h'.other e he).trans (h.other e he), fun i t ht => h.tables i t (h'.tables i t ht),
    h'.curDir.trans h.curDir, h'.table.trans h.table, h'.frame.trans h.frame,
    .trans h.frees h'.frees⟩

/-- What no other directory has from `p`. -/
def Shares.Alone (σ : Shares) (vm : Vm) (p i t : Nat) : Prop :=
  Low i ∧ (σ.store vm).Owns p i t ∧
    ∀ q ∈ σ.list, σ.base q = p → q ≠ p → (vm.dir (σ.dir q)).tables i ≠ some t

theorem dropTable_books (h : Books ω σ [] held vm) (hp : p ∈ σ.list) (halone : σ.Alone vm p i t) :
    ∃ vm' held', dropTable (σ.dir p) i t vm = .ok ⟨⟩ vm' ∧ Books ω σ [] held' vm' ∧
      Released ω.boot (σ.dir p) vm vm' ∧ (vm'.dir (σ.dir p)).tables i = none ∧
      ∀ j, j ≠ i → (vm'.dir (σ.dir p)).tables j = (vm.dir (σ.dir p)).tables j := by
  obtain ⟨hi, hown, halone⟩ := halone
  have hback : σ.Backs [] vm t := .inr ⟨p, hp, i, hi, hown⟩
  have hnames : ∀ k g, σ.Names [] vm t k g ↔ k < 1024 ∧ vm.holds t k = some g :=
    fun k g => and_iff_right hback
  obtain ⟨s, held', hrun, hfrees, hacc⟩ :=
    freeTable_run hnames 1024 0 le_rfl (h.accounts.congr fun u k g => by simp)
  have hacc' : Accounts ω.boot ω.rest (fun u k g => σ.Names [] vm u k g ∧ u ≠ t) held' s :=
    hacc.congr fun u k g => and_congr_right fun hg => by
      have hk := hg.2.1
      simp [hk]
  have hused : t ∉ vm.spare := h.not_mem hp hown.1
  refine ⟨_, held', (bind_of_ok hrun).trans (bind_of_ok (kfree_run hused)),
    h.drop hp hi hown halone hacc' 0,
    ⟨fun x hx => ?_, fun j u hu => ?_, rfl, rfl, rfl, hfrees⟩, ?_, fun j hj => ?_⟩
  · simp [hx]
  · by_cases hj : j = i
    · simp [hj] at hu
    · simpa [hj] using hu
  · simp
  · simp [hj]

/-- The loop that drops the tables with `mine`, when no other directory has these from `p`. -/
theorem dropTables_books {mine : Vm → Nat → Nat → Bool} (hp : p ∈ σ.list)
    (hmine : ∀ vm held, Released ω.boot (σ.dir p) vm₀ vm → Books ω σ [] held vm → ∀ i t, i < 1024 →
      (vm.dir (σ.dir p)).tables i = some t → mine vm i t = true → σ.Alone vm p i t)
    (hkeep : ∀ vm, Released ω.boot (σ.dir p) vm₀ vm → mine vm = mine vm₀) (n i : Nat)
    (hn : i + n ≤ 1024)
    (hrel : Released ω.boot (σ.dir p) vm₀ vm) (h : Books ω σ [] held vm) :
    ∃ vm' held', dropTables (σ.dir p) mine n i vm = .ok ⟨⟩ vm' ∧ Books ω σ [] held' vm' ∧
      Released ω.boot (σ.dir p) vm₀ vm' ∧
      (∀ j, j < i → (vm'.dir (σ.dir p)).tables j = (vm.dir (σ.dir p)).tables j) ∧
      ∀ j t, i ≤ j → j < i + n → (vm'.dir (σ.dir p)).tables j = some t → mine vm₀ j t = false := by
  induction n generalizing i vm held with
  | zero =>
    refine ⟨vm, held, rfl, h, hrel, fun _ _ => rfl, fun j t hi hj => ?_⟩
    omega
  | succ n ih =>
    rw [dropTables, get_bind]
    cases hfound : ((vm.dir (σ.dir p)).tables i).filter (mine vm i) with
    | none =>
      obtain ⟨vm', held', hloop, hbooks, hrel', hsame, hdone⟩ := ih (i + 1) (by omega) hrel h
      refine ⟨vm', held', hloop, hbooks, hrel', fun j hj => hsame j (by omega),
        fun j t hij hj ht => ?_⟩
      rcases Nat.eq_or_lt_of_le hij with rfl | hlt
      · rw [hsame i (lt_succ_self i)] at ht
        rw [ht, Option.filter_some, hkeep vm hrel] at hfound
        cases hm : mine vm₀ i t with
        | false => rfl
        | true => simp [hm] at hfound
      · exact hdone j t hlt (by omega) ht
    | some t =>
      obtain ⟨hin, hm⟩ := Option.filter_eq_some_iff.mp hfound
      obtain ⟨vm₁, held₁, hdrop, h₁, hrel₁, hnone, hrest⟩ :=
        dropTable_books h hp (hmine vm held hrel h i t (by omega) hin hm)
      obtain ⟨vm', held', hloop, hbooks, hrel', hsame, hdone⟩ :=
        ih (i + 1) (by omega) (hrel.trans hrel₁) h₁
      refine ⟨vm', held', (bind_of_ok hdrop).trans hloop, hbooks, hrel', fun j hj => ?_,
        fun j u hij hj hu => ?_⟩
      · rw [hsame j (by omega), hrest j (Nat.ne_of_lt hj)]
      · rcases Nat.eq_or_lt_of_le hij with rfl | hlt
        · rw [hsame i (lt_succ_self i), hnone] at hu
          cases hu
        · exact hdone j u hlt (by omega) hu

theorem Released.refl (b : Boot) (d : Nat) (vm : Vm) : Released b d vm vm :=
  ⟨fun _ _ => rfl, fun _ _ h => h, rfl, rfl, rfl, .refl⟩

/-- The kernel stack of a process goes, and only it. -/
theorem freeKstackTables_books (hp : p ∈ σ.list) (h : Books ω σ [] held vm) :
    ∃ vm' held', freeKstackTables (σ.dir p) vm = .ok ⟨⟩ vm' ∧ Books ω σ [] held' vm' ∧
      Released ω.boot (σ.dir p) vm vm' ∧ (vm'.dir (σ.dir p)).tables 1023 = none ∧
      ∀ j, j < 1023 → (vm'.dir (σ.dir p)).tables j = (vm.dir (σ.dir p)).tables j := by
  have hbot : kernelStackBot >>> 22 = 1023 := by decide
  have hcount : remapEnd >>> 22 + 1 - kernelStackBot >>> 22 = 1 := by decide
  have hlow : Low 1023 := by decide
  rw [freeKstackTables, hcount, hbot]
  -- only index 1023 is looked at, and what a process has there is its own
  have hdrop : dropTables (σ.dir p) (fun _ _ _ => true) 1 1023 =
      dropTables (σ.dir p) (fun _ i _ => i = 1023) 1 1023 := by
    simp [dropTables]
  rw [hdrop]
  have hmine : ∀ vm₁ held, Released ω.boot (σ.dir p) vm vm₁ → Books ω σ [] held vm₁ →
    ∀ i t, i < 1024 →
      (vm₁.dir (σ.dir p)).tables i = some t → decide (i = 1023) = true → σ.Alone vm₁ p i t := by
    intro vm₁ held _ h i t _ ht hm
    obtain rfl : i = 1023 := of_decide_eq_true hm
    have howns : ∀ q ∈ σ.list, (vm₁.dir (σ.dir q)).tables 1023 = some t →
        (σ.store vm₁).Owns q 1023 t := fun q hq hqt =>
      ⟨(Shares.tab_low hq hlow).trans hqt, .inl (le_refl 1023)⟩
    refine ⟨hlow, howns p hp ht, fun q hq _ hne hqt => hne ?_⟩
    exact (h.ok.unique q p _ _ t hq hp (howns q hq hqt) (howns p hp ht)).1
  obtain ⟨vm', held', hrun, hbooks, hrel, hsame, hdone⟩ :=
    dropTables_books hp hmine (fun _ _ => rfl) 1 1023 le_rfl (.refl _ _ vm) h
  refine ⟨vm', held', hrun, hbooks, hrel, ?_, hsame⟩
  cases hlast : (vm'.dir (σ.dir p)).tables 1023 with
  | none => rfl
  | some t => exact absurd (hdone 1023 t le_rfl (by omega) hlast) (by simp)

/-- The directory that the tables of a process are compared with. -/
structure Compared (σ : Shares) (p b : Nat) (vm : Vm) : Prop where
  ne : b ≠ σ.dir p
  high : ∀ i < 1024, Highmem i → (vm.dir (σ.dir p)).tables i = (vm.dir b).tables i
  base : σ.base p ≠ p → b = σ.dir (σ.base p)
  bare : σ.base p = p → ∀ i, Low i → i ≠ 1023 → (vm.dir b).tables i = none

/-- The destructor of a `shared_page_dir` that no other is built on, and that has lost its kernel
stack. -/
theorem destroyDir_books {b : Nat} (hp : p ∈ σ.list) (h : Books ω σ [] held vm)
    (hleaf : ∀ q ∈ σ.list, σ.base q = p → q = p) (C : Compared σ p b vm)
    (hstack : (vm.dir (σ.dir p)).tables 1023 = none) :
    ∃ vm' held', destroyDir (σ.dir p) b vm = .ok ⟨⟩ vm' ∧ Books ω (σ.remove p) [] held' vm' ∧
      Released ω.boot (σ.dir p) vm vm' := by
  have hbtab : ∀ vm', Released ω.boot (σ.dir p) vm vm' → σ.base p ≠ p → ∀ i, Low i →
      σ.tab vm' (σ.base p) i = (vm.dir b).tables i := by
    intro vm' hrel hne i hi
    have hb : σ.base p ∈ σ.list := h.ok.base_live p hp
    rw [Shares.tab_low hb hi, ← C.base hne, hrel.other b C.ne]
  have hmine : ∀ vm₁ held, Released ω.boot (σ.dir p) vm vm₁ → Books ω σ [] held vm₁ →
    ∀ i t, i < 1024 →
      (vm₁.dir (σ.dir p)).tables i = some t →
      decide ((vm₁.dir b).tables i ≠ some t ∧ ¬ KstackTable i) = true → σ.Alone vm₁ p i t := by
    intro vm₁ held hrel _ i t hi ht hm
    obtain ⟨hother, hk⟩ := of_decide_eq_true hm
    rw [hrel.other b C.ne] at hother
    have hlow : Low i := ⟨hi, fun hh => hother ((C.high i hi hh).symm.trans (hrel.tables i t ht))⟩
    refine ⟨hlow, ⟨(Shares.tab_low hp hlow).trans ht, ?_⟩,
      fun q hq hb hne => absurd (hleaf q hq hb) hne⟩
    by_cases hbase : σ.base p = p
    · exact .inr (.inl hbase)
    · refine .inr (.inr fun hc => hother ?_)
      exact (hbtab vm₁ hrel hbase i hlow).symm.trans hc
  obtain ⟨vm₁, held', hrun, hbooks, hrel, -, hdone⟩ := dropTables_books hp hmine
    (fun vm₁ hrel => by rw [hrel.other b C.ne]) 1024 0 le_rfl (.refl _ _ vm) h
  have hempty : ∀ i t, Low i → ¬ (σ.store vm₁).Owns p i t := by
    intro i t hi howns
    have ht : (vm₁.dir (σ.dir p)).tables i = some t := (Shares.tab_low hp hi).symm.trans howns.1
    have hne : i ≠ 1023 := by
      rintro rfl
      exact nomatch hstack.symm.trans (hrel.tables _ _ ht)
    have hi' := hi.1
    have hnot := of_decide_eq_false (hdone i t (Nat.zero_le i) (by omega) ht)
    refine hnot ⟨fun hb => ?_, fun hk => hne (kstackTable_iff.mp hk)⟩
    by_cases hbase : σ.base p = p
    · exact nomatch (C.bare hbase i hi hne).symm.trans hb
    · have hown : ¬ 1023 ≤ i := by omega
      exact ((howns.2.resolve_left hown).resolve_left hbase) ((hbtab vm₁ hrel hbase i hi).trans hb)
  have hused : σ.dir p ∉ vm₁.spare := hbooks.not_mem hp (Shares.tab_dir hp)
  exact ⟨_, held', (bind_of_ok hrun).trans (kfree_run hused), hbooks.erase hp hleaf hempty,
    hrel.other, hrel.tables, hrel.curDir, hrel.table, hrel.frame, hrel.frees⟩

/-! ## brk -/

/-- Pages below the kernel. -/
theorem low_of_lt {k : Nat} (hk : k < 0xC0000) : Low (k >>> 10) := by
  have hstart : kernelHighmemStart = 768 := by decide
  rw [shiftRight_eq_div_pow]
  refine ⟨by omega, fun hh => ?_⟩
  have hle := hh.1
  omega

/-- The heap of a process grows. -/
theorem brk_feeding (h : Books ω σ [] held vm) (hp : p ∈ σ.list) {q q' : Proc}
    (hdir : q.dir = σ.dir p) (hcur : vm.curDir = q.dir) (hstack : q.stackBot ≤ kernelVirtualBase)
    {addr : Nat} (hlt : q.brkEnd < addr) (hrun : brk q addr vm = .ok (q', addr) vm') :
    Feeding ω σ p vm held vm' ∧ q' = { q with brkEnd := addr } ∧ addr < q.stackBot := by
  unfold brk at hrun
  have hacc : ¬ q.Refuses addr := by
    intro href
    rw [if_pos href] at hrun
    cases hrun
    exact Nat.lt_irrefl _ hlt
  have hhi : addr < q.stackBot := by
    unfold Proc.Refuses at hacc
    omega
  rw [if_neg hacc, if_pos hlt] at hrun
  obtain ⟨hi, hn⟩ := grow_range hlt (Nat.lt_of_lt_of_le hhi hstack)
  have hbase : kernelVirtualBase = 0xC0000000 := rfl
  rw [pageSize_eq] at hi hn
  have hstart : Feeding ω σ p vm held vm :=
    ⟨⟨held, h, fun _ hc => hc, fun _ hx => hx, fun _ _ _ => rfl, fun _ _ => rfl⟩, fun _ _ => rfl,
      fun _ _ ht => ⟨ht, rfl⟩, fun _ _ ht => .inl ht, rfl⟩
  have hgrow := allocPages_feeding brkFlags_user hp
    ((addr + 4096 - 1) / 4096 - q.brkEnd / 4096) (q.brkEnd / 4096)
    (fun k hk => low_of_lt (by unfold Within at hk; omega)) vm hstart
  rw [allocBlock, hi, hn, hdir] at hrun
  cases hres : allocPages (σ.dir p) brkFlags ((addr + 4096 - 1) / 4096 - q.brkEnd / 4096)
      (q.brkEnd / 4096) vm with
  | error e w =>
    rw [bind_of_error hres] at hrun
    cases hrun
  | ok ok w =>
    rw [bind_of_ok hres] at hrun
    rw [hres] at hgrow
    cases ok with
    | false =>
      cases hrun
      exact absurd hlt (Nat.lt_irrefl _)
    | true =>
      rw [if_pos rfl, setEnd_run] at hrun
      cases hrun
      obtain ⟨⟨held', G⟩, E⟩ := hgrow rfl
      exact ⟨⟨⟨held', G.books.congr (fun _ _ _ _ => rfl) rfl rfl fun _ _ => rfl, G.held, G.spare,
        G.table, G.frame⟩, E.other, E.kept, E.new, hcur.symm⟩, rfl, hhi⟩

/-- The heap of a process shrinks. -/
theorem brk_books (h : Books ω σ [] held vm) (hp : p ∈ σ.list) {q q' : Proc}
    (hdir : q.dir = σ.dir p) (hend : q.brkEnd < kernelVirtualBase) (hcur : vm.curDir = q.dir)
    {addr : Nat} (href : ¬ q.Refuses addr) (hge : ¬ q.brkEnd < addr)
    (hrun : brk q addr vm = .ok (q', addr) vm') :
    (∃ held', Books ω σ [] held' vm') ∧ q' = { q with brkEnd := addr } ∧
      Cleared ω.boot (σ.Tables vm p) vm vm' := by
  unfold brk at hrun
  rw [if_neg href, if_neg hge] at hrun
  have hlt : addr < q.brkEnd := by
    unfold Proc.Refuses at href
    omega
  have hbase : kernelVirtualBase = 0xC0000000 := rfl
  obtain ⟨hfirst, hcount⟩ := shrink_range hlt hend
  rw [hfirst] at hcount hrun
  have hlow : ∀ k < q.surplus addr,
      Low ((addr / 4096 * 4096 + k * pageSize) >>> pageShift >>> 10) := by
    intro k hk
    apply low_of_lt
    unfold Proc.surplus at hk
    rw [pageSize_eq, shiftRight_eq_div_pow, pageShift]
    omega
  obtain ⟨w, held', hfree, hbooks, C⟩ :=
    freePages_books hp h (q.surplus addr) (addr / 4096 * 4096) hlow
  simp only [hcount, hdir] at hrun
  rw [bind_of_ok hfree, setEnd_run] at hrun
  cases hrun
  exact ⟨⟨held', hbooks.congr (fun _ _ _ _ => rfl) rfl rfl fun _ _ => rfl⟩, by rw [hdir], C.dir,
    hcur.symm, C.spare, C.table, C.frame, C.frees⟩

end Sysint.Paging
