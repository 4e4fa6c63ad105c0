import Sysint.Paging.CloneSpec
import Sysint.Paging.Ledger

/-! Programs that take tables and frames: `page_dir::alloc_pages` and `page_dir::clone`. A program
that stops leaves nothing to account for, since the kernel has halted. -/
namespace Sysint.Paging

open Memory Hoare Dyadic Sharing
open Function

/-- Since `vm₀`, frames and tables have been taken. Of the tables that were in use only those of `A`
have been written, and no frame. -/
structure Grown (ω : Outset) (σ : Shares) (A : Nat → Prop) (vm₀ : Vm) (held₀ : List Block)
    (hand : List Nat) (held : List Block) (vm : Vm) : Prop where
  books : Books ω σ hand held vm
  held : held₀ ⊆ held
  spare : ∀ x ∈ hand ++ vm.spare, x ∈ vm₀.spare
  table : ∀ t, t ∉ vm₀.spare → ¬ A t → vm.table t = vm₀.table t
  frame : ∀ f, (⟨f, 0⟩ : Block) ∈ held₀ → vm.frame f = vm₀.frame f

def Growing (ω : Outset) (σ : Shares) (A : Nat → Prop) (vm₀ : Vm) (held₀ : List Block)
    (hand : List Nat) (vm : Vm) : Prop := ∃ held, Grown ω σ A vm₀ held₀ hand held vm

variable {ω : Outset} {σ : Shares} {A : Nat → Prop} {vm₀ vm vm' : Vm} {held₀ held : List Block}
  {hand : List Nat} {p t i j d : Nat} {flags : BitVec 32}

/-! ## Small steps -/

/-- A table that was free, or is one of `A`. -/
def Writable (A : Nat → Prop) (vm₀ : Vm) (t : Nat) : Prop := t ∈ vm₀.spare ∨ A t

namespace Grown

section

variable (h : Grown ω σ A vm₀ held₀ hand held vm)
include h

theorem table_setTable (hw : Writable A vm₀ t)
    (x : PageTable) {u : Nat} (hu : u ∉ vm₀.spare) (hA : ¬ A u) :
    (vm.setTable t x).table u = vm₀.table u := by
  have hne : u ≠ t := by
    rintro rfl
    exact hw.elim hu hA
  rw [Vm.setTable_table, update_of_ne hne]
  exact h.table u hu hA

/-- An entry gets the frame that the allocator gives. -/
theorem fill (ht : σ.Backs hand vm t)
    (hw : Writable A vm₀ t) (hj : j < 1024) (habs : vm.holds t j = none) {s : Buddy} {q : Nat}
    (halloc : allocFrames vm.buddy 0 = some (s, q)) (hq : q ≠ 0) :
    ∃ f, q = f <<< pageShift ∧ 0 < f ∧ f < 2 ^ 20 ∧ (⟨f, 0⟩ : Block) ∉ held ∧
      ∀ v : Page, v.present = true → v.addr = f →
        Grown ω σ A vm₀ held₀ hand (⟨f, 0⟩ :: held) ((vm.setBuddy s).setPage ⟨t, j⟩ v) := by
  obtain ⟨f, rfl, hpos, hlt, hnew, hfill⟩ := h.books.fill ht hj habs halloc hq
  refine ⟨f, rfl, hpos, hlt, hnew, fun v hv haddr => ⟨hfill v hv haddr, ?_, h.spare, ?_, h.frame⟩⟩
  · exact fun c hc => List.mem_cons_of_mem _ (h.held hc)
  · exact fun u hu hA => h.table_setTable hw _ hu hA

theorem take {sp : List Nat} (hspare : vm.spare = t :: sp) :
    Grown ω σ A vm₀ held₀ (t :: hand) held ((vm.setSpare sp).setTable t ⟨fun _ => ⟨0⟩⟩) := by
  have hsub : ∀ x ∈ t :: hand ++ sp, x ∈ vm₀.spare := by
    intro x hx
    apply h.spare
    rw [hspare]
    exact List.perm_middle.mem_iff.mpr hx
  exact ⟨h.books.take hspare, h.held, hsub,
    fun u hu hA => h.table_setTable (.inl (hsub t List.mem_cons_self)) _ hu hA, h.frame⟩

end

theorem put (h : Grown ω σ A vm₀ held₀ (t :: hand) held vm) (hp : p ∈ σ.list) (hi : Low i)
    (hnone : (vm.dir (σ.dir p)).tables i = none) (e : BitVec 32) :
    Grown ω σ A vm₀ held₀ hand held (vm.setEntry (σ.dir p) i e (some t)) :=
  ⟨h.books.put hp hi hnone e, h.held, fun x hx => h.spare x (List.mem_cons_of_mem t hx), h.table,
    h.frame⟩

/-- A page that is present keeps its frame. -/
theorem reflag (h : Grown ω σ A vm₀ held₀ hand held vm) {s : Slot}
    (hflags : UserFlags flags) (hpres : (vm.page s).present = true) (hw : Writable A vm₀ s.table) :
    Grown ω σ A vm₀ held₀ hand held (vm.setPage s ((vm.page s).reflag flags)) := by
  have hkeep : ∀ u k, (vm.setPage s ((vm.page s).reflag flags)).holds u k = vm.holds u k := by
    intro u k
    rw [Vm.holds_setPage, Page.reflag_eq _ hflags.low, Page.make_present, hflags.present,
      if_pos rfl, Page.make_addr _ (Page.addr_lt _)]
    split_ifs with hslot
    · rw [hslot.1, hslot.2, Vm.holds, if_pos hpres]
    · rfl
  exact ⟨h.books.congr (fun _ _ _ _ => rfl) rfl rfl hkeep, h.held, h.spare,
    fun u hu hA => h.table_setTable hw _ hu hA, h.frame⟩

end Grown

/-! ## alloc_pages -/

/-- The directory `d` has got more tables since `vm₀`, and nothing else has. -/
structure Extended (d : Nat) (vm₀ vm : Vm) : Prop where
  other : ∀ e, e ≠ d → vm.dir e = vm₀.dir e
  kept : ∀ i t, (vm₀.dir d).tables i = some t → (vm.dir d).tables i = some t ∧
    (vm.dir d).entries i = (vm₀.dir d).entries i
  new : ∀ i t, (vm.dir d).tables i = some t → (vm₀.dir d).tables i = some t ∨
    Low i ∧ t ∈ vm₀.spare
  curDir : vm.curDir = vm₀.curDir

theorem Extended.setEntry (h : Extended d vm₀ vm) (hi : Low i) (ht : t ∈ vm₀.spare)
    (hnone : (vm.dir d).tables i = none) (e : BitVec 32) :
    Extended d vm₀ (vm.setEntry d i e (some t)) := by
  refine ⟨fun x hx => ?_, fun k u hu => ?_, fun k u hu => ?_, h.curDir⟩
  · rw [Vm.setEntry_dir, update_of_ne hx]
    exact h.other x hx
  · have hne : k ≠ i := by
      rintro rfl
      exact nomatch (h.kept k u hu).1.symm.trans hnone
    simpa [hne] using h.kept k u hu
  · by_cases hk : k = i
    · subst hk
      obtain rfl : t = u := by simpa using hu
      exact .inr ⟨hi, ht⟩
    · exact h.new k u (by simpa [hk] using hu)

theorem Extended.high (h : Extended d vm₀ vm) (hi : Highmem i) :
    (vm.dir d).tables i = (vm₀.dir d).tables i := by
  cases ht : (vm₀.dir d).tables i with
  | some t => exact (h.kept i t ht).1
  | none =>
    cases hu : (vm.dir d).tables i with
    | none => rfl
    | some u =>
      rcases h.new i u hu with hold | ⟨hlow, -⟩
      · exact hold.symm.trans ht
      · exact absurd hi hlow.2

theorem Extended.of_dir (hdir : vm.dir = vm₀.dir) (hcur : vm.curDir = vm₀.curDir) :
    Extended d vm₀ vm := by
  refine ⟨fun e _ => congrFun hdir e, ?_, ?_, hcur⟩
  · rw [hdir]
    exact fun i t ht => ⟨ht, rfl⟩
  · rw [hdir]
    exact fun i t ht => .inl ht

/-- The tables of a process outside of the kernel's part. -/
def Shares.Tables (σ : Shares) (vm : Vm) (p t : Nat) : Prop :=
  ∃ i, Low i ∧ (vm.dir (σ.dir p)).tables i = some t

/-- What `alloc_pages` keeps. -/
def Feeding (ω : Outset) (σ : Shares) (p : Nat) (vm₀ : Vm) (held₀ : List Block) (vm : Vm) : Prop :=
  Growing ω σ (σ.Tables vm₀ p) vm₀ held₀ [] vm ∧ Extended (σ.dir p) vm₀ vm

theorem Extended.writable (h : Extended (σ.dir p) vm₀ vm) (hi : Low i)
    (ht : (vm.dir (σ.dir p)).tables i = some t) : Writable (σ.Tables vm₀ p) vm₀ t :=
  (h.new i t ht).elim (fun h => .inr ⟨i, hi, h⟩) fun h => .inl h.2

/-- The entry of page `m` lies in a table that may be written, and is not present. -/
structure Vacant (σ : Shares) (p : Nat) (vm₀ : Vm) (s : Slot) (vm : Vm) : Prop where
  backs : σ.Backs [] vm s.table
  writable : Writable (σ.Tables vm₀ p) vm₀ s.table
  idx : s.idx < 1024
  absent : vm.holds s.table s.idx = none

theorem and_1023_lt (m : Nat) : m &&& 1023 < 1024 := Nat.and_lt_two_pow m (n := 10) (by decide)

/-- `get_page` with `make_table`. -/
theorem makePage_feeding {m : Nat} (hp : p ∈ σ.list) (hm : m < 2 ^ 20) (hlow : Low (m >>> 10)) :
    Triple (fun vm => Feeding ω σ p vm₀ held₀ vm ∧
        ∀ s, vm.At (σ.dir p) m s → (vm.page s).present = false)
      (makePage (σ.dir p) m flags)
      (fun s vm => Feeding ω σ p vm₀ held₀ vm ∧ Vacant σ p vm₀ s vm)
      (fun _ _ => True) := by
  apply Triple.bind (getPage_spec hm (σ.dir p))
  rintro (_ | s)
  · apply Triple.bind (kmalloc_spec.stop fun _ _ _ => trivial)
    intro t vm h
    obtain ⟨vm, sp, ⟨⟨⟨⟨held, G⟩, E⟩, -⟩, hnone⟩, hspare, rfl⟩ := h
    have hfree : t ∈ vm₀.spare := G.spare t (by simp [hspare])
    have E' : Extended (σ.dir p) vm₀ ((vm.setSpare sp).setTable t ⟨fun _ => ⟨0⟩⟩) :=
      ⟨E.other, E.kept, E.new, E.curDir⟩
    have G' := (G.take hspare).put hp hlow hnone (Page.make flags t).value
    have hat : (((vm.setSpare sp).setTable t ⟨fun _ => ⟨0⟩⟩).setEntry (σ.dir p) (m >>> 10)
        (Page.make flags t).value (some t)).At (σ.dir p) m ⟨t, m &&& 1023⟩ := by
      refine ⟨?_, rfl⟩
      simp
    refine ⟨⟨⟨held, G'⟩, E'.setEntry hlow hfree hnone _⟩, G'.books.backs hp hlow hat.1, .inl hfree,
      and_1023_lt m, ?_⟩
    change ((vm.setSpare sp).setTable t ⟨fun _ => ⟨0⟩⟩).holds t (m &&& 1023) = none
    rw [Vm.holds_setTable, if_pos rfl]
  · apply Triple.pure
    rintro vm ⟨⟨⟨⟨held, G⟩, E⟩, habs⟩, hat⟩
    refine ⟨⟨⟨held, G⟩, E⟩, G.books.backs hp hlow hat.1, E.writable hlow hat.1,
      hat.2 ▸ and_1023_lt m, ?_⟩
    rw [Vm.holds, habs s hat]
    rfl

/-- The part of the loop for a page that is not present, before it goes on with `x`. -/
theorem takePage_feeding {m : Nat} (hflags : flags.getLsbD 0 = true)
    (hp : p ∈ σ.list) (hm : m < 2 ^ 20) (hlow : Low (m >>> 10)) {x : Kernel Bool}
    {Q : Bool → Vm → Prop} (hx : Triple (Feeding ω σ p vm₀ held₀) x Q (fun _ _ => True))
    (hfalse : ∀ vm, Q false vm) : Triple (fun vm => Feeding ω σ p vm₀ held₀ vm ∧
        ∀ s, vm.At (σ.dir p) m s → (vm.page s).present = false)
      (do
        let s ← makePage (σ.dir p) m flags
        modify (·.setPage s (Page.make flags 0))
        let addr ← allocFrame
        modify (·.setPage s (Page.make flags (addr >>> pageShift)))
        if addr >>> pageShift = 0 then return false
        x) Q (fun _ _ => True) := by
  apply Triple.bind (makePage_feeding hp hm hlow)
  intro s vm ⟨⟨⟨held, G⟩, E⟩, V⟩
  rw [modify_bind]
  obtain ⟨c, q, halloc⟩ := allocFrames_isSome (s := vm.buddy) (Nat.zero_le buddyMaxOrder)
  have hrun : allocFrame (vm.setPage s (Page.make flags 0)) =
      .ok q ((vm.setPage s (Page.make flags 0)).setBuddy c) := allocFrame_run halloc
  rw [bind_of_ok hrun, modify_bind, Vm.setPage_setBuddy_setPage]
  by_cases hq : q >>> pageShift = 0
  · rw [if_pos hq]
    exact hfalse _
  have hq0 : q ≠ 0 := by
    rintro rfl
    exact hq rfl
  obtain ⟨f, rfl, -, hlt, -, hfill⟩ := G.fill V.backs V.writable V.idx V.absent halloc hq0
  rw [if_neg hq, Nat.shiftLeft_shiftRight]
  apply hx
  exact ⟨⟨_, hfill (Page.make flags f) ((Page.make_present flags f).trans hflags)
    (Page.make_addr flags hlt)⟩, ⟨E.other, E.kept, E.new, E.curDir⟩⟩

/-- `alloc_pages` of a process, as long as it succeeds. -/
theorem allocPages_feeding (hflags : UserFlags flags) (hp : p ∈ σ.list)
    (l m : Nat) (hlow : ∀ k, Within m l k → Low (k >>> 10)) :
    Triple (Feeding ω σ p vm₀ held₀) (allocPages (σ.dir p) flags l m)
      (fun ok vm => ok = true → Feeding ω σ p vm₀ held₀ vm) (fun _ _ => True) := by
  induction l generalizing m with
  | zero => exact Triple.pure fun vm h _ => h
  | succ l ih =>
    have hnext := ih (m + 1) fun k hk => hlow k (by unfold Within at hk ⊢; omega)
    have hhere : Low (m >>> 10) := hlow m ⟨by omega, by omega⟩
    have hm : m < 2 ^ 20 := by
      have := hhere.1
      rw [Nat.shiftRight_eq_div_pow] at this
      omega
    apply Triple.bind (getPage_spec hm (σ.dir p))
    intro o
    apply Triple.get
    rintro vm ⟨⟨⟨held, G⟩, E⟩, ho⟩
    cases hs : o.filter fun s => (vm.page s).present with
    | some s =>
      obtain ⟨rfl, hpres⟩ := Option.filter_eq_some_iff.mp hs
      apply Triple.bind (Triple.modify ?_) fun _ => hnext
      rintro _ ⟨-, rfl⟩
      exact ⟨⟨held, G.reflag hflags hpres (E.writable hhere ho.1)⟩,
        ⟨E.other, E.kept, E.new, E.curDir⟩⟩
    | none =>
      rintro _ ⟨-, rfl⟩
      refine takePage_feeding hflags.present hp hm hhere hnext (fun _ hc => nomatch hc) _
        ⟨⟨⟨held, G⟩, E⟩, ?_⟩
      intro s hat
      cases o with
      | none => exact absurd (hat.1.symm.trans ho) nofun
      | some s' =>
        obtain rfl : s = s' := by
          obtain ⟨u, k⟩ := s
          obtain ⟨u', k'⟩ := s'
          obtain ⟨h1, rfl⟩ := hat
          obtain ⟨h2, rfl⟩ := ho
          obtain rfl := Option.some.inj (h1.symm.trans h2)
          rfl
        simpa using Option.filter_eq_none_iff.mp hs s rfl

/-! ## clone -/

/-- A frame that was not held is written. -/
theorem Grown.copyFrame (h : Grown ω σ A vm₀ held₀ hand held vm) {g : Nat}
    (hg : (⟨g, 0⟩ : Block) ∉ held₀) (f n : Nat) :
    Grown ω σ A vm₀ held₀ hand held (vm.copyFrame f g n) := by
  refine ⟨h.books.congr (fun _ _ _ _ => rfl) rfl rfl fun _ _ => rfl, h.held, h.spare, h.table, ?_⟩
  intro x hx
  have hne : x ≠ g := by
    rintro rfl
    exact hg hx
  exact (update_of_ne hne _ _).trans (h.frame x hx)

/-- Directories and `cur_dir` are as in `vm₁`. -/
def SameDirs (vm₁ vm : Vm) : Prop := vm.dir = vm₁.dir ∧ vm.curDir = vm₁.curDir

variable {vm₁ : Vm}

theorem Vm.Ends.congr {te : Nat} (h : vm₁.Ends te) (hs : SameDirs vm₁ vm) : vm.Ends te := by
  obtain ⟨hdir, hcur⟩ := hs
  constructor
  · rw [hdir, hcur]
    exact h.table
  · rw [hdir, hcur]
    exact h.present
  · rw [hdir, hcur]
    exact h.small

section
variable {te : Nat} (hsrc : σ.Backs [] vm₁ t) (hends : vm₁.Ends te)
include hsrc hends

/-- The loop of `page_table::clone`, which fills the table `u` from the entry `i` on. -/
theorem clonePages_growing {u : Nat} (l i : Nat) (hl : i + l = 1024) :
    Triple (fun vm => Growing ω σ A vm₀ held₀ [u] vm ∧ (∀ k, i ≤ k → vm.holds u k = none) ∧
        SameDirs vm₁ vm)
      (clonePages t u l i)
      (fun _ vm => Growing ω σ A vm₀ held₀ [u] vm ∧ SameDirs vm₁ vm) (fun _ _ => True) := by
  induction l generalizing i with
  | zero => exact Triple.pure fun vm h => ⟨h.1, h.2.2⟩
  | succ l ih =>
    have hnext := ih (i + 1) (by omega)
    rintro vm ⟨⟨held, G⟩, habs, hdirs⟩
    cases hpres : (vm.page ⟨t, i⟩).present with
    | false =>
      rw [clonePages_absent hpres]
      exact hnext vm ⟨⟨held, G⟩, fun k hk => habs k (by omega), hdirs⟩
    | true =>
      obtain ⟨c, q, halloc⟩ := allocFrames_isSome (s := vm.buddy) (Nat.zero_le buddyMaxOrder)
      by_cases hq : q = 0
      · subst hq
        have hrun : allocFrame (vm.setPage ⟨u, i⟩ (vm.page ⟨t, i⟩)) =
            .ok 0 ((vm.setPage ⟨u, i⟩ (vm.page ⟨t, i⟩)).setBuddy c) := allocFrame_run halloc
        rw [clonePages, get_bind]
        simp only [hpres, ↓reduceIte, modify_bind]
        rw [bind_of_ok hrun, if_pos rfl]
        trivial
      · obtain ⟨f, rfl, hpos, hlt, hnew, hfill⟩ := G.fill (.inl (List.mem_singleton_self u))
          (.inl (G.spare u List.mem_cons_self)) (by omega) (habs i le_rfl) halloc hq
        -- the frame of the source is held, so it is not the new one
        have hback : σ.Backs [u] vm t := by
          have hs : σ.store vm = σ.store vm₁ := Shares.store_congr fun _ _ _ _ => by rw [hdirs.1]
          obtain ⟨x, hx, k, hk, howns⟩ := hsrc.resolve_left List.not_mem_nil
          exact .inr ⟨x, hx, k, hk, hs ▸ howns⟩
        have hne : (vm.page ⟨t, i⟩).addr ≠ f := by
          rintro rfl
          exact hnew (G.books.accounts.mem (t := t) (j := i)
            ⟨hback, by omega, Vm.holds_eq_some.mpr ⟨hpres, rfl⟩⟩)
        rw [clonePages_present (hends.congr hdirs) hpres halloc hpos hlt hne]
        have hpresent : ((vm.page ⟨t, i⟩).setAddr f).present = true :=
          (Page.make_present _ f).trans hpres
        have G' := (hfill _ hpresent (Page.make_addr _ hlt)).copyFrame
          (fun hold => hnew (G.held hold)) (vm.page ⟨t, i⟩).addr pageSize
        refine hnext _ ⟨⟨_, G'⟩, fun k hk => ?_, hdirs⟩
        change ((vm.setBuddy c).setPage ⟨u, i⟩ ((vm.page ⟨t, i⟩).setAddr f)).holds u k = none
        have hne : k ≠ i := by omega
        rw [Vm.holds_setPage, if_neg fun hc => hne hc.2]
        exact habs k (by omega)

/-- `page_table::clone` leaves the new table in hand. -/
theorem cloneTable_growing :
    Triple (fun vm => Growing ω σ A vm₀ held₀ [] vm ∧ SameDirs vm₁ vm) (cloneTable t)
      (fun u vm => Growing ω σ A vm₀ held₀ [u] vm ∧ SameDirs vm₁ vm) (fun _ _ => True) := by
  apply Triple.bind (kmalloc_spec.stop fun _ _ _ => trivial)
  intro u
  apply Triple.bind (Triple.modify (R := fun _ vm => Growing ω σ A vm₀ held₀ [u] vm ∧
    (∀ k, 0 ≤ k → vm.holds u k = none) ∧ SameDirs vm₁ vm) ?_)
  · intro _
    apply Triple.bind (clonePages_growing hsrc hends 1024 0 rfl)
    exact fun _ => Triple.pure fun _ h => h
  · rintro _ ⟨vm, sp, ⟨⟨held, G⟩, hdirs⟩, hspare, rfl⟩
    refine ⟨⟨held, G.take hspare⟩, fun k _ => ?_, hdirs⟩
    rw [Vm.holds_setTable, if_pos rfl]

end

theorem kstackTable_iff : KstackTable i ↔ i = 1023 := by
  have hbot : kernelStackBot >>> 22 = 1023 := by decide
  have htop : remapEnd >>> 22 = 1023 := by decide
  unfold KstackTable
  rw [hbot, htop]
  omega

/-- A directory with a kernel stack. -/
def Vm.Stacked (vm : Vm) (d : Nat) : Prop :=
  ∃ t, (vm.dir d).tables 1023 = some t ∧ (vm.dir d).entries 1023 &&& pagePresent ≠ 0 ∧
    (vm.dir d).entries 1023 &&& pageDir4m = 0

theorem Vm.Stacked.congr (h : vm.Stacked d) (hdir : vm'.dir d = vm.dir d) : vm'.Stacked d := by
  unfold Vm.Stacked at h ⊢
  rwa [hdir]

/-- What the index `j` of a clone of the directory `s` has, if it has the entry `x` and the table
`o`; `k` is the directory of the kernel. -/
structure Built (vm₀ : Vm) (k s : Nat) (c : CloneArgs) (j : Nat) (x : BitVec 32) (o : Option Nat) :
    Prop where
  high : Highmem j → o = (vm₀.dir k).tables j
  stack : j = 1023 → o ≠ none ∧ x &&& pagePresent ≠ 0 ∧ x &&& pageDir4m = 0
  linked : ¬ Highmem j → c.Links j → ∀ t, (vm₀.dir s).tables j = some t →
    o = some t ∧ x = (vm₀.dir s).entries j

/-- The directory `e` has been filled up to the index `i`. -/
structure Building (vm₀ : Vm) (k s e : Nat) (c : CloneArgs) (i : Nat) (vm : Vm) : Prop where
  other : ∀ d, d ≠ e → vm.dir d = vm₀.dir d
  curDir : vm.curDir = vm₀.curDir
  empty : ∀ j, i ≤ j → (vm.dir e).tables j = none
  built : ∀ j, j < i → Built vm₀ k s c j ((vm.dir e).entries j) ((vm.dir e).tables j)

section
variable {k s e : Nat} {c : CloneArgs}

theorem Building.setEntry (h : Building vm₀ k s e c i vm) {x : BitVec 32} {o : Option Nat}
    (hb : Built vm₀ k s c i x o) : Building vm₀ k s e c (i + 1) (vm.setEntry e i x o) where
  other := by
    intro d hd
    rw [Vm.setEntry_dir, update_of_ne hd]
    exact h.other d hd
  curDir := h.curDir
  empty := by
    intro j hj
    have hne : j ≠ i := by omega
    simpa [hne] using h.empty j (by omega)
  built := by
    intro j hj
    by_cases hji : j = i
    · subst hji
      simpa using hb
    · simpa [hji] using h.built j (by omega)

/-- The loop goes on without an entry. -/
theorem Building.skip (h : Building vm₀ k s e c i vm) (hb : ∀ x, Built vm₀ k s c i x none) :
    Building vm₀ k s e c (i + 1) vm where
  other := h.other
  curDir := h.curDir
  empty j hj := h.empty j (by omega)
  built := by
    intro j hj
    by_cases hji : j = i
    · rw [hji, h.empty i le_rfl]
      exact hb _
    · exact h.built j (by omega)

/-- What `page_dir::clone` knows of its arguments: `p` is the process that the directory is made
for, `s` the one that it is made from, and `k` the directory of the kernel. -/
structure Cloning (σ : Shares) (k p s : Nat) (c : CloneArgs) (vm₁ : Vm) : Prop where
  new : p ∈ σ.list
  source : s ∈ σ.list
  ne : s ≠ p
  kernel : k ≠ σ.dir p
  bare : ∀ i, Low i → i ≠ 1023 → (vm₁.dir k).tables i = none
  leaf : ∀ q ∈ σ.list, σ.base q = p → q = p
  base : c.flags &&& cloneVm ≠ 0 → σ.base p = s
  cur : vm₁.curDir = σ.dir s
  stacked : vm₁.Stacked (σ.dir s)

/-- One turn of the loop of `page_dir::clone`. -/
theorem cloneIndex_growing (C : Cloning σ k p s c vm₁) (hi : i < 1024) :
    Triple (fun vm => Growing ω σ A vm₀ held₀ [] vm ∧
        Building vm₁ k (σ.dir s) (σ.dir p) c i vm)
      (cloneIndex k (σ.dir s) (σ.dir p) c i)
      (fun _ vm => Growing ω σ A vm₀ held₀ [] vm ∧
        Building vm₁ k (σ.dir s) (σ.dir p) c (i + 1) vm)
      (fun _ _ => True) := by
  apply Triple.get
  rintro vm ⟨⟨held, G⟩, B⟩
  have hsp : σ.dir s ≠ σ.dir p := fun h => C.ne (G.books.dir_inj C.source C.new h)
  have hempty := B.empty i le_rfl
  obtain ⟨te, hte, hpresent, hsmall⟩ := C.stacked
  -- an entry that changes no table of the process
  have same : ∀ x o, (Low i → o = none) →
      Growing ω σ A vm₀ held₀ [] (vm.setEntry (σ.dir p) i x o) := by
    intro x o ho
    refine ⟨held, G.books.congr (fun q hq j hj => ?_) rfl rfl fun _ _ => rfl, G.held, G.spare,
      G.table, G.frame⟩
    by_cases hat : σ.dir q = σ.dir p ∧ j = i
    · obtain ⟨hq, rfl⟩ := hat
      simp [hq, ho hj, hempty]
    · by_cases hq : σ.dir q = σ.dir p
      · have hji : j ≠ i := fun h => hat ⟨hq, h⟩
        simp [hq, hji]
      · simp [hq]
  apply Triple.ite
  · intro hhigh
    apply Triple.modify
    rintro _ ⟨-, rfl⟩
    refine ⟨same _ _ fun hlow => absurd hhigh hlow.2, B.setEntry ⟨fun _ => ?_, fun hlast => ?_, ?_⟩⟩
    · rw [B.other _ C.kernel]
    · exact absurd (kstackTable_iff.mpr hlast) hhigh.2
    · exact fun hlow => absurd hhigh hlow
  · intro hnot
    have hlow : Low i := ⟨hi, hnot⟩
    split
    · rename_i t ht
      apply Triple.ite
      · intro hlinks
        have hk : i ≠ 1023 := fun h => hlinks.2.1 (kstackTable_iff.mpr h)
        have hbase := C.base hlinks.1
        apply Triple.modify
        rintro _ ⟨-, rfl⟩
        refine ⟨⟨held, G.books.link C.new C.leaf hlow hk (hbase ▸ C.ne) hempty _
          (by rw [hbase, Shares.tab_low C.source hlow, ht]), G.held, G.spare, G.table, G.frame⟩,
          B.setEntry ⟨fun h => absurd h hnot, fun h => absurd h hk, fun _ _ u hu => ?_⟩⟩
        rw [← B.other _ hsp] at hu ⊢
        exact ⟨ht.symm.trans hu, rfl⟩
      · intro hcopies
        have hends : vm.Ends te := by
          have hcur : vm.dir vm.curDir = vm₁.dir (σ.dir s) := by
            rw [B.curDir, C.cur, B.other _ hsp]
          exact ⟨by rw [hcur, hte], hcur ▸ hpresent, hcur ▸ hsmall⟩
        apply Triple.bind (Triple.weaken (cloneTable_growing (G.books.backs C.source hlow ht) hends)
          ?_ (fun _ _ h => h) fun _ _ h => h)
        · intro u
          apply Triple.modify
          rintro vm' ⟨⟨held', G'⟩, hdir, hcur⟩
          have B' : Building vm₁ k (σ.dir s) (σ.dir p) c i vm' := by
            refine ⟨?_, hcur.trans B.curDir, ?_, ?_⟩
            · rw [hdir]
              exact B.other
            · rw [hdir]
              exact B.empty
            · rw [hdir]
              exact B.built
          refine ⟨⟨held', G'.put C.new hlow (hdir ▸ hempty) _⟩,
            B'.setEntry ⟨fun h => absurd h hnot, ?_, fun _ h => absurd h hcopies⟩⟩
          rintro rfl
          rw [hdir, B.other _ hsp, Page.make_and_flag (by decide), Page.make_and_flag (by decide)]
          exact ⟨Option.some_ne_none _, hpresent, hsmall⟩
        · rintro _ ⟨hgrow, rfl⟩
          exact ⟨hgrow.1, rfl, rfl⟩
    · rename_i hnone
      have hne : i ≠ 1023 := by
        rintro rfl
        rw [B.other _ hsp, hte] at hnone
        cases hnone
      have hb : ∀ x, Built vm₁ k (σ.dir s) c i x none := by
        refine fun x => ⟨fun h => absurd h hnot, fun h => absurd h hne, fun _ _ u hu => ?_⟩
        rw [← B.other _ hsp, hnone] at hu
        cases hu
      have hkern : (vm.dir k).tables i = none := by
        rw [B.other _ C.kernel]
        exact C.bare i hlow hne
      apply Triple.ite
      · intro _
        apply Triple.ite
        · intro _
          apply Triple.modify
          rintro _ ⟨-, rfl⟩
          rw [hkern]
          exact ⟨same _ _ fun _ => rfl, B.setEntry (hb _)⟩
        · exact fun _ => Triple.throw fun _ _ => trivial
      · intro _
        apply Triple.pure
        rintro _ ⟨-, rfl⟩
        exact ⟨⟨held, G⟩, B.skip hb⟩

theorem cloneIndices_growing (C : Cloning σ k p s c vm₁) (l i : Nat) (hl : i + l = 1024) :
    Triple (fun vm => Growing ω σ A vm₀ held₀ [] vm ∧
        Building vm₁ k (σ.dir s) (σ.dir p) c i vm)
      (cloneIndices k (σ.dir s) (σ.dir p) c l i)
      (fun _ vm => Growing ω σ A vm₀ held₀ [] vm ∧
        Building vm₁ k (σ.dir s) (σ.dir p) c 1024 vm)
      (fun _ _ => True) := by
  induction l generalizing i with
  | zero =>
    obtain rfl : i = 1024 := hl
    exact Triple.pure fun _ h => h
  | succ l ih =>
    apply Triple.bind (cloneIndex_growing C (by omega))
    exact fun _ => ih (i + 1) (by omega)

end

/-- What the new directory of the process `p` is built on. -/
def CloneArgs.base (c : CloneArgs) (s p : Nat) : Nat := if c.flags &&& cloneVm ≠ 0 then s else p

/-- `page_dir::clone` for the new process `p` of the directory of `s`, which is running. -/
theorem cloneDir_growing {k s e r : Nat} {c : CloneArgs} (h : Books ω σ [] held vm)
    (hs : s ∈ σ.list) (hk : k ∉ vm.spare)
    (hbare : ∀ i, Low i → i ≠ 1023 → (vm.dir k).tables i = none) (hcur : vm.curDir = σ.dir s)
    (hstack : vm.Stacked (σ.dir s)) (hp : p ∉ σ.list) (hlt : s < p)
    (hfam : c.flags &&& cloneVm ≠ 0 → σ.family s = r)
    (hrun : cloneDir k (σ.dir s) c vm = .ok e vm') :
    Growing ω (σ.add p e (c.base s p) r) (fun _ => False) vm held [] vm' ∧ e ∈ vm.spare ∧
      Building vm k (σ.dir s) e c 1024 vm' := by
  cases hspare : vm.spare with
  | nil =>
    have hstop : kmalloc vm = .error .grow vm := by
      simp only [kmalloc, get_bind, hspare]
      rfl
    rw [cloneDir, bind_of_error hstop] at hrun
    cases hrun
  | cons e' sp =>
    have hkm : kmalloc vm = .ok e' (vm.setSpare sp) := by
      simp only [kmalloc, get_bind, hspare, modify_bind, pure_run]
    rw [cloneDir, bind_of_ok hkm, modify_bind] at hrun
    change (cloneIndices k (σ.dir s) e' c 1024 0 >>= fun _ => pure e') (vm.newDir e' sp) =
      .ok e vm' at hrun
    have hmem : e' ∈ vm.spare := by
      rw [hspare]
      exact List.mem_cons_self
    have hne : s ≠ p := Nat.ne_of_lt hlt
    have hdirs : (σ.add p e' (c.base s p) r).dir s = σ.dir s := update_of_ne hne _ _
    have hdirp : (σ.add p e' (c.base s p) r).dir p = e' := update_self _ _ _
    have hse : σ.dir s ≠ e' := fun heq => h.not_mem hs (Shares.tab_dir hs) (heq ▸ hmem)
    have hke : k ≠ e' := fun heq => hk (heq ▸ hmem)
    have hold : ∀ d, d ≠ e' → (vm.newDir e' sp).dir d = vm.dir d := fun d hd =>
      update_of_ne hd _ _
    have hbase : c.base s p = p ∨ c.base s p ∈ σ.list ∧ c.base s p < p ∧
      σ.family (c.base s p) = r := by
      unfold CloneArgs.base
      split_ifs with hvm
      · exact .inr ⟨hs, hlt, hfam hvm⟩
      · exact .inl rfl
    have G : Grown ω (σ.add p e' (c.base s p) r) (fun _ => False) vm held [] held
        (vm.newDir e' sp) := by
      refine ⟨h.insert hspare hp hbase, fun _ h => h, fun x hx => ?_, fun _ _ _ => rfl,
        fun _ _ => rfl⟩
      rw [hspare]
      exact List.mem_cons_of_mem e' hx
    have C : Cloning (σ.add p e' (c.base s p) r) k p s c (vm.newDir e' sp) := by
      refine ⟨List.mem_cons_self, List.mem_cons_of_mem p hs, hne, by rwa [hdirp], ?_, ?_,
        ?_, ?_, ?_⟩
      · rw [hold k hke]
        exact hbare
      · intro q hq hb
        by_contra hqp
        have hq' := (List.mem_cons.mp hq).resolve_left hqp
        have hb' : σ.base q = p := (update_of_ne hqp _ _).symm.trans hb
        exact hp (hb' ▸ h.ok.base_live q hq')
      · intro hvm
        exact (update_self _ _ _).trans (if_pos hvm)
      · rw [hdirs]
        exact hcur
      · rw [hdirs]
        unfold Vm.Stacked
        rw [hold _ hse]
        exact hstack
    have B : Building (vm.newDir e' sp) k (σ.dir s) e' c 0 (vm.newDir e' sp) :=
      ⟨fun _ _ => rfl, rfl, fun j _ => by simp [Vm.newDir], fun j hj => absurd hj
      (Nat.not_lt_zero j)⟩
    have hdone := cloneIndices_growing C 1024 0 rfl _ ⟨⟨held, G⟩, by rwa [hdirs, hdirp]⟩
    rw [hdirs, hdirp] at hdone
    cases hres : cloneIndices k (σ.dir s) e' c 1024 0 (vm.newDir e' sp) with
    | error x w =>
      rw [bind_of_error hres] at hrun
      cases hrun
    | ok u w =>
      rw [bind_of_ok hres] at hrun
      cases hrun
      rw [hres] at hdone
      obtain ⟨hgrow, B'⟩ := hdone
      refine ⟨hgrow, hspare ▸ hmem, fun d hd => ?_, B'.curDir, B'.empty, fun j hj => ?_⟩
      · rw [B'.other d hd, hold d hd]
      · have hb := B'.built j hj
        exact ⟨by rw [← hold k hke]; exact hb.high, hb.stack, by rw [← hold _ hse]; exact hb.linked⟩

end Sysint.Paging
