import Sysint.Process.Space

/-! Who owns frames and page tables: an invariant of the address spaces that every step keeps, and
what a step leaves to other processes. -/
namespace Sysint.Process

open Paging Dyadic Hoare Sharing Option Nat
open Function

/-- What holds of each `shared_page_dir`. -/
structure Settled (w : World) (p : Nat) : Prop where
  based : w.clonedDir p < p
  made : p < w.nextTid
  family : w.family p ≤ p
  bare : p ∉ w.alive → (w.dir p).tables 1023 = none
  high : ∀ i < 1024, Highmem i → (w.dir p).tables i = (w.dir 0).tables i

/-- What holds of each process that has not ended. -/
structure Runs (w : World) (p : Nat) : Prop where
  holds : p ∈ w.holders
  stack : (w.space p).stackBot ≤ kernelVirtualBase
  heap : (w.space p).brkEnd < kernelVirtualBase
  stacked : w.vm.Stacked (w.space p).dir

/-- The address spaces are in order, and there is a reference to every `shared_page_dir` except for
`loose`. -/
structure Tidy (ω : Outset) (loose : Nat) (w : World) : Prop where
  books : ∃ held, Books ω w.shares [] held w.vm
  shared : ∀ p ∈ w.shared, Settled w p
  holders : ∀ p ∈ w.holders, p ∈ w.shared
  alive : ∀ p ∈ w.alive, Runs w p
  referred : ∀ p ∈ w.shared, p ≠ loose → w.Referred p
  tmp : w.tmpDir ≠ 0 → w.tmpDir ∈ w.shared
  cur : w.cur ≠ 0 → w.cur ∈ w.alive ∧ w.vm.curDir = (w.space w.cur).dir
  root : (w.space 0).dir ∉ ω.pool
  bare : ∀ i, Low i → i ≠ 1023 → (w.dir 0).tables i = none

variable {ω : Outset} {loose : Nat} {w w' : World} {held : List Block} {vm : Vm} {a : Action}
  {p q : Nat}

theorem Settled.same (h : Settled w q) (hdir : w'.dir q = w.dir q) (hroot : w'.dir 0 = w.dir 0)
    (hbase : w'.clonedDir q = w.clonedDir q) (hfam : w'.family q = w.family q)
    (hnext : w.nextTid ≤ w'.nextTid) (ha : q ∈ w.alive → q ∈ w'.alive) : Settled w' q := by
  refine ⟨hbase ▸ h.based, h.made.trans_le hnext, hfam ▸ h.family, fun hq => ?_, ?_⟩
  · rw [hdir]
    exact h.bare fun hc => hq (ha hc)
  · rw [hdir, hroot]
    exact h.high

theorem Runs.same (h : Runs w q) (hspace : w'.space q = w.space q) (hdir : w'.dir q = w.dir q)
    (hin : q ∈ w'.holders) : Runs w' q := by
  refine ⟨hin, hspace ▸ h.stack, hspace ▸ h.heap, ?_⟩
  unfold World.dir at hdir
  rw [hspace] at hdir ⊢
  exact h.stacked.congr hdir

theorem mem_filter_ne {l : List Nat} : q ∈ l.filter (· ≠ p) ↔ q ∈ l ∧ q ≠ p := by
  rw [List.mem_filter, decide_eq_true_iff]

namespace Tidy

section

variable (h : Tidy ω loose w)
include h

theorem pos (hp : p ∈ w.shared) : p ≠ 0 :=
  Nat.ne_of_gt (zero_lt_of_lt (h.shared p hp).based)

theorem mem (hp : p ∈ w.alive) : p ∈ w.shared :=
  h.holders p (h.alive p hp).holds

theorem dir_ne (hp : p ∈ w.shared) (hq : q ∈ w.shared) (hne : q ≠ p) :
    (w.space q).dir ≠ (w.space p).dir := by
  obtain ⟨held, hb⟩ := h.books
  exact fun heq => hne (hb.dir_inj (σ := w.shares) hq hp heq)

theorem root_ne (hp : p ∈ w.shared) : (w.space 0).dir ≠ (w.space p).dir := by
  obtain ⟨held, hb⟩ := h.books
  intro heq
  exact h.root ((hb.pool _).mpr (.inr (heq ▸ hb.ok.used (d := p) hp (Shares.tab_dir hp))))

theorem based (hp : p ∈ w.shared) (h0 : w.clonedDir p ≠ 0) :
    w.clonedDir p ∈ w.shared := by
  obtain ⟨held, hb⟩ := h.books
  have hbase : w.shares.base p ∈ w.shared := hb.ok.base_live p hp
  rwa [World.shares_base, if_neg h0] at hbase

end

end Tidy

theorem World.exec_eq_some {α : Type} {x : Paging.Kernel α} {vm vm' : Vm} {a : α}
    (h : x vm = .ok a vm') : World.exec x vm = some (a, vm') := by
  rw [World.exec, outcome, h]

theorem World.eq_of_exec {α : Type} {x : Paging.Kernel α} {vm vm' : Vm} {a : α}
    (h : World.exec x vm = some (a, vm')) : x vm = .ok a vm' := by
  obtain ⟨a', t, hx, heq⟩ := ok_of_outcome h
  cases heq
  exact hx

/-! ## Giving back -/

/-- Only the directories of `l` are left, as they were. -/
structure Shed (b : Boot) (w : World) (vm : Vm) (l : List Nat) : Prop where
  dir : ∀ p ∈ l, p ∈ w.shared ∧ vm.dir (w.space p).dir = w.dir p
  root : vm.dir (w.space 0).dir = w.dir 0
  curDir : vm.curDir = w.vm.curDir
  table : vm.table = w.vm.table
  frame : vm.frame = w.vm.frame
  frees : Frees b w.vm.buddy vm.buddy

/-- What the tables of a `shared_page_dir` are compared with. -/
theorem Tidy.compared (h : Tidy ω loose w) (hp : p ∈ w.shared) :
    Compared w.shares p (w.space (w.clonedDir p)).dir w.vm := by
  have K := h.shared p hp
  by_cases h0 : w.clonedDir p = 0
  · have hbase : w.shares.base p = p := if_pos h0
    rw [h0]
    exact ⟨h.root_ne hp, K.high, fun hne => absurd hbase hne, fun _ => h.bare⟩
  have hin := h.based hp h0
  have hbase : w.shares.base p = w.clonedDir p := if_neg h0
  refine ⟨h.dir_ne hp hin K.based.ne, fun i hi hh => ?_, fun _ => ?_, fun heq => ?_⟩
  · exact (K.high i hi hh).trans ((h.shared _ hin).high i hi hh).symm
  · rw [hbase]
    rfl
  · exact absurd (hbase.symm.trans heq) K.based.ne

/-- The destructor of a `shared_page_dir` without a reference. -/
theorem Tidy.destroy (h : Tidy ω p w) (hp : p ∈ w.shared) (hr : ¬ w.Referred p) :
    ∃ vm, destroyDir (w.space p).dir (w.space (w.clonedDir p)).dir w.vm = .ok ⟨⟩ vm ∧
      Tidy ω (w.clonedDir p) { w with vm := vm, shared := w.shared.filter (· ≠ p) } ∧
      Shed ω.boot w vm (w.shared.filter (· ≠ p)) := by
  obtain ⟨hheld, hr⟩ := not_or.mp hr
  obtain ⟨htmp, hbuilt⟩ := not_or.mp hr
  obtain ⟨held, hb⟩ := h.books
  have hdead : p ∉ w.alive := fun hc => hheld (h.alive p hc).holds
  have hleaf : ∀ q ∈ w.shares.list, w.shares.base q = p → q = p := by
    intro q hq hbase
    rw [World.shares_base] at hbase
    split_ifs at hbase with h0
    · exact hbase
    · exact absurd ⟨q, hq, hbase⟩ hbuilt
  obtain ⟨vm, held', hrun, hbooks, hrel⟩ := destroyDir_books (σ := w.shares) hp hb hleaf
    (h.compared hp) ((h.shared p hp).bare hdead)
  have hroot := hrel.other _ (h.root_ne hp)
  have hdir : ∀ q ∈ w.shared, q ≠ p → vm.dir (w.space q).dir = w.dir q :=
    fun q hq hne => hrel.other _ (h.dir_ne hp hq hne)
  refine ⟨vm, hrun, ⟨⟨held', hbooks⟩, fun q hq => ?_, fun q hq => ?_, fun q hq => ?_,
    fun q hq hbase => ?_, fun h0 => ?_, fun h0 => ?_, h.root, fun i hi hne => ?_⟩,
    fun q hq => ?_, hroot, hrel.curDir, hrel.table, hrel.frame, hrel.frees⟩
  · obtain ⟨hq, hne⟩ := mem_filter_ne.mp hq
    exact (h.shared q hq).same (hdir q hq hne) hroot rfl rfl le_rfl id
  · refine mem_filter_ne.mpr ⟨h.holders q hq, ?_⟩
    rintro rfl
    exact hheld hq
  · have hne : q ≠ p := by
      rintro rfl
      exact hdead hq
    exact (h.alive q hq).same rfl (hdir q (h.mem hq) hne) (h.alive q hq).holds
  · obtain ⟨hq, hne⟩ := mem_filter_ne.mp hq
    rcases h.referred q hq hne with hin | htmp | ⟨x, hx, rfl⟩
    · exact .inl hin
    · exact .inr (.inl htmp)
    · refine .inr (.inr ⟨x, mem_filter_ne.mpr ⟨hx, ?_⟩, rfl⟩)
      rintro rfl
      exact hbase rfl
  · exact mem_filter_ne.mpr ⟨h.tmp h0, htmp⟩
  · exact ⟨(h.cur h0).1, hrel.curDir.trans (h.cur h0).2⟩
  · exact (congrArg (fun d => d.tables i) hroot).trans (h.bare i hi hne)
  · obtain ⟨hq, hne⟩ := mem_filter_ne.mp hq
    exact ⟨hq, hdir q hq hne⟩

/-- A reference goes away. Bases come before what is built on them, so the chain of destructors
ends. -/
theorem release_tidy (n : Nat) (h : Tidy ω p w) (hp : p ≠ 0 → p ∈ w.shared) (hn : p < n) :
    ∃ vm l, w.release n p = some { w with vm := vm, shared := l } ∧
      Tidy ω 0 { w with vm := vm, shared := l } ∧ Shed ω.boot w vm l := by
  induction n generalizing p w with
  | zero => exact absurd hn (Nat.not_lt_zero p)
  | succ n ih =>
    rw [World.release]
    by_cases hdone : p = 0 ∨ w.Referred p
    · rw [if_pos hdone]
      refine ⟨w.vm, w.shared, rfl, { h with referred := fun q hq _ => ?_ },
        fun q hq => ⟨hq, rfl⟩, rfl, rfl, rfl, rfl, .refl⟩
      by_cases hqp : q = p
      · subst hqp
        exact hdone.resolve_left (h.pos hq)
      · exact h.referred q hq hqp
    · rw [if_neg hdone]
      obtain ⟨h0, hr⟩ := not_or.mp hdone
      have hin := hp h0
      obtain ⟨vm, hrun, hnext, S⟩ := h.destroy hin hr
      have hlt := (h.shared p hin).based
      obtain ⟨vm', l, hrel, htidy, S'⟩ := ih hnext
        (fun hb => mem_filter_ne.mpr ⟨h.based hin hb, hlt.ne⟩) (by omega)
      refine ⟨vm', l, ?_, htidy, fun q hq => ?_, S'.root.trans S.root, S'.curDir.trans S.curDir,
        S'.table.trans S.table, S'.frame.trans S.frame, .trans S.frees S'.frees⟩
      · exact bind_eq_some_iff.mpr ⟨(⟨⟩, vm), World.exec_eq_some hrun, hrel⟩
      · obtain ⟨hq, hsame⟩ := S'.dir q hq
        obtain ⟨hq, hsame'⟩ := S.dir q hq
        exact ⟨hq, hsame.trans hsame'⟩

/-! ## What others see -/

/-- What a process has below the kernel is as it was. -/
structure Unseen (w w' : World) (q : Nat) : Prop where
  space : w'.space q = w.space q
  dir : w'.dir q = w.dir q
  table : ∀ t, w.shares.Tables w.vm q t → w'.vm.table t = w.vm.table t
  frame : ∀ t j f, w.shares.Tables w.vm q t → j < 1024 → w.vm.holds t j = some f →
    w'.vm.frame f = w.vm.frame f

theorem Unseen.refl (w : World) (q : Nat) : Unseen w w q :=
  ⟨rfl, rfl, fun _ _ => rfl, fun _ _ _ _ _ _ => rfl⟩

theorem Unseen.trans {w'' : World} (h : Unseen w w' q) (h' : Unseen w' w'' q) : Unseen w w'' q := by
  have htables : ∀ t, w.shares.Tables w.vm q t → w'.shares.Tables w'.vm q t := by
    rintro t ⟨i, hi, ht⟩
    exact ⟨i, hi, (congrArg (fun d => d.tables i) h.dir).trans ht⟩
  refine ⟨h'.space.trans h.space, h'.dir.trans h.dir, ?_, ?_⟩
  · exact fun t ht => (h'.table t (htables t ht)).trans (h.table t ht)
  · intro t j f ht hj hf
    refine (h'.frame t j f (htables t ht) hj ?_).trans (h.frame t j f ht hj hf)
    rw [← hf]
    simp only [Vm.holds, Vm.page, h.table t ht]
    rfl

/-- The directory of a process keeps its tables. -/
def KeepsTables (w w' : World) (q : Nat) : Prop :=
  ∀ i t, (w.dir q).tables i = some t →
    (w'.dir q).tables i = some t ∧ (w'.dir q).entries i = (w.dir q).entries i

theorem KeepsTables.of_eq (h : w'.dir q = w.dir q) : KeepsTables w w' q := by
  intro i t ht
  rw [h]
  exact ⟨ht, rfl⟩

/-- What a step leaves to the processes that live on. -/
structure Shields (a : Action) (w w' : World) : Prop where
  back : ∀ q ∈ w'.alive, q ∈ w.alive ∨ q = w.nextTid
  next : w.nextTid ≤ w'.nextTid
  family : ∀ q ∈ w.alive, w'.family q = w.family q
  unseen : ∀ q ∈ w.alive, q ∈ w'.alive → w.Foreign (w.family q) a → Unseen w w' q
  keeps : ∀ q ∈ w.alive, q ∈ w'.alive → KeepsTables w w' q

theorem Shields.refl (a : Action) (w : World) : Shields a w w :=
  ⟨fun _ => .inl, le_rfl, fun _ _ => rfl, fun q _ _ _ => .refl w q, fun _ _ _ => .of_eq rfl⟩

/-- The process that runs has written only to its own tables and frames, and to what was free. -/
structure Touched (w : World) (held : List Block) (vm : Vm) : Prop where
  table : ∀ t, t ∉ w.vm.spare → ¬ w.shares.Tables w.vm w.cur t → vm.table t = w.vm.table t
  frame : ∀ f, (⟨f, 0⟩ : Block) ∈ held →
    (∀ t j, w.shares.Tables w.vm w.cur t → j < 1024 → w.vm.holds t j ≠ some f) →
    vm.frame f = w.vm.frame f

section
variable {σ : Shares} {hand : List Nat} {t u m n f : Nat}

section

variable (h : Books ω σ hand held vm)
include h

theorem table_family (hp : p ∈ σ.list) (hq : q ∈ σ.list)
    (ht : σ.Tables vm p t) (hu : σ.Tables vm q t) : σ.family p = σ.family q := by
  obtain ⟨i, hi, ht⟩ := ht
  obtain ⟨j, hj, hu⟩ := hu
  obtain ⟨x, hx, hfx, hxt⟩ := h.owner hp hi ht
  obtain ⟨y, hy, hfy, hyt⟩ := h.owner hq hj hu
  rw [← hfx, ← hfy, (h.ok.unique x y i j t hx hy hxt hyt).1]

theorem names_of_tables (hp : p ∈ σ.list) (ht : σ.Tables vm p t)
    (hm : m < 1024) (hf : vm.holds t m = some f) : σ.Names hand vm t m f := by
  obtain ⟨i, hi, ht⟩ := ht
  exact ⟨h.backs hp hi ht, hm, hf⟩

theorem frame_family (hp : p ∈ σ.list) (hq : q ∈ σ.list)
    (ht : σ.Tables vm p t) (hu : σ.Tables vm q u) (hm : m < 1024) (hn : n < 1024)
    (hf : vm.holds t m = some f) (hg : vm.holds u n = some f) : σ.family p = σ.family q := by
  obtain ⟨rfl, -⟩ := h.accounts.inj t u m n f (names_of_tables h hp ht hm hf)
    (names_of_tables h hq hu hn hg)
  exact table_family h hp hq ht hu

end

end

theorem Touched.unseen (T : Touched w held w'.vm) (h : Books ω w.shares [] held w.vm)
    (hcur : w.cur ∈ w.shared) (hq : q ∈ w.shared) (hfam : w.family w.cur ≠ w.family q)
    (hspace : w'.space q = w.space q) (hdir : w'.dir q = w.dir q) : Unseen w w' q := by
  refine ⟨hspace, hdir, fun t ht => T.table t ?_ ?_, fun t j f ht hj hf => T.frame f ?_ ?_⟩
  · obtain ⟨i, hi, ht⟩ := ht
    exact h.not_mem (p := q) hq ((Shares.tab_low hq hi).trans ht)
  · exact fun hc => hfam (table_family h hcur hq hc ht)
  · exact h.accounts.mem (names_of_tables h hq ht hj hf)
  · exact fun u k hu hk hg => hfam (frame_family h hcur hq hu ht hk hj hg hf)

/-! ## switch, reap and exit -/

theorem shuffle_tidy {ts : List Nat} (h : Tidy ω 0 w) (hw : w.step (.shuffle ts) = some w') :
    Tidy ω 0 w' ∧ Shields (.shuffle ts) w w' := by
  rw [World.step] at hw
  split_ifs at hw with hts
  cases hw
  obtain ⟨held, hb⟩ := h.books
  refine ⟨⟨⟨held, hb.shuffle hts⟩, fun q hq => ?_, h.holders, fun q hq => ?_, h.referred, h.tmp,
    h.cur, h.root, h.bare⟩, fun _ => .inl, le_rfl, fun _ _ => rfl,
    fun q _ _ _ => ⟨rfl, rfl, fun _ _ => rfl, fun _ _ _ _ _ _ => rfl⟩, fun _ _ _ => .of_eq rfl⟩
  · exact (h.shared q hq).same rfl rfl rfl rfl le_rfl id
  · exact (h.alive q hq).same rfl rfl (h.alive q hq).holds

theorem switch_tidy (h : Tidy ω 0 w) (hw : w.step (.switch p) = some w') :
    Tidy ω 0 w' ∧ Shields (.switch p) w w' := by
  rw [World.step] at hw
  split_ifs at hw with hp
  cases hw
  obtain ⟨held, hb⟩ := h.books
  refine ⟨⟨⟨held, hb.congr (fun _ _ _ _ => rfl) rfl rfl fun _ _ => rfl⟩, fun q hq => ?_, h.holders,
    fun q hq => ?_, h.referred, h.tmp, fun _ => ⟨hp, rfl⟩, h.root, h.bare⟩, fun _ => .inl, le_rfl,
    fun _ _ => rfl, fun q _ _ _ => ⟨rfl, rfl, fun _ _ => rfl, fun _ _ _ _ _ _ => rfl⟩,
    fun _ _ _ => .of_eq rfl⟩
  · exact (h.shared q hq).same rfl rfl rfl rfl le_rfl id
  · exact (h.alive q hq).same rfl rfl (h.alive q hq).holds

/-- `delete` of a process that has ended. -/
theorem reap_tidy (h : Tidy ω 0 w) (hp : p ∈ w.holders) (ha : p ∉ w.alive) :
    ∃ w', w.step (.reap p) = some w' ∧ Frees ω.boot w.vm.buddy w'.vm.buddy ∧ Tidy ω 0 w' ∧
      Shields (.reap p) w w' := by
  have hcut : Tidy ω p { w with holders := w.holders.filter (· ≠ p) } := by
    refine ⟨h.books, fun q hq => (h.shared q hq).same rfl rfl rfl rfl le_rfl id,
      fun q hq => h.holders q (mem_filter_ne.mp hq).1, fun q hq => ?_, fun q hq hne => ?_, h.tmp,
        h.cur,
      h.root, h.bare⟩
    · refine (h.alive q hq).same rfl rfl (mem_filter_ne.mpr ⟨(h.alive q hq).holds, ?_⟩)
      rintro rfl
      exact ha hq
    · rcases h.referred q hq (h.pos hq) with hin | hrest
      · exact .inl (mem_filter_ne.mpr ⟨hin, hne⟩)
      · exact .inr hrest
  obtain ⟨vm, l, hrun, htidy, S⟩ :=
    release_tidy (p + 1) hcut (fun _ => h.holders p hp) (lt_succ_self p)
  refine ⟨_, ?_, S.frees, htidy, fun _ => .inl, le_rfl, fun _ _ => rfl, fun q _ hq _ => ?_,
    fun q _ hq => .of_eq (S.dir q (htidy.mem hq)).2⟩
  · rw [World.step, if_pos ⟨hp, ha⟩]
    exact hrun
  · exact ⟨rfl, (S.dir q (htidy.mem hq)).2, fun t _ => congrFun S.table t,
      fun _ _ f _ _ _ => congrFun S.frame f⟩

/-- `_tmp_dir = cur_proc->dir`. -/
theorem keepDir_tidy (h : Tidy ω 0 w) (hp : p ∈ w.shared) :
    ∃ vm l, w.keepDir p = some { w with vm := vm, shared := l, tmpDir := p } ∧
      Tidy ω 0 { w with vm := vm, shared := l, tmpDir := p } ∧ Shed ω.boot w vm l := by
  have hcut : Tidy ω w.tmpDir { w with tmpDir := p } := by
    refine ⟨h.books, fun q hq => (h.shared q hq).same rfl rfl rfl rfl le_rfl id, h.holders,
      fun q hq => (h.alive q hq).same rfl rfl (h.alive q hq).holds, fun q hq hne => ?_, fun _ => hp,
      h.cur, h.root, h.bare⟩
    rcases h.referred q hq (h.pos hq) with hin | htmp | hbuilt
    · exact .inl hin
    · exact absurd htmp.symm hne
    · exact .inr (.inr hbuilt)
  obtain ⟨vm, l, hrun, htidy, S⟩ := release_tidy (w.tmpDir + 1) hcut h.tmp (lt_succ_self _)
  exact ⟨vm, l, hrun, htidy, S.dir, S.root, S.curDir, S.table, S.frame, S.frees⟩

/-- The process `p` has given its stacks back. -/
structure Unstacked (b : Boot) (w : World) (p : Nat) (vm : Vm) : Prop where
  other : ∀ d, d ≠ (w.space p).dir → vm.dir d = w.vm.dir d
  bare : (vm.dir (w.space p).dir).tables 1023 = none
  rest : ∀ i < 1023, (vm.dir (w.space p).dir).tables i = (w.dir p).tables i
  table : ∀ t, ¬ w.shares.Tables w.vm p t → vm.table t = w.vm.table t
  frame : vm.frame = w.vm.frame
  frees : Frees b w.vm.buddy vm.buddy

theorem stacks_books (hb : Books ω w.shares [] held w.vm) (hp : p ∈ w.shared) :
    ∃ vm₁ vm₂ held', Memory.freePages (w.space p).dir
        ((kernelVirtualBase - (w.space p).stackBot + (pageSize - 1)) / pageSize)
        (w.space p).stackBot w.vm = .ok ⟨⟩ vm₁ ∧
      freeKstackTables (w.space p).dir vm₁ = .ok ⟨⟩ vm₂ ∧ Books ω w.shares [] held' vm₂ ∧
      Unstacked ω.boot w p vm₂ := by
  have hin : p ∈ w.shares.list := hp
  have hlow : ∀ k < (kernelVirtualBase - (w.space p).stackBot + (pageSize - 1)) / pageSize,
      Low (((w.space p).stackBot + k * pageSize) >>> pageShift >>> 10) := by
    intro k hk
    have hbase : kernelVirtualBase = 0xC0000000 := rfl
    apply low_of_lt
    rw [Memory.pageSize_eq] at hk ⊢
    rw [shiftRight_eq_div_pow, pageShift]
    omega
  obtain ⟨vm₁, held₁, hrun₁, hb₁, C⟩ := freePages_books hin hb _ _ hlow
  obtain ⟨vm₂, held₂, hrun₂, hb₂, R, hnone, hsame⟩ := freeKstackTables_books hin hb₁
  refine ⟨vm₁, vm₂, held₂, hrun₁, hrun₂, hb₂, fun d hd => ?_, hnone, fun i hi => ?_, fun t ht => ?_,
    R.frame.trans C.frame, .trans C.frees R.frees⟩
  · exact (R.other d hd).trans (congrFun C.dir d)
  · exact (hsame i hi).trans (congrArg (fun d => d.tables i) (congrFun C.dir _))
  · exact (congrFun R.table t).trans (C.table t ht)

/-- `exit` gives the stacks of the process back. -/
theorem exit_tidy (h : Tidy ω 0 w) (h0 : w.cur ≠ 0) :
    ∃ w', w.exit = some w' ∧ Frees ω.boot w.vm.buddy w'.vm.buddy ∧ Tidy ω 0 w' ∧
      Shields .exit w w' := by
  have hcur := (h.cur h0).1
  obtain ⟨vm, l, hrun, h₁, S⟩ := keepDir_tidy h (h.mem hcur)
  obtain ⟨held, hb⟩ := h₁.books
  have hin := h₁.mem hcur
  obtain ⟨vm₁, vm₂, held', hrun₁, hrun₂, hbooks, U⟩ := stacks_books hb hin
  have hdir : ∀ q ∈ l, q ≠ w.cur → vm₂.dir (w.space q).dir = vm.dir (w.space q).dir :=
    fun q hq hne => U.other _ (h₁.dir_ne hin hq hne)
  have hroot : vm₂.dir (w.space 0).dir = vm.dir (w.space 0).dir := U.other _ (h₁.root_ne hin)
  refine ⟨{ w with
    vm := vm₂.setCurDir (w.space 0).dir
    shared := l
    tmpDir := w.cur
    alive := w.alive.filter (· ≠ w.cur)
    cur := 0 }, ?_, .trans S.frees U.frees,
      ⟨⟨held', ?_⟩, fun q hq => ?_, h₁.holders, fun q hq => ?_, h₁.referred, h₁.tmp,
    fun hc => absurd rfl hc, h₁.root, fun i hi hne => ?_⟩, fun q hq => .inl (mem_filter_ne.mp hq).1,
    le_rfl, fun _ _ => rfl, fun q hq hq' hfam => ?_, fun q hq hq' => ?_⟩
  · exact bind_eq_some_iff.mpr ⟨_, hrun,
      bind_eq_some_iff.mpr ⟨(⟨⟩, vm₁), World.exec_eq_some hrun₁,
        bind_eq_some_iff.mpr ⟨(⟨⟩, vm₂), World.exec_eq_some hrun₂, rfl⟩⟩⟩
  · exact hbooks.congr (fun _ _ _ _ => rfl) rfl rfl fun _ _ => rfl
  · have Q := h₁.shared q hq
    by_cases hqc : q = w.cur
    · subst hqc
      refine ⟨Q.based, Q.made, Q.family, fun _ => U.bare, fun i hi hh => ?_⟩
      have hne : i ≠ 1023 := fun heq => hh.2 (kstackTable_iff.mpr heq)
      have hsame := (U.rest i (by omega)).trans (Q.high i hi hh)
      exact hsame.trans (congrArg (fun d => d.tables i) hroot).symm
    · exact Q.same (hdir q hq hqc) hroot rfl rfl le_rfl fun ha => mem_filter_ne.mpr ⟨ha, hqc⟩
  · obtain ⟨hq, hne⟩ := mem_filter_ne.mp hq
    exact (h₁.alive q hq).same rfl (hdir q (h₁.mem hq) hne) (h₁.alive q hq).holds
  · exact (congrArg (fun d => d.tables i) hroot).trans (h₁.bare i hi hne)
  · have hl := h₁.mem hq
    have hkeep : Unseen w { w with vm := vm, shared := l, tmpDir := w.cur } q :=
      ⟨rfl, (S.dir q hl).2, fun t _ => congrFun S.table t, fun _ _ f _ _ _ => congrFun S.frame f⟩
    have T : Touched { w with vm := vm, shared := l, tmpDir := w.cur } held
        (vm₂.setCurDir (w.space 0).dir) :=
      ⟨fun t _ ht => U.table t ht, fun f _ _ => congrFun U.frame f⟩
    exact hkeep.trans (T.unseen hb hin hl hfam rfl (hdir q hl (mem_filter_ne.mp hq').2))
  · have hl := h₁.mem hq
    exact .of_eq ((hdir q hl (mem_filter_ne.mp hq').2).trans (S.dir q hl).2)

/-! ## brk and stores -/

/-- The process that runs has worked on its own memory. -/
theorem Tidy.work (h : Tidy ω 0 w) (h0 : w.cur ≠ 0) (hold : Books ω w.shares [] held w.vm)
    {x : Memory.Proc} (hx : x = { w.space w.cur with brkEnd := x.brkEnd })
    (hend : x.brkEnd < kernelVirtualBase) (hbooks : ∃ held', Books ω w.shares [] held' vm)
    (E : Extended (w.space w.cur).dir w.vm vm) (T : Touched w held vm)
    (ha : ∀ r, w.Foreign r a → w.family w.cur ≠ r) :
    Tidy ω 0 (w.work vm x) ∧ Shields a w (w.work vm x) := by
  obtain ⟨hcur, hcurDir⟩ := h.cur h0
  have hin := h.mem hcur
  have hself : (w.work vm x).space w.cur = x := update_self _ _ _
  have hother : ∀ q, q ≠ w.cur → (w.work vm x).space q = w.space q := fun q hq =>
    update_of_ne hq _ _
  have hspace : (fun q => ((w.work vm x).space q).dir) = fun q => (w.space q).dir := by
    funext q
    by_cases hq : q = w.cur
    · rw [hq, hself, hx]
    · rw [hother q hq]
  have hdirs : ∀ q, (w.work vm x).dir q = vm.dir (w.space q).dir := fun q =>
    congrArg vm.dir (congrFun hspace q)
  have hshares : (w.work vm x).shares = w.shares := by
    rw [World.shares, World.shares, hspace]
    rfl
  have hdir : ∀ q ∈ w.shared, q ≠ w.cur → (w.work vm x).dir q = w.dir q :=
    fun q hq hne => (hdirs q).trans (E.other _ (h.dir_ne hin hq hne))
  have hroot : (w.work vm x).dir 0 = w.dir 0 := (hdirs 0).trans (E.other _ (h.root_ne hin))
  refine ⟨⟨hshares ▸ hbooks, fun q hq => ?_, h.holders, fun q hq => ?_, h.referred, h.tmp,
    fun _ => ⟨hcur, ?_⟩, congrFun hspace 0 ▸ h.root, hroot ▸ h.bare⟩, fun _ => .inl, le_rfl,
    fun _ _ => rfl, fun q hq _ hr => ?_, fun q hq _ => ?_⟩
  · have Q := h.shared q hq
    by_cases hqc : q = w.cur
    · subst hqc
      refine ⟨Q.based, Q.made, Q.family, fun hc => absurd hcur hc, fun i hi hh => ?_⟩
      rw [hroot, hdirs, E.high hh]
      exact Q.high i hi hh
    · exact Q.same (hdir q hq hqc) hroot rfl rfl le_rfl id
  · have R := h.alive q hq
    by_cases hqc : q = w.cur
    · subst hqc
      obtain ⟨t, ht, hentry⟩ := R.stacked
      obtain ⟨ht', hentry'⟩ := E.kept 1023 t ht
      refine ⟨R.holds, ?_, ?_, t, ?_⟩
      · rw [hself, hx]
        exact R.stack
      · rw [hself]
        exact hend
      · rw [congrFun hspace w.cur]
        exact ⟨ht', hentry' ▸ hentry⟩
    · exact R.same (hother q hqc) (hdir q (h.mem hq) hqc) R.holds
  · exact (E.curDir.trans hcurDir).trans (congrFun hspace w.cur).symm
  · have hfam := ha _ hr
    have hne : q ≠ w.cur := by
      rintro rfl
      exact hfam rfl
    exact T.unseen hold hin (h.mem hq) hfam (hother q hne) (hdir q (h.mem hq) hne)
  · by_cases hqc : q = w.cur
    · subst hqc
      intro i t ht
      rw [hdirs]
      exact E.kept i t ht
    · exact .of_eq (hdir q (h.mem hq) hqc)

theorem brk_tidy (h : Tidy ω 0 w) (h0 : w.cur ≠ 0) {addr : Nat} (hw : w.brk addr = some w') :
    Tidy ω 0 w' ∧ Shields (.brk addr) w w' := by
  rw [World.brk] at hw
  by_cases href : (w.space w.cur).Refuses addr
  · rw [if_pos href] at hw
    cases hw
    exact ⟨h, .refl _ w⟩
  rw [if_neg href] at hw
  obtain ⟨⟨⟨x, result⟩, vm⟩, hexec, hif⟩ := bind_eq_some_iff.mp hw
  have hrun := World.eq_of_exec hexec
  simp only at hif
  split_ifs at hif with hres
  subst hres
  cases hif
  obtain ⟨hcur, hdir⟩ := h.cur h0
  have hin : w.cur ∈ w.shares.list := h.mem hcur
  have R := h.alive w.cur hcur
  obtain ⟨held, hb⟩ := h.books
  by_cases hlt : (w.space w.cur).brkEnd < result
  · obtain ⟨⟨⟨held', G⟩, E⟩, rfl, hhi⟩ := brk_feeding hb hin rfl hdir R.stack hlt hrun
    exact h.work h0 hb rfl (hhi.trans_le R.stack) ⟨held', G.books⟩ E
      ⟨G.table, fun f hf _ => G.frame f hf⟩ fun _ hr => hr
  · obtain ⟨hbooks, rfl, C⟩ := brk_books hb hin rfl R.heap hdir href hlt hrun
    exact h.work h0 hb rfl ((not_lt.mp hlt).trans_lt R.heap) hbooks (.of_dir C.dir C.curDir)
      ⟨fun t _ ht => C.table t ht, fun f _ _ => congrFun C.frame f⟩ fun _ hr => hr

/-- Pages below the kernel that user code reaches have entries in tables of the process. -/
theorem World.access_holds {a f o : Nat} {write : Bool} (h : w.access p a write = some (f, o)) :
    ∃ t j, w.shares.Tables w.vm p t ∧ j < 1024 ∧ w.vm.holds t j = some f := by
  unfold World.access at h
  split_ifs at h with hc
  obtain ⟨ha, -, -, -, hpres, -⟩ := hc
  cases h
  have hlow : a >>> pageShift < 0xC0000 := by
    have hbase : kernelVirtualBase = 0xC0000000 := rfl
    rw [shiftRight_eq_div_pow, pageShift]
    omega
  cases ht : (w.dir p).tables (a >>> pageShift >>> 10) with
  | none =>
    have hzero : w.vm.pte (w.space p).dir (a >>> pageShift) = ⟨0⟩ := by
      unfold World.dir at ht
      rw [Vm.pte, ht]
    rw [hzero] at hpres
    exact absurd hpres (by decide)
  | some t =>
    rw [Vm.pte_of_table ht] at hpres ⊢
    exact ⟨t, _, ⟨_, low_of_lt hlow, ht⟩, and_1023_lt _, Vm.holds_eq_some.mpr ⟨hpres, rfl⟩⟩

theorem store_tidy (h : Tidy ω 0 w) (h0 : w.cur ≠ 0) {a : Nat} {v : BitVec 8}
    (hw : w.store a v = some w') : Tidy ω 0 w' ∧ Shields (.store a v) w w' := by
  obtain ⟨⟨f, o⟩, hacc, hw⟩ := map_eq_some_iff.mp hw
  obtain ⟨t, j, ht, hj, hf⟩ := World.access_holds hacc
  obtain ⟨held, hb⟩ := h.books
  have hb' : Books ω w.shares [] held (w.vm.setByte f o v) :=
    hb.congr (fun _ _ _ _ => rfl) rfl rfl fun _ _ => rfl
  have hwork : w' = w.work (w.vm.setByte f o v) (w.space w.cur) := by
    rw [← hw, World.work, update_eq_self]
  rw [hwork]
  refine h.work h0 hb rfl (h.alive w.cur (h.cur h0).1).heap ⟨held, hb'⟩ (.of_dir rfl rfl)
    ⟨fun _ _ _ => rfl, fun g _ hg => ?_⟩ fun _ hr => hr
  have hne : g ≠ f := by
    rintro rfl
    exact hg t j ht hj hf
  exact update_of_ne hne _ _

/-! ## clone -/

section
variable {e base r : Nat} {c : CloneArgs}

theorem World.shares_born (w : World) (vm : Vm) (e base r : Nat) : (w.born vm e base r).shares =
    w.shares.add w.nextTid e (if base = 0 then w.nextTid else base) r := by
  unfold World.shares Shares.add World.born
  congr 1
  · funext q
    by_cases hq : q = w.nextTid
    · simp [hq]
    · simp [hq]
  · funext q
    by_cases hq : q = w.nextTid
    · simp [hq]
    · simp [hq]

theorem World.born_space (hq : q ≠ w.nextTid) : (w.born vm e base r).space q = w.space q :=
  update_of_ne hq _ _

theorem World.born_dir : (w.born vm e base r).dir w.nextTid = vm.dir e := by
  simp [World.born, World.dir]

/-- The directories that were there before. -/
theorem Tidy.dir_born {k s : Nat} (h : Tidy ω 0 w) (he : e ∈ w.vm.spare)
    (B : Building w.vm k s e c 1024 vm) (h0 : w.nextTid ≠ 0) (hq : q = 0 ∨ q ∈ w.shared) :
    (w.born vm e base r).dir q = w.dir q := by
  obtain ⟨held, hb⟩ := h.books
  have hne : q ≠ w.nextTid := by
    rcases hq with rfl | hq
    · exact h0.symm
    · exact (h.shared q hq).made.ne
  rw [World.dir, World.born_space hne]
  refine B.other _ fun heq => ?_
  rcases hq with rfl | hq
  · exact h.root ((hb.pool _).mpr (.inl (heq ▸ he)))
  · have hused : (w.space q).dir ∉ [] ++ w.vm.spare := hb.not_mem (p := q) hq (Shares.tab_dir hq)
    exact hused (heq ▸ he)

theorem Tidy.born (h : Tidy ω 0 w) (h0 : w.cur ≠ 0) (he : e ∈ w.vm.spare)
    (B : Building w.vm (w.space 0).dir (w.space w.cur).dir e c 1024 vm)
    (hbooks : ∃ held, Books ω (w.born vm e base r).shares [] held vm) (hbase : base < w.nextTid)
    (hr : r ≤ w.nextTid) : Tidy ω 0 (w.born vm e base r) := by
  obtain ⟨hcur, hdir⟩ := h.cur h0
  have R := h.alive w.cur hcur
  have hpos : w.nextTid ≠ 0 := Nat.ne_of_gt (zero_lt_of_lt hbase)
  have hroot : (w.born vm e base r).dir 0 = w.dir 0 := h.dir_born he B hpos (.inl rfl)
  have hdirs : ∀ q ∈ w.shared, (w.born vm e base r).dir q = w.dir q :=
    fun q hq => h.dir_born he B hpos (.inr hq)
  have hfresh : ∀ q ∈ w.shared, q ≠ w.nextTid := fun q hq => (h.shared q hq).made.ne
  have hnew : (w.born vm e base r).space w.nextTid = { w.space w.cur with dir := e } :=
    update_self _ _ _
  refine ⟨hbooks, fun q hq => ?_, fun q hq => ?_, fun q hq => ?_, fun q hq _ => ?_,
    fun ht => List.mem_cons_of_mem _ (h.tmp ht), fun _ => ⟨List.mem_cons_of_mem _ hcur, ?_⟩, ?_,
    hroot ▸ h.bare⟩
  · rcases List.mem_cons.mp hq with rfl | hq
    · refine ⟨?_, lt_succ_self _, ?_, fun ha => absurd List.mem_cons_self ha,
        fun i hi hh => ?_⟩
      · simpa [World.born] using hbase
      · simpa [World.born] using hr
      · rw [hroot, World.born_dir]
        exact (B.built i hi).high hh
    · have hne := hfresh q hq
      exact (h.shared q hq).same (hdirs q hq) hroot (update_of_ne hne _ _)
        (update_of_ne hne _ _) (le_succ _) (List.mem_cons_of_mem _)
  · rcases List.mem_cons.mp hq with rfl | hq
    · exact List.mem_cons_self
    · exact List.mem_cons_of_mem _ (h.holders q hq)
  · rcases List.mem_cons.mp hq with rfl | hq
    · obtain ⟨hsome, hentry⟩ := (B.built 1023 (by decide)).stack rfl
      obtain ⟨t, ht⟩ := ne_none_iff_exists'.mp hsome
      refine ⟨List.mem_cons_self, hnew ▸ R.stack, hnew ▸ R.heap, t, ?_⟩
      rw [hnew]
      exact ⟨ht, hentry⟩
    · have hin := h.mem hq
      exact (h.alive q hq).same (World.born_space (hfresh q hin)) (hdirs q hin)
        (List.mem_cons_of_mem _ (h.alive q hq).holds)
  · rcases List.mem_cons.mp hq with rfl | hq
    · exact .inl List.mem_cons_self
    · rcases h.referred q hq (h.pos hq) with hin | htmp | ⟨x, hx, hbuilt⟩
      · exact .inl (List.mem_cons_of_mem _ hin)
      · exact .inr (.inl htmp)
      · refine .inr (.inr ⟨x, List.mem_cons_of_mem _ hx, ?_⟩)
        exact (update_of_ne (hfresh x hx) _ _).trans hbuilt
  · change vm.curDir = ((w.born vm e base r).space w.cur).dir
    rw [World.born_space (hfresh _ (h.mem hcur))]
    exact B.curDir.trans hdir
  · rw [World.born_space hpos.symm]
    exact h.root

/-- Two processes have the same table, with the same rights. -/
def World.Linked (w : World) (p q i : Nat) : Prop :=
  ∃ t, (w.dir p).tables i = some t ∧ (w.dir q).tables i = some t ∧
    (w.dir p).entries i = (w.dir q).entries i

theorem clone_tidy (h : Tidy ω 0 w) (h0 : w.cur ≠ 0) {flags : Nat}
    (hsig : ¬ flags &&& cloneCsignalMask ≥ 32) (hw : w.clone flags = some w') :
    Tidy ω 0 w' ∧ Shields (.clone flags) w w' ∧ w.cur ∈ w'.alive ∧ w.nextTid ∈ w'.alive ∧
      ∀ i t, Low i → (World.cloneArgs flags).Links i → (w.dir w.cur).tables i = some t →
        w'.Linked w.nextTid w.cur i := by
  rw [World.clone, if_neg hsig] at hw
  obtain ⟨⟨e, vm⟩, hexec, hw⟩ := bind_eq_some_iff.mp hw
  have hrun := World.eq_of_exec hexec
  obtain ⟨hcur, hdir⟩ := h.cur h0
  have hin : w.cur ∈ w.shares.list := h.mem hcur
  have K := h.shared w.cur hin
  obtain ⟨held, hb⟩ := h.books
  have hpos : w.nextTid ≠ 0 := Nat.ne_of_gt (zero_lt_of_lt K.made)
  have hfresh : ∀ q ∈ w.shared, q ≠ w.nextTid := fun q hq => (h.shared q hq).made.ne
  -- with `CLONE_VM` the directory is built on that of the maker
  obtain ⟨base, r, hbase, hr, hon, hfam, rfl⟩ : ∃ base r, base < w.nextTid ∧ r ≤ w.nextTid ∧
      (if base = 0 then w.nextTid else base) = (World.cloneArgs flags).base w.cur w.nextTid ∧
      (flags &&& cloneVm ≠ 0 → w.family w.cur = r) ∧ w' = w.born vm e base r := by
    unfold CloneArgs.base World.cloneArgs
    simp only at hw
    by_cases hvm : flags &&& cloneVm ≠ 0
    · rw [if_pos hvm] at hw ⊢
      exact ⟨w.cur, w.family w.cur, K.made, K.family.trans K.made.le, if_neg h0, fun _ => rfl,
        (Option.some.inj hw).symm⟩
    · rw [if_neg hvm] at hw ⊢
      exact ⟨0, w.nextTid, Nat.pos_of_ne_zero hpos, le_rfl, if_pos rfl, fun hc => absurd hc hvm,
        (Option.some.inj hw).symm⟩
  have hkernel : (w.space 0).dir ∉ w.vm.spare := fun hc => h.root ((hb.pool _).mpr (.inl hc))
  obtain ⟨⟨held', G⟩, he, B⟩ := cloneDir_growing hb hin hkernel h.bare hdir
    (h.alive w.cur hcur).stacked (fun hc => hfresh _ hc rfl) K.made hfam hrun
  rw [← hon, ← World.shares_born] at G
  have hdirs : ∀ q ∈ w.shared, (w.born vm e base r).dir q = w.dir q :=
    fun q hq => h.dir_born he B hpos (.inr hq)
  have T : Touched w held (w.born vm e base r).vm :=
    ⟨fun t ht _ => G.table t ht fun hc => hc, fun f hf _ => G.frame f hf⟩
  refine ⟨h.born h0 he B ⟨held', G.books⟩ hbase hr, ⟨fun q hq => (List.mem_cons.mp hq).symm,
    le_succ _, fun q hq => update_of_ne (hfresh q (h.mem hq)) _ _,
    fun q hq _ hr => ?_, fun q hq _ => .of_eq (hdirs q (h.mem hq))⟩, List.mem_cons_of_mem _ hcur,
    List.mem_cons_self, fun i t hi hlinks ht => ?_⟩
  · have hq := h.mem hq
    exact T.unseen hb hin hq hr (World.born_space (hfresh q hq)) (hdirs q hq)
  · obtain ⟨htab, hentry⟩ := (B.built i hi.1).linked hi.2 hlinks t ht
    rw [World.Linked, World.born_dir, hdirs w.cur hin]
    exact ⟨t, htab, ht, hentry⟩

end

end Sysint.Process
