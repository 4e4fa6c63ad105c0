import Sysint.Lib.Sharing
import Sysint.Paging.Clone

/-! Who has which block of the kernel heap and which frame. A page table or a directory that is in
use is in one place, the frames that are held are those of the entries of these tables, one each,
and what is not in use is free. -/
namespace Sysint.Paging

open Sharing Dyadic List
open Function
open Machine

/-! ## Frames -/

section
variable {b : Boot} {s : Buddy} {held : List Block}

section

variable (h : Reachable b always ⟨s, held⟩)
include h

theorem Reachable.nodup : held.Nodup := by
  obtain ⟨lists, hi, -⟩ := reachable_inv h
  have hpair := (pairwise_append.mp hi.family.apart).1
  refine hpair.imp ?_
  rintro c _ hap rfl
  exact hap.start_ne rfl

/-- A frame that is held lies in no free block. -/
theorem Reachable.not_free {f : Nat}
    (hf : (⟨f, 0⟩ : Block) ∈ held) {c : Block} (hc : c ∈ s.freeBlocks) : ¬ c.Mem f := by
  obtain ⟨lists, hi, -⟩ := reachable_inv h
  rw [hi.freeBlocks] at hc
  exact (pairwise_append.mp hi.family.apart).2.2 _ hf c hc f ⟨le_rfl, Nat.lt_succ_self f⟩

/-- A frame that is not null is new. -/
theorem Reachable.alloc {t : Buddy} {p : Nat}
    (halloc : allocFrames s 0 = some (t, p)) (hp : p ≠ 0) :
    ∃ f, p = f <<< pageShift ∧ 0 < f ∧ f < 2 ^ 20 ∧ (⟨f, 0⟩ : Block) ∉ held ∧
      Reachable b always ⟨t, ⟨f, 0⟩ :: held⟩ := by
  obtain ⟨lists, hi, -⟩ := reachable_inv h
  rcases allocFrames_spec hi halloc with ⟨hzero, -⟩ | ⟨f, lists', rfl, hlo, hhi, -⟩
  · exact absurd hzero hp
  have hstep : Frames.step ⟨s, held⟩ (.alloc 0) = some ⟨t, ⟨f, 0⟩ :: held⟩ := by
    simp [Frames.step, halloc, hp]
  have hnext := h.step trivial hstep
  refine ⟨f, rfl, ?_, ?_, (nodup_cons.mp (nodup hnext)).1, hnext⟩
  · have := start_pos b
    omega
  · have := b.memSize_lt
    rw [Boot.frames, Nat.shiftRight_eq_div_pow, pageShift] at hhi
    omega

end

/-- The entries of page tables that `N` relates to frames account for all blocks that are held,
except for `rest`. -/
structure Accounts (b : Boot) (rest : List Block) (N : Nat → Nat → Nat → Prop) (held : List Block)
    (s : Buddy) : Prop where
  frames : Reachable b always ⟨s, held⟩
  inj : ∀ t u i j f, N t i f → N u j f → t = u ∧ i = j
  held : ∀ c, c ∈ held ↔ c ∈ rest ∨ ∃ t j f, N t j f ∧ c = ⟨f, 0⟩
  apart : ∀ t j f, N t j f → (⟨f, 0⟩ : Block) ∉ rest

variable {rest : List Block} {N N' : Nat → Nat → Nat → Prop}

section

variable (h : Accounts b rest N held s)
include h

theorem Accounts.congr (hN : ∀ t j f, N' t j f ↔ N t j f) :
    Accounts b rest N' held s := by
  obtain rfl : N' = N := by
    funext t j f
    exact propext (hN t j f)
  exact h

theorem Accounts.mem {t j f : Nat} (hN : N t j f) :
    (⟨f, 0⟩ : Block) ∈ held := (h.held _).mpr (.inr ⟨t, j, f, hN, rfl⟩)

/-- A new frame can go to any entry. -/
theorem Accounts.alloc {s' : Buddy} {p : Nat}
    (halloc : allocFrames s 0 = some (s', p)) (hp : p ≠ 0) :
    ∃ f, p = f <<< pageShift ∧ 0 < f ∧ f < 2 ^ 20 ∧ (⟨f, 0⟩ : Block) ∉ held ∧ ∀ t j,
      Accounts b rest (fun u k g => N u k g ∨ u = t ∧ k = j ∧ g = f) (⟨f, 0⟩ :: held) s' := by
  obtain ⟨f, hf, hpos, hlt, hnew, hnext⟩ := h.frames.alloc halloc hp
  have hno : ∀ u k, ¬ N u k f := fun u k hN => hnew (h.mem hN)
  refine ⟨f, hf, hpos, hlt, hnew, fun t j => ⟨hnext, ?_, ?_, ?_⟩⟩
  · rintro u w i k g (hu | ⟨rfl, rfl, rfl⟩) (hw | ⟨rfl, rfl, hg⟩)
    · exact h.inj u w i k g hu hw
    · exact absurd (hg ▸ hu) (hno u i)
    · exact absurd hw (hno w k)
    · exact ⟨rfl, rfl⟩
  · intro c
    rw [mem_cons, h.held]
    constructor
    · rintro (rfl | hrest | ⟨u, k, g, hN, rfl⟩)
      · exact .inr ⟨t, j, f, .inr ⟨rfl, rfl, rfl⟩, rfl⟩
      · exact .inl hrest
      · exact .inr ⟨u, k, g, .inl hN, rfl⟩
    · rintro (hrest | ⟨u, k, g, hN | ⟨-, -, rfl⟩, rfl⟩)
      · exact .inr (.inl hrest)
      · exact .inr (.inr ⟨u, k, g, hN, rfl⟩)
      · exact .inl rfl
  · rintro u k g (hN | ⟨-, -, rfl⟩)
    · exact h.apart u k g hN
    · exact fun hrest => hnew ((h.held _).mpr (.inl hrest))

/-- The frame of an entry can be given back. -/
theorem Accounts.free {t j f : Nat} (hN : N t j f)
    (hfun : ∀ g, N t j g → g = f) : ∃ s' n, freeFrames s (f <<< pageShift) = some (s', n) ∧
      Accounts b rest (fun u k g => N u k g ∧ ¬ (u = t ∧ k = j)) (held.erase ⟨f, 0⟩) s' := by
  obtain ⟨s', n, hrun, hnext⟩ := h.frames.freeFrame (h.mem hN)
  refine ⟨s', n, hrun, hnext, ?_, ?_, fun u k g hg => h.apart u k g hg.1⟩
  · exact fun u w i k g hu hw => h.inj u w i k g hu.1 hw.1
  intro c
  rw [h.frames.nodup.mem_erase_iff, h.held]
  constructor
  · rintro ⟨hne, hrest | ⟨u, k, g, hg, rfl⟩⟩
    · exact .inl hrest
    · refine .inr ⟨u, k, g, ⟨hg, ?_⟩, rfl⟩
      rintro ⟨rfl, rfl⟩
      exact hne (by rw [hfun g hg])
  · rintro (hrest | ⟨u, k, g, ⟨hg, hne⟩, rfl⟩)
    · exact ⟨fun heq => h.apart t j f hN (heq ▸ hrest), .inl hrest⟩
    · refine ⟨fun heq => hne ?_, .inr ⟨u, k, g, hg, rfl⟩⟩
      obtain rfl : g = f := congrArg Block.idx heq
      exact h.inj u t k j g hg hN

end

/-- `free_frames` takes back a frame that is held. -/
def GivesBack (b : Boot) (s s' : Buddy) : Prop :=
  ∃ held f n, Reachable b always ⟨s, held⟩ ∧ (⟨f, 0⟩ : Block) ∈ held ∧
    freeFrames s (f <<< pageShift) = some (s', n)

/-- All that `free_frames` has taken back was held at that time. -/
def Frees (b : Boot) : Buddy → Buddy → Prop := Relation.ReflTransGen (GivesBack b)

theorem Accounts.givesBack (h : Accounts b rest N held s) {t j f n : Nat} {s' : Buddy}
    (hN : N t j f) (hrun : freeFrames s (f <<< pageShift) = some (s', n)) : GivesBack b s s' :=
  ⟨held, f, n, h.frames, h.mem hN, hrun⟩

end

/-- The frame of an entry that is present. -/
def Vm.holds (vm : Vm) (t j : Nat) : Option Nat :=
  if (vm.page ⟨t, j⟩).present then some (vm.page ⟨t, j⟩).addr else none

theorem Vm.holds_eq_some {vm : Vm} {t j f : Nat} :
    vm.holds t j = some f ↔ (vm.page ⟨t, j⟩).present = true ∧ (vm.page ⟨t, j⟩).addr = f := by
  unfold Vm.holds
  cases (vm.page ⟨t, j⟩).present with
  | false => simp
  | true => simp

theorem Vm.holds_setPage (vm : Vm) (p : Slot) (v : Page) (t j : Nat) :
    (vm.setPage p v).holds t j = if t = p.table ∧ j = p.idx then
      (if v.present then some v.addr else none) else vm.holds t j := by
  obtain ⟨u, k⟩ := p
  have hpage : (vm.setPage ⟨u, k⟩ v).page ⟨t, j⟩ = if t = u ∧ j = k then v else vm.page ⟨t, j⟩ := by
    simp [Vm.page_setPage]
  rw [Vm.holds, hpage]
  split_ifs <;> simp_all [Vm.holds]

theorem Vm.holds_setTable (vm : Vm) (t u j : Nat) :
    (vm.setTable t ⟨fun _ => ⟨0⟩⟩).holds u j = if u = t then none else vm.holds u j := by
  by_cases h : u = t
  · simp [Vm.holds, Vm.page, h, Page.present]
  · have hpage : (vm.setTable t ⟨fun _ => ⟨0⟩⟩).page ⟨u, j⟩ = vm.page ⟨u, j⟩ := by
      simp [Vm.page, h]
    rw [if_neg h, Vm.holds, hpage, Vm.holds]

/-! ## Blocks of the kernel heap -/

/-- The `shared_page_dir`s that exist, by the process that each was made for. One without a
`cloned_dir` is its own base. -/
structure Shares where
  list : List Nat
  dir : Nat → Nat
  base : Nat → Nat
  /-- Processes that share memory are of one family. -/
  family : Nat → Nat

/-- The indices of a directory that are not the kernel's. -/
def Low (i : Nat) : Prop := i < 1024 ∧ ¬ Highmem i

instance decidableLow (i : Nat) : Decidable (Low i) := inferInstanceAs (Decidable (_ ∧ _))

namespace Shares

/-- The blocks that a process has: its page tables, and at 1024 its directory. -/
def tab (σ : Shares) (vm : Vm) (p i : Nat) : Option Nat :=
  if p ∉ σ.list then none
  else if i = 1024 then some (σ.dir p)
  else if Low i then (vm.dir (σ.dir p)).tables i else none

def store (σ : Shares) (vm : Vm) : Store Nat Nat Nat where
  live p := p ∈ σ.list
  base := σ.base
  own i := 1023 ≤ i
  tab := σ.tab vm

/-- The tables whose frames are accounted for. Tables in `hand` are not yet in a directory. -/
def Backs (σ : Shares) (hand : List Nat) (vm : Vm) (t : Nat) : Prop :=
  t ∈ hand ∨ ∃ p ∈ σ.list, ∃ i, Low i ∧ (σ.store vm).Owns p i t

/-- The frames of their entries. -/
def Names (σ : Shares) (hand : List Nat) (vm : Vm) (t j f : Nat) : Prop :=
  σ.Backs hand vm t ∧ j < 1024 ∧ vm.holds t j = some f

variable {σ : Shares} {hand : List Nat} {vm vm' : Vm} {p i : Nat}

theorem tab_low (hp : p ∈ σ.list) (hi : Low i) : σ.tab vm p i = (vm.dir (σ.dir p)).tables i := by
  have hne : i ≠ 1024 := by
    have := hi.1
    omega
  rw [tab, if_neg (not_not.mpr hp), if_neg hne, if_pos hi]

theorem tab_dir (hp : p ∈ σ.list) : σ.tab vm p 1024 = some (σ.dir p) := by
  rw [tab, if_neg (not_not.mpr hp), if_pos rfl]

theorem store_congr (h : ∀ p ∈ σ.list, ∀ i, Low i →
    (vm'.dir (σ.dir p)).tables i = (vm.dir (σ.dir p)).tables i) : σ.store vm' = σ.store vm := by
  have htab : σ.tab vm' = σ.tab vm := by
    funext p i
    unfold tab
    by_cases hp : p ∈ σ.list
    · by_cases hi : Low i
      · rw [h p hp i hi]
      · simp [hi]
    · rw [if_pos hp, if_pos hp]
  rw [store, store, htab]

/-- One more, with the directory `e`. -/
def add (σ : Shares) (p e q r : Nat) : Shares :=
  ⟨p :: σ.list, update σ.dir p e, update σ.base p q,
    update σ.family p r⟩

def remove (σ : Shares) (p : Nat) : Shares := { σ with list := σ.list.filter (· ≠ p) }

end Shares

/-- The heap has given the block `e` for a directory, which is emptied. -/
def Vm.newDir (vm : Vm) (e : Nat) (sp : List Nat) : Vm :=
  { vm.setSpare sp with dir := update vm.dir e ⟨fun _ => 0, fun _ => none⟩ }

/-- What is there at the start of a run. -/
structure Outset where
  boot : Boot
  /-- The blocks that are held and that no page of a process accounts for. -/
  rest : List Block
  /-- What the kernel heap gives out for tables and directories. -/
  pool : List Nat

/-- Page tables, directories and frames are accounted for. -/
structure Books (ω : Outset) (σ : Shares) (hand : List Nat) (held : List Block) (vm : Vm) :
    Prop where
  ok : (σ.store vm).Ok
  family : ∀ p ∈ σ.list, σ.family (σ.base p) = σ.family p
  nodup : (hand ++ vm.spare).Nodup
  free : ∀ x ∈ hand ++ vm.spare, ¬ (σ.store vm).Used x
  pool : ∀ x, x ∈ ω.pool ↔ x ∈ hand ++ vm.spare ∨ (σ.store vm).Used x
  accounts : Accounts ω.boot ω.rest (σ.Names hand vm) held vm.buddy

namespace Books

variable {ω : Outset} {σ : Shares} {hand : List Nat} {held : List Block} {vm vm' : Vm}
  {p q i t j : Nat}

theorem owns_dir (hp : p ∈ σ.list) : (σ.store vm).Owns p 1024 (σ.dir p) :=
  ⟨Shares.tab_dir hp, .inl (by decide : 1023 ≤ 1024)⟩

section

variable (h : Books ω σ hand held vm)
include h

section

variable (hp : p ∈ σ.list)
include hp

theorem dir_inj (hq : q ∈ σ.list)
    (hdir : σ.dir p = σ.dir q) : p = q :=
  (h.ok.unique p q 1024 1024 _ hp hq (owns_dir hp) (hdir ▸ owns_dir hq)).1

/-- A table of a process outside of the kernel's part has an owner in its family. -/
theorem owner (hi : Low i)
    (ht : (vm.dir (σ.dir p)).tables i = some t) :
    ∃ q ∈ σ.list, σ.family q = σ.family p ∧ (σ.store vm).Owns q i t :=
  h.ok.owner (P := fun q => σ.family q = σ.family p)
    (fun d hd hfam => (h.family d hd).trans hfam) hp rfl ((Shares.tab_low hp hi).trans ht)

theorem backs (hi : Low i)
    (ht : (vm.dir (σ.dir p)).tables i = some t) : σ.Backs hand vm t := by
  obtain ⟨q, hq, -, howns⟩ := h.owner hp hi ht
  exact .inr ⟨q, hq, i, hi, howns⟩

/-- A table that is in use is not in hand, and is not free. -/
theorem not_mem
    (ht : σ.tab vm p i = some t) : t ∉ hand ++ vm.spare :=
  fun hin => h.free t hin (h.ok.used hp ht)

/-- A directory gets another entry. -/
theorem store_setEntry (hi : Low i) (e : BitVec 32)
    (o : Option Nat) : σ.store (vm.setEntry (σ.dir p) i e o) = (σ.store vm).set p i o := by
  have htab : (σ.store (vm.setEntry (σ.dir p) i e o)).tab = ((σ.store vm).set p i o).tab := by
    funext q j
    rw [Store.set_tab]
    change σ.tab _ q j = if q = p ∧ j = i then o else σ.tab vm q j
    by_cases hq : q ∈ σ.list
    · by_cases hj : Low j
      · rw [Shares.tab_low hq hj, Shares.tab_low hq hj]
        by_cases hpq : q = p
        · subst hpq
          by_cases hji : j = i
          · simp [hji]
          · simp [hji]
        · have hne : σ.dir q ≠ σ.dir p := fun heq => hpq (h.dir_inj hq hp heq)
          simp [hpq, hne]
      · have hji : j ≠ i := fun heq => hj (heq ▸ hi)
        simp [Shares.tab, hj, hji]
    · have hpq : q ≠ p := fun heq => hq (heq ▸ hp)
      simp [Shares.tab, hq, hpq]
  exact congrArg (fun tab => (⟨(· ∈ σ.list), σ.base, (1023 ≤ ·), tab⟩ : Store Nat Nat Nat)) htab

end

/-- The frames change: those of the entries that `N` tells are held. -/
theorem recount {held' : List Block} {N : Nat → Nat → Nat → Prop}
    (hdir : ∀ p ∈ σ.list, ∀ i, Low i →
      (vm'.dir (σ.dir p)).tables i = (vm.dir (σ.dir p)).tables i) (hspare : vm'.spare = vm.spare)
    (hacc : Accounts ω.boot ω.rest N held' vm'.buddy)
    (hN : ∀ t j f, N t j f ↔ σ.Backs hand vm t ∧ j < 1024 ∧ vm'.holds t j = some f) :
    Books ω σ hand held' vm' := by
  have hs := Shares.store_congr hdir
  refine ⟨hs ▸ h.ok, h.family, hspare ▸ h.nodup, ?_, ?_, hacc.congr fun t j f => ?_⟩
  · rw [hs, hspare]
    exact h.free
  · rw [hs, hspare]
    exact h.pool
  · rw [hN, Shares.Names, Shares.Backs, Shares.Backs, hs]

/-- Entries keep their frames, and directories their tables. -/
theorem congr (hdir : ∀ p ∈ σ.list, ∀ i, Low i →
      (vm'.dir (σ.dir p)).tables i = (vm.dir (σ.dir p)).tables i) (hspare : vm'.spare = vm.spare)
    (hb : vm'.buddy = vm.buddy) (hp : ∀ t j, vm'.holds t j = vm.holds t j) :
    Books ω σ hand held vm' :=
  h.recount hdir hspare (hb ▸ h.accounts) fun t j f => by rw [Shares.Names, hp]

theorem shuffle {ts : List Nat} (hts : ts.Perm vm.spare) :
    Books ω σ hand held (vm.setSpare ts) := by
  have hperm := hts.append_left hand
  refine ⟨h.ok, h.family, hperm.nodup_iff.mpr h.nodup, fun x hx => ?_, fun x => ?_, h.accounts⟩
  · exact h.free x (hperm.mem_iff.mp hx)
  · exact (h.pool x).trans (or_congr_left hperm.mem_iff.symm)

/-- An entry gets the frame that the allocator gives. -/
theorem fill (ht : σ.Backs hand vm t) (hj : j < 1024)
    (habs : vm.holds t j = none) {s : Buddy} {q : Nat}
    (halloc : allocFrames vm.buddy 0 = some (s, q)) (hq : q ≠ 0) :
    ∃ f, q = f <<< pageShift ∧ 0 < f ∧ f < 2 ^ 20 ∧ (⟨f, 0⟩ : Block) ∉ held ∧
      ∀ v : Page, v.present = true → v.addr = f →
        Books ω σ hand (⟨f, 0⟩ :: held) ((vm.setBuddy s).setPage ⟨t, j⟩ v) := by
  obtain ⟨f, rfl, hpos, hlt, hnew, hacc⟩ := h.accounts.alloc halloc hq
  refine ⟨f, rfl, hpos, hlt, hnew, fun v hv haddr => h.recount (fun _ _ _ _ => rfl) rfl
    (hacc t j) ?_⟩
  intro u k g
  rw [Vm.holds_setPage, hv, haddr, Shares.Names]
  by_cases hat : u = t ∧ k = j
  · obtain ⟨rfl, rfl⟩ := hat
    simp [ht, hj, habs, eq_comm]
  · have hne : ¬ (u = t ∧ k = j ∧ g = f) := fun hc => hat ⟨hc.1, hc.2.1⟩
    rw [if_neg hat, or_iff_left hne]
    rfl

/-- The frame of an entry is given back, and the entry is cleared. -/
theorem clear (ht : σ.Backs hand vm t) (hj : j < 1024) {f : Nat}
    (hf : vm.holds t j = some f) : ∃ s n, freeFrames vm.buddy (f <<< pageShift) = some (s, n) ∧
      Books ω σ hand (held.erase ⟨f, 0⟩) ((vm.setBuddy s).setPage ⟨t, j⟩ ⟨0⟩) := by
  obtain ⟨s, n, hrun, hacc⟩ := h.accounts.free (t := t) (j := j) ⟨ht, hj, hf⟩
    fun g hg => Option.some.inj (hg.2.2.symm.trans hf)
  refine ⟨s, n, hrun, h.recount (fun _ _ _ _ => rfl) rfl hacc ?_⟩
  intro u k g
  rw [Vm.holds_setPage, Shares.Names]
  by_cases hat : u = t ∧ k = j
  · obtain ⟨rfl, rfl⟩ := hat
    have hzero : (if (⟨0⟩ : Page).present then some (⟨0⟩ : Page).addr else none) = none := by decide
    rw [if_pos ⟨rfl, rfl⟩, hzero]
    simp
  · rw [if_neg hat, and_iff_left hat]
    rfl

/-- The kernel heap gives a table. -/
theorem take {sp : List Nat} (hspare : vm.spare = t :: sp) :
    Books ω σ (t :: hand) held ((vm.setSpare sp).setTable t ⟨fun _ => ⟨0⟩⟩) := by
  have hperm : (t :: hand ++ sp).Perm (hand ++ vm.spare) := hspare ▸ perm_middle.symm
  have hmem : ∀ x, x ∈ t :: hand ++ sp ↔ x ∈ hand ++ vm.spare := fun x => hperm.mem_iff
  have hs : σ.store ((vm.setSpare sp).setTable t ⟨fun _ => ⟨0⟩⟩) = σ.store vm := rfl
  have hfree : ¬ (σ.store vm).Used t := h.free t ((hmem t).mp mem_cons_self)
  have hnot : ¬ σ.Backs hand vm t := by
    rintro (hin | ⟨p, hp, i, -, howns⟩)
    · have hnodup := hspare ▸ h.nodup
      exact (nodup_append.mp hnodup).2.2 t hin t mem_cons_self rfl
    · exact hfree ⟨p, i, hp, howns⟩
  refine ⟨h.ok, h.family, hperm.nodup_iff.mpr h.nodup, ?_, ?_, h.accounts.congr fun u k f => ?_⟩
  · exact fun x hx => h.free x ((hmem x).mp hx)
  · exact fun x => (h.pool x).trans (or_congr_left (hmem x).symm)
  · rw [Shares.Names, Shares.Names, Vm.holds_setTable, Shares.Backs, hs, mem_cons, or_assoc]
    by_cases hu : u = t
    · subst hu
      simp [hnot]
    · rw [if_neg hu, or_iff_right hu]
      rfl

end

/-- A table in hand is put into a directory. -/
theorem put (h : Books ω σ (t :: hand) held vm) (hp : p ∈ σ.list) (hi : Low i)
    (hnone : (vm.dir (σ.dir p)).tables i = none) (e : BitVec 32) :
    Books ω σ hand held (vm.setEntry (σ.dir p) i e (some t)) := by
  have hs := h.store_setEntry hp hi e (some t)
  obtain ⟨hok, howns⟩ := h.ok.add hp ((Shares.tab_low hp hi).trans hnone)
    (h.free t mem_cons_self)
  have hused : ∀ x, ((σ.store vm).set p i (some t)).Used x ↔ (σ.store vm).Used x ∨ x = t := by
    intro x
    constructor
    · rintro ⟨q, j, hq, hx⟩
      rcases (howns q j x hq).mp hx with hx | ⟨-, -, rfl⟩
      · exact .inl ⟨q, j, hq, hx⟩
      · exact .inr rfl
    · rintro (⟨q, j, hq, hx⟩ | rfl)
      · exact ⟨q, j, hq, (howns q j x hq).mpr (.inl hx)⟩
      · exact ⟨p, i, hp, (howns p i x hp).mpr (.inr ⟨rfl, rfl, rfl⟩)⟩
  obtain ⟨hnot, hnodup⟩ := nodup_cons.mp h.nodup
  refine ⟨hs ▸ hok, h.family, hnodup, ?_, ?_, h.accounts.congr fun u k f => ?_⟩
  · intro x hx
    rw [hs, hused]
    rintro (hused' | rfl)
    · exact h.free x (mem_cons_of_mem t hx) hused'
    · exact hnot hx
  · intro x
    rw [h.pool, hs, hused, cons_append, mem_cons]
    tauto
  · refine and_congr ?_ Iff.rfl
    unfold Shares.Backs
    rw [hs, mem_cons, or_assoc, or_left_comm, or_congr_right]
    constructor
    · rintro ⟨q, hq, j, hj, hx⟩
      rcases (howns q j u hq).mp hx with hx | ⟨-, -, rfl⟩
      · exact .inr ⟨q, hq, j, hj, hx⟩
      · exact .inl rfl
    · rintro (rfl | ⟨q, hq, j, hj, hx⟩)
      · exact ⟨p, hp, i, hi, (howns p i u hp).mpr (.inr ⟨rfl, rfl, rfl⟩)⟩
      · exact ⟨q, hq, j, hj, (howns q j u hq).mpr (.inl hx)⟩

/-- A directory takes over what its base has. -/
theorem link (h : Books ω σ hand held vm) (hp : p ∈ σ.list) (hleaf : (σ.store vm).Leaf p)
    (hi : Low i) (hk : i ≠ 1023) (hbase : σ.base p ≠ p)
    (hnone : (vm.dir (σ.dir p)).tables i = none) (e : BitVec 32) {o : Option Nat}
    (ho : σ.tab vm (σ.base p) i = o) : Books ω σ hand held (vm.setEntry (σ.dir p) i e o) := by
  subst ho
  have hown : ¬ (σ.store vm).own i := by
    have := hi.1
    change ¬ 1023 ≤ i
    omega
  obtain ⟨hok, howns⟩ := h.ok.link hleaf hown hbase ((Shares.tab_low hp hi).trans hnone)
  have hs := h.store_setEntry hp hi e (σ.tab vm (σ.base p) i)
  have hused : ∀ x, ((σ.store vm).set p i (σ.tab vm (σ.base p) i)).Used x ↔ (σ.store vm).Used x :=
    fun x => Store.used_congr rfl howns
  refine ⟨hs ▸ hok, h.family, h.nodup, ?_, ?_, h.accounts.congr fun u k f => ?_⟩
  · intro x hx
    rw [hs]
    exact fun hc => h.free x hx ((hused x).mp hc)
  · intro x
    rw [h.pool, hs]
    exact or_congr_right (hused x).symm
  · refine and_congr (or_congr_right ?_) Iff.rfl
    rw [hs]
    refine exists_congr fun q => and_congr_right fun hq => exists_congr fun j =>
      and_congr_right fun _ => howns q j u hq

/-- A table goes back to the heap; its frames are already given back. -/
theorem drop (h : Books ω σ [] held vm) (hp : p ∈ σ.list) (hi : Low i)
    (hown : (σ.store vm).Owns p i t)
    (halone : ∀ q ∈ σ.list, σ.base q = p → q ≠ p → (vm.dir (σ.dir q)).tables i ≠ some t)
    {held' : List Block} {s : Buddy}
    (hacc : Accounts ω.boot ω.rest (fun u k g => σ.Names [] vm u k g ∧ u ≠ t) held' s)
    (e : BitVec 32) : Books ω σ [] held'
      (((vm.setBuddy s).setSpare (t :: vm.spare)).setEntry (σ.dir p) i e none) := by
  obtain ⟨hok, howns⟩ := h.ok.remove hp hown fun q hq hb hne ht =>
    halone q hq hb hne ((Shares.tab_low hq hi).symm.trans ht)
  have hs : σ.store (((vm.setBuddy s).setSpare (t :: vm.spare)).setEntry (σ.dir p) i e none) =
      (σ.store vm).set p i none := h.store_setEntry hp hi e none
  have hused : ∀ x, ((σ.store vm).set p i none).Used x ↔ (σ.store vm).Used x ∧ x ≠ t := by
    intro x
    constructor
    · rintro ⟨q, j, hq, hx⟩
      obtain ⟨hx, hne⟩ := (howns q j x hq).mp hx
      exact ⟨⟨q, j, hq, hx⟩, hne⟩
    · rintro ⟨⟨q, j, hq, hx⟩, hne⟩
      exact ⟨q, j, hq, (howns q j x hq).mpr ⟨hx, hne⟩⟩
  have htused : (σ.store vm).Used t := ⟨p, i, hp, hown⟩
  refine ⟨hs ▸ hok, h.family, nodup_cons.mpr ⟨fun hin => h.free t hin htused, h.nodup⟩, ?_, ?_,
    hacc.congr fun u k f => ?_⟩
  · intro x hx
    rw [hs, hused]
    rintro ⟨hc, hne⟩
    exact h.free x ((mem_cons.mp hx).resolve_left hne) hc
  · intro x
    rw [h.pool, hs, hused]
    by_cases hx : x = t
    · subst hx
      simp [htused]
    · simp [hx]
  · rw [Shares.Names, Shares.Names, and_right_comm]
    refine and_congr ?_ Iff.rfl
    unfold Shares.Backs
    rw [hs]
    constructor
    · rintro (hu | ⟨q, hq, j, hj, hx⟩)
      · cases hu
      · obtain ⟨hx, hne⟩ := (howns q j u hq).mp hx
        exact ⟨.inr ⟨q, hq, j, hj, hx⟩, hne⟩
    · rintro ⟨hu | ⟨q, hq, j, hj, hx⟩, hne⟩
      · cases hu
      · exact .inr ⟨q, hq, j, hj, (howns q j u hq).mpr ⟨hx, hne⟩⟩

/-! ### Directories -/

theorem owns_cases (hx : (σ.store vm).Owns p i t) : i = 1024 ∧ t = σ.dir p ∨ Low i := by
  have htab : σ.tab vm p i = some t := hx.1
  unfold Shares.tab at htab
  split_ifs at htab with _ h1024 hlow
  · exact .inl ⟨h1024, (Option.some.inj htab).symm⟩
  · exact .inr hlow

/-- An empty directory is made for `p`, built on `q`. -/
theorem insert (h : Books ω σ hand held vm) {e r : Nat} {sp : List Nat}
    (hspare : vm.spare = e :: sp)
    (hp : p ∉ σ.list) (hq : q = p ∨ q ∈ σ.list ∧ q < p ∧ σ.family q = r) :
    Books ω (σ.add p e q r) hand held (vm.newDir e sp) := by
  have hperm : (e :: hand ++ sp).Perm (hand ++ vm.spare) := hspare ▸ perm_middle.symm
  have hmem : ∀ x, x ∈ hand ++ vm.spare ↔ x = e ∨ x ∈ hand ++ sp := fun x => by
    rw [← hperm.mem_iff, cons_append, mem_cons]
  have hne : ∀ x ∈ σ.list, x ≠ p := by
    rintro x hx rfl
    exact hp hx
  have hfree : ¬ (σ.store vm).Used e := h.free e ((hmem e).mpr (.inl rfl))
  have X : (σ.store vm).Extends p ((σ.add p e q r).store (vm.newDir e sp)) := by
    refine ⟨fun x => mem_cons, hp, rfl, fun x hx => ⟨?_, h.ok.base_live x hx⟩, fun x hx => ?_⟩
    · exact update_of_ne (hne x hx) _ _
    · have hdir : σ.dir x ≠ e := fun heq => hfree (heq ▸ h.ok.used hx (Shares.tab_dir hx))
      have hx' : x ∈ σ.list := hx
      funext i
      simp [Shares.store, Shares.tab, Shares.add, Vm.newDir, hx', hne x hx, hdir]
  have hself : ∀ i t, ((σ.add p e q r).store (vm.newDir e sp)).Owns p i t ↔ i = 1024 ∧ t = e := by
    intro i t
    have htab : ((σ.add p e q r).store (vm.newDir e sp)).tab p i =
        if i = 1024 then some e else none := by
      simp [Shares.store, Shares.tab, Shares.add, Vm.newDir]
    rw [Store.Owns, htab]
    by_cases hi : i = 1024
    · simp [hi, eq_comm, Shares.store]
    · simp [hi]
  have hused : ∀ x, ((σ.add p e q r).store (vm.newDir e sp)).Used x ↔ (σ.store vm).Used x ∨ x = e :=
    fun x => X.used.trans (or_congr_right (by simp [hself]))
  have hbase : (σ.add p e q r).base p = q := update_self _ _ _
  obtain ⟨hnot, hnodup⟩ := nodup_cons.mp (hperm.nodup_iff.mpr h.nodup)
  refine ⟨X.ok h.ok ?_ ?_ ?_, ?_, hnodup, ?_, ?_, h.accounts.congr fun u k f => ?_⟩
  · change (σ.add p e q r).base p ∈ p :: σ.list
    rw [hbase, mem_cons]
    exact hq.imp id fun h => h.1
  · change (σ.add p e q r).base p ≠ p → (σ.add p e q r).base p < p
    rw [hbase]
    exact fun hqp => (hq.resolve_left hqp).2.1
  · intro i j t hi
    obtain ⟨rfl, rfl⟩ := (hself i t).mp hi
    exact ⟨hfree, fun hj => ((hself j _).mp hj).1.symm⟩
  · intro x hx
    have hfam : ∀ y, y ≠ p → (σ.add p e q r).family y = σ.family y := fun y hy =>
      update_of_ne hy _ _
    have hfamp : (σ.add p e q r).family p = r := update_self _ _ _
    rcases mem_cons.mp hx with rfl | hx
    · rw [hbase, hfamp]
      rcases hq with rfl | ⟨hq, -, hr⟩
      · exact hfamp
      · rw [hfam q (hne q hq), hr]
    · have hb : (σ.add p e q r).base x = σ.base x := update_of_ne (hne x hx) _ _
      rw [hb, hfam _ (hne x hx), hfam (σ.base x) (hne _ (h.ok.base_live x hx))]
      exact h.family x hx
  · intro x hx
    rw [hused]
    rintro (hc | rfl)
    · exact h.free x ((hmem x).mpr (.inr hx)) hc
    · exact hnot hx
  · intro x
    rw [h.pool, hused, hmem]
    change (x = e ∨ x ∈ hand ++ sp) ∨ _ ↔ x ∈ hand ++ sp ∨ _
    tauto
  · refine and_congr (or_congr_right ?_) Iff.rfl
    constructor
    · rintro ⟨x, hx, i, hi, howns⟩
      rcases mem_cons.mp hx with rfl | hx
      · have := hi.1
        have := ((hself i u).mp howns).1
        omega
      · exact ⟨x, hx, i, hi, (X.owns hx).mp howns⟩
    · rintro ⟨x, hx, i, hi, howns⟩
      exact ⟨x, mem_cons_of_mem p hx, i, hi, (X.owns hx).mpr howns⟩

/-- A directory that owns no table any more goes back to the heap. -/
theorem erase (h : Books ω σ [] held vm) (hp : p ∈ σ.list) (hleaf : (σ.store vm).Leaf p)
    (hbare : ∀ i t, Low i → ¬ (σ.store vm).Owns p i t) :
    Books ω (σ.remove p) [] held (vm.setSpare (σ.dir p :: vm.spare)) := by
  have hin : ∀ x, x ∈ (σ.remove p).list ↔ x ∈ σ.list ∧ x ≠ p := by
    simp [Shares.remove]
  have X : ((σ.remove p).store (vm.setSpare (σ.dir p :: vm.spare))).Extends p (σ.store vm) := by
    refine ⟨fun x => ?_, fun hc => ((hin p).mp hc).2 rfl, rfl, fun x hx => ⟨rfl, ?_⟩,
      fun x hx => ?_⟩
    · change x ∈ σ.list ↔ x = p ∨ x ∈ (σ.remove p).list
      rw [hin]
      by_cases hx : x = p
      · simp [hx, hp]
      · simp [hx]
    · obtain ⟨hx, hne⟩ := (hin x).mp hx
      exact (hin _).mpr ⟨h.ok.base_live x hx, fun hb => hne (hleaf x hx hb)⟩
    · have hx' : x ∈ (σ.remove p).list := hx
      obtain ⟨hx, hne⟩ := (hin x).mp hx
      funext i
      change σ.tab vm x i = (σ.remove p).tab _ x i
      unfold Shares.tab
      rw [if_neg (not_not.mpr hx), if_neg (not_not.mpr hx')]
      rfl
  have hself : ∀ i t, (σ.store vm).Owns p i t ↔ i = 1024 ∧ t = σ.dir p := by
    intro i t
    constructor
    · exact fun howns => (owns_cases howns).resolve_right fun hi => hbare i t hi howns
    · rintro ⟨rfl, rfl⟩
      exact owns_dir hp
  have hused : ∀ x, (σ.store vm).Used x ↔
      ((σ.remove p).store (vm.setSpare (σ.dir p :: vm.spare))).Used x ∨ x = σ.dir p :=
    fun x => X.used.trans (or_congr_right (by simp [hself]))
  have hdir : σ.dir p ∉ vm.spare := fun hc => h.free _ hc ((hused _).mpr (.inr rfl))
  refine ⟨X.ok_of h.ok, fun x hx => h.family x ((hin x).mp hx).1,
    nodup_cons.mpr ⟨hdir, h.nodup⟩, ?_, ?_, h.accounts.congr fun u k f => ?_⟩
  · intro x hx hc
    rcases mem_cons.mp hx with rfl | hx
    · obtain ⟨y, i, hy, howns⟩ := hc
      obtain ⟨hy', hne⟩ := (hin y).mp hy
      exact hne (h.ok.unique y p i 1024 _ hy' hp ((X.owns hy).mpr howns) (owns_dir hp)).1
    · exact h.free x hx ((hused x).mpr (.inl hc))
  · intro x
    rw [h.pool, hused]
    change _ ↔ x ∈ σ.dir p :: vm.spare ∨ _
    rw [mem_cons, nil_append]
    tauto
  · refine and_congr (or_congr_right ?_) Iff.rfl
    constructor
    · rintro ⟨x, hx, i, hi, howns⟩
      exact ⟨x, ((hin x).mp hx).1, i, hi, (X.owns hx).mpr howns⟩
    rintro ⟨x, hx, i, hi, howns⟩
    have hne : x ≠ p := by
      rintro rfl
      exact hbare i u hi howns
    have hx' := (hin x).mpr ⟨hx, hne⟩
    exact ⟨x, hx', i, hi, (X.owns hx').mp howns⟩

end Books

end Sysint.Paging
