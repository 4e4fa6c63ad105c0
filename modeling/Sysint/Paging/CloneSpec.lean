import Sysint.Paging.Clone

/-! What `page_dir::clone` leaves: the source as it was, and a directory whose tables are the
source's own, copies of them, or the kernel's. -/
namespace Sysint.Paging

open Hoare Memory Dyadic List
open Function

variable {J : Buddy → List Nat → Prop} {U : Nat → Prop} {room t : Nat} {vm vm₀ vm₁ vm₂ : Vm}
  {ts us fs gs : List Nat}

/-! ## What has changed -/

/-- Since `vm₀` the tables and directories `ts` came from the kernel heap and the frames `fs`
from the allocator. Nothing else has been written. -/
structure Since (vm₀ : Vm) (ts fs : List Nat) (vm : Vm) : Prop where
  spare : vm₀.spare = ts ++ vm.spare
  table : ∀ t, t ∉ ts → vm.table t = vm₀.table t
  dir : ∀ d, d ∉ ts → vm.dir d = vm₀.dir d
  frame : ∀ f, f ∉ fs → vm.frame f = vm₀.frame f
  curDir : vm.curDir = vm₀.curDir

namespace Since

theorem trans (h₁ : Since vm₀ ts fs vm₁) (h₂ : Since vm₁ us gs vm₂) :
    Since vm₀ (ts ++ us) (gs ++ fs) vm₂ where
  spare := by rw [h₁.spare, h₂.spare, append_assoc]
  table := by
    intro t ht
    rw [mem_append, not_or] at ht
    rw [h₂.table t ht.2, h₁.table t ht.1]
  dir := by
    intro d hd
    rw [mem_append, not_or] at hd
    rw [h₂.dir d hd.2, h₁.dir d hd.1]
  frame := by
    intro f hf
    rw [mem_append, not_or] at hf
    rw [h₂.frame f hf.1, h₁.frame f hf.2]
  curDir := h₂.curDir.trans h₁.curDir

section

variable (h : Since vm₀ ts fs vm)
include h

theorem setTable (ht : t ∈ ts) (x : PageTable) :
    Since vm₀ ts fs (vm.setTable t x) := by
  refine ⟨h.spare, ?_, h.dir, h.frame, h.curDir⟩
  intro u hu
  have hne : u ≠ t := by
    rintro rfl
    exact hu ht
  simp [update_of_ne hne, h.table u hu]

theorem setPage {p : Slot} (hp : p.table ∈ ts) (v : Page) :
    Since vm₀ ts fs (vm.setPage p v) := h.setTable hp _

theorem setEntry {e : Nat} (he : e ∈ ts) (i : Nat) (x : BitVec 32)
    (t : Option Nat) : Since vm₀ ts fs (vm.setEntry e i x t) := by
  refine ⟨h.spare, h.table, ?_, h.frame, h.curDir⟩
  intro d hd
  have hne : d ≠ e := by
    rintro rfl
    exact hd he
  simp [update_of_ne hne, h.dir d hd]

theorem setBuddy (b : Buddy) : Since vm₀ ts fs (vm.setBuddy b) :=
  ⟨h.spare, h.table, h.dir, h.frame, h.curDir⟩

theorem copyFrame (f g n : Nat) :
    Since vm₀ ts (g :: fs) (vm.copyFrame f g n) := by
  refine ⟨h.spare, h.table, h.dir, ?_, h.curDir⟩
  intro x hx
  rw [mem_cons, not_or] at hx
  rw [Vm.copyFrame_frame, update_of_ne hx.1, h.frame x hx.2]

theorem not_mem {x : Nat} (hx : x ∉ vm₀.spare) : x ∉ ts := by
  intro hmem
  exact hx (h.spare ▸ mem_append_left _ hmem)

theorem page (ht : t ∉ ts) (i : Nat) :
    vm.page ⟨t, i⟩ = vm₀.page ⟨t, i⟩ := by
  rw [Vm.page, h.table t ht, Vm.page]

/-- The end of the address space is mapped as before. -/
theorem ends (ht : vm₀.Ends t) (hcur : vm₀.curDir ∉ ts) : vm.Ends t := by
  have hdir : vm.dir vm.curDir = vm₀.dir vm₀.curDir := by rw [h.curDir, h.dir _ hcur]
  constructor
  · rw [hdir, ht.table]
  · rw [hdir]
    exact ht.present
  · rw [hdir]
    exact ht.small

end

end Since

/-! ## Tables -/

/-- An allocator with `room` frames to give, none of them twice and none of `U`. -/
structure Allocator (J : Buddy → List Nat → Prop) (room : Nat) (U : Nat → Prop) : Prop where
  supplies : Supplies J room
  nodup : ∀ s fs, J s fs → fs.Nodup
  fresh : ∀ s fs, J s fs → ∀ f ∈ fs, ¬ U f

/-- The pages of a table that are present, among the first `n`. -/
def Vm.presentPages (vm : Vm) (t n : Nat) : List Nat :=
  (List.range n).filter fun j => (vm.page ⟨t, j⟩).present

theorem Page.setAddr_flags (p : Page) (f : Nat) :
    (p.setAddr f).value &&& 0xFFF = p.value &&& 0xFFF := Page.make_and_flag (by decide) f

/-- The new entry has the flags of the old one, and its frame `f` holds the same bytes. -/
structure CopyOf (vm₀ : Vm) (old : Page) (f : Nat) (new : Page) (vm : Vm) : Prop where
  flags : new.value &&& 0xFFF = old.value &&& 0xFFF
  addr : new.addr = f
  bytes : ∀ o, o < pageSize → vm.frame f o = vm₀.frame old.addr o

/-- The first `n` pages of the table `u` are copies of those of `t`. `fs` has the pages that are
present, with the frames of their copies. -/
structure Copies (vm₀ : Vm) (t u n : Nat) (fs : List (Nat × Nat)) (vm : Vm) : Prop where
  length : fs.length = (vm₀.presentPages t n).length
  copy : ∀ j, j < n → (vm₀.page ⟨t, j⟩).present = true → ∃ f, (j, f) ∈ fs ∧
    CopyOf vm₀ (vm₀.page ⟨t, j⟩) f (vm.page ⟨u, j⟩) vm
  absent : ∀ j, n ≤ j ∨ (vm₀.page ⟨t, j⟩).present = false → vm.page ⟨u, j⟩ = ⟨0⟩

theorem Vm.presentPages_succ (vm : Vm) (t n : Nat) : (vm.presentPages t (n + 1)).length =
    (vm.presentPages t n).length + if (vm.page ⟨t, n⟩).present then 1 else 0 := by
  rw [Vm.presentPages, range_succ, filter_append, length_append]
  congr 1
  cases h : (vm.page ⟨t, n⟩).present <;> simp [h]

theorem Vm.presentPages_mono (vm : Vm) (t : Nat) {m n : Nat} (h : m ≤ n) :
    (vm.presentPages t m).length ≤ (vm.presentPages t n).length :=
  ((range_sublist.mpr h).filter _).length_le

section
variable {t u n : Nat} {ps : List (Nat × Nat)}

theorem Copies.skip (h : Copies vm₀ t u n ps vm) (habs : (vm₀.page ⟨t, n⟩).present = false) :
    Copies vm₀ t u (n + 1) ps vm where
  length := by rw [vm₀.presentPages_succ, habs, h.length]; rfl
  copy := by
    intro j hj hpres
    have hne : j ≠ n := by
      rintro rfl
      rw [habs] at hpres
      cases hpres
    exact h.copy j (by omega) hpres
  absent := by
    intro j hj
    exact h.absent j (hj.imp_left Nat.le_of_succ_le)

/-- One more page, whose copy is `g`. -/
theorem Copies.copyPage (h : Copies vm₀ t u n ps vm) (hpres : (vm₀.page ⟨t, n⟩).present = true)
    {f g : Nat} (hf : f = (vm₀.page ⟨t, n⟩).addr) (hold : vm.frame f = vm₀.frame f)
    (hg : g < 2 ^ 20) (hnew : g ∉ ps.map Prod.snd) (b : Buddy) :
    Copies vm₀ t u (n + 1) ((n, g) :: ps)
      (((vm.setBuddy b).setPage ⟨u, n⟩ ((vm₀.page ⟨t, n⟩).setAddr g)).copyFrame f g pageSize) := by
  constructor
  · rw [vm₀.presentPages_succ, hpres, length_cons, h.length]
    rfl
  · intro j hj hj'
    by_cases hjn : j = n
    · subst hjn
      refine ⟨g, by simp, ?_⟩
      rw [Vm.page_copyFrame, Vm.page_setPage, if_pos rfl]
      refine ⟨Page.setAddr_flags _ g, Page.make_addr _ hg, ?_⟩
      intro o ho
      simp only [Vm.copyFrame_frame, update_self, ho, ↓reduceIte]
      change vm.frame f o = _
      rw [hold, hf]
    · obtain ⟨x, hx, hcopy⟩ := h.copy j (by omega) hj'
      refine ⟨x, mem_cons_of_mem _ hx, ?_⟩
      rw [Vm.page_copyFrame, Vm.page_setPage, if_neg (by simp [hjn])]
      refine ⟨hcopy.flags, hcopy.addr, ?_⟩
      intro o ho
      have hne : x ≠ g := by
        rintro rfl
        exact hnew (mem_map_of_mem hx)
      rw [Vm.copyFrame_frame, update_of_ne hne]
      exact hcopy.bytes o ho
  · intro j hj
    have hjn : j ≠ n := by
      rintro rfl
      simp [hpres] at hj
    rw [Vm.page_copyFrame, Vm.page_setPage, if_neg (by simp [hjn])]
    exact h.absent j (hj.imp_left Nat.le_of_succ_le)

/-- A page that is present takes one frame. -/
theorem clonePages_present {te : Nat} (h : vm.Ends te) {i : Nat}
    (hpres : (vm.page ⟨t, i⟩).present = true) {b : Buddy} {g : Nat}
    (halloc : allocFrames vm.buddy 0 = some (b, g <<< pageShift)) (hpos : 0 < g) (hg : g < 2 ^ 20)
    (hne : (vm.page ⟨t, i⟩).addr ≠ g) (n : Nat) :
    clonePages t u (n + 1) i vm = clonePages t u n (i + 1)
      (((vm.setBuddy b).setPage ⟨u, i⟩ ((vm.page ⟨t, i⟩).setAddr g)).copyFrame
        (vm.page ⟨t, i⟩).addr g pageSize) := by
  obtain ⟨pg, hpg⟩ : ∃ pg, pg = vm.page ⟨t, i⟩ := ⟨_, rfl⟩
  rw [← hpg] at hpres hne ⊢
  have halloc' : allocFrame (vm.setPage ⟨u, i⟩ pg) =
      .ok (g <<< pageShift) ((vm.setPage ⟨u, i⟩ pg).setBuddy b) := allocFrame_run halloc
  have hzero : ¬ g <<< pageShift = 0 := by
    rw [Nat.shiftLeft_eq]
    exact Nat.ne_of_gt (Nat.mul_pos hpos (by decide))
  have hends : ((vm.setBuddy b).setPage ⟨u, i⟩ (pg.setAddr g)).Ends te :=
    ⟨h.table, h.present, h.small⟩
  have hcopy := hends.memcpydPhysAligned_run pg.addr_lt hg hne
  rw [clonePages, get_bind]
  simp only [← hpg, hpres, ↓reduceIte]
  have hentry : ((vm.setPage ⟨u, i⟩ pg).setBuddy b).page ⟨u, i⟩ = pg := by
    change (vm.setPage ⟨u, i⟩ pg).page ⟨u, i⟩ = pg
    rw [Vm.page_setPage, if_pos rfl]
  rw [modify_bind, bind_of_ok halloc', if_neg hzero, modify_bind, hentry,
    Nat.shiftLeft_shiftRight, pg.addr_shift, Vm.setPage_setBuddy_setPage, bind_of_ok hcopy]

theorem clonePages_absent {i : Nat} (habs : (vm.page ⟨t, i⟩).present = false) (n : Nat) :
    clonePages t u (n + 1) i vm = clonePages t u n (i + 1) vm := by
  rw [clonePages, get_bind]
  simp [habs]

/-- The state in which a table can be cloned: the table and the current directory do not come
from the heap, and the frames of the table are in use. -/
structure Source (U : Nat → Prop) (vm : Vm) (t : Nat) : Prop where
  ends : ∃ te, vm.Ends te
  cur : vm.curDir ∉ vm.spare
  table : t ∉ vm.spare
  used : ∀ j, j < 1024 → (vm.page ⟨t, j⟩).present = true → U (vm.page ⟨t, j⟩).addr

/-- The loop over the pages, from page `i` on. -/
theorem clonePages_run (hJ : Allocator J room U) (hsrc : Source U vm₀ t) (hu : u ∈ vm₀.spare)
    {fs₀ : List Nat} (hroom : (vm₀.presentPages t 1024).length + fs₀.length ≤ room) (n i : Nat)
    (hn : i + n = 1024) (hs : Since vm₀ [u] (ps.map Prod.snd) vm) (hc : Copies vm₀ t u i ps vm)
    (hj : J vm.buddy (ps.map Prod.snd ++ fs₀)) :
    ∃ qs vm', clonePages t u n i vm = .ok ⟨⟩ vm' ∧ Since vm₀ [u] (qs.map Prod.snd) vm' ∧
      Copies vm₀ t u 1024 qs vm' ∧ J vm'.buddy (qs.map Prod.snd ++ fs₀) := by
  induction n generalizing i vm ps with
  | zero =>
    obtain rfl : i = 1024 := hn
    exact ⟨ps, vm, rfl, hs, hc, hj⟩
  | succ n ih =>
    have htu : t ∉ [u] := by
      rw [mem_singleton]
      rintro rfl
      exact hsrc.table hu
    have hpage := hs.page htu i
    cases hpres : (vm₀.page ⟨t, i⟩).present with
    | false =>
      rw [clonePages_absent (hpage ▸ hpres)]
      exact ih (i + 1) (by omega) hs (hc.skip hpres) hj
    | true =>
      have hlen : (ps.map Prod.snd ++ fs₀).length < room := by
        have hle := vm₀.presentPages_mono t (show i + 1 ≤ 1024 by omega)
        have hsucc := vm₀.presentPages_succ t i
        rw [hpres, if_pos rfl] at hsucc
        have hps := hc.length
        rw [length_append, length_map]
        omega
      obtain ⟨b, g, halloc, hpos, hg, hj'⟩ := hJ.supplies _ _ hj hlen
      have hused := hsrc.used i (by omega) hpres
      have hfresh : ∀ f ∈ g :: (ps.map Prod.snd ++ fs₀), f ≠ (vm₀.page ⟨t, i⟩).addr := by
        rintro f hf rfl
        exact hJ.fresh _ _ hj' _ hf hused
      have hne : (vm₀.page ⟨t, i⟩).addr ≠ g := (hfresh g (by simp)).symm
      have hold : vm.frame (vm₀.page ⟨t, i⟩).addr = vm₀.frame (vm₀.page ⟨t, i⟩).addr := by
        refine hs.frame _ fun hmem => ?_
        exact hfresh _ (mem_cons_of_mem _ (mem_append_left _ hmem)) rfl
      have hnew : g ∉ ps.map Prod.snd := by
        intro hmem
        exact (nodup_cons.mp (hJ.nodup _ _ hj')).1 (mem_append_left _ hmem)
      have hcur : vm₀.curDir ∉ [u] := by
        rw [mem_singleton]
        rintro rfl
        exact hsrc.cur hu
      obtain ⟨te, hends⟩ := hsrc.ends
      rw [clonePages_present (hs.ends hends hcur) (hpage ▸ hpres) halloc hpos hg (hpage ▸ hne),
        hpage]
      refine ih (i + 1) (by omega) ?_ (hc.copyPage hpres rfl hold hg hnew b) hj'
      exact ((hs.setBuddy b).setPage (mem_singleton_self u) _).copyFrame _ _ _

/-- A table is cloned into the next one of the heap. -/
theorem cloneTable_run (hJ : Allocator J room U) (hsrc : Source U vm₀ t) {rest : List Nat}
    (hspare : vm₀.spare = u :: rest) {fs₀ : List Nat} (hj : J vm₀.buddy fs₀)
    (hroom : (vm₀.presentPages t 1024).length + fs₀.length ≤ room) :
    ∃ qs vm', cloneTable t vm₀ = .ok u vm' ∧ Since vm₀ [u] (qs.map Prod.snd) vm' ∧
      Copies vm₀ t u 1024 qs vm' ∧ J vm'.buddy (qs.map Prod.snd ++ fs₀) := by
  have hkm : kmalloc vm₀ = .ok u (vm₀.setSpare rest) := by
    simp only [kmalloc, get_bind, hspare, modify_bind, pure_run]
  have hs : Since vm₀ [u] [] (vm₀.setSpare rest) :=
    ⟨hspare, fun _ _ => rfl, fun _ _ => rfl, fun _ _ => rfl, rfl⟩
  have hc : Copies vm₀ t u 0 [] ((vm₀.setSpare rest).setTable u ⟨fun _ => ⟨0⟩⟩) := by
    refine ⟨rfl, fun j hj => absurd hj (Nat.not_lt_zero j), ?_⟩
    intro j _
    simp [Vm.page]
  obtain ⟨qs, vm', hrun, hs', hc', hj'⟩ := clonePages_run hJ hsrc (by simp [hspare]) hroom 1024 0
    rfl (hs.setTable (mem_singleton_self u) _) hc hj
  refine ⟨qs, vm', ?_, hs', hc', hj'⟩
  rw [cloneTable, bind_of_ok hkm, modify_bind, bind_of_ok hrun, pure_run]

/-- What is written later leaves the copy alone. -/
theorem Copies.since (h : Copies vm₀ t u n ps vm) (hs : Since vm ts fs vm₁) (hu : u ∉ ts)
    (hps : ∀ x ∈ ps, x.2 ∉ fs) : Copies vm₀ t u n ps vm₁ where
  length := h.length
  copy := by
    intro j hj hpres
    obtain ⟨f, hf, hcopy⟩ := h.copy j hj hpres
    refine ⟨f, hf, ?_⟩
    rw [hs.page hu]
    refine ⟨hcopy.flags, hcopy.addr, ?_⟩
    intro o ho
    rw [hs.frame f (hps _ hf)]
    exact hcopy.bytes o ho
  absent := by
    intro j hj
    rw [hs.page hu]
    exact h.absent j hj

theorem Copies.setEntry (h : Copies vm₀ t u n ps vm) (e i : Nat) (x : BitVec 32)
    (o : Option Nat) : Copies vm₀ t u n ps (vm.setEntry e i x o) where
  length := h.length
  copy := by
    intro j hj hpres
    obtain ⟨f, hf, hcopy⟩ := h.copy j hj hpres
    exact ⟨f, hf, hcopy.flags, hcopy.addr, hcopy.bytes⟩
  absent := h.absent

/-- A copy of a table that has not changed since `vm₀`. -/
theorem Copies.of_since (h : Copies vm t u 1024 ps vm₁) (hs : Since vm₀ ts fs vm) (ht : t ∉ ts)
    (hused : ∀ j, j < 1024 → (vm₀.page ⟨t, j⟩).present = true → (vm₀.page ⟨t, j⟩).addr ∉ fs) :
    Copies vm₀ t u 1024 ps vm₁ where
  length := by
    rw [h.length, Vm.presentPages, Vm.presentPages]
    simp [hs.page ht]
  copy := by
    intro j hj hpres
    obtain ⟨f, hf, hcopy⟩ := h.copy j hj (hs.page ht j ▸ hpres)
    rw [hs.page ht] at hcopy
    refine ⟨f, hf, hcopy.flags, hcopy.addr, ?_⟩
    intro o ho
    rw [hcopy.bytes o ho, hs.frame _ (hused j hj hpres)]
  absent := by
    intro j hj
    exact h.absent j (hs.page ht j ▸ hj)

end

/-! ## Directories -/

/-- What the copies of the first indices of the directory `d` cost, table by table. -/
def Vm.cloneCost (vm : Vm) (d : Nat) (c : CloneArgs) (cost : Nat → Nat) : Nat → Nat
  | 0 => 0
  | i + 1 => vm.cloneCost d c cost i +
    if Highmem i ∨ c.Links i then 0 else ((vm.dir d).tables i).elim 0 cost

theorem Vm.cloneCost_mono (vm : Vm) (d : Nat) (c : CloneArgs) (cost : Nat → Nat) {i j : Nat}
    (h : i ≤ j) : vm.cloneCost d c cost i ≤ vm.cloneCost d c cost j := by
  induction h with
  | refl => exact Nat.le_refl _
  | step _ ih => exact Nat.le_trans ih (Nat.le_add_right _ _)

/-- What index `j` of the new directory `e` holds. `us` has the indices that were copied with
their new tables, and `ps` the pages with their new frames. -/
structure Cloned (vm₀ : Vm) (k d e : Nat) (c : CloneArgs) (us ps : List (Nat × Nat)) (j : Nat)
    (vm : Vm) : Prop where
  kernel : Highmem j → (vm.dir e).tables j = (vm₀.dir k).tables j ∧
    (vm.dir e).entries j = (vm₀.dir k).entries j
  linked : ¬ Highmem j → c.Links j → ∀ t, (vm₀.dir d).tables j = some t →
    (vm.dir e).tables j = some t ∧ (vm.dir e).entries j = (vm₀.dir d).entries j
  copied : ¬ Highmem j → ¬ c.Links j → ∀ t, (vm₀.dir d).tables j = some t →
    ∃ u qs, (j, u) ∈ us ∧ (vm.dir e).tables j = some u ∧
      (vm.dir e).entries j = (Page.make ((vm₀.dir d).entries j) u).value ∧
      Copies vm₀ t u 1024 qs vm ∧ ∀ x ∈ qs, (j * 1024 + x.1, x.2) ∈ ps

section
variable {k d e i j : Nat} {c : CloneArgs} {us' ps ps' : List (Nat × Nat)} {vs : List (Nat × Nat)}

section

variable (h : Cloned vm₀ k d e c vs ps j vm)
include h

theorem Cloned.mono (hus : vs ⊆ us') (hps : ps ⊆ ps') :
    Cloned vm₀ k d e c us' ps' j vm where
  kernel := h.kernel
  linked := h.linked
  copied := by
    intro hlow hcopy t ht
    obtain ⟨u, qs, hu, htab, hent, hqs, hin⟩ := h.copied hlow hcopy t ht
    exact ⟨u, qs, hus hu, htab, hent, hqs, fun x hx => hps (hin x hx)⟩

theorem Cloned.since (hs : Since vm ts fs vm₁) (he : e ∉ ts)
    (hus : ∀ x ∈ vs, x.2 ∉ ts) (hps : ∀ x ∈ ps, x.2 ∉ fs) : Cloned vm₀ k d e c vs ps j vm₁ := by
  have hdir := hs.dir e he
  refine ⟨by rw [hdir]; exact h.kernel, by rw [hdir]; exact h.linked, ?_⟩
  intro hlow hcopy t ht
  obtain ⟨u, qs, hu, htab, hent, hqs, hin⟩ := h.copied hlow hcopy t ht
  rw [hdir]
  exact ⟨u, qs, hu, htab, hent, hqs.since hs (hus _ hu) fun x hx => hps (j * 1024 + x.1, x.2)
    (hin x hx), hin⟩

theorem Cloned.setEntry (hne : j ≠ i) (x : BitVec 32)
    (t : Option Nat) : Cloned vm₀ k d e c vs ps j (vm.setEntry e i x t) := by
  have htab : ((vm.setEntry e i x t).dir e).tables j = (vm.dir e).tables j := by simp [hne]
  have hent : ((vm.setEntry e i x t).dir e).entries j = (vm.dir e).entries j := by simp [hne]
  refine ⟨by rw [htab, hent]; exact h.kernel, by rw [htab, hent]; exact h.linked, ?_⟩
  intro hlow hcopy t' ht'
  obtain ⟨u, qs, hu, htab', hent', hqs, hin⟩ := h.copied hlow hcopy t' ht'
  rw [htab, hent]
  exact ⟨u, qs, hu, htab', hent', hqs.setEntry e i x t, hin⟩

end

/-- A directory that can be cloned: neither it nor its tables come from the heap, and the frames
that it maps are in use. -/
structure Cloneable (U : Nat → Prop) (vm : Vm) (k d : Nat) : Prop where
  ends : ∃ te, vm.Ends te ∧ te ∉ vm.spare
  nodup : vm.spare.Nodup
  cur : vm.curDir ∉ vm.spare
  kernel : k ∉ vm.spare
  source : d ∉ vm.spare
  tables : ∀ i t, (vm.dir d).tables i = some t → t ∉ vm.spare
  used : ∀ i t, (vm.dir d).tables i = some t → ∀ j, j < 1024 →
    (vm.page ⟨t, j⟩).present = true → U (vm.page ⟨t, j⟩).addr

/-- The first `i` indices are done. -/
structure Progress (J : Buddy → List Nat → Prop) (vm₀ : Vm) (k d e : Nat) (c : CloneArgs)
    (i : Nat) (vs ps : List (Nat × Nat)) (vm : Vm) : Prop where
  since : Since vm₀ (e :: vs.map Prod.snd) (ps.map Prod.snd) vm
  supply : J vm.buddy (ps.map Prod.snd)
  tables : vs.length = vm₀.cloneCost d c (fun _ => 1) i
  frames : ps.length = vm₀.cloneCost d c (fun t => (vm₀.presentPages t 1024).length) i
  done : ∀ j, j < i → Cloned vm₀ k d e c vs ps j vm

theorem Vm.cloneCost_succ (h : Highmem i ∨ c.Links i ∨ (vm.dir d).tables i = none)
    (cost : Nat → Nat) : vm.cloneCost d c cost (i + 1) = vm.cloneCost d c cost i := by
  rw [Vm.cloneCost]
  rcases h with h | h | h
  · simp [h]
  · simp [h]
  · simp [h]

section

variable (h : Progress J vm₀ k d e c i vs ps vm)
include h

/-- An index that takes no table: its entry is set. -/
theorem Progress.link
    (hcost : Highmem i ∨ c.Links i ∨ (vm₀.dir d).tables i = none) {x : BitVec 32} {t : Option Nat}
    (hi : Cloned vm₀ k d e c vs ps i (vm.setEntry e i x t)) :
    Progress J vm₀ k d e c (i + 1) vs ps (vm.setEntry e i x t) where
  since := h.since.setEntry (by simp) i x t
  supply := h.supply
  tables := by rw [Vm.cloneCost_succ hcost, h.tables]
  frames := by rw [Vm.cloneCost_succ hcost, h.frames]
  done := by
    intro j hj
    by_cases hji : j = i
    · exact hji ▸ hi
    · exact (h.done j (by omega)).setEntry hji x t

theorem Progress.source (hsrc : Cloneable U vm₀ k d)
    (ht : (vm₀.dir d).tables i = some t) : Source U vm t := by
  have hsub : ∀ x, x ∉ vm₀.spare → x ∉ vm.spare := by
    intro x hx hmem
    exact hx (h.since.spare ▸ mem_append_right _ hmem)
  have hnew := fun x => h.since.not_mem (x := x)
  have htab := hsrc.tables i t ht
  obtain ⟨te, hends, -⟩ := hsrc.ends
  refine ⟨⟨te, h.since.ends hends (hnew _ hsrc.cur)⟩, ?_, hsub t htab, ?_⟩
  · rw [h.since.curDir]
    exact hsub _ hsrc.cur
  · intro j hj
    rw [h.since.page (hnew t htab)]
    exact hsrc.used i t ht j hj

/-- An index whose table is cloned. -/
theorem Progress.copy (hsrc : Cloneable U vm₀ k d)
    (hJ : Allocator J room U) (hi : i < 1024) (hlow : ¬ Highmem i) (hcopy : ¬ c.Links i)
    (ht : (vm₀.dir d).tables i = some t)
    (htables : vm₀.cloneCost d c (fun _ => 1) 1024 < vm₀.spare.length)
    (hframes : vm₀.cloneCost d c (fun t => (vm₀.presentPages t 1024).length) 1024 ≤ room) :
    ∃ u vm₁ vs' ps', cloneTable t vm = .ok u vm₁ ∧
      Progress J vm₀ k d e c (i + 1) vs' ps'
        (vm₁.setEntry e i (Page.make ((vm₁.dir d).entries i) u).value (some u)) := by
  have hcost (cost : Nat → Nat) : vm₀.cloneCost d c cost (i + 1) =
      vm₀.cloneCost d c cost i + cost t := by
    simp [Vm.cloneCost, hlow, hcopy, ht]
  have hspare := h.since.spare
  -- there is one more table
  obtain ⟨u, rest, hu⟩ : ∃ u rest, vm.spare = u :: rest := by
    apply exists_cons_of_length_pos
    have hle := vm₀.cloneCost_mono d c (fun _ => 1) (show i + 1 ≤ 1024 by omega)
    rw [hcost, ← h.tables] at hle
    rw [hspare] at htables
    simp only [cons_append, length_cons, length_append, length_map] at htables
    omega
  have htnew : t ∉ e :: vs.map Prod.snd := h.since.not_mem (hsrc.tables i t ht)
  have hroom : (vm.presentPages t 1024).length + (ps.map Prod.snd).length ≤ room := by
    have hle := vm₀.cloneCost_mono d c (fun t => (vm₀.presentPages t 1024).length)
      (show i + 1 ≤ 1024 by omega)
    rw [hcost, ← h.frames] at hle
    have hsame : vm.presentPages t 1024 = vm₀.presentPages t 1024 := by
      simp [Vm.presentPages, h.since.page htnew]
    rw [hsame, length_map]
    omega
  obtain ⟨qs, vm₁, hrun, hs, hc, hj⟩ := cloneTable_run hJ (h.source hsrc ht) hu h.supply hroom
  refine ⟨u, vm₁, vs ++ [(i, u)], qs.map (fun x => (i * 1024 + x.1, x.2)) ++ ps, hrun, ?_⟩
  have hapart : ∀ x ∈ e :: vs.map Prod.snd, x ∉ [u] := by
    have hnodup := hsrc.nodup
    rw [hspare, hu, nodup_append] at hnodup
    intro x hx hmem
    exact hnodup.2.2 x hx u (by simp) (mem_singleton.mp hmem)
  have hfresh : ∀ x ∈ ps, x.2 ∉ qs.map Prod.snd := by
    intro x hx hmem
    exact (nodup_append.mp (hJ.nodup _ _ hj)).2.2 _ hmem _ (mem_map_of_mem hx) rfl
  have hold : ∀ j, j < 1024 → (vm₀.page ⟨t, j⟩).present = true →
      (vm₀.page ⟨t, j⟩).addr ∉ ps.map Prod.snd := by
    intro j hj hpres hmem
    exact hJ.fresh _ _ h.supply _ hmem (hsrc.used i t ht j hj hpres)
  have hpairs : (qs.map (fun x => (i * 1024 + x.1, x.2)) ++ ps).map Prod.snd =
      qs.map Prod.snd ++ ps.map Prod.snd := by
    simp [comp_def]
  have hsince : Since vm₀ (e :: (vs ++ [(i, u)]).map Prod.snd)
      ((qs.map (fun x => (i * 1024 + x.1, x.2)) ++ ps).map Prod.snd) vm₁ := by
    rw [hpairs, map_append, ← cons_append]
    exact h.since.trans hs
  have hentry : (vm₁.dir d).entries i = (vm₀.dir d).entries i := by
    rw [hsince.dir d (hsince.not_mem hsrc.source)]
  constructor
  · exact hsince.setEntry (by simp) i _ _
  · rw [hpairs]
    exact hj
  · rw [hcost, ← h.tables, length_append, length_singleton]
  · rw [hcost, ← h.frames, length_append, length_map, hc.length, Nat.add_comm]
    simp [Vm.presentPages, h.since.page htnew]
  · intro j hj
    by_cases hji : j = i
    · subst hji
      refine ⟨fun hhigh => absurd hhigh hlow, fun _ hlink => absurd hlink hcopy, ?_⟩
      intro _ _ t' ht'
      obtain rfl : t = t' := Option.some.inj (ht.symm.trans ht')
      refine ⟨u, qs, by simp, by simp, by simp [hentry], ?_, ?_⟩
      · exact (hc.of_since h.since htnew hold).setEntry _ _ _ _
      · intro x hx
        exact mem_append_left _ (mem_map_of_mem hx)
    · have hdone := (h.done j (by omega)).since hs (hapart e (by simp))
        (fun x hx => hapart _ (mem_cons_of_mem _ (mem_map_of_mem hx))) hfresh
      exact (hdone.mono (by simp) (by simp)).setEntry hji _ _

end

/-- A 4 MiB page outside of the kernel's part of the directory. -/
def Vm.Big (vm : Vm) (d i : Nat) : Prop :=
  ¬ Highmem i ∧ (vm.dir d).tables i = none ∧ (vm.dir d).entries i &&& pagePresent ≠ 0 ∧
    (vm.dir d).entries i &&& pageDir4m ≠ 0

/-- A 4 MiB page there is the kernel's own. -/
def Vm.Plain (vm : Vm) (k d i : Nat) : Prop :=
  vm.Big d i → (vm.dir d).entries i = (vm.dir k).entries i

/-- An index without a table that is not copied stays empty. -/
theorem Cloned.of_none (hlow : ¬ Highmem j) (hnone : (vm₀.dir d).tables j = none) :
    Cloned vm₀ k d e c vs ps j vm := by
  refine ⟨fun hhigh => absurd hhigh hlow, ?_, ?_⟩
  · intro _ _ t ht
    rw [hnone] at ht
    cases ht
  · intro _ _ t ht
    rw [hnone] at ht
    cases ht

theorem Progress.skip (h : Progress J vm₀ k d e c i vs ps vm) (hlow : ¬ Highmem i)
    (hnone : (vm₀.dir d).tables i = none) : Progress J vm₀ k d e c (i + 1) vs ps vm where
  since := h.since
  supply := h.supply
  tables := by rw [Vm.cloneCost_succ (.inr (.inr hnone)), h.tables]
  frames := by rw [Vm.cloneCost_succ (.inr (.inr hnone)), h.frames]
  done := by
    intro j hj
    by_cases hji : j = i
    · exact hji ▸ Cloned.of_none hlow hnone
    · exact h.done j (by omega)

section
variable (hsrc : Cloneable U vm₀ k d) (hJ : Allocator J room U)
  (htables : vm₀.cloneCost d c (fun _ => 1) 1024 < vm₀.spare.length)
  (hframes : vm₀.cloneCost d c (fun t => (vm₀.presentPages t 1024).length) 1024 ≤ room)
include hsrc hJ htables hframes

theorem cloneIndex_run (hi : i < 1024) (h : Progress J vm₀ k d e c i vs ps vm)
    (hbig : vm₀.Plain k d i) : ∃ vs' ps' vm', cloneIndex k d e c i vm = .ok ⟨⟩ vm' ∧
      Progress J vm₀ k d e c (i + 1) vs' ps' vm' := by
  have hk : vm.dir k = vm₀.dir k := h.since.dir k (h.since.not_mem hsrc.kernel)
  have hd : vm.dir d = vm₀.dir d := h.since.dir d (h.since.not_mem hsrc.source)
  rw [cloneIndex, get_bind, hk, hd]
  by_cases hhigh : Highmem i
  · rw [if_pos hhigh]
    refine ⟨vs, ps, _, modify_run _ _, h.link (.inl hhigh) ?_⟩
    refine ⟨fun _ => by simp, fun hlow => absurd hhigh hlow, fun hlow => absurd hhigh hlow⟩
  rw [if_neg hhigh]
  cases ht : (vm₀.dir d).tables i with
  | some t =>
    by_cases hlink : c.Links i
    · simp only [hlink, ↓reduceIte]
      refine ⟨vs, ps, _, modify_run _ _, h.link (.inr (.inl hlink)) ?_⟩
      refine ⟨fun hh => absurd hh hhigh, ?_, fun _ hcopy => absurd hlink hcopy⟩
      intro _ _ t' ht'
      rw [ht] at ht'
      simp [ht']
    · obtain ⟨u, vm₁, vs', ps', hrun, hnext⟩ :=
        h.copy hsrc hJ hi hhigh hlink ht htables hframes
      simp only [hlink, ↓reduceIte]
      exact ⟨vs', ps', _, by rw [bind_of_ok hrun, modify_run], hnext⟩
  | none =>
    by_cases h4m : (vm₀.dir d).entries i &&& pagePresent ≠ 0 ∧
        (vm₀.dir d).entries i &&& pageDir4m ≠ 0
    · have hsame := hbig ⟨hhigh, ht, h4m⟩
      simp only [if_pos h4m, if_pos hsame]
      exact ⟨vs, ps, _, modify_run _ _, h.link (.inr (.inr ht)) (Cloned.of_none hhigh ht)⟩
    · simp only [h4m, ↓reduceIte]
      exact ⟨vs, ps, vm, rfl, h.skip hhigh ht⟩

/-- The loop ends if it meets no 4 MiB page that is not the kernel's, and stops otherwise. -/
theorem cloneIndices_run (n : Nat) (hn : i + n = 1024) (h : Progress J vm₀ k d e c i vs ps vm) :
    (∀ j, i ≤ j → j < 1024 → vm₀.Plain k d j) ∧ (∃ vs' ps' vm',
      cloneIndices k d e c n i vm = .ok ⟨⟩ vm' ∧ Progress J vm₀ k d e c 1024 vs' ps' vm') ∨
    (∃ j < 1024, ¬ vm₀.Plain k d j) ∧ ∃ vm', cloneIndices k d e c n i vm = .error .halt vm' := by
  induction n generalizing i vs ps vm with
  | zero =>
    obtain rfl : i = 1024 := hn
    exact .inl ⟨by omega, vs, ps, vm, rfl, h⟩
  | succ n ih =>
    rw [cloneIndices]
    by_cases hbig : vm₀.Plain k d i
    · obtain ⟨vs₁, ps₁, vm₁, hrun, h₁⟩ :=
        cloneIndex_run hsrc hJ htables hframes (by omega) h hbig
      rw [bind_of_ok hrun]
      refine (ih (by omega) h₁).imp_left fun ⟨hall, hdone⟩ => ⟨fun j hj => ?_, hdone⟩
      rcases Nat.eq_or_lt_of_le hj with rfl | hlt
      · exact fun _ => hbig
      · exact hall j hlt
    · obtain ⟨⟨hlow, hnone, h4m⟩, hne⟩ := Classical.not_imp.mp hbig
      refine .inr ⟨⟨i, by omega, hbig⟩, vm, bind_of_error ?_⟩
      rw [cloneIndex, get_bind, h.since.dir k (h.since.not_mem hsrc.kernel),
        h.since.dir d (h.since.not_mem hsrc.source), if_neg hlow, hnone]
      simp only [if_pos h4m, if_neg hne]
      rfl

/-- The whole clone, in a directory of its own. -/
theorem cloneDir_run (hj : J vm₀.buddy []) : (∀ j < 1024, vm₀.Plain k d j) ∧ (∃ e vs ps vm,
      cloneDir k d c vm₀ = .ok e vm ∧ Progress J vm₀ k d e c 1024 vs ps vm) ∨
    (∃ j < 1024, ¬ vm₀.Plain k d j) ∧ ∃ vm, cloneDir k d c vm₀ = .error .halt vm := by
  obtain ⟨e, rest, he⟩ := exists_cons_of_length_pos (Nat.zero_lt_of_lt htables)
  have hkm : kmalloc vm₀ = .ok e (vm₀.setSpare rest) := by
    simp only [kmalloc, get_bind, he, modify_bind, pure_run]
  have hstart : Progress J vm₀ k d e c 0 [] [] { vm₀.setSpare rest with
      dir := update vm₀.dir e ⟨fun _ => 0, fun _ => none⟩ } := by
    refine ⟨⟨he, fun _ _ => rfl, ?_, fun _ _ => rfl, rfl⟩, hj, rfl, rfl, ?_⟩
    · intro x hx
      exact update_of_ne (fun hxe => hx (by simp [hxe])) _ _
    · intro j hj
      exact absurd hj (Nat.not_lt_zero j)
  rw [cloneDir, bind_of_ok hkm, modify_bind]
  rcases cloneIndices_run hsrc hJ htables hframes 1024 rfl hstart with
    ⟨hall, vs, ps, vm, hrun, h⟩ | ⟨hbad, vm, hrun⟩
  · exact .inl ⟨fun j => hall j (Nat.zero_le j), e, vs, ps, vm, (bind_of_ok hrun).trans rfl, h⟩
  · exact .inr ⟨hbad, vm, bind_of_error hrun⟩

end

end

/-! ## Isolation -/

/-- A frame that the allocator does not give away: a block that is held has it, or it is outside
of the managed memory. -/
def InUse (b : Boot) (held : List Block) (f : Nat) : Prop :=
  (∃ c ∈ held, c.Mem f) ∨ f < b.start ∨ b.frames ≤ f

theorem drawn_allocator (b : Boot) (held : List Block) {room n : Int} (hn : n ≤ room) :
    Allocator (Drawn b held room) n.toNat (InUse b held) where
  supplies := drawn_supplies b held hn
  nodup _ _ h := h.fresh.1
  fresh := by
    intro s fs h f hf hused
    obtain ⟨lists, hi, -⟩ := reachable_inv h.1
    have hblock : (⟨f, 0⟩ : Block) ∈ fs.map (⟨·, 0⟩) := mem_map_of_mem hf
    have hin : b.start ≤ f ∧ f + 2 ^ 0 ≤ b.frames :=
      hi.family.inside _ (mem_append_left _ (mem_append_left _ hblock))
    rcases hused with ⟨c, hc, hmem⟩ | hlo | hhi
    · exact h.fresh.2 f hf c hc hmem
    · omega
    · omega

/-- `e` is a clone of the directory `d`, which is as it was; so are the mappings at the end of
the address space and the frames in use. `us` and `ps` have the tables and the frames of the
copies. -/
structure CloneOf (U : Nat → Prop) (vm₀ : Vm) (k d : Nat) (c : CloneArgs) (e : Nat)
    (us ps : List (Nat × Nat)) (vm : Vm) : Prop where
  directory : vm.dir d = vm₀.dir d
  tables : ∀ i t, (vm₀.dir d).tables i = some t → vm.table t = vm₀.table t
  temporary : ∀ t, vm₀.Ends t → vm.table t = vm₀.table t
  frames : ∀ f, U f → vm.frame f = vm₀.frame f
  newTables : (e :: us.map Prod.snd).Nodup ∧ ∀ t ∈ e :: us.map Prod.snd, t ∈ vm₀.spare
  newFrames : (ps.map Prod.snd).Nodup ∧ ∀ f ∈ ps.map Prod.snd, ¬ U f
  indices : ∀ i, i < 1024 → Cloned vm₀ k d e c us ps i vm

theorem Progress.cloneOf {k d e : Nat} {c : CloneArgs} {us ps : List (Nat × Nat)}
    (h : Progress J vm₀ k d e c 1024 us ps vm) (hsrc : Cloneable U vm₀ k d)
    (hJ : Allocator J room U) : CloneOf U vm₀ k d c e us ps vm := by
  have hspare := h.since.spare
  constructor
  · exact h.since.dir d (h.since.not_mem hsrc.source)
  · intro i t ht
    exact h.since.table t (h.since.not_mem (hsrc.tables i t ht))
  · intro t ht
    obtain ⟨te, hends, hte⟩ := hsrc.ends
    obtain rfl : te = t := Option.some.inj (hends.table.symm.trans ht.table)
    exact h.since.table te (h.since.not_mem hte)
  · intro f hf
    exact h.since.frame f fun hmem => hJ.fresh _ _ h.supply f hmem hf
  · refine ⟨?_, fun t ht => hspare ▸ mem_append_left _ ht⟩
    have hnodup := hsrc.nodup
    rw [hspare] at hnodup
    exact (nodup_append.mp hnodup).1
  · exact ⟨hJ.nodup _ _ h.supply, hJ.fresh _ _ h.supply⟩
  · exact h.done

/-- **Cloning.** With the tables and frames that the copies take, and just when it has no 4 MiB page
of its own, a directory is cloned: tables are shared or copied with their frames as the flags say,
and nothing else changes. -/
theorem clone_isolates {b : Boot} {held : List Block} {k d : Nat} (c : CloneArgs)
    (hreach : Reachable b Machine.always ⟨vm.buddy, held⟩) (hsrc : Cloneable (InUse b held) vm k d)
    (htables : vm.cloneCost d c (fun _ => 1) 1024 < vm.spare.length)
    (hframes : (vm.cloneCost d c (fun t => (vm.presentPages t 1024).length) 1024 : Int) ≤
      vm.buddy.available) :
    (∃ e us ps vm', cloneDir k d c vm = .ok e vm' ∧
      CloneOf (InUse b held) vm k d c e us ps vm') ↔
    ∀ i < 1024, vm.Plain k d i := by
  have hJ := drawn_allocator b held (Int.le_refl vm.buddy.available)
  have hdrawn : Drawn b held vm.buddy.available vm.buddy [] := ⟨hreach, by simp⟩
  rcases cloneDir_run hsrc hJ htables (by omega) hdrawn with
    ⟨hall, e, us, ps, vm', hrun, h⟩ | ⟨⟨i, hi, hbad⟩, vm', hrun⟩
  · exact iff_of_true ⟨e, us, ps, vm', hrun, h.cloneOf hsrc hJ⟩ hall
  · refine iff_of_false ?_ fun hall => hbad (hall i hi)
    rintro ⟨e, us, ps, vm'', hok, -⟩
    rw [hrun] at hok
    cases hok

/-- A directory 1 with one page, next to the kernel's directory 0, and room for a clone. Index 1
of the directory 1 has the entry `big`. -/
def onePage (big : BitVec 32) : Vm where
  buddy := init bootOne
  frame f o := BitVec.ofNat 8 (f + o)
  table t := ⟨fun j => if t = 3 ∧ j = 5 then ⟨0x1007⟩ else ⟨0⟩⟩
  dir d := {
    entries := fun i => if (d = 0 ∧ i = 1023) ∨ (d = 1 ∧ i = 2) then 3
      else if d = 1 ∧ i = 1 then big else 0
    tables := fun i => if d = 0 ∧ i = 1023 then some 2 else if d = 1 ∧ i = 2 then some 3 else none }
  spare := [4, 5]
  curDir := 0

theorem onePage_table {big : BitVec 32} {i : Nat} (h : ((onePage big).dir 1).tables i = some t) :
    t = 3 := by
  simp only [onePage, Nat.one_ne_zero, false_and, ↓reduceIte, true_and] at h
  split at h
  · exact (Option.some.inj h).symm
  · cases h

theorem onePage_cloneable (big : BitVec 32) : Cloneable (InUse bootOne []) (onePage big) 0 1 where
  ends := ⟨2, ⟨rfl, by simp [onePage, pagePresent], by simp [onePage, pageDir4m]⟩,
    by simp [onePage]⟩
  nodup := by simp [onePage]
  cur := by simp [onePage]
  kernel := by simp [onePage]
  source := by simp [onePage]
  tables := by
    intro i t ht
    simp [onePage_table ht, onePage]
  used := by
    intro i t ht j _ hpres
    rw [onePage_table ht] at hpres ⊢
    have hpage : (onePage big).page ⟨3, j⟩ = if j = 5 then ⟨0x1007⟩ else ⟨0⟩ := by
      simp [onePage, Vm.page]
    rw [hpage] at hpres ⊢
    by_cases hj : j = 5
    · rw [if_pos hj]
      exact .inr (.inl (by decide))
    · rw [if_neg hj] at hpres
      cases hpres

/-- The arguments with which every table is copied. -/
def copyAll : CloneArgs := ⟨0, 0, -1⟩

theorem onePage_reachable (big : BitVec 32) :
    Reachable bootOne Machine.always ⟨(onePage big).buddy, []⟩ := by
  have h : Reachable bootOne Machine.always (Frames.init bootOne) := .init rfl
  rw [Frames.init] at h
  simpa only [onePage] using h

theorem clone_isolates_page : ∃ e us ps vm, cloneDir 0 1 copyAll (onePage 0) = .ok e vm ∧
      CloneOf (InUse bootOne []) (onePage 0) 0 1 copyAll e us ps vm := by
  apply (clone_isolates copyAll (onePage_reachable 0) (onePage_cloneable 0) ?_ ?_).mpr
  · rintro i - ⟨-, hnone, hpres, -⟩
    have hi : i ≠ 2 := by
      rintro rfl
      cases hnone
    exact absurd (by simp [onePage, hi]) hpres
  · decide +kernel
  · decide +kernel

/-- A 4 MiB page of the user's stops the kernel, though tables and frames are there. -/
theorem clone_big_page_halts : Reachable bootOne Machine.always ⟨(onePage 0x400087).buddy, []⟩ ∧
    Cloneable (InUse bootOne []) (onePage 0x400087) 0 1 ∧
    (onePage 0x400087).cloneCost 1 copyAll (fun _ => 1) 1024 < (onePage 0x400087).spare.length ∧
    ((onePage 0x400087).cloneCost 1 copyAll
      (fun t => ((onePage 0x400087).presentPages t 1024).length) 1024 : Int) ≤
      (onePage 0x400087).buddy.available ∧
    outcome (cloneDir 0 1 copyAll) (onePage 0x400087) (fun _ _ => ()) = none := by
  refine ⟨onePage_reachable _, onePage_cloneable _, ?_⟩
  decide +kernel

end Sysint.Paging
