import Sysint.Lib.Tiling
import Sysint.Heap.Alloc

/-! What the heap's memory represents: a sequence of blocks that tile the heap,
each with its two records, and a circular list of blocks ordered by size. In the
middle of an operation a block may be on no list, its header may not be written
yet and its footer may still name another header, so all three are part of the
description of a block. -/
namespace Sysint.Heap
open Tiling Dlink List

structure Blk where
  h : Nat
  size : Nat
  used : Bool
  /-- Whether the block is on the list `free_blocks`. -/
  listed : Bool
  /-- The header its footer names. -/
  ftr : Nat
  /-- Whether memory holds its header. -/
  written : Bool
deriving DecidableEq

def Blk.fin (b : Blk) : Nat := b.h + b.size

abbrev Fills : Nat → List Blk → Nat → Prop := Tiles Blk.h Blk.size

/-! ## Writes, word by word -/

theorem set_apply (m : Mem) (a v x : Nat) : set m a v x = if x = a then v else m x :=
  Function.update_apply m a v x

theorem setSize_apply (m : Mem) (h v x : Nat) :
    setSize m h v x = if x = h + 4 then v else m x := set_apply _ _ _ _

theorem setUsed_apply (m : Mem) (h x : Nat) (b : Bool) :
    setUsed m h b x = if x = h + 16 then b.toNat else m x := set_apply _ _ _ _

theorem writeHeader_apply (m : Mem) (h sz x : Nat) :
    writeHeader m h sz x = if x = h + 16 then 0 else if x = h + 4 then sz
      else if x = h then headerMagic else m x := by
  simp [writeHeader, setUsed_apply, setSize_apply, set_apply]

theorem writeFooter_apply (m : Mem) (f h x : Nat) :
    writeFooter m f h x = if x = f + 4 then h else if x = f then footerMagic else m x := by
  simp [writeFooter, set_apply]

/-! ## Records -/

/-- Memory holds the footer of `b`, and its header if that is written. -/
structure Record (m : Mem) (b : Blk) : Prop where
  magic : b.written = true → m b.h = headerMagic
  size : b.written = true → m (b.h + 4) = b.size
  used : b.written = true → m (b.h + 16) = b.used.toNat
  ftrMagic : m (b.fin - 8) = footerMagic
  ftr : footerHeader m (b.fin - 8) = b.ftr

variable {b : Blk}

theorem Record.congr {m m' : Mem} (h : Record m b) (h0 : m' b.h = m b.h)
    (h1 : m' (b.h + 4) = m (b.h + 4)) (h2 : m' (b.h + 16) = m (b.h + 16))
    (h3 : m' (b.fin - 8) = m (b.fin - 8)) (h4 : m' (b.fin - 8 + 4) = m (b.fin - 8 + 4)) :
    Record m' b where
  magic hw := h0.trans (h.magic hw)
  size hw := h1.trans (h.size hw)
  used hw := h2.trans (h.used hw)
  ftrMagic := h3.trans h.ftrMagic
  ftr := h4.trans h.ftr

theorem Record.size_eq {m : Mem} (h : Record m b) (hw : b.written = true) :
    Heap.size m b.h = b.size := h.size hw

theorem Record.used_eq {m : Mem} (h : Record m b) (hw : b.written = true) :
    Heap.used m b.h = b.used := by
  rw [Heap.used, h.used hw]
  cases b.used <;> rfl

def links (m : Mem) : Links Nat := ⟨prev m, next m⟩

/-- The address of the static `_list_nil`: a word address below the heap. -/
structure Sentinel where
  addr : Nat
  pos : 0 < addr
  aligned : addr % 4 = 0
  below : addr + headerSize ≤ heapBase

structure Layout (nil : Sentinel) (m : Mem) (heapEnd : Nat) (bs : List Blk) (free : List Nat) :
    Prop where
  tiles : Fills heapBase bs heapEnd
  shape : ∀ b ∈ bs, minBlock ≤ b.size ∧ b.size % 4 = 0
  record : ∀ b ∈ bs, Record m b
  ring : Ring (links m) nil.addr free
  listed : free.Perm ((bs.filter Blk.listed).map Blk.h)
  sorted : free.Pairwise fun x y => size m x ≤ size m y
  unused : ∀ b ∈ bs, b.listed = true → b.used = false ∧ b.written = true

/-- A layout in the middle of an operation that started with memory `m₀` and
must leave the used blocks `keep` alone. -/
structure Work (nil : Sentinel) (keep : List Blk) (m₀ m : Mem) (heapEnd : Nat) (bs : List Blk)
    (free : List Nat) : Prop extends Layout nil m heapEnd bs free where
  kept : ∀ c ∈ keep, c ∈ bs ∧ c.used = true
  frame : ∀ c ∈ keep, ∀ x, c.h ≤ x → x < c.fin → m x = m₀ x

variable {nil : Sentinel} {keep : List Blk} {m₀ m m' : Mem} {heapEnd y : Nat} {bs : List Blk}
  {free : List Nat}

/-! ## Where blocks and nodes are -/

namespace Layout

section

variable (H : Layout nil m heapEnd bs free)
include H

theorem bounds (hb : b ∈ bs) :
    heapBase ≤ b.h ∧ b.fin ≤ heapEnd ∧ b.fin = b.h + b.size ∧ 36 ≤ b.size :=
  ⟨(H.tiles.bounds hb).1, (H.tiles.bounds hb).2, rfl, (H.shape b hb).1⟩

theorem apart {c : Blk} (hb : b ∈ bs) (hc : c ∈ bs) :
    b = c ∨ b.fin ≤ c.h ∨ c.fin ≤ b.h := H.tiles.apart hb hc

theorem aligned (hb : b ∈ bs) : b.h % 4 = 0 := by
  have go (a : Nat) (xs : List Blk) (e : Nat) (h : Fills a xs e) (ha : a % 4 = 0)
      (hs : ∀ x ∈ xs, x.size % 4 = 0) (hb : b ∈ xs) : b.h % 4 = 0 := by
    induction xs generalizing a with
    | nil => simp at hb
    | cons x xs ih =>
      have hx := hs x (by simp)
      cases mem_cons.mp hb with
      | inl he => rw [he, h.1]; exact ha
      | inr hm =>
        exact ih (a + x.size) h.2 (by omega) (fun y hy => hs y (mem_cons_of_mem _ hy)) hm
  exact go _ _ _ H.tiles rfl (fun x hx => (H.shape x hx).2) hb

theorem mem_free :
    y ∈ free ↔ ∃ b ∈ bs, b.listed = true ∧ b.h = y := by
  rw [H.listed.mem_iff]
  simp [and_assoc]

/-- A block that is on no list shares no byte with a node of the list. -/
theorem node_apart {c : Blk} (hc : c ∈ bs)
    (hl : c.listed = false) (hy : y ∈ nil.addr :: free) : y + 20 ≤ c.h ∨ c.fin ≤ y := by
  obtain ⟨hb1, hb2, hb3, hb4⟩ := H.bounds hc
  cases mem_cons.mp hy with
  | inl he =>
    have : nil.addr + 20 ≤ heapBase := nil.below
    omega
  | inr hf =>
    obtain ⟨d, hd, hdl, rfl⟩ := H.mem_free.mp hf
    have hne : d ≠ c := by rintro rfl; simp [hl] at hdl
    have := H.bounds hd
    have := (H.apart hd hc).resolve_left hne
    omega

/-- A node is the header of a block, or shares no byte with it. -/
theorem node_or {c : Blk} (hc : c ∈ bs)
    (hy : y ∈ nil.addr :: bs.map Blk.h) : y = c.h ∨ y + 20 ≤ c.h ∨ c.fin ≤ y := by
  obtain ⟨hb1, hb2, hb3, hb4⟩ := H.bounds hc
  cases mem_cons.mp hy with
  | inl he =>
    have : nil.addr + 20 ≤ heapBase := nil.below
    omega
  | inr hf =>
    obtain ⟨d, hd, rfl⟩ := mem_map.mp hf
    have := H.bounds hd
    cases H.apart hd hc with
    | inl he => exact .inl (he ▸ rfl)
    | inr ha => omega

theorem node_spaced {z : Nat}
    (hy : y ∈ nil.addr :: bs.map Blk.h) (hz : z ∈ nil.addr :: bs.map Blk.h) :
    y = z ∨ y + 20 ≤ z ∨ z + 20 ≤ y := by
  cases mem_cons.mp hz with
  | inl he =>
    cases mem_cons.mp hy with
    | inl he' => exact .inl (he'.trans he.symm)
    | inr hf =>
      obtain ⟨d, hd, rfl⟩ := mem_map.mp hf
      have := H.bounds hd
      have : nil.addr + 20 ≤ heapBase := nil.below
      omega
  | inr hf =>
    obtain ⟨c, hc, rfl⟩ := mem_map.mp hf
    have := H.bounds hc
    have := H.node_or hc hy
    omega

theorem free_subset (hy : y ∈ nil.addr :: free) :
    y ∈ nil.addr :: bs.map Blk.h := by
  cases mem_cons.mp hy with
  | inl he => simp [he]
  | inr hf =>
    obtain ⟨d, hd, -, rfl⟩ := H.mem_free.mp hf
    exact mem_cons_of_mem _ (mem_map_of_mem hd)

theorem free_length : free.length < heapEnd := by
  have h1 := H.listed.length_eq
  have h2 : (bs.filter Blk.listed).length ≤ bs.length := length_filter_le _ _
  have h3 := H.tiles.length_le fun x hx => by have := (H.bounds hx).2.2.2; omega
  have h4 : 0 < heapBase := by decide
  simp only [length_map] at h1
  omega

end

end Layout

/-! ## Two ways a layout changes -/

/-- Blocks that are on no list may be replaced by others that fill the same
space, or at the end of the heap any space, if memory changes only there. -/
theorem Work.replace {l r : List Blk} {a e e' heapEnd' : Nat} (old mid : List Blk)
    (H : Work nil keep m₀ m heapEnd (l ++ (old ++ r)) free)
    (hl : Fills heapBase l a) (hr : Fills e r heapEnd)
    (hr' : Fills e' r heapEnd') (hm : Fills a mid e')
    (oldFree : ∀ b ∈ old, b.listed = false ∧ b ∉ keep) (midFree : ∀ b ∈ mid, b.listed = false)
    (shape : ∀ b ∈ mid, minBlock ≤ b.size ∧ b.size % 4 = 0) (record : ∀ b ∈ mid, Record m' b)
    (low : ∀ x < a, m' x = m x) (high : ∀ x, e ≤ x → x < heapEnd → m' x = m x) :
    Work nil keep m₀ m' heapEnd' (l ++ (mid ++ r)) free := by
  have outside (c : Blk) (hc : c ∈ l ∨ c ∈ r) (x : Nat) (h1 : c.h ≤ x) (h2 : x < c.fin) :
      m' x = m x := by
    cases hc with
    | inl hc => exact low x (Nat.lt_of_lt_of_le h2 (hl.bounds hc).2)
    | inr hc =>
      exact high x (Nat.le_trans (hr.bounds hc).1 h1) (Nat.lt_of_lt_of_le h2 (hr.bounds hc).2)
  have node (y : Nat) (hy : y ∈ nil.addr :: free) (k : Nat) (hk : k < 20) :
      m' (y + k) = m (y + k) := by
    cases mem_cons.mp hy with
    | inl he =>
      have h1 : nil.addr + 20 ≤ heapBase := nil.below
      have h2 := hl.le
      exact low _ (by omega)
    | inr hf =>
      obtain ⟨c, hc, hcl, rfl⟩ := H.mem_free.mp hf
      have hb := H.bounds hc
      apply outside c _ _ (by omega) (by omega)
      simp only [mem_append] at hc
      rcases hc with hc | hc | hc
      · exact .inl hc
      · simp [oldFree c hc] at hcl
      · exact .inr hc
  have listed : (l ++ (mid ++ r)).filter Blk.listed = (l ++ (old ++ r)).filter Blk.listed := by
    have h1 : old.filter Blk.listed = [] :=
      filter_eq_nil_iff.mpr fun b hb => by simp [oldFree b hb]
    have h2 : mid.filter Blk.listed = [] :=
      filter_eq_nil_iff.mpr fun b hb => by simp [midFree b hb]
    simp [filter_append, h1, h2]
  have side (c : Blk) (hc : c ∈ l ++ (mid ++ r)) : c ∈ mid ∨ (c ∈ l ∨ c ∈ r) := by
    simp only [mem_append] at hc
    tauto
  have back (c : Blk) (hc : c ∈ l ∨ c ∈ r) : c ∈ l ++ (old ++ r) := by
    simp only [mem_append]
    tauto
  have kept (c : Blk) (hc : c ∈ keep) : c ∈ l ∨ c ∈ r := by
    have h1 := (H.kept c hc).1
    simp only [mem_append] at h1
    rcases h1 with h1 | h1 | h1
    · exact .inl h1
    · exact absurd hc (oldFree c h1).2
    · exact .inr h1
  constructor
  · constructor
    · exact tiles_append.mpr ⟨a, hl, tiles_append.mpr ⟨e', hm, hr'⟩⟩
    · intro c hc
      cases side c hc with
      | inl hc => exact shape c hc
      | inr hc => exact H.shape c (back c hc)
    · intro c hc
      cases side c hc with
      | inl hc => exact record c hc
      | inr hc =>
        have hb := H.bounds (back c hc)
        apply (H.record c (back c hc)).congr <;> apply outside c hc <;> omega
    · exact H.ring.congr (fun y hy => node y hy 12 (by decide)) fun y hy => node y hy 8 (by decide)
    · rw [listed]
      exact H.listed
    · apply H.sorted.imp_of_mem
      intro x y hx hy hs
      have h1 := node x (mem_cons_of_mem _ hx) 4 (by decide)
      have h2 := node y (mem_cons_of_mem _ hy) 4 (by decide)
      simpa only [size, h1, h2] using hs
    · intro c hc hcl
      cases side c hc with
      | inl hc => simp [midFree c hc] at hcl
      | inr hc => exact H.unused c (back c hc) hcl
  · intro c hc
    refine ⟨?_, (H.kept c hc).2⟩
    have := kept c hc
    simp only [mem_append]
    tauto
  · intro c hc x h1 h2
    rw [outside c (kept c hc) x h1 h2]
    exact H.frame c hc x h1 h2

/-- The same at the end of the heap, which may move. -/
theorem Work.replaceLast {l old : List Blk} {a heapEnd' : Nat} (mid : List Blk)
    (H : Work nil keep m₀ m heapEnd (l ++ old) free) (hl : Fills heapBase l a)
    (hm : Fills a mid heapEnd') (oldFree : ∀ b ∈ old, b.listed = false ∧ b ∉ keep)
    (midFree : ∀ b ∈ mid, b.listed = false)
    (shape : ∀ b ∈ mid, minBlock ≤ b.size ∧ b.size % 4 = 0) (record : ∀ b ∈ mid, Record m' b)
    (low : ∀ x < a, m' x = m x) : Work nil keep m₀ m' heapEnd' (l ++ mid) free := by
  have H' : Work nil keep m₀ m heapEnd (l ++ (old ++ [])) free := by simpa using H
  have hr : Fills heapEnd [] heapEnd := rfl
  have high (x : Nat) (h1 : heapEnd ≤ x) (h2 : x < heapEnd) : m' x = m x := by omega
  simpa using H'.replace old mid hl hr rfl hm oldFree midFree shape record low high

/-- Memory changed in the links of the nodes `ys` only. -/
def LinkWrites (ys : List Nat) (m m' : Mem) : Prop :=
  ∀ x, (∀ y ∈ ys, x ≠ y + 8 ∧ x ≠ y + 12) → m' x = m x

/-- A block goes on the list or comes off it: only links change. -/
theorem Work.relink {l r : List Blk} {v : Bool} {free' : List Nat}
    (H : Work nil keep m₀ m heapEnd (l ++ b :: r) free) (hb : b.used = false)
    (hw : b.written = true) (links_only : LinkWrites (b.h :: nil.addr :: free) m m')
    (ring : Ring (links m') nil.addr free')
    (listed : free'.Perm (((l ++ { b with listed := v } :: r).filter Blk.listed).map Blk.h))
    (sorted : free'.Pairwise fun x y => size m x ≤ size m y) :
    Work nil keep m₀ m' heapEnd (l ++ { b with listed := v } :: r) free' := by
  have hbm : b ∈ l ++ b :: r := by simp
  -- a word that is not a link of a node keeps its value
  have keeps (x : Nat) (hx : ∀ y ∈ nil.addr :: (l ++ b :: r).map Blk.h, x ≠ y + 8 ∧ x ≠ y + 12) :
      m' x = m x := by
    apply links_only
    intro y hy
    apply hx
    cases mem_cons.mp hy with
    | inl he => exact he ▸ mem_cons_of_mem _ (mem_map_of_mem hbm)
    | inr hy => exact H.free_subset hy
  have record (c : Blk) (hc : c ∈ l ++ b :: r) : Record m' c := by
    have hcb := H.bounds hc
    apply (H.record c hc).congr <;> apply keeps <;> intro y hy <;>
      have := H.node_or hc hy <;> omega
  have size_eq (y : Nat) (hy : y ∈ (l ++ b :: r).map Blk.h) : size m' y = size m y := by
    apply keeps
    intro z hz
    have := H.node_spaced (mem_cons_of_mem _ hy) hz
    omega
  have side (c : Blk) (hc : c ∈ l ++ { b with listed := v } :: r) :
      c = { b with listed := v } ∨ c ∈ l ++ b :: r := by
    simp only [mem_append, mem_cons] at hc ⊢
    tauto
  constructor
  · constructor
    · obtain ⟨a, h1, h2⟩ := tiles_append.mp H.tiles
      exact tiles_append.mpr ⟨a, h1, h2⟩
    · intro c hc
      cases side c hc with
      | inl he => exact he ▸ H.shape b hbm
      | inr hc => exact H.shape c hc
    · intro c hc
      cases side c hc with
      | inl he =>
        have := record b hbm
        exact he ▸ ⟨this.magic, this.size, this.used, this.ftrMagic, this.ftr⟩
      | inr hc => exact record c hc
    · exact ring
    · exact listed
    · apply sorted.imp_of_mem
      intro x y hx hy hs
      have mem (z : Nat) (hz : z ∈ free') : z ∈ (l ++ b :: r).map Blk.h := by
        obtain ⟨c, hc, rfl⟩ := mem_map.mp (listed.mem_iff.mp hz)
        have : c.h ∈ (l ++ { b with listed := v } :: r).map Blk.h :=
          mem_map_of_mem (mem_filter.mp hc).1
        simpa using this
      rwa [size_eq x (mem x hx), size_eq y (mem y hy)]
    · intro c hc hcl
      cases side c hc with
      | inl he => exact he ▸ ⟨hb, hw⟩
      | inr hc => exact H.unused c hc hcl
  · intro c hc
    obtain ⟨h1, h2⟩ := H.kept c hc
    refine ⟨?_, h2⟩
    have hne : c ≠ b := by rintro rfl; simp [hb] at h2
    simp only [mem_append, mem_cons] at h1 ⊢
    tauto
  · intro c hc x h1 h2
    obtain ⟨h3, h4⟩ := H.kept c hc
    rw [← H.frame c hc x h1 h2]
    have hcl : c.listed = false := by
      by_contra hcl
      simp [H.unused c h3 (by simpa using hcl)] at h4
    apply links_only
    intro y hy
    have hy' : y + 20 ≤ c.h ∨ c.fin ≤ y := by
      cases mem_cons.mp hy with
      | inl he =>
        have hne : b ≠ c := by rintro rfl; simp [hb] at h4
        have := H.bounds hbm
        have := (H.apart hbm h3).resolve_left hne
        omega
      | inr hy => exact H.node_apart h3 hcl hy
    omega

end Sysint.Heap
