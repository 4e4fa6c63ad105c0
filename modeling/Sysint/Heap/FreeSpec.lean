import Sysint.Heap.AllocSpec

/-! `heap::free` keeps the heap's invariant: the freed block is taken in hand,
merged with its unused neighbours, cut or dropped at the end of the heap, and put
on the list. -/
namespace Sysint.Heap
open Tiling Dlink List

variable {nil : Sentinel} {keep : List Blk} {m₀ m m' : Mem} {heapEnd : Nat} {bs l r : List Blk}
  {b c : Blk} {free : List Nat} {s s' : Kheap} {o : Option Nat}

/-! ## Merging -/

/-- The records of two neighbours serve as the records of their union once the
size is right. -/
theorem Record.fuse (hb : Record m b) (hc : Record m c) (hw : b.written = true)
    (hbc : c.h = b.fin) (h0 : m' b.h = m b.h) (h1 : m' (b.h + 4) = b.size + c.size)
    (h2 : m' (b.h + 16) = m (b.h + 16)) (h3 : m' (c.fin - 8) = m (c.fin - 8))
    (h4 : m' (c.fin - 8 + 4) = m (c.fin - 8 + 4)) :
    Record m' ⟨b.h, b.size + c.size, b.used, false, c.ftr, true⟩ := by
  have hfin : Blk.fin ⟨b.h, b.size + c.size, b.used, false, c.ftr, true⟩ = c.fin := by
    simp only [Blk.fin] at hbc ⊢
    omega
  refine ⟨fun _ => h0.trans (hb.magic hw), fun _ => h1, fun _ => h2.trans (hb.used hw), ?_, ?_⟩
  · rw [hfin]
    exact h3.trans hc.ftrMagic
  · rw [hfin]
    exact h4.trans hc.ftr

/-- Two blocks on no list become one. -/
theorem Work.fuse (W : Work nil keep m₀ m heapEnd (l ++ b :: c :: r) free)
    (hb : b.listed = false ∧ b ∉ keep) (hc : c.listed = false ∧ c ∉ keep) (hw : b.written = true)
    (out : ∀ x, x < b.h ∨ c.fin ≤ x → m' x = m x) (h0 : m' b.h = m b.h)
    (h1 : m' (b.h + 4) = b.size + c.size) (h2 : m' (b.h + 16) = m (b.h + 16))
    (h3 : m' (c.fin - 8) = m (c.fin - 8)) (h4 : m' (c.fin - 8 + 4) = m (c.fin - 8 + 4)) :
    Work nil keep m₀ m' heapEnd
      (l ++ ⟨b.h, b.size + c.size, b.used, false, c.ftr, true⟩ :: r) free := by
  obtain ⟨a, hl, rfl, hbc, hr⟩ := tiles_append.mp W.tiles
  have hr : Fills c.fin r heapEnd := by rw [Blk.fin, hbc]; exact hr
  have hsb := W.shape b (by simp)
  have hsc := W.shape c (by simp)
  have hrec := (W.record b (by simp)).fuse (W.record c (by simp)) hw hbc h0 h1 h2 h3 h4
  refine W.replace [b, c] [_] hl hr hr ?_ ?_ ?_ ?_ ?_ ?_ ?_
  · exact ⟨rfl, by rw [Blk.fin, hbc, Nat.add_assoc]; rfl⟩
  · simp [hb, hc]
  · simp
  · simp only [mem_singleton, forall_eq]
    omega
  · simpa using hrec
  · exact fun x hx => out x (.inl hx)
  · exact fun x hx _ => out x (.inr hx)

/-- Neighbours in the list of blocks are neighbours in memory. -/
theorem Layout.adjacent (H : Layout nil m heapEnd (l ++ b :: c :: r) free) : c.h = b.fin := by
  obtain ⟨a, -, rfl, hbc, -⟩ := tiles_append.mp H.tiles
  exact hbc

theorem Work.fuseRight (W : Work nil keep m₀ m heapEnd (l ++ b :: c :: r) free)
    (hb : b.listed = false ∧ b ∉ keep) (hw : b.written = true) (hc : c.listed = true) :
    Work nil keep m₀ (set (setSize (remove m c.h) b.h (b.size + c.size)) c.h headerRmMagic) heapEnd
      (l ++ ⟨b.h, b.size + c.size, b.used, false, c.ftr, true⟩ :: r) (free.erase c.h) := by
  have hcm : c ∈ l ++ b :: c :: r := by simp
  have hcu := (W.unused c hcm hc).1
  have h1 := W.bounds (b := b) (by simp)
  have h2 := W.bounds hcm
  have h3 := W.adjacent
  rw [append_cons] at W
  have W₁ := W.unlist hc
  rw [← append_cons] at W₁
  apply W₁.fuse hb ⟨rfl, W₁.unused_not_kept hcu⟩ hw
  · intro x hx
    have hx : x < b.h ∨ c.fin ≤ x := hx
    rw [set_apply, setSize_apply, if_neg (by omega), if_neg (by omega)]
  · rw [set_apply, setSize_apply, if_neg (by omega), if_neg (by omega)]
  · rw [set_apply, setSize_apply, if_neg (by omega), if_pos rfl]
  · rw [set_apply, setSize_apply, if_neg (by omega), if_neg (by omega)]
  · change set _ _ _ (c.fin - 8) = remove m c.h (c.fin - 8)
    rw [set_apply, setSize_apply, if_neg (by omega), if_neg (by omega)]
  · change set _ _ _ (c.fin - 8 + 4) = remove m c.h (c.fin - 8 + 4)
    rw [set_apply, setSize_apply, if_neg (by omega), if_neg (by omega)]

theorem Work.fuseLeft (W : Work nil keep m₀ m heapEnd (l ++ c :: b :: r) free)
    (hb : b.listed = false ∧ b ∉ keep) (hc : c.listed = true) :
    Work nil keep m₀ (set (setSize (remove m c.h) c.h (c.size + b.size)) (c.fin - 8) footerRmMagic)
      heapEnd (l ++ ⟨c.h, c.size + b.size, c.used, false, b.ftr, true⟩ :: r) (free.erase c.h) := by
  have hcm : c ∈ l ++ c :: b :: r := by simp
  obtain ⟨hcu, hcw⟩ := W.unused c hcm hc
  have h1 := W.bounds (b := b) (by simp)
  have h2 := W.bounds hcm
  have h3 := W.adjacent
  have W₁ := W.unlist hc
  apply W₁.fuse ⟨rfl, W₁.unused_not_kept hcu⟩ hb hcw
  · intro x hx
    have hx : x < c.h ∨ b.fin ≤ x := hx
    rw [set_apply, setSize_apply, if_neg (by omega), if_neg (by omega)]
  · change set _ _ _ c.h = remove m c.h c.h
    rw [set_apply, setSize_apply, if_neg (by omega), if_neg (by omega)]
  · change set _ _ _ (c.h + 4) = c.size + b.size
    rw [set_apply, setSize_apply, if_neg (by omega), if_pos rfl]
  · change set _ _ _ (c.h + 16) = remove m c.h (c.h + 16)
    rw [set_apply, setSize_apply, if_neg (by omega), if_neg (by omega)]
  · rw [set_apply, setSize_apply, if_neg (by omega), if_neg (by omega)]
  · rw [set_apply, setSize_apply, if_neg (by omega), if_neg (by omega)]

/-- An unused block between operations passes the tests for merging. -/
theorem Layout.mergeable (H : Layout nil m heapEnd bs free) (hc : c ∈ bs) (hs : c.Settled)
    (hu : c.used = false) :
    magic m c.h = headerMagic ∧ prev m c.h ≠ 0 ∧ Heap.used m c.h = false := by
  have hl : c.listed = true := by rw [hs.listed, hu]; rfl
  have hrec := H.record c hc
  refine ⟨hrec.magic hs.written, ?_, (hrec.used_eq hs.written).trans hu⟩
  have hn : nil.addr + 20 ≤ heapBase := nil.below
  have hpos := nil.pos
  intro h0
  have hp := (H.neighbours hc hl).1
  rw [h0] at hp
  cases mem_cons.mp hp with
  | inl he => omega
  | inr hf =>
    obtain ⟨d, hd, -, he⟩ := H.mem_free.mp hf
    have := H.bounds hd
    omega

/-- After the first merge the block to the right, if there is one, is used. -/
theorem Hand.mergeRight (H : Hand nil keep m₀ s l b r free) {m' : Mem} {f' : Nat}
    (hres : mergeRight s.mem s.heapEnd b.h (b.fin - 8) = (m', f')) :
    ∃ b' r' free', Hand nil keep m₀ { s with mem := m' } l b' r' free' ∧ b'.h = b.h ∧
      f' = b'.fin - 8 ∧ r' <:+ r ∧ (Parted r → ∀ c ∈ r'.head?, c.used = true) := by
  have hbm : b ∈ l ++ b :: r := by simp
  have hbb := H.bounds hbm
  have hrec := H.record b hbm
  have htop := H.ends.top
  have hright : u32 (b.h + size s.mem b.h) = b.fin := by
    rw [hrec.size_eq H.written]
    exact u32_of_lt (n := b.fin) (by omega)
  simp only [Heap.mergeRight, hright] at hres
  cases r with
  | nil =>
    have hlast : b.fin = s.heapEnd := by
      obtain ⟨a, -, rfl, he⟩ := tiles_append.mp H.tiles
      exact he
    rw [if_neg (by omega)] at hres
    obtain ⟨rfl, rfl⟩ := Prod.mk.inj hres
    exact ⟨b, [], free, H, rfl, rfl, suffix_rfl, by simp⟩
  | cons c r =>
    have hcm : c ∈ l ++ b :: c :: r := by simp
    have hcs := H.right c (by simp)
    have hcrec := H.record c hcm
    have hcb := H.bounds hcm
    have hch := H.adjacent
    rw [← hch, H.footer_eq htop hcm hcs.written] at hres
    cases hcu : c.used with
    | true =>
      have hused : Heap.used s.mem c.h = true := (hcrec.used_eq hcs.written).trans hcu
      have hsame : (s.mem, b.fin - 8) = (m', f') := by
        rw [← hres, ← hch]
        simp [hused]
      obtain ⟨rfl, rfl⟩ := Prod.mk.inj hsame
      exact ⟨b, c :: r, free, H, rfl, rfl, suffix_rfl, by simp [hcu]⟩
    | false =>
      have hcl : c.listed = true := by rw [hcs.listed, hcu]; rfl
      obtain ⟨h1, h2, h3⟩ := H.mergeable hcm hcs hcu
      have hsum : u32 (size s.mem b.h + size s.mem c.h) = b.size + c.size := by
        rw [hrec.size_eq H.written, hcrec.size_eq hcs.written, u32_of_lt (by omega)]
      rw [if_pos ⟨by omega, h1, h2⟩, if_pos ⟨hcrec.ftrMagic, hcrec.ftr.trans hcs.ftr, h3⟩, hsum,
        H.remove_setSize hcm hcl hbm] at hres
      obtain ⟨rfl, rfl⟩ := Prod.mk.inj hres
      refine ⟨_, r, _, ⟨H.toWork.fuseRight ⟨H.off, H.not_kept⟩ H.written hcl, H.ends,
        H.pages, H.left,
        fun d hd => H.right d (by simp [hd]), ?_, rfl, rfl⟩, rfl, ?_, suffix_cons _ _, ?_⟩
      · rw [← H.others]
        simp [hcu]
      · simp only [Blk.fin] at hcb hch ⊢
        omega
      · intro hp
        exact ((parted_append_cons (l := []) hcu).mp hp).2.2.2

/-- After the second merge so is the block to the left. What is left of the header of a
block that was given away keeps its size. -/
theorem Hand.mergeLeft (H : Hand nil keep m₀ s l b r free) {m' : Mem} {h' : Nat}
    (hres : mergeLeft s.mem b.h = (m', h')) :
    ∃ l' b' free', Hand nil keep m₀ { s with mem := m' } l' b' r free' ∧ b'.h = h' ∧
      b'.fin = b.fin ∧ l' <+: l ∧ (Parted l → ∀ c ∈ l'.getLast?, c.used = true) ∧
      (b'.h = b.h ∨ b'.h + 36 ≤ b.h ∧ m' (b.h + 4) = b.size) := by
  have hbm : b ∈ l ++ b :: r := by simp
  have hbb := H.bounds hbm
  have htop := H.ends.top
  have hmin : minBlock = 36 := rfl
  simp only [Heap.mergeLeft] at hres
  rcases eq_nil_or_concat l with rfl | ⟨l, c, rfl⟩
  · have hfirst : heapBase = b.h := by
      obtain ⟨a, hl, rfl, -⟩ := tiles_append.mp H.tiles
      exact hl
    rw [if_neg (by omega)] at hres
    obtain ⟨rfl, rfl⟩ := Prod.mk.inj hres
    exact ⟨[], b, free, H, rfl, rfl, prefix_rfl, by simp, .inl rfl⟩
  rw [concat_eq_append] at H
  have W : Work nil keep m₀ s.mem s.heapEnd (l ++ c :: b :: r) free := by
    simpa using H.toWork
  have hcm : c ∈ l ++ c :: b :: r := by simp
  have hcs := H.left c (by simp)
  have hcrec := W.record c hcm
  have hcb := W.bounds hcm
  have hch := W.adjacent
  have e1 : sub32 b.h footerSize = c.fin - 8 := by
    rw [sub32_of_le (by omega) (by simp only [footerSize]; omega), hch]
    rfl
  have e2 : footerHeader s.mem (c.fin - 8) = c.h := hcrec.ftr.trans hcs.ftr
  rw [if_pos (by omega), e1, if_pos hcrec.ftrMagic, e2] at hres
  cases hcu : c.used with
  | true =>
    have hused : Heap.used s.mem c.h = true := (hcrec.used_eq hcs.written).trans hcu
    rw [if_neg (by simp [hused])] at hres
    obtain ⟨rfl, rfl⟩ := Prod.mk.inj hres
    have hall : l ++ [c] <+: l.concat c := by simp
    exact ⟨l ++ [c], b, free, H, rfl, rfl, hall, by simp [hcu], .inl rfl⟩
  | false =>
    have hcl : c.listed = true := by rw [hcs.listed, hcu]; rfl
    obtain ⟨h1, h2, h3⟩ := W.mergeable hcm hcs hcu
    have h4 : u32 (c.h + size s.mem c.h) = b.h := by
      rw [hcrec.size_eq hcs.written, hch]
      exact u32_of_lt (n := c.fin) (by omega)
    have W₁ := W.unlist hcl
    have e3 : size (remove s.mem c.h) c.h = c.size :=
      (W₁.record { c with listed := false } (by simp)).size_eq hcs.written
    have e4 := (W₁.record b (by simp)).size_eq H.written
    have hsum : u32 (size (remove s.mem c.h) c.h + size (remove s.mem c.h) b.h) =
        c.size + b.size := by
      rw [e3, e4, u32_of_lt (by omega)]
    rw [if_pos ⟨h1, h3, h2, h4⟩, hsum] at hres
    obtain ⟨rfl, rfl⟩ := Prod.mk.inj hres
    refine ⟨l, _, _, ⟨W.fuseLeft ⟨H.off, H.not_kept⟩ hcl, H.ends, H.pages,
      fun d hd => H.left d (by simp [hd]), H.right, ?_, rfl, rfl⟩, rfl, ?_, ?_, ?_, .inr ⟨?_, ?_⟩⟩
    · rw [← H.others]
      simp [hcu]
    · simp only [Blk.fin] at hch ⊢
      omega
    · rw [concat_eq_append]
      exact prefix_append _ _
    · intro hp
      rw [concat_eq_append] at hp
      exact ((parted_append_cons hcu).mp hp).2.2.1
    · dsimp only
      omega
    · rw [set_apply, if_neg (by omega), setSize_apply, if_neg (by omega)]
      exact e4

/-! ## Giving pages back -/

theorem srel_spec {dec e : Nat} (hp : Paged s) (he : sub32 s.heapEnd dec = e) (hpage : e % 4096 = 0)
    (htop : e < 2 ^ 32) (hle : e ≤ s.heapEnd) :
    (srel s dec).heapEnd = e ∧ (srel s dec).mem = s.mem ∧ Paged (srel s dec) := by
  have halign : alignAddr e = e := by
    rw [alignAddr_eq htop, u32_of_lt] <;> omega
  refine ⟨by simp [srel, he, halign], rfl, ?_⟩
  intro p h1 h2
  simp only [srel, he, halign] at h2 ⊢
  have hmap := hp p h1 (by omega)
  have hlt : ¬ e ≤ p * 4096 := by omega
  simp [hmap, hlt]

/-- Where a partly released block ends: behind room for a smallest block, on a
page boundary. -/
theorem release_start {h e : Nat} (hh : h % 4 = 0) (he : e < 2 ^ 32) (hpage : e % 4096 = 0)
    (hle : h + minSrelSize ≤ e) : ∃ start, (if alignOffset h < minBlockSize + footerSize
        then u32 (u32 (u32 (h + headerSize) + alignOffset h) + 0x1000)
        else u32 (u32 (h + headerSize) + alignOffset h)) = start ∧
      start % 4096 = 0 ∧ h + minBlock ≤ start ∧ start ≤ e := by
  have hsrel : minSrelSize = 0x100000 := rfl
  have h8 : minBlockSize + footerSize = 16 := rfl
  have h20 : headerSize = 20 := rfl
  have h36 : minBlock = 36 := rfl
  obtain ⟨h1, h2, -⟩ := alignOffset_spec (h := h) (by omega) hh
  have e1 : u32 (h + 20) = h + 20 := u32_of_lt (by omega)
  have e2 : u32 (h + 20 + alignOffset h) = h + 20 + alignOffset h := u32_of_lt (by omega)
  have e3 : u32 (h + 20 + alignOffset h + 0x1000) = h + 20 + alignOffset h + 0x1000 :=
    u32_of_lt (by omega)
  refine ⟨_, rfl, ?_⟩
  rw [h8, h20, e1, e2, e3]
  split <;> omega

/-- Behind its new end the heap is not mapped any more. -/
theorem srel_unmapped {dec e : Nat} (he : (srel s dec).heapEnd = e) (hpage : s.heapEnd % 4096 = 0)
    (hpage' : e % 4096 = 0) (hlt : e < s.heapEnd) :
    (srel s dec).mapped ((s.heapEnd - 8) / 4096) = false := by
  have h1 : e ≤ (s.heapEnd - 8) / 4096 * 4096 := by omega
  have h2 : (s.heapEnd - 8) / 4096 * 4096 < s.heapEnd := by omega
  have he : alignAddr (sub32 s.heapEnd dec) = e := he
  simp [srel, he, h1, h2]

/-- What `release` makes of the block `b` in hand: it stays, it keeps a part and the heap
ends with that, or it is gone. -/
inductive Released (nil : Sentinel) (keep : List Blk) (m₀ : Mem) (s : Kheap) (l : List Blk)
    (b : Blk)
    (r : List Blk) (free : List Nat) (s' : Kheap) : Option Nat → Prop where
  | stays (same : s' = s) : Released nil keep m₀ s l b r free s' (some (b.fin - 8))
  | shrinks {c : Blk} {f : Nat} (hand : Hand nil keep m₀ s' l c r free) (start : c.h = b.h)
      (footer : f = c.fin - 8) (fin : c.fin = s'.heapEnd) (less : s'.heapEnd ≤ s.heapEnd)
      (unmapped : s'.mapped ((b.fin - 8) / 4096) = false)
      (mem : ∀ x, x ≠ b.h + 4 → x < c.fin - 8 → s'.mem x = s.mem x) :
      Released nil keep m₀ s l b r free s' (some f)
  | gone (last : r = []) (work : Work nil keep m₀ s'.mem s'.heapEnd l free)
    (ends : EndOk s'.heapEnd)
      (pages : Paged s') (fin : s'.heapEnd = b.h) : Released nil keep m₀ s l b r free s' none

theorem Hand.release (H : Hand nil keep m₀ s l b r free)
    (hres : release s b.h (b.fin - 8) = (s', o)) : Released nil keep m₀ s l b r free s' o := by
  have hbm : b ∈ l ++ b :: r := by simp
  have hbb := H.bounds hbm
  have hrec := H.record b hbm
  have h4 := H.aligned hbm
  obtain ⟨hinit, hpage, htop⟩ := H.ends
  have hmin : minBlock = 36 := rfl
  have hsrel : minSrelSize = 0x100000 := rfl
  have hfoot : u32 (b.fin - 8 + footerSize) = b.fin := by
    simp only [footerSize]
    rw [u32_of_lt] <;> omega
  simp only [Heap.release, hfoot, hrec.size_eq H.written] at hres
  by_cases h1 : s.heapEnd = b.fin ∧ minSrelSize ≤ b.size ∧ heapBase + heapInitSize < b.h
  · rw [if_pos h1] at hres
    obtain ⟨hfin, hbig, hbase⟩ := h1
    obtain rfl : r = [] := by
      obtain ⟨a, -, rfl, hr⟩ := tiles_append.mp H.tiles
      cases r with
      | nil => rfl
      | cons c r =>
        have := H.bounds (b := c) (by simp)
        have := H.adjacent
        omega
    by_cases h2 : b.h % 0x1000 ≠ 0
    · rw [if_pos h2] at hres
      obtain ⟨start, hstart, hs4, hs36, hsle⟩ :=
        release_start (e := s.heapEnd) h4 htop hpage (by omega)
      rw [hstart] at hres
      by_cases h3 : minSrelSize ≤ sub32 s.heapEnd start
      · rw [if_pos h3] at hres
        rw [sub32_of_le htop hsle] at h3
        have hsub : sub32 s.heapEnd (sub32 s.heapEnd start) = start := by
          rw [sub32_of_le htop hsle, sub32_of_le htop (by omega)]
          omega
        obtain ⟨he, hm, hp⟩ := srel_spec H.pages hsub hs4 (by omega) hsle
        have hun := srel_unmapped he hpage hs4 (by omega)
        have e1 : sub32 start b.h = start - b.h := sub32_of_le (by omega) (by omega)
        have e2 : sub32 start footerSize = b.h + (start - b.h) - 8 := by
          rw [sub32_of_le (by omega) (by simp only [footerSize]; omega)]
          simp only [footerSize]
          omega
        obtain ⟨rfl, rfl⟩ := Prod.mk.inj hres
        have W := H.toWork.moveEnd H.off H.not_kept H.written (k := start - b.h) (by omega)
          (by omega)
        have hsum : b.h + (start - b.h) = start := by omega
        have hends : EndOk start := ⟨by omega, hs4, by omega⟩
        have hfin' : Blk.fin ⟨b.h, start - b.h, b.used, false, b.h, true⟩ = start := hsum
        refine .shrinks (c := ⟨b.h, start - b.h, b.used, false, b.h, true⟩)
          ⟨?_, ?_, hp, H.left, H.right, H.others, rfl, rfl⟩ rfl ?_ ?_ ?_ ?_ ?_
        · simpa only [he, hm, e1, e2, hsum] using W
        · change EndOk (srel s _).heapEnd
          rw [he]
          exact hends
        · rw [he, e2, hfin', hsum]
        · exact hfin'.trans he.symm
        · exact Nat.le_trans (Nat.le_of_eq he) hsle
        · rw [← hfin]
          exact hun
        · intro x h1 h2
          rw [hfin'] at h2
          simp only [writeFooter_apply, setSize_apply, he, e2, hsum, hm]
          rw [if_neg (by omega), if_neg (by omega), if_neg h1]
      · rw [if_neg h3] at hres
        obtain ⟨rfl, rfl⟩ := Prod.mk.inj hres
        exact .stays rfl
    · rw [if_neg h2] at hres
      obtain ⟨rfl, rfl⟩ := Prod.mk.inj hres
      have hsub : sub32 s.heapEnd b.size = b.h := by
        rw [sub32_of_le htop (by omega)]
        omega
      obtain ⟨he, hm, hp⟩ := srel_spec H.pages hsub (by omega) (by omega) (by omega)
      refine .gone rfl ?_ ?_ hp he
      · obtain ⟨a, hl, rfl, -⟩ := tiles_append.mp H.tiles
        have W : Work nil keep m₀ s.mem b.h (l ++ []) free := H.toWork.replaceLast [] hl rfl
          (by simp [H.off, H.not_kept]) (by simp) (by simp) (by simp) (fun _ _ => rfl)
        simpa only [append_nil, he, hm] using W
      · rw [he]
        exact ⟨by omega, by omega, by omega⟩
  · rw [if_neg h1] at hres
    obtain ⟨rfl, rfl⟩ := Prod.mk.inj hres
    exact .stays rfl

/-! ## The whole of free -/

theorem Hand.putBack (H : Hand nil keep m₀ s l b r free) :
    ∃ s' free', Heap.putBack nil.addr s b.h (b.fin - 8) = some s' ∧
      Inv nil s' (l ++ Blk.spare b.h b.size :: r) free' ∧ s'.heapEnd = s.heapEnd ∧
      s'.mapped = s.mapped ∧ (∀ c ∈ keep, ∀ x, c.h ≤ x → x < c.fin → s'.mem x = m₀ x) ∧
      ∀ x, b.h + 20 ≤ x → x < b.fin - 8 → s'.mem x = s.mem x := by
  have hbm : b ∈ l ++ b :: r := by simp
  have hbb := H.bounds hbm
  have hrec := H.record b hbm
  have hmem (x : Nat) : setUsed (set s.mem (b.fin - 8 + 4) b.h) b.h false x =
      if x = b.h + 16 then 0 else if x = b.fin - 8 + 4 then b.h else s.mem x := by
    rw [setUsed_apply, set_apply]
    rfl
  have hrec' : Record (setUsed (set s.mem (b.fin - 8 + 4) b.h) b.h false)
      ⟨b.h, b.size, false, false, b.h, true⟩ := by
    refine ⟨fun _ => ?_, fun _ => ?_, fun _ => ?_, ?_, ?_⟩
    · change setUsed _ _ _ b.h = _
      rw [hmem, if_neg (by omega), if_neg (by omega)]
      exact hrec.magic H.written
    · change setUsed _ _ _ (b.h + 4) = _
      rw [hmem, if_neg (by omega), if_neg (by omega)]
      exact hrec.size H.written
    · change setUsed _ _ _ (b.h + 16) = _
      rw [hmem, if_pos rfl]
      rfl
    · change setUsed _ _ _ (b.fin - 8) = _
      rw [hmem, if_neg (by omega), if_neg (by omega)]
      exact hrec.ftrMagic
    · change setUsed _ _ _ (b.fin - 8 + 4) = _
      rw [hmem, if_neg (by omega), if_pos rfl]
  have hout (x : Nat) (hx : x < b.h ∨ b.fin ≤ x) :
      setUsed (set s.mem (b.fin - 8 + 4) b.h) b.h false x = s.mem x := by
    rw [hmem, if_neg (by omega), if_neg (by omega)]
  have H' := H.rewrite ⟨b.h, b.size, false, false, b.h, true⟩ rfl rfl rfl rfl hrec' hout
  obtain ⟨m', free', hins, W, hin⟩ := H'.toWork.enlist rfl rfl rfl
  have hres : Heap.putBack nil.addr s b.h (b.fin - 8) = some { s with mem := m' } :=
    Option.map_eq_some_iff.mpr ⟨m', hins, rfl⟩
  refine ⟨_, free', hres, ⟨W.toLayout, ?_, H.ends, H.pages⟩, rfl, rfl, W.frame, ?_⟩
  · intro c hc
    rcases mem_append.mp hc with hc | hc
    · exact H.left c hc
    · cases mem_cons.mp hc with
      | inl he => exact he ▸ Blk.settled_spare _ _
      | inr hc => exact H.right c hc
  · intro x h1 h2
    change m' x = s.mem x
    rw [hin x h1 (by change x < b.fin; omega)]
    change setUsed _ _ _ x = _
    rw [hmem, if_neg (by omega), if_neg (by omega)]

theorem free_eq {p h f : Nat} {nil : Nat} (hc : checkBlock s p = true)
    (hr : Heap.mergeRight s.mem s.heapEnd (sub32 p headerSize) (footer s.mem (sub32 p headerSize)) =
      (m, f))
    (hl : Heap.mergeLeft m (sub32 p headerSize) = (m', h))
    (ho : Heap.release { s with mem := m' } h f = (s', o)) :
    Heap.free nil s p = o.elim (some s') (Heap.putBack nil s' h) := by
  rw [Heap.free, if_pos hc]
  simp [hr, hl, ho]

/-- The check fails on a block that is marked unused. -/
theorem checkBlock_unused {h : Nat} (hh : sub32 (h + headerSize) headerSize = h)
    (hu : Heap.used s.mem h = false) : checkBlock s (h + headerSize) = false := by
  simp [checkBlock, hh, hu]

/-- It fails behind the end of the heap. -/
theorem checkBlock_outside {p : Nat} (h : s.heapEnd ≤ p) : checkBlock s p = false := by
  have : ¬ p < s.heapEnd := by omega
  simp [checkBlock, this]

/-- It fails if the footer that the header leads to is not mapped or names another header. -/
theorem checkBlock_footer {h f : Nat} (hh : sub32 (h + headerSize) headerSize = h)
    (hf : footer s.mem h = f) (hbad : s.mapped (f / 4096) = false ∨ footerHeader s.mem f ≠ h) :
    checkBlock s (h + headerSize) = false := by
  simp only [checkBlock, hh, hf]
  rcases hbad with hbad | hbad
  · simp [hbad]
  · simp [hbad]

/-- What is left of a block that was freed. The check of a second `free` fails on it, its
header being marked unused, leading to a footer that names another header or is not mapped,
or being behind the end of the heap. -/
theorem Hand.caught (H : Hand nil keep m₀ s l b r free) {h k : Nat}
    (hh : sub32 (h + headerSize) headerSize = h) (hk : h + k = b.fin) (h36 : 36 ≤ k)
    (hle : b.h = h ∨ b.h + 36 ≤ h ∧ s.mem (h + 4) = k) {s₁ s₂ : Kheap}
    (R : Released nil keep m₀ s l b r free s₁ o)
    (hres : o.elim (some s₁) (Heap.putBack nil.addr s₁ b.h) = some s₂) :
    checkBlock s₂ (h + headerSize) = false := by
  have hbb := H.bounds (b := b) (by simp)
  have htop := H.ends.top
  have hfoot {m : Mem} (hm : m (h + 4) = k) : footer m h = b.fin - 8 := by
    rw [footer, size, hm, hk, u32_of_lt (by omega), sub32_of_le (by omega)]
    · rfl
    · simp only [footerSize]; omega
  have hunused {s : Kheap} {free : List Nat} {k : Nat}
      (I : Inv nil s (l ++ Blk.spare b.h k :: r) free) : Heap.used s.mem b.h = false :=
    (I.record (Blk.spare b.h k) (by simp)).used_eq rfl
  cases R with
  | gone _ _ _ _ hend =>
    obtain rfl := Option.some.inj hres
    exact checkBlock_outside (by omega)
  | stays hs =>
    subst hs
    obtain ⟨s₃, free', hput, I, -, -, -, hin⟩ := H.putBack
    obtain rfl := Option.some.inj (hput.symm.trans hres)
    rcases hle with rfl | ⟨hlt, hsize⟩
    · exact checkBlock_unused hh (hunused I)
    · apply checkBlock_footer hh (hfoot ((hin _ (by omega) (by omega)).trans hsize))
      have hftr : footerHeader s₃.mem (b.fin - 8) = b.h :=
        (I.record (Blk.spare b.h b.size) (by simp)).ftr
      exact .inr (by omega)
  | shrinks H₁ hstart hf hfin _ hun hmem =>
    subst hf
    obtain ⟨s₃, free', hput, I, hend, hmap, -, hin⟩ := H₁.putBack
    rw [hstart] at hput
    obtain rfl := Option.some.inj (hput.symm.trans hres)
    rw [hstart] at I hin
    rcases hle with rfl | ⟨hlt, hsize⟩
    · exact checkBlock_unused hh (hunused I)
    by_cases hp : h + headerSize < s₃.heapEnd
    · simp only [headerSize] at hp
      have hword : s₃.mem (h + 4) = k := by
        rw [hin _ (by omega) (by omega), hmem _ (by omega) (by omega)]
        exact hsize
      apply checkBlock_footer hh (hfoot hword)
      rw [hmap]
      exact .inl hun
    · exact checkBlock_outside (by omega)

/-- A used block is taken in hand. -/
theorem Inv.hand (I : Inv nil s (l ++ b :: r) free) (hu : b.used = true) :
    Hand nil ((l ++ r).filter Blk.used) s.mem s l b r free := by
  obtain ⟨hw, hlist, -⟩ := I.settled b (by simp)
  refine ⟨⟨I.toLayout, ?_, fun _ _ _ _ _ => rfl⟩, I.ends, I.pages,
    fun c hc => I.settled c (by simp [hc]), fun c hc => I.settled c (by simp [hc]), rfl, ?_, hw⟩
  · intro c hc
    obtain ⟨h1, h2⟩ := mem_filter.mp hc
    refine ⟨?_, h2⟩
    cases mem_append.mp h1 with
    | inl h => simp [h]
    | inr h => simp [h]
  · rw [hlist, hu]
    rfl

/-- Freeing a used block leaves the other used blocks as they were. The block cannot be
freed a second time, and unused blocks stay apart. -/
theorem Inv.freed (I : Inv nil s bs free) (hb : b ∈ bs) (hu : b.used = true)
    (hres : Heap.free nil.addr s (b.h + headerSize) = some s') :
    ∃ bs' free', Inv nil s' bs' free' ∧ (b :: bs'.filter Blk.used).Perm (bs.filter Blk.used) ∧
      (∀ c ∈ bs'.filter Blk.used, ∀ x, c.h ≤ x → x < c.fin → s'.mem x = s.mem x) ∧
      checkBlock s' (b.h + headerSize) = false ∧ (Parted bs → Parted bs') ∧
      s'.heapEnd ≤ s.heapEnd := by
  obtain ⟨hw, -⟩ := I.settled b hb
  have hbb := I.bounds hb
  have htop := I.ends.top
  have hheader : sub32 (b.h + headerSize) headerSize = b.h := by
    rw [sub32_of_le (by simp only [headerSize]; omega) (by omega)]
    omega
  have hfoot := I.footer_eq htop hb hw
  obtain ⟨l, r, rfl⟩ := append_of_mem hb
  have H := I.hand hu
  have hperm : (b :: (l ++ r).filter Blk.used).Perm ((l ++ b :: r).filter Blk.used) := by
    rw [filter_append, filter_append, filter_cons_of_pos hu]
    exact perm_middle.symm
  cases hc : checkBlock s (b.h + headerSize) with
  | false => simp [Heap.free, hc] at hres
  | true =>
    rcases hm₁ : Heap.mergeRight s.mem s.heapEnd b.h (b.fin - 8) with ⟨m₁, f₁⟩
    obtain ⟨b₁, r₁, free₁, H₁, hh₁, rfl, hsuf, hright⟩ := H.mergeRight hm₁
    rcases hm₂ : Heap.mergeLeft m₁ b₁.h with ⟨m₂, h₂⟩
    obtain ⟨l₂, b₂, free₂, H₂, rfl, hfin₂, hpre, hleft, hkept⟩ := H₁.mergeLeft hm₂
    rcases hr₃ : Heap.release { s with mem := m₂ } b₂.h (b₂.fin - 8) with ⟨s₃, o₃⟩
    have hm₁' : Heap.mergeRight s.mem s.heapEnd (sub32 (b.h + headerSize) headerSize)
        (footer s.mem (sub32 (b.h + headerSize) headerSize)) = (m₁, b₂.fin - 8) := by
      rw [hheader, hfoot, hfin₂]
      exact hm₁
    have hm₂' : Heap.mergeLeft m₁ (sub32 (b.h + headerSize) headerSize) = (m₂, b₂.h) := by
      rw [hheader, ← hh₁]
      exact hm₂
    rw [free_eq hc hm₁' hm₂' hr₃] at hres
    have hk := H₂.others
    have R := H₂.release hr₃
    have hcaught : checkBlock s' (b.h + headerSize) = false := by
      have hb₁ := H₁.bounds (b := b₁) (by simp)
      apply H₂.caught hheader (k := b₁.size) _ hb₁.2.2.2 _ R hres
      · rw [← hh₁, hfin₂]
        exact hb₁.2.2.1.symm
      · rw [← hh₁]
        exact hkept
    -- what is around the block after the merges is used
    have hparted (hp : Parted (l ++ b :: r)) :
        Parted l₂ ∧ Parted r₁ ∧ (∀ c ∈ l₂.getLast?, c.used = true) ∧
          ∀ c ∈ r₁.head?, c.used = true := by
      have hl : Parted l := List.IsChain.left_of_append hp
      have hr : Parted r := (List.IsChain.right_of_append hp).tail
      have hkeep : Parted l₂ := List.IsChain.prefix hl hpre
      exact ⟨hkeep, hr.suffix hsuf, hleft hl, hright hr⟩
    have hspare (h k : Nat) (hp : Parted (l ++ b :: r)) : Parted (l₂ ++ Blk.spare h k :: r₁) :=
      (parted_append_cons rfl).mpr (hparted hp)
    have hother (h k : Nat) :
      (l₂ ++ Blk.spare h k :: r₁).filter Blk.used = (l ++ r).filter Blk.used := by
      rw [← hk]
      simp [Blk.spare]
    cases R with
    | stays hs =>
      subst hs
      obtain ⟨s₄, free', hput, I', hend, -, hfr, -⟩ := H₂.putBack
      obtain rfl := Option.some.inj (hput.symm.trans hres)
      refine ⟨_, free', I', ?_, ?_, hcaught, hspare _ _, Nat.le_of_eq hend⟩
      · rw [hother]
        exact hperm
      · rw [hother]
        exact hfr
    | shrinks H₃ hstart hf _ hless _ _ =>
      subst hf
      obtain ⟨s₄, free', hput, I', hend, -, hfr, -⟩ := H₃.putBack
      rw [hstart] at hput
      obtain rfl := Option.some.inj (hput.symm.trans hres)
      refine ⟨_, free', I', ?_, ?_, hcaught, hspare _ _, hend ▸ hless⟩
      · rw [hother]
        exact hperm
      · rw [hother]
        exact hfr
    | gone hlast W he hp hend =>
      have hb₂ := H₂.bounds (b := b₂) (by simp)
      subst hlast
      obtain rfl := Option.some.inj hres
      rw [append_nil] at hk
      refine ⟨l₂, free₂, ⟨W.toLayout, H₂.left, he, hp⟩, ?_, ?_, hcaught,
        fun hp => (hparted hp).1, ?_⟩
      · rw [hk]
        exact hperm
      · rw [hk]
        exact W.frame
      · dsimp only at hb₂
        omega

end Sysint.Heap
