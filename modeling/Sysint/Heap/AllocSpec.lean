import Mathlib.Data.List.Chain
import Sysint.Heap.FreeList

/-! `heap::alloc` keeps the heap's invariant: it takes a block in hand, cuts it
to size and marks it used, and leaves every used block as it was. -/
namespace Sysint.Heap
open Tiling Dlink List

/-- Between operations the list holds exactly the unused blocks, and every
footer names its own header. -/
structure Blk.Settled (b : Blk) : Prop where
  written : b.written = true
  listed : b.listed = !b.used
  ftr : b.ftr = b.h

/-- A used block between operations. -/
def Blk.busy (h size : Nat) : Blk := ⟨h, size, true, false, h, true⟩

/-- An unused block between operations. -/
def Blk.spare (h size : Nat) : Blk := ⟨h, size, false, true, h, true⟩

theorem Blk.settled_spare (h size : Nat) : (Blk.spare h size).Settled := ⟨rfl, rfl, rfl⟩

structure EndOk (e : Nat) : Prop where
  init : heapBase + heapInitSize ≤ e
  page : e % 4096 = 0
  top : e < 2 ^ 32

def Paged (s : Kheap) : Prop :=
  ∀ p, heapBase / 4096 ≤ p → p < s.heapEnd / 4096 → s.mapped p = true

structure Inv (nil : Sentinel) (s : Kheap) (bs : List Blk) (free : List Nat) : Prop
    extends Layout nil s.mem s.heapEnd bs free where
  settled : ∀ b ∈ bs, b.Settled
  ends : EndOk s.heapEnd
  pages : Paged s

/-- An operation has the block `b` in hand, between the blocks `l` and `r`. The
used blocks among those are `keep`. -/
structure Hand (nil : Sentinel) (keep : List Blk) (m₀ : Mem) (s : Kheap) (l : List Blk) (b : Blk)
    (r : List Blk) (free : List Nat) : Prop
    extends Work nil keep m₀ s.mem s.heapEnd (l ++ b :: r) free where
  ends : EndOk s.heapEnd
  pages : Paged s
  left : ∀ c ∈ l, c.Settled
  right : ∀ c ∈ r, c.Settled
  others : (l ++ r).filter Blk.used = keep
  off : b.listed = false
  written : b.written = true

variable {nil : Sentinel} {keep : List Blk} {m₀ m m' : Mem} {heapEnd n k : Nat} {bs l r : List Blk}
  {b : Blk} {free : List Nat} {s s' : Kheap} {align : Bool} {h : Nat}

theorem Inv.work (I : Inv nil s bs free) :
    Work nil (bs.filter Blk.used) s.mem s.mem s.heapEnd bs free where
  toLayout := I.toLayout
  kept _ hc := mem_filter.mp hc
  frame _ _ _ _ _ := rfl

theorem Work.unused_not_kept (H : Work nil keep m₀ m heapEnd bs free) (hu : b.used = false) :
    b ∉ keep := by
  intro hb
  have := (H.kept b hb).2
  simp [hu] at this

theorem Hand.not_kept (H : Hand nil keep m₀ s l b r free) : b ∉ keep := by
  intro hb
  rw [← H.others] at hb
  have hm := (mem_filter.mp hb).1
  have hnd := H.tiles.nodup fun x hx => by have := (H.bounds hx).2.2.2; omega
  have hp : ((l ++ b :: r).map Blk.h).Perm ((b :: (l ++ r)).map Blk.h) := perm_middle.map _
  have := (nodup_cons.mp (hp.nodup_iff.mp hnd)).1
  exact this (mem_map_of_mem hm)

/-- Rewrite the records of a block that is on no list. -/
theorem Work.rewrite (H : Work nil keep m₀ m heapEnd (l ++ b :: r) free) (b' : Blk)
    (off : b.listed = false) (hk : b ∉ keep) (hh : b'.h = b.h) (hs : b'.size = b.size)
    (off' : b'.listed = false)
    (record : Record m' b') (out : ∀ x, x < b.h ∨ b.fin ≤ x → m' x = m x) :
    Work nil keep m₀ m' heapEnd (l ++ b' :: r) free := by
  obtain ⟨a, hl, ha, hr⟩ := tiles_append.mp H.tiles
  have hr : Fills b.fin r heapEnd := by rw [Blk.fin, ha]; exact hr
  have hsh := H.shape b (by simp)
  apply H.replace [b] [b'] hl hr hr
  · exact ⟨hh.trans ha, by rw [hs, Blk.fin, ha]; rfl⟩
  · simp [off, hk]
  · simp [off']
  · simpa [hs] using hsh
  · simpa using record
  · exact fun x hx => out x (.inl (ha ▸ hx))
  · exact fun x hx _ => out x (.inr hx)

theorem Hand.rewrite (H : Hand nil keep m₀ s l b r free) (b' : Blk) (hh : b'.h = b.h)
    (hs : b'.size = b.size) (off' : b'.listed = false) (written' : b'.written = true)
    (record : Record m' b') (out : ∀ x, x < b.h ∨ b.fin ≤ x → m' x = s.mem x) :
    Hand nil keep m₀ { s with mem := m' } l b' r free where
  toWork := H.toWork.rewrite b' H.off H.not_kept hh hs off' record out
  ends := H.ends
  pages := H.pages
  left := H.left
  right := H.right
  others := H.others
  off := off'
  written := written'

/-- Put the block in hand down. -/
theorem Hand.settle (H : Hand nil keep m₀ s l b r free) (hf : b.ftr = b.h) (hu : b.used = true) :
    Inv nil s (l ++ b :: r) free where
  toLayout := H.toLayout
  settled c hc := by
    rcases mem_append.mp hc with hc | hc
    · exact H.left c hc
    · cases mem_cons.mp hc with
      | inl he => exact he ▸ ⟨H.written, by rw [H.off, hu]; rfl, hf⟩
      | inr hc => exact H.right c hc
  ends := H.ends
  pages := H.pages

/-! ## Cutting a block in two -/

/-- The first part of a block that is cut at `o`. -/
def Blk.first (b : Blk) (o : Nat) : Blk := ⟨b.h, o, false, false, b.h, true⟩

/-- The second part, before its header is written. -/
def Blk.second (b : Blk) (o : Nat) : Blk := ⟨b.h + o, b.size - o, false, false, b.ftr, false⟩

theorem Work.cut (H : Work nil keep m₀ m heapEnd (l ++ b :: r) free) (off : b.listed = false)
    (hu : b.used = false) {o : Nat} (h36 : minBlock ≤ o) (h4 : o % 4 = 0)
    (hrest : o + minBlock ≤ b.size) (hfirst : Record m' (b.first o))
    (hftr : ∀ x, b.fin - 8 ≤ x → x < b.fin → m' x = m x)
    (out : ∀ x, x < b.h ∨ b.fin ≤ x → m' x = m x) :
    Work nil keep m₀ m' heapEnd (l ++ b.first o :: b.second o :: r) free := by
  obtain ⟨a, hl, ha, hr⟩ := tiles_append.mp H.tiles
  have hr : Fills b.fin r heapEnd := by rw [Blk.fin, ha]; exact hr
  have hsh := H.shape b (by simp)
  have hrec := H.record b (by simp)
  have hmin : minBlock = 36 := rfl
  have hfin : (b.second o).fin = b.fin := by
    simp only [Blk.second, Blk.fin]
    omega
  apply H.replace [b] [b.first o, b.second o] hl hr hr
  · refine ⟨ha, ?_, ?_⟩
    · rw [← ha]; rfl
    · simp only [Tiles, Blk.first, Blk.second, Blk.fin, ← ha]
      omega
  · simp [off, H.unused_not_kept hu]
  · simp [Blk.first, Blk.second]
  · simp only [mem_cons, not_mem_nil, or_false, forall_eq_or_imp, forall_eq, Blk.first,
      Blk.second]
    omega
  · have h8 : 8 ≤ b.fin := by simp only [Blk.fin]; omega
    have hsecond : Record m' (b.second o) := by
      refine ⟨by simp [Blk.second], by simp [Blk.second], by simp [Blk.second], ?_, ?_⟩
      · rw [hfin, hftr _ (by omega) (by omega)]
        exact hrec.ftrMagic
      · rw [hfin, footerHeader, hftr _ (by omega) (by omega)]
        exact hrec.ftr
    simpa using ⟨hfirst, hsecond⟩
  · exact fun x hx => out x (.inl (ha ▸ hx))
  · exact fun x hx _ => out x (.inr hx)

theorem Layout.footer_eq (H : Layout nil m heapEnd bs free) (top : heapEnd < 2 ^ 32) (hb : b ∈ bs)
    (hw : b.written = true) : footer m b.h = b.fin - 8 := by
  have := H.bounds hb
  rw [footer, (H.record b hb).size_eq hw, u32_of_lt (by omega), sub32_of_le (by omega)]
  · rfl
  · simp only [footerSize]; omega

/-- A fresh footer completes the records of a block. -/
theorem record_fresh {u v : Bool} (h36 : minBlock ≤ k) (h0 : m h = headerMagic)
    (h1 : m (h + 4) = k) (h2 : m (h + 16) = u.toNat) :
    Record (writeFooter m (h + k - 8) h) ⟨h, k, u, v, h, true⟩ := by
  have hmin : minBlock = 36 := rfl
  constructor <;> simp only [Blk.fin, footerHeader, writeFooter_apply]
  · intro _; split_ifs <;> omega
  · intro _; split_ifs <;> omega
  · intro _; split_ifs <;> omega
  · split_ifs <;> omega
  · split_ifs <;> omega

/-- The header of the second part, and its footer corrected. -/
def finishSecond (m : Mem) (c : Blk) : Mem :=
  set (writeHeader m c.h c.size) (c.fin - 8 + 4) c.h

theorem Work.writeSecond (H : Work nil keep m₀ m heapEnd (l ++ b :: r) free)
    (off : b.listed = false) (hu : b.used = false) : Work nil keep m₀ (finishSecond m b) heapEnd
      (l ++ { b with ftr := b.h, written := true } :: r) free := by
  have hb := H.bounds (b := b) (by simp)
  have hf := (H.record b (by simp)).ftrMagic
  refine H.rewrite _ off (H.unused_not_kept hu) rfl rfl off ?_ ?_
  · simp only [Blk.fin] at hb hf
    constructor <;> simp only [Blk.fin, finishSecond, footerHeader, set_apply,
      writeHeader_apply, hu, Bool.toNat_false]
    · intro _; split_ifs <;> omega
    · intro _; split_ifs <;> omega
    · intro _; split_ifs <;> omega
    · split_ifs <;> omega
    · split_ifs <;> omega
  · intro x hx
    simp only [finishSecond, set_apply, writeHeader_apply]
    split_ifs <;> omega

/-- A block cut down to `sz` for use, if the rest can be a block of its own. -/
def cutUp (h size sz : Nat) : List Blk :=
  if sz + minBlock ≤ size then [.busy h sz, .spare (h + sz) (size - sz)] else [.busy h size]

theorem Hand.splitRest (H : Hand nil keep m₀ s l b r free) (hu : b.used = false)
    (hf : b.ftr = b.h) {sz : Nat} (h36 : minBlock ≤ sz) (h4 : sz % 4 = 0) (hsz : sz ≤ b.size) :
    ∃ s' k r' free', splitRest nil.addr s b.h sz = some s' ∧
      Hand nil keep m₀ s' l ⟨b.h, k, false, false, b.h, true⟩ r' free' ∧
      s'.heapEnd = s.heapEnd ∧ sz ≤ k ∧ Blk.busy b.h k :: r' = cutUp b.h b.size sz ++ r := by
  have hbm : b ∈ l ++ b :: r := by simp
  have hb := H.bounds hbm
  have hrec := H.record b hbm
  have htop := H.ends.top
  have hmin : minBlock = 36 := rfl
  have hsize : size s.mem b.h = b.size := hrec.size H.written
  have hbase : heapBase = 0xD0000000 := rfl
  have hu32 : u32 (sz + minBlock) = sz + 36 := by rw [u32_of_lt] <;> omega
  by_cases hsplit : sz + 36 ≤ b.size
  · have hfirst : Record (writeFooter (setSize s.mem b.h sz) (b.h + sz - 8) b.h) (b.first sz) := by
      apply record_fresh h36
      · simpa [setSize_apply] using hrec.magic H.written
      · simp [setSize_apply]
      · simpa [setSize_apply, hu] using hrec.used H.written
    have W₁ := H.toWork.cut H.off hu h36 h4 (by omega) hfirst
      (by
        intro x h1 h2
        simp only [writeFooter_apply, setSize_apply]
        split_ifs <;> omega)
      (by
        intro x hx
        simp only [writeFooter_apply, setSize_apply]
        split_ifs <;> omega)
    rw [append_cons] at W₁
    have W₂ := W₁.writeSecond rfl rfl
    obtain ⟨m', free', hins, W₃, -⟩ := W₂.enlist rfl rfl rfl
    rw [← append_cons] at W₃
    refine ⟨{ s with mem := m' }, sz, _, free', ?_, ⟨W₃, H.ends, H.pages, H.left, ?_, ?_, rfl,
      rfl⟩, rfl, Nat.le_refl _, ?_⟩
    · have hfin : (b.second sz).fin = b.fin := by
        simp only [Blk.second, Blk.fin]
        omega
      have hfo := H.footer_eq htop hbm H.written
      have e1 : u32 (b.h + sz) = b.h + sz := u32_of_lt (by omega)
      have e2 : sub32 (b.h + sz) footerSize = b.h + sz - 8 :=
        sub32_of_le (by omega) (by simp only [footerSize]; omega)
      have e3 : sub32 b.size sz = b.size - sz := sub32_of_le (by omega) hsz
      simp only [finishSecond, hfin] at hins
      simp only [Heap.splitRest, hu32, hsize, if_pos hsplit, hfo, e1, e2, e3]
      simp only [Blk.second] at hins
      rw [hins]
      rfl
    · intro c hc
      cases mem_cons.mp hc with
      | inl he => exact he ▸ ⟨rfl, rfl, rfl⟩
      | inr hc => exact H.right c hc
    · rw [← H.others]
      simp [Blk.second]
    · rw [cutUp, if_pos (by omega)]
      rfl
  · have hb' : b = ⟨b.h, b.size, false, false, b.h, true⟩ := by
      rw [Blk.mk.injEq]
      exact ⟨rfl, rfl, hu, H.off, hf, H.written⟩
    refine ⟨s, b.size, r, free, ?_, hb' ▸ H, rfl, hsz, ?_⟩
    · simp [Heap.splitRest, hu32, hsize, if_neg hsplit]
    · rw [cutUp, if_neg (by omega)]
      rfl

/-! ## Aligning the payload -/

theorem alignOffset_spec (hh : h + 20 + 4095 < 2 ^ 32) (h4 : h % 4 = 0) :
    (h + alignOffset h + 20) % 4096 = 0 ∧ alignOffset h < 4096 ∧ alignOffset h % 4 = 0 := by
  have h1 : u32 (h + headerSize) = h + 20 := u32_of_lt (by simp only [headerSize]; omega)
  have h2 : alignAddr (h + 20) = (h + 20 + 4095) / 4096 * 4096 := by
    rw [alignAddr_eq (by omega), u32_of_lt (by omega)]
  have h3 : alignOffset h = (h + 20 + 4095) / 4096 * 4096 - (h + 20) := by
    rw [alignOffset, h1, h2, sub32_of_le] <;> omega
  omega

/-- The distance to the page boundary leaves no gap or room for a block. -/
def OffsetOk (h : Nat) : Prop := alignOffset h = 0 ∨ minBlock ≤ alignOffset h

instance (h : Nat) : Decidable (OffsetOk h) := inferInstanceAs (Decidable (_ ∨ _))

/-- The assertion on the offset fails. -/
theorem alignSplit_none {nil : Nat} (ho : ¬ OffsetOk h) : alignSplit nil s h = none := by
  simp only [OffsetOk, not_or] at ho
  simp only [Heap.alignSplit]
  rw [if_pos (Nat.pos_of_ne_zero ho.1), if_neg ho.2]

theorem Hand.alignSplit (H : Hand nil keep m₀ s l b r free) (hu : b.used = false)
    (hf : b.ftr = b.h) {sz : Nat} (h36 : minBlock ≤ sz) (hsz : sz + alignOffset b.h ≤ b.size)
    (hok : OffsetOk b.h) : ∃ s' l' b' free', alignSplit nil.addr s b.h = some (s', b'.h) ∧
      Hand nil keep m₀ s' l' b' r free' ∧ s'.heapEnd = s.heapEnd ∧ b'.used = false ∧
      b'.ftr = b'.h ∧ sz ≤ b'.size ∧ (b'.h + 20) % 4096 = 0 ∧
      (l' = l ∨ l' = l ++ [Blk.spare b.h (alignOffset b.h)]) := by
  have hbm : b ∈ l ++ b :: r := by simp
  have hb := H.bounds hbm
  have hrec := H.record b hbm
  have htop := H.ends.top
  have hmin : minBlock = 36 := rfl
  obtain ⟨hpage, -, ho4⟩ := alignOffset_spec (h := b.h) (by have := H.ends.page; omega)
    (H.aligned hbm)
  simp only [Heap.alignSplit, OffsetOk] at hok ⊢
  generalize ho : alignOffset b.h = o at *
  by_cases h0 : 0 < o
  · have h1 : minBlock ≤ o := hok.resolve_left (by omega)
    have hfo := H.footer_eq htop hbm H.written
    rw [if_pos h0, if_pos h1, hfo, if_pos hrec.ftrMagic]
    have e1 : u32 (b.h + headerSize) = b.h + 20 := u32_of_lt (by simp only [headerSize]; omega)
    have e2 : sub32 (sub32 (u32 (b.h + 20 + o)) footerSize) headerSize = b.h + o - 8 := by
      have h8 : sub32 (b.h + 20 + o) 8 = b.h + 20 + o - 8 := sub32_of_le (by omega) (by omega)
      simp only [footerSize, headerSize]
      rw [u32_of_lt (by omega), h8, sub32_of_le (by omega) (by omega)]
      omega
    have e3 : u32 (b.h + o - 8 + footerSize) = b.h + o := by
      simp only [footerSize]
      rw [u32_of_lt (by omega)]
      omega
    have e4 : sub32 b.size o = b.size - o := sub32_of_le (by omega) (by omega)
    rw [e1, e2, e3, hrec.size_eq H.written, e4]
    have hfirst : Record (writeFooter (setUsed (setSize s.mem b.h o) b.h false) (b.h + o - 8) b.h)
        (b.first o) := by
      apply record_fresh h1
      · simpa [setSize_apply, setUsed_apply] using hrec.magic H.written
      · simp [setSize_apply, setUsed_apply]
      · simp [setUsed_apply]
    have W₁ := H.toWork.cut H.off hu h1 ho4 (by omega) hfirst
      (by
        intro x h1 h2
        simp only [writeFooter_apply, setSize_apply, setUsed_apply]
        split_ifs <;> omega)
      (by
        intro x hx
        simp only [writeFooter_apply, setSize_apply, setUsed_apply]
        split_ifs <;> omega)
    obtain ⟨m', free', hins, W₂, -⟩ := W₁.enlist rfl rfl rfl
    rw [append_cons] at W₂
    have W₃ := W₂.writeSecond rfl rfl
    have hfin : (b.second o).fin = b.fin := by
      simp only [Blk.second, Blk.fin]
      omega
    simp only [Blk.first] at hins
    simp only [finishSecond, hfin] at W₃
    rw [hins]
    refine ⟨_, _, { b.second o with ftr := (b.second o).h, written := true }, free', rfl,
      ⟨W₃, H.ends, H.pages, ?_, H.right, ?_, rfl, rfl⟩, rfl, rfl, rfl, ?_, hpage, .inr rfl⟩
    · intro c hc
      rcases mem_append.mp hc with hc | hc
      · exact H.left c hc
      · rw [mem_singleton.mp hc]
        exact ⟨rfl, rfl, rfl⟩
    · rw [← H.others]
      simp [Blk.first]
    · simp only [Blk.second]
      omega
  · rw [if_neg h0]
    exact ⟨s, l, b, free, rfl, H, rfl, hu, hf, by omega, by omega, .inl rfl⟩

/-! ## Getting a block -/

theorem sbrk_spec (fill : Mem) (he : EndOk s.heapEnd) (hp : Paged s)
    (hn : s.heapEnd + n + 4095 < 2 ^ 32) :
    ∃ s' k, sbrk s n fill = (s', k) ∧ s'.heapEnd = s.heapEnd + k ∧ n ≤ k ∧ k < n + 4096 ∧
      k % 4096 = 0 ∧ EndOk s'.heapEnd ∧ Paged s' ∧ ∀ x < s.heapEnd, s'.mem x = s.mem x := by
  obtain ⟨hinit, hpage, htop⟩ := he
  have e1 : alignAddr (u32 (s.heapEnd + n)) = (s.heapEnd + n + 4095) / 4096 * 4096 := by
    rw [u32_of_lt (by omega), alignAddr_eq (by omega), u32_of_lt (by omega)]
  generalize hE : (s.heapEnd + n + 4095) / 4096 * 4096 = newEnd at e1
  have e2 : sub32 newEnd s.heapEnd = newEnd - s.heapEnd := sub32_of_le (by omega) (by omega)
  have e3 (x : Nat) : x >>> pageShift = x / 4096 := Nat.shiftRight_eq_div_pow x 12
  refine ⟨{ allocPages s (s.heapEnd >>> pageShift) ((newEnd - s.heapEnd) >>> pageShift) fill with
    heapEnd := newEnd }, newEnd - s.heapEnd, by simp [sbrk, e1, e2], ?_, by omega, by omega,
    by omega, ?_, ?_, ?_⟩
  · change newEnd = s.heapEnd + (newEnd - s.heapEnd)
    omega
  · exact ⟨by change _ ≤ newEnd; omega, by change newEnd % 4096 = 0; omega,
      by change newEnd < _; omega⟩
  · intro p h1 h2
    simp only [allocPages, e3, Bool.or_eq_true, Bool.and_eq_true, decide_eq_true_eq] at h2 ⊢
    by_cases hlt : p < s.heapEnd / 4096
    · exact .inl (hp p h1 hlt)
    · right
      omega
  · intro x hx
    have : ¬ s.heapEnd / 4096 ≤ x / 4096 := by omega
    simp [allocPages, e3, this]

/-- A new block behind the last one. -/
theorem Work.growNew (W : Work nil keep m₀ m heapEnd bs free) (h36 : minBlock ≤ k)
    (h4 : k % 4 = 0) :
    Work nil keep m₀ (writeFooter (writeHeader m heapEnd k) (heapEnd + k - 8) heapEnd) (heapEnd + k)
      (bs ++ [⟨heapEnd, k, false, false, heapEnd, true⟩]) free := by
  have hmin : minBlock = 36 := rfl
  have hrec : Record (writeFooter (writeHeader m heapEnd k) (heapEnd + k - 8) heapEnd)
      ⟨heapEnd, k, false, false, heapEnd, true⟩ := by
    apply record_fresh h36 <;> simp [writeHeader_apply]
  have W' : Work nil keep m₀ m heapEnd (bs ++ []) free := by simpa using W
  refine W'.replaceLast [_] W.tiles ?_ (by simp) (by simp) (by simp [h36, h4])
    (by simpa using hrec) ?_
  · exact ⟨rfl, rfl⟩
  intro x hx
  simp only [writeFooter_apply, writeHeader_apply]
  split_ifs <;> omega

/-- The last block, on no list, gets another size, and the heap ends with it. -/
theorem Work.moveEnd (W : Work nil keep m₀ m heapEnd (l ++ [b]) free) (off : b.listed = false)
    (hk : b ∉ keep) (hw : b.written = true) (h36 : minBlock ≤ k) (h4 : k % 4 = 0) :
    Work nil keep m₀ (writeFooter (setSize m b.h k) (b.h + k - 8) b.h) (b.h + k)
      (l ++ [⟨b.h, k, b.used, false, b.h, true⟩]) free := by
  obtain ⟨a, hl, rfl, -⟩ := tiles_append.mp W.tiles
  have hmin : minBlock = 36 := rfl
  have hrec := W.record b (by simp)
  have hrec' : Record (writeFooter (setSize m b.h k) (b.h + k - 8) b.h)
      ⟨b.h, k, b.used, false, b.h, true⟩ := by
    apply record_fresh h36
    · simpa [setSize_apply] using hrec.magic hw
    · simp [setSize_apply]
    · simpa [setSize_apply] using hrec.used hw
  refine W.replaceLast [_] hl ?_ (by simp [off, hk]) (by simp) (by simp [h36, h4])
    (by simpa using hrec') ?_
  · exact ⟨rfl, rfl⟩
  · intro x hx
    simp only [writeFooter_apply, setSize_apply]
    split_ifs <;> omega

/-- The last block comes off the list and takes the new space. -/
theorem Work.growLast (W : Work nil keep m₀ m heapEnd (l ++ [b]) free) (hl : b.listed = true)
    (h4 : k % 4 = 0) : Work nil keep m₀
      (writeFooter (setSize (remove m b.h) b.h (b.size + k)) (heapEnd + k - 8) b.h) (heapEnd + k)
      (l ++ [⟨b.h, b.size + k, b.used, false, b.h, true⟩]) (free.erase b.h) := by
  have hbm : b ∈ l ++ [b] := by simp
  obtain ⟨hu, hw⟩ := W.unused b hbm hl
  obtain ⟨hs36, hs4⟩ := W.shape b hbm
  obtain ⟨a, -, rfl, hfin⟩ := tiles_append.mp W.tiles
  have hfin : b.h + b.size = heapEnd := hfin
  have W₁ := W.unlist hl
  rw [← hfin, Nat.add_assoc]
  exact W₁.moveEnd rfl (W₁.unused_not_kept hu) hw (by omega) (by omega)

/-- The last block reaches the end of the heap. -/
theorem Inv.last (I : Inv nil s bs free) : ∃ l b, bs = l ++ [b] ∧ b.fin = s.heapEnd := by
  rcases eq_nil_or_concat bs with rfl | ⟨l, b, rfl⟩
  · have h1 : heapBase = s.heapEnd := I.tiles
    have h2 := I.ends.init
    have h3 : heapInitSize = 0x100000 := rfl
    omega
  · rw [concat_eq_append] at I
    obtain ⟨a, -, ha, he⟩ := tiles_append.mp I.tiles
    exact ⟨l, b, by simp, by rw [Blk.fin, ha]; exact he⟩

/-- The sum of the request and, for an aligned one, a page. -/
def request (sz : Nat) (align : Bool) : Nat := sz + if align then 0x1000 else 0

/-- Where the block `b` in hand, between `l` and `r`, came from: the search found it on
the list, or it found none and the last block grew, or a new one follows the last. -/
inductive Origin (s s' : Kheap) (bs : List Blk) (need : Nat) (found : Option Nat) (l : List Blk)
    (b : Blk) (r : List Blk) : Prop where
  | listed {c : Blk} (hit : found = some b.h) (blocks : bs = l ++ c :: r)
      (unused : c.used = false) (start : b.h = c.h) (size : b.size = c.size)
      (stay : s'.heapEnd = s.heapEnd)
  | last {c : Blk} (miss : found = none) (blocks : bs = l ++ [c]) (unused : c.used = false)
      (start : b.h = c.h) (none : r = []) (fin : b.fin = s'.heapEnd)
      (least : s.heapEnd + need ≤ s'.heapEnd) (most : s'.heapEnd < s.heapEnd + need + 0x1000)
  | new (miss : found = none) (blocks : bs = l) (used : ∀ c ∈ l.getLast?, c.used = true)
      (start : b.h = s.heapEnd) (none : r = []) (fin : b.fin = s'.heapEnd)
      (least : s.heapEnd + need ≤ s'.heapEnd) (most : s'.heapEnd < s.heapEnd + need + 0x1000)

theorem Inv.extend (I : Inv nil s bs free) {sz : Nat} (fill : Mem)
    (h36 : minBlock ≤ sz) (hn : s.heapEnd + request sz align + 4095 < 2 ^ 32) :
    ∃ s' l b r free', extend s sz align fill = some (s', b.h) ∧
      Hand nil (bs.filter Blk.used) s.mem s' l b r free' ∧ b.used = false ∧ b.ftr = b.h ∧
      request sz align ≤ b.size ∧ Origin s s' bs (request sz align) none l b r := by
  obtain ⟨l, b, rfl, hfin⟩ := I.last
  obtain ⟨hw, hlist, hftr⟩ := I.settled b (by simp)
  have hmin : minBlock = 36 := rfl
  have hreq : sz ≤ request sz align := Nat.le_add_right _ _
  obtain ⟨s', k, hsbrk, hend, hk, hk', hk4, hends, hpages, hmem⟩ := sbrk_spec fill I.ends I.pages hn
  -- the new pages change nothing below the old end
  have W : Work nil ((l ++ [b]).filter Blk.used) s.mem s'.mem s.heapEnd (l ++ [b]) free := by
    have W : Work nil ((l ++ [b]).filter Blk.used) s.mem s.mem s.heapEnd
      ((l ++ [b]) ++ []) free := by
      simpa only [append_nil] using I.work
    simpa only [append_nil] using
      W.replaceLast [] I.tiles rfl (by simp) (by simp) (by simp) (by simp) hmem
  have hbm : b ∈ l ++ [b] := by simp
  have hbb := W.bounds hbm
  have hrec := W.record b hbm
  have htop := hends.top
  have e1 : sub32 s.heapEnd footerSize = b.fin - 8 := by
    rw [sub32_of_le I.ends.top (by simp only [footerSize]; omega), hfin]
    rfl
  have e2 : u32 (sz + if align then 0x1000 else 0) = request sz align :=
    u32_of_lt (n := request sz align) (by omega)
  have e3 : sub32 s'.heapEnd footerSize = s'.heapEnd - 8 :=
    sub32_of_le htop (by simp only [footerSize]; omega)
  have e4 : footerHeader s'.mem (b.fin - 8) = b.h := hrec.ftr.trans hftr
  simp only [Heap.extend, e1, (I.record b hbm).ftrMagic, if_true, e2, hsbrk, e3, e4,
    hrec.used_eq hw, hrec.size_eq hw]
  have hleast : s.heapEnd + request sz align ≤ s'.heapEnd := by omega
  have hmost : s'.heapEnd < s.heapEnd + request sz align + 0x1000 := by omega
  cases hu : b.used with
  | true =>
    have W' := W.growNew (k := k) (by omega) (by omega)
    rw [← hend] at W'
    simp only [if_true]
    exact ⟨_, l ++ [b], ⟨s.heapEnd, k, false, false, _, true⟩, [], free, rfl,
      ⟨W', hends, hpages, I.settled, by simp, by simp, rfl, rfl⟩, rfl, rfl, hk,
      .new rfl rfl (by simp [hu]) rfl rfl hend.symm hleast hmost⟩
  | false =>
    have hl : b.listed = true := by rw [hlist, hu]; rfl
    have hu32 : u32 (b.size + k) = b.size + k := u32_of_lt (by omega)
    have W' := W.growLast hl (k := k) (by omega)
    rw [← hend] at W'
    simp only [Bool.false_eq_true, if_false, hu32, W.remove_setSize hbm hl hbm]
    exact ⟨_, l, ⟨b.h, b.size + k, b.used, false, b.h, true⟩, [], _, rfl,
      ⟨W', hends, hpages, fun c hc => I.settled c (by simp [hc]), by simp, by simp [hu], rfl, rfl⟩,
      hu, rfl, by simp only; omega, .last rfl rfl hu rfl rfl
        (by simp only [Blk.fin] at hfin ⊢; omega) hleast hmost⟩

/-- Taking an unused block from the list. -/
theorem Inv.take (I : Inv nil s bs free) (hh : h ∈ free) :
    ∃ l b r, Hand nil (bs.filter Blk.used) s.mem { s with mem := remove s.mem h } l b r
      (free.erase h) ∧ b.h = h ∧ b.used = false ∧ b.ftr = b.h ∧ b.size = size s.mem h ∧
      ∃ c, bs = l ++ c :: r ∧ c.used = false ∧ b.h = c.h ∧ b.size = c.size := by
  obtain ⟨b, hb, hl, rfl⟩ := I.mem_free.mp hh
  obtain ⟨hu, hw⟩ := I.unused b hb hl
  have hf := (I.settled b hb).ftr
  have hs := (I.record b hb).size_eq hw
  obtain ⟨l, r, rfl⟩ := append_of_mem hb
  refine ⟨l, { b with listed := false }, r, ?_, rfl, hu, hf, hs.symm, b, rfl, hu, rfl, rfl⟩
  constructor
  · exact I.work.unlist hl
  · exact I.ends
  · exact I.pages
  · exact fun c hc => I.settled c (by simp [hc])
  · exact fun c hc => I.settled c (by simp [hc])
  · simp [hu]
  · rfl
  · exact hw

/-- The block size for a request, in exact arithmetic. -/
def exactSize (size : Nat) : Nat := (max size minBlockSize + (headerSize + footerSize) + 3) / 4 * 4

theorem blockSize_eq (hn : exactSize n < 2 ^ 32) : blockSize n = exactSize n := by
  have h28 : headerSize + footerSize = 28 := rfl
  have hmax : (if n < minBlockSize then minBlockSize else n) = max n minBlockSize := by
    split <;> omega
  simp only [exactSize, h28] at hn
  have hu : u32 (max n minBlockSize + 28) = max n minBlockSize + 28 := u32_of_lt (by omega)
  simp only [blockSize, exactSize, h28, hmax, hu]
  rw [u32_of_lt] <;> split <;> omega

/-- No 32-bit sum that `alloc` computes wraps: the size with its records, the
page added for an aligned request and, if the heap has to grow, its new end. -/
def NoWrap (nil : Nat) (s : Kheap) (size : Nat) (align : Bool) : Prop :=
  request (exactSize size) align < 2 ^ 32 ∧
    (searchFree s.mem nil (blockSize size) align s.heapEnd (next s.mem nil) = some none →
      s.heapEnd + request (exactSize size) align + 0xFFF < 2 ^ 32)

instance (nil : Nat) (s : Kheap) (size : Nat) (align : Bool) :
    Decidable (NoWrap nil s size align) := inferInstanceAs (Decidable (_ ∧ _))

/-- Sizes that `alloc` computes are multiples of 4 and hold the records and the request. -/
theorem exactSize_spec (n : Nat) :
    minBlock ≤ exactSize n ∧ exactSize n % 4 = 0 ∧ n + (headerSize + footerSize) ≤ exactSize n := by
  simp only [exactSize, minBlock, minBlockSize, headerSize, footerSize]
  omega

theorem Hand.offset_lt (H : Hand nil keep m₀ s l b r free) : alignOffset b.h < 4096 := by
  have h1 := H.bounds (b := b) (by simp)
  have h2 := H.ends.page
  have h3 := H.ends.top
  exact (alignOffset_spec (by omega) (H.aligned (b := b) (by simp))).2.1

/-- `acquire` gets a block with room for the request at the aligned place. -/
theorem Inv.acquire (I : Inv nil s bs free) (hn : NoWrap nil.addr s n align) (fill : Mem) :
    ∃ s' l b r free', acquire nil.addr s (exactSize n) align fill = some (s', b.h) ∧
      Hand nil (bs.filter Blk.used) s.mem s' l b r free' ∧ b.used = false ∧ b.ftr = b.h ∧
      exactSize n + (if align then alignOffset b.h else 0) ≤ b.size ∧
      Origin s s' bs (request (exactSize n) align)
        (free.find? (fits s.mem (exactSize n) align)) l b r := by
  obtain ⟨hreq, hend⟩ := hn
  have hle : exactSize n ≤ request (exactSize n) align := Nat.le_add_right _ _
  rw [blockSize_eq (by omega)] at hend
  have hsearch := I.searchFree (exactSize n) align
  rw [Heap.acquire, hsearch]
  cases hfind : free.find? (fits s.mem (exactSize n) align) with
  | some h =>
    obtain ⟨l, b, r, H, rfl, hu, hf, hs, c, hbs, hcu, hch, hcs⟩ :=
      I.take (mem_of_find?_eq_some hfind)
    refine ⟨_, l, b, r, _, rfl, H, hu, hf, ?_, .listed rfl hbs hcu hch hcs rfl⟩
    have hfit := List.find?_some hfind
    cases align with
    | false => simpa [fits, hs] using hfit
    | true =>
      have hlt := H.offset_lt
      have hr : request (exactSize n) true = exactSize n + 0x1000 := rfl
      simp only [fits, if_true, Bool.and_eq_true, decide_eq_true_eq] at hfit ⊢
      rw [u32_of_lt (by omega)] at hfit
      omega
  | none =>
    rw [hfind] at hsearch
    obtain ⟨s', l, b, r, free', hext, H, hu, hf, hsz, ho⟩ :=
      I.extend fill (exactSize_spec n).1 (hend hsearch)
    refine ⟨s', l, b, r, free', hext, H, hu, hf, ?_, ho⟩
    have hlt := H.offset_lt
    simp only [request] at hsz
    split_ifs at hsz ⊢ <;> omega

/-! ## Handing it out -/

/-- The rest of `alloc`, once it has a block in hand. -/
def handOut (nil : Nat) (s : Kheap) (h sz : Nat) (align : Bool) : Option (Kheap × Nat) :=
  (if align then alignSplit nil s h else some (s, h)).bind fun (s, h) =>
  (splitRest nil s h sz).map fun s =>
    ({ s with mem := setUsed s.mem h true }, u32 (h + headerSize))

theorem alloc_eq {s₁ : Kheap} {nil : Nat} {fill : Mem}
    (hsz : blockSize n = exactSize n) (h₁ : acquire nil s (exactSize n) align fill = some (s₁, h)) :
    alloc nil s n align fill = handOut nil s₁ h (exactSize n) align := by
  rw [Heap.alloc, hsz, h₁]
  rfl

theorem NoWrap.blockSize_eq {nil : Nat} (hn : NoWrap nil s n align) :
    blockSize n = exactSize n := by
  apply Heap.blockSize_eq
  have := hn.1
  simp only [request] at this
  omega

/-- Marking the block in hand as used puts it down. -/
theorem Hand.use (H : Hand nil keep m₀ s l ⟨b.h, k, false, false, b.h, true⟩ r free) :
    Inv nil { s with mem := setUsed s.mem b.h true } (l ++ Blk.busy b.h k :: r) free ∧
      ∀ c ∈ keep, ∀ x, c.h ≤ x → x < c.fin → setUsed s.mem b.h true x = m₀ x := by
  have hb := H.bounds (b := ⟨b.h, k, false, false, b.h, true⟩) (by simp)
  have hrec := H.record ⟨b.h, k, false, false, b.h, true⟩ (by simp)
  simp only [Blk.fin] at hb
  have H' : Hand nil keep m₀ { s with mem := setUsed s.mem b.h true } l
    (Blk.busy b.h k) r free := by
    refine H.rewrite _ rfl rfl rfl rfl ?_ ?_
    · constructor <;> simp only [Blk.busy, setUsed_apply, footerHeader, Blk.fin]
      · intro _; simpa using hrec.magic rfl
      · intro _; simpa using hrec.size rfl
      · simp
      · rw [if_neg (by omega)]
        exact hrec.ftrMagic
      · rw [if_neg (by omega)]
        exact hrec.ftr
    · intro x hx
      simp only [Blk.fin] at hx
      rw [setUsed_apply, if_neg (by omega)]
  exact ⟨H'.settle rfl rfl, H'.frame⟩

/-- What `alloc` makes of the block `b` in hand between `l` and `r`: the block at `h` with
`k` bytes is handed out, and what was cut off in front of it and behind it is in `l'` and
`r'`. -/
structure Handed (nil : Sentinel) (keep : List Blk) (m₀ : Mem) (s : Kheap) (l : List Blk) (b : Blk)
    (r : List Blk) (n : Nat) (align : Bool) (s' : Kheap) (l' : List Blk) (h k : Nat) (r' : List Blk)
    (free' : List Nat) : Prop where
  inv : Inv nil s' (l' ++ Blk.busy h k :: r') free'
  stay : s'.heapEnd = s.heapEnd
  room : exactSize n ≤ k
  others : (l' ++ r').filter Blk.used = keep
  page : align = true → (h + headerSize) % 4096 = 0
  frame : ∀ c ∈ keep, ∀ x, c.h ≤ x → x < c.fin → s'.mem x = m₀ x
  front : l' = l ∨ ∃ o, l' = l ++ [Blk.spare b.h o]
  back : r' = r ∨ ∃ g o, r' = Blk.spare g o :: r
  plain : align = false → l' = l ∧ h = b.h ∧
    Blk.busy h k :: r' = cutUp b.h b.size (exactSize n) ++ r

theorem Hand.handOut (H : Hand nil keep m₀ s l b r free) (hu : b.used = false) (hf : b.ftr = b.h)
    (hsz : exactSize n + (if align then alignOffset b.h else 0) ≤ b.size)
    (hoff : align = true → OffsetOk b.h) :
    ∃ s' l' h k r' free', handOut nil.addr s b.h (exactSize n) align = some (s', h + headerSize) ∧
      Handed nil keep m₀ s l b r n align s' l' h k r' free' := by
  obtain ⟨h36, h4, -⟩ := exactSize_spec n
  obtain ⟨s₁, l₁, b₁, free₁, halign, H₁, he₁, hu₁, hf₁, hsz₁, hpage, hl₁, hplain⟩ :
      ∃ s₁ l₁ b₁ free₁, (if align then Heap.alignSplit nil.addr s b.h else some (s, b.h)) =
        some (s₁, b₁.h) ∧ Hand nil keep m₀ s₁ l₁ b₁ r free₁ ∧ s₁.heapEnd = s.heapEnd ∧
        b₁.used = false ∧ b₁.ftr = b₁.h ∧ exactSize n ≤ b₁.size ∧
        (align = true → (b₁.h + headerSize) % 4096 = 0) ∧
        (l₁ = l ∨ ∃ o, l₁ = l ++ [Blk.spare b.h o]) ∧ (align = false → l₁ = l ∧ b₁ = b) := by
    cases align with
    | false =>
      exact ⟨s, l, b, free, rfl, H, rfl, hu, hf, by simpa using hsz, by simp, .inl rfl,
        fun _ => ⟨rfl, rfl⟩⟩
    | true =>
      obtain ⟨s₁, l₁, b₁, free₁, h1, h2, h3, h4, h5, h6, h7, h8⟩ :=
        H.alignSplit hu hf h36 (by simpa using hsz) (hoff rfl)
      exact ⟨s₁, l₁, b₁, free₁, h1, h2, h3, h4, h5, h6, fun _ => h7,
        h8.imp_right fun h => ⟨_, h⟩, by simp⟩
  obtain ⟨s₂, k, r₂, free₂, hsplit, H₂, he₂, hk, hcut⟩ := H₁.splitRest hu₁ hf₁ h36 h4 hsz₁
  obtain ⟨I, hframe⟩ := H₂.use
  have hb := H₂.bounds (b := ⟨b₁.h, k, false, false, b₁.h, true⟩) (by simp)
  have hp : u32 (b₁.h + headerSize) = b₁.h + headerSize := by
    have := H₂.ends.top
    exact u32_of_lt (by simp only [headerSize, Blk.fin] at hb ⊢; omega)
  refine ⟨_, l₁, b₁.h, k, r₂, free₂, ?_, I, he₂.trans he₁, hk, H₂.others, hpage, hframe,
    hl₁, ?_, ?_⟩
  · rw [Heap.handOut, halign, Option.bind_some]
    dsimp only
    rw [hsplit, Option.map_some, hp]
  · simp only [cutUp] at hcut
    split_ifs at hcut
    · exact .inr ⟨_, _, (List.cons.inj hcut).2⟩
    · exact .inl (List.cons.inj hcut).2
  · intro ha
    obtain ⟨rfl, rfl⟩ := hplain ha
    exact ⟨rfl, rfl, hcut⟩

/-- `alloc` takes a block and hands out its part, unless the assertion about the offset of
an aligned payload fails. -/
theorem Inv.alloc (I : Inv nil s bs free) (hn : NoWrap nil.addr s n align) (fill : Mem) :
    ∃ s₁ l b r, Origin s s₁ bs (request (exactSize n) align)
        (free.find? (fits s.mem (exactSize n) align)) l b r ∧
      ((align = true → OffsetOk b.h) → ∃ s' l' h k r' free',
        alloc nil.addr s n align fill = some (s', h + headerSize) ∧
        Handed nil (bs.filter Blk.used) s.mem s₁ l b r n align s' l' h k r' free') ∧
      (¬ (align = true → OffsetOk b.h) → alloc nil.addr s n align fill = none) := by
  obtain ⟨s₁, l, b, r, free₁, hacq, H, hu, hf, hsz, ho⟩ := I.acquire hn fill
  rw [alloc_eq hn.blockSize_eq hacq]
  refine ⟨s₁, l, b, r, ho, H.handOut hu hf hsz, fun hbad => ?_⟩
  obtain ⟨rfl, hoff⟩ := Classical.not_imp.mp hbad
  simp [Heap.handOut, alignSplit_none hoff]

theorem Inv.alloc_some {p : Nat} {fill : Mem} (I : Inv nil s bs free)
    (hn : NoWrap nil.addr s n align) (hres : Heap.alloc nil.addr s n align fill = some (s', p)) :
    ∃ s₁ l b r l' h k r' free', p = h + headerSize ∧
      Origin s s₁ bs (request (exactSize n) align)
        (free.find? (fits s.mem (exactSize n) align)) l b r ∧
      Handed nil (bs.filter Blk.used) s.mem s₁ l b r n align s' l' h k r' free' := by
  obtain ⟨s₁, l, b, r, O, hok, hbad⟩ := I.alloc hn fill
  by_cases hoff : align = true → OffsetOk b.h
  · obtain ⟨s₂, l', h, k, r', free', halloc, G⟩ := hok hoff
    obtain ⟨rfl, rfl⟩ := Prod.mk.inj (Option.some.inj (halloc.symm.trans hres))
    exact ⟨s₁, l, b, r, l', h, k, r', free', rfl, O, G⟩
  · cases (hbad hoff).symm.trans hres

/-- The used blocks after `alloc`. -/
theorem Handed.used {l' r' : List Blk} {free' : List Nat}
    (G : Handed nil keep m₀ s l b r n align s' l' h k r' free') :
    ((l' ++ Blk.busy h k :: r').filter Blk.used).Perm (Blk.busy h k :: keep) := by
  rw [← G.others, filter_append, filter_append, filter_cons_of_pos rfl]
  exact perm_middle

/-! ## Unused blocks are apart -/

/-- No two neighbours are both unused. -/
def Parted (bs : List Blk) : Prop := bs.IsChain fun b c => b.used = true ∨ c.used = true

/-- The neighbours of an unused block are used, and between used blocks there may be one. -/
theorem parted_append_cons (hb : b.used = false) : Parted (l ++ b :: r) ↔
    Parted l ∧ Parted r ∧ (∀ c ∈ l.getLast?, c.used = true) ∧ ∀ c ∈ r.head?, c.used = true := by
  unfold Parted
  rw [isChain_append, isChain_cons]
  simp only [hb, Bool.false_eq_true, or_false, false_or, List.head?_cons, Option.mem_def,
    Option.some.injEq, forall_eq']
  tauto

theorem Parted.surround (hl : Parted l) (hr : Parted r) : Parted (l ++ Blk.busy h k :: r) := by
  apply List.IsChain.append hl
  · exact hr.cons fun _ _ => .inl rfl
  · rintro x - y hy
    obtain rfl : Blk.busy h k = y := by simpa using hy
    exact .inr rfl

/-- The block that `alloc` takes has used neighbours. -/
theorem Origin.parted {need : Nat} {found : Option Nat}
    (O : Origin s s' bs need found l b r) (h : Parted bs) :
    Parted l ∧ Parted r ∧ (∀ c ∈ l.getLast?, c.used = true) ∧ ∀ c ∈ r.head?, c.used = true := by
  cases O with
  | listed _ hbs hu => exact (parted_append_cons hu).mp (hbs ▸ h)
  | last _ hbs hu _ hr =>
    subst hr
    exact (parted_append_cons hu).mp (hbs ▸ h)
  | new _ hbs hu _ hr =>
    subst hr hbs
    exact ⟨h, List.IsChain.nil, hu, by simp⟩

theorem Handed.parted {l' r' : List Blk} {free' : List Nat}
    (G : Handed nil keep m₀ s l b r n align s' l' h k r' free') (hl : Parted l) (hr : Parted r)
    (hlast : ∀ c ∈ l.getLast?, c.used = true) (hhead : ∀ c ∈ r.head?, c.used = true) :
    Parted (l' ++ Blk.busy h k :: r') := by
  have hl' : Parted l' := by
    obtain rfl | ⟨o, rfl⟩ := G.front
    · exact hl
    · exact (parted_append_cons rfl).mpr ⟨hl, List.IsChain.nil, hlast, by simp⟩
  have hr' : Parted r' := by
    obtain rfl | ⟨g, o, rfl⟩ := G.back
    · exact hr
    · exact (parted_append_cons (l := []) rfl).mpr ⟨List.IsChain.nil, hr, by simp, hhead⟩
  exact hl'.surround hr'

end Sysint.Heap
