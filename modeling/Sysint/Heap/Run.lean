import Sysint.Heap.FreeSpec

/-! Runs of the kernel heap from `heap::init`: callers allocate, free blocks they
hold and write to the bytes they asked for. The heap stays well formed, and what
callers hold is theirs. -/
namespace Sysint.Heap
open Tiling Dlink List Option
open Machine

/-- A payload that `alloc(size, align)` returned and that was not freed yet. -/
structure Live where
  ptr : Nat
  size : Nat
  align : Bool
deriving DecidableEq

structure Run where
  heap : Kheap
  live : List Live

/-- `fill` is what new pages hold when `alloc` maps them. -/
inductive Op where
  | alloc (size : Nat) (align : Bool) (fill : Mem)
  | free (p : Nat)
  | write (a v : Nat)

/-- Callers write to words that hold bytes of a live payload. -/
def Run.mayWrite (s : Run) (a : Nat) : Bool :=
  a % 4 == 0 && s.live.any fun q => decide (q.ptr ≤ a) && decide (a < q.ptr + q.size)

def Run.step (nil : Nat) (s : Run) : Op → Option Run
  | .alloc size align fill => (alloc nil s.heap size align fill).map fun r =>
      ⟨r.1, ⟨r.2, size, align⟩ :: s.live⟩
  | .free p =>
    if p ∈ s.live.map Live.ptr then
      (free nil s.heap p).map fun h => ⟨h, s.live.filter (·.ptr ≠ p)⟩
    else none
  | .write a v =>
    if s.mayWrite a then some { s with heap := { s.heap with mem := set s.heap.mem a v } } else none

/-- The sizes asked for are such that no 32-bit sum wraps. -/
def sizesFit (nil : Nat) (s : Run) : Op → Prop
  | .alloc size align _ => NoWrap nil s.heap size align
  | _ => True

instance (nil : Nat) (s : Run) (a : Op) : Decidable (sizesFit nil s a) :=
  match a with
  | .alloc n align _ => inferInstanceAs (Decidable (NoWrap nil s.heap n align))
  | .free _ => .isTrue trivial
  | .write _ _ => .isTrue trivial

abbrev Reachable (nil : Nat) : Run → Prop :=
  Reach (fun s => ∃ junk, init nil junk = some s.heap ∧ s.live = []) (Run.step nil)
    (sizesFit nil)

/-! ## The invariant of runs -/

/-- The payload of a used block that meets the request. -/
structure Payload (q : Live) (b : Blk) : Prop where
  used : b.used = true
  ptr : q.ptr = b.h + headerSize
  room : q.ptr + q.size ≤ b.fin - footerSize
  word : q.ptr % 4 = 0
  page : q.align = true → q.ptr % 4096 = 0

structure RunInv (nil : Sentinel) (s : Run) (bs : List Blk) (free : List Nat) : Prop
    extends Inv nil s.heap bs free where
  held : (s.live.map Live.ptr).Perm ((bs.filter Blk.used).map fun b => b.h + headerSize)
  payload : ∀ q ∈ s.live, ∃ b ∈ bs, Payload q b
  parted : Parted bs

variable {nil : Sentinel} {s t : Run} {bs : List Blk} {free : List Nat} {b c : Blk} {q : Live}

theorem RunInv.nodup (R : RunInv nil s bs free) : (s.live.map Live.ptr).Nodup := by
  have h1 := R.tiles.nodup fun x hx => by have := (R.bounds hx).2.2.2; omega
  have h2 : ((bs.filter Blk.used).map Blk.h).Nodup := h1.sublist (filter_sublist.map _)
  have h3 : ((bs.filter Blk.used).map fun b => b.h + headerSize) =
      ((bs.filter Blk.used).map Blk.h).map (· + headerSize) := by simp
  rw [R.held.nodup_iff, h3]
  exact h2.map fun _ _ h => Nat.add_right_cancel h

/-- A used block belongs to one of the live payloads, and the other way round. -/
theorem RunInv.block (R : RunInv nil s bs free) {p : Nat} (hp : p ∈ s.live.map Live.ptr) :
    ∃ b ∈ bs, b.used = true ∧ p = b.h + headerSize := by
  obtain ⟨b, hb, rfl⟩ := List.mem_map.mp (R.held.mem_iff.mp hp)
  obtain ⟨h1, h2⟩ := mem_filter.mp hb
  exact ⟨b, h1, h2, rfl⟩

/-- `heap::init` leaves one block, on the list. -/
theorem init_inv (nil : Sentinel) (junk : Mem) :
    ∃ h free, init nil.addr junk = some h ∧ Inv nil h [Blk.spare heapBase heapInitSize] free ∧
      h.heapEnd = heapBase + heapInitSize := by
  have hnil : nil.addr + 20 ≤ heapBase := nil.below
  have hbase : heapBase = 0xD0000000 := rfl
  have hinit : heapInitSize = 0x100000 := rfl
  let s := allocPages ⟨junk, heapBase + heapInitSize, fun _ => false⟩ (heapBase >>> pageShift)
    (heapInitSize >>> pageShift) junk
  let m₁ := set (set (setSize (set s.mem nil.addr headerMagic) nil.addr 0) (nil.addr + 8) nil.addr)
    (nil.addr + 12) nil.addr
  let m := writeFooter (writeHeader m₁ heapBase heapInitSize)
    (heapBase + heapInitSize - footerSize) heapBase
  have hrec : Record m ⟨heapBase, heapInitSize, false, false, heapBase, true⟩ := by
    apply record_fresh (by decide) <;> simp [writeHeader_apply]
  have hring : Ring (links m) nil.addr [] := by
    have h8 : m (nil.addr + 8) = nil.addr := by
      simp only [m, m₁, writeFooter_apply, writeHeader_apply, set_apply, footerSize]
      split_ifs <;> omega
    have h12 : m (nil.addr + 12) = nil.addr := by
      simp only [m, m₁, writeFooter_apply, writeHeader_apply, set_apply, footerSize]
      split_ifs <;> omega
    exact ⟨⟨h12, h8⟩, by simp⟩
  have W : Work nil [] m m (heapBase + heapInitSize)
      ([] ++ ⟨heapBase, heapInitSize, false, false, heapBase, true⟩ :: []) [] := by
    refine ⟨⟨⟨rfl, rfl⟩, ?_, ?_, hring, by simp, List.Pairwise.nil, ?_⟩, by simp, by simp⟩
    · simp [hinit, minBlock, headerSize, footerSize, minBlockSize]
    · simpa using hrec
    · simp
  obtain ⟨m', free', hins, W', -⟩ := W.enlist rfl rfl rfl
  have hends : EndOk (heapBase + heapInitSize) := ⟨Nat.le_refl _, by decide, by decide⟩
  refine ⟨{ s with mem := m' }, free', map_eq_some_iff.mpr ⟨m', hins, rfl⟩, ?_, rfl⟩
  · refine ⟨W'.toLayout, ?_, hends, ?_⟩
    · simp only [mem_singleton, forall_eq]
      exact Blk.settled_spare _ _
    · intro p h1 h2
      have e : ∀ x, x >>> pageShift = x / 4096 := fun x => Nat.shiftRight_eq_div_pow x 12
      have h2 : p < (heapBase + heapInitSize) / 4096 := h2
      have h3 : p < heapBase / 4096 + heapInitSize / 4096 := by omega
      simp [s, allocPages, e, h1, h3]

/-- What an operation leaves of a payload that it does not free. -/
structure Untouched (s t : Run) (q : Live) : Prop where
  live : q ∈ t.live
  bytes : ∀ x, q.ptr ≤ x →
    x < (q.ptr - headerSize) + size s.heap.mem (q.ptr - headerSize) - footerSize →
      t.heap.mem x = s.heap.mem x ∧ t.heap.mapped (x / 4096) = true

section

variable (R : RunInv nil s bs free)
include R

/-- Blocks that stay in place with their contents leave their payloads untouched. -/
theorem RunInv.untouched {bs' : List Blk} {free' : List Nat}
    (R' : RunInv nil t bs' free') (hq : q ∈ t.live) (hb : b ∈ bs) (hp : Payload q b)
    (hb' : b ∈ bs') (hmem : ∀ x, b.h ≤ x → x < b.fin → t.heap.mem x = s.heap.mem x) :
    Untouched s t q := by
  refine ⟨hq, fun x h1 h2 => ?_⟩
  have hptr := hp.ptr
  have h20 : headerSize = 20 := rfl
  have hh : q.ptr - headerSize = b.h := by omega
  rw [hh, (R.record b hb).size_eq (R.settled b hb).written] at h2
  have h3 := R.bounds hb
  have h4 := R'.bounds hb'
  have h5 := R'.ends.page
  exact ⟨hmem x (by omega) (by omega), R'.pages _ (by omega) (by omega)⟩

theorem RunInv.alloc {n : Nat} {align : Bool} {fill : Mem}
    (hok : NoWrap nil.addr s.heap n align) (h : s.step nil.addr (.alloc n align fill) = some t) :
    ∃ bs' free', RunInv nil t bs' free' ∧ ∀ q ∈ s.live, Untouched s t q := by
  obtain ⟨⟨h', p⟩, hres, rfl⟩ := map_eq_some_iff.mp h
  obtain ⟨s₁, l, b, r, l', g, k, r', free', rfl, O, G⟩ := R.toInv.alloc_some hok hres
  have hstay (c : Blk) (hc : c ∈ bs) (hu : c.used = true) : c ∈ l' ++ Blk.busy g k :: r' := by
    have : c ∈ Blk.busy g k :: bs.filter Blk.used :=
      mem_cons_of_mem _ (mem_filter.mpr ⟨hc, hu⟩)
    exact (mem_filter.mp (G.used.mem_iff.mpr this)).1
  have hbm : Blk.busy g k ∈ l' ++ Blk.busy g k :: r' := by simp
  have hpay : Payload ⟨g + headerSize, n, align⟩ (Blk.busy g k) := by
    refine ⟨rfl, rfl, ?_, ?_, G.page⟩
    · have h28 := (exactSize_spec n).2.2
      have hroom := G.room
      simp only [Blk.busy, Blk.fin, headerSize, footerSize] at h28 ⊢
      omega
    · have h4 : g % 4 = 0 := G.inv.aligned hbm
      simp only [headerSize]
      omega
  have R' : RunInv nil ⟨h', ⟨g + headerSize, n, align⟩ :: s.live⟩
    (l' ++ Blk.busy g k :: r') free' := by
    refine ⟨G.inv, ?_, ?_, ?_⟩
    · have h1 := G.used.map fun b => b.h + headerSize
      exact (R.held.cons _).trans h1.symm
    · intro q hq
      cases mem_cons.mp hq with
      | inl he => exact ⟨_, hbm, he ▸ hpay⟩
      | inr hq =>
        obtain ⟨c, hc, hpc⟩ := R.payload q hq
        exact ⟨c, hstay c hc hpc.used, hpc⟩
    · obtain ⟨hl, hr, hlast, hhead⟩ := O.parted R.parted
      exact G.parted hl hr hlast hhead
  refine ⟨_, free', R', fun q hq => ?_⟩
  obtain ⟨c, hc, hpc⟩ := R.payload q hq
  exact R.untouched R' (mem_cons_of_mem _ hq) hc hpc (hstay c hc hpc.used)
    (G.frame c (mem_filter.mpr ⟨hc, hpc.used⟩))

theorem RunInv.freed {p : Nat} (h : s.step nil.addr (.free p) = some t) :
    ∃ bs' free', RunInv nil t bs' free' ∧ (∀ q ∈ s.live, q.ptr ≠ p → Untouched s t q) ∧
      checkBlock t.heap p = false ∧ t.heap.heapEnd ≤ s.heap.heapEnd := by
  simp only [Run.step] at h
  split at h
  · rename_i hp
    obtain ⟨b, hb, hu, rfl⟩ := R.block hp
    obtain ⟨h', hres, rfl⟩ := map_eq_some_iff.mp h
    obtain ⟨bs', free', I, hperm, hmem, hcaught, hparted, hless⟩ := R.toInv.freed hb hu hres
    -- the block of another payload is another block, so it is still used
    have hstay {q : Live} {c : Blk} (hq : q.ptr ≠ b.h + headerSize) (hc : c ∈ bs)
        (hpc : Payload q c) : c ∈ bs'.filter Blk.used := by
      have hm := hperm.mem_iff.mpr (mem_filter.mpr ⟨hc, hpc.used⟩)
      refine (mem_cons.mp hm).resolve_left ?_
      rintro rfl
      exact hq hpc.ptr
    have R' : RunInv nil ⟨h', s.live.filter (·.ptr ≠ b.h + headerSize)⟩ bs' free' := by
      refine ⟨I, ?_, ?_, hparted R.parted⟩
      · have h1 := (hperm.map fun b => b.h + headerSize).trans R.held.symm
        have h2 : (s.live.filter (·.ptr ≠ b.h + headerSize)).map Live.ptr =
            (s.live.map Live.ptr).erase (b.h + headerSize) := by
          rw [R.nodup.erase_eq_filter, List.filter_map]
          congr 1
          apply filter_congr
          intro q _
          rw [Bool.eq_iff_iff]
          simp
        have h3 := h1.erase (b.h + headerSize)
        rw [map_cons, erase_cons_head] at h3
        rw [h2]
        exact h3.symm
      · intro q hq
        obtain ⟨hq, hne⟩ := mem_filter.mp hq
        obtain ⟨c, hc, hpc⟩ := R.payload q hq
        exact ⟨c, (mem_filter.mp (hstay (by simpa using hne) hc hpc)).1, hpc⟩
    refine ⟨bs', free', R', fun q hq hne => ?_, hcaught, hless⟩
    obtain ⟨c, hc, hpc⟩ := R.payload q hq
    have hm := hstay hne hc hpc
    exact R.untouched R' (mem_filter.mpr ⟨hq, by simpa using hne⟩) hc hpc
      (mem_filter.mp hm).1 (hmem c hm)
  · simp at h

/-- A caller's write lands in its own block, between the records. -/
theorem RunInv.write {a v : Nat}
    (h : s.step nil.addr (.write a v) = some t) : RunInv nil t bs free := by
  simp only [Run.step] at h
  split at h
  · rename_i hw
    cases h
    simp only [Run.mayWrite, Bool.and_eq_true, List.any_eq_true, decide_eq_true_eq] at hw
    obtain ⟨-, q, hq, h1, h2⟩ := hw
    obtain ⟨b, hb, hp⟩ := R.payload q hq
    have hptr := hp.ptr
    have hroom := hp.room
    have hbb := R.bounds hb
    have hoff : b.listed = false := by
      rw [(R.settled b hb).listed, hp.used]
      rfl
    have h20 : headerSize = 20 := rfl
    have h8 : footerSize = 8 := rfl
    have hne (x : Nat) (hx : x < b.h + 20 ∨ b.fin - 8 ≤ x) :
        set s.heap.mem a v x = s.heap.mem x := by
      rw [set_apply, if_neg (by omega)]
    have W : Work nil [] s.heap.mem s.heap.mem s.heap.heapEnd bs free :=
      ⟨R.toLayout, by simp, by simp⟩
    obtain ⟨l, r, rfl⟩ := append_of_mem hb
    have W' : Work nil [] s.heap.mem (set s.heap.mem a v) s.heap.heapEnd (l ++ b :: r) free := by
      apply W.rewrite b hoff (by simp) rfl rfl hoff
      · apply (R.record b hb).congr <;> apply hne <;> omega
      · intro x hx
        exact hne x (by omega)
    exact ⟨⟨W'.toLayout, R.settled, R.ends, R.pages⟩, R.held, R.payload, R.parted⟩
  · cases h

theorem step_inv {a : Op} (hok : sizesFit nil.addr s a)
    (h : s.step nil.addr a = some t) : ∃ bs' free', RunInv nil t bs' free' := by
  cases a with
  | alloc n align fill =>
    obtain ⟨bs', free', R', -⟩ := R.alloc hok h
    exact ⟨bs', free', R'⟩
  | free p =>
    obtain ⟨bs', free', R', -⟩ := R.freed h
    exact ⟨bs', free', R'⟩
  | write a v => exact ⟨bs, free, R.write h⟩

end

theorem reachable_inv (h : Reachable nil.addr s) : ∃ bs free, RunInv nil s bs free := by
  apply Reach.invariant _ _ h
  · rintro s ⟨junk, hinit, hlive⟩
    obtain ⟨k, free, hk, I, -⟩ := init_inv nil junk
    obtain rfl : k = s.heap := Option.some.inj (hk.symm.trans hinit)
    refine ⟨_, free, I, ?_, by simp [hlive], isChain_singleton _⟩
    simp [hlive, Blk.spare]
  · rintro s a t ⟨bs, free, R⟩ hok hs
    exact step_inv R hok hs

/-! ## The heap is well formed -/

/-- The heap as its memory shows it: `bs` are the blocks in the order of their
addresses, `free` the nodes of the list `free_blocks` in the order of the list. -/
structure WellFormed (nil : Nat) (s : Kheap) (bs : List Blk) (free : List Nat) : Prop where
  tiles : Fills heapBase bs s.heapEnd
  header : ∀ b ∈ bs, magic s.mem b.h = headerMagic ∧ size s.mem b.h = b.size ∧
    used s.mem b.h = b.used ∧ minBlock ≤ b.size
  footer : ∀ b ∈ bs, s.mem (b.fin - footerSize) = footerMagic ∧
    footerHeader s.mem (b.fin - footerSize) = b.h
  heapEnd : s.heapEnd % 0x1000 = 0 ∧ heapBase + heapInitSize ≤ s.heapEnd
  ring : Ring (links s.mem) nil free
  unused : free.Perm ((bs.filter (!·.used)).map Blk.h)
  sorted : free.Pairwise fun x y => size s.mem x ≤ size s.mem y

theorem Inv.wellFormed {k : Kheap} (I : Inv nil k bs free) : WellFormed nil.addr k bs free where
  tiles := I.tiles
  header b hb := by
    have hw := (I.settled b hb).written
    exact ⟨(I.record b hb).magic hw, (I.record b hb).size_eq hw, (I.record b hb).used_eq hw,
      (I.shape b hb).1⟩
  footer b hb := ⟨(I.record b hb).ftrMagic, (I.record b hb).ftr.trans (I.settled b hb).ftr⟩
  heapEnd := ⟨I.ends.page, I.ends.init⟩
  ring := I.ring
  unused := by
    have : bs.filter (!·.used) = bs.filter Blk.listed :=
      filter_congr fun b hb => (I.settled b hb).listed.symm
    rw [this]
    exact I.listed
  sorted := I.sorted

/-- **The representation invariant.** In every state of every run the blocks tile
the heap, their records are right, and the list holds exactly the unused blocks
in the order of their sizes. -/
theorem heap_well_formed (nil : Sentinel) {s : Run} (h : Reachable nil.addr s) :
    ∃ bs free, WellFormed nil.addr s.heap bs free := by
  obtain ⟨bs, free, R⟩ := reachable_inv h
  exact ⟨bs, free, R.toInv.wellFormed⟩

/-- A word of the kernel's data segment, for the list's sentinel. -/
def dataWord : Sentinel := ⟨0xC0200000, by decide, by decide, by decide⟩

/-- A small allocation, a page-aligned one and one that needs new pages; then the
first of them is freed. -/
def sampleOps : List Op :=
  [.alloc 100 false fun _ => 0, .alloc 0x2001 true fun _ => 0, .alloc 0x180000 false fun _ => 1,
    .free 0xD0000014]

def sampleRun : Option Run :=
  (init dataWord.addr fun _ => 5).bind fun k =>
    run (guarded (Run.step dataWord.addr) (sizesFit dataWord.addr)) ⟨k, []⟩ sampleOps

theorem sampleRun_reachable {s : Run} (h : sampleRun = some s) : Reachable dataWord.addr s := by
  obtain ⟨k, hk, hrun⟩ := bind_eq_some_iff.mp h
  have h0 : Reachable dataWord.addr ⟨k, []⟩ := .init ⟨_, hk, rfl⟩
  exact h0.runGuarded hrun

theorem heap_well_formed_sample : ∃ s, sampleRun = some s ∧ s.heap.heapEnd = 0xD0281000 ∧
      ∃ bs free, WellFormed dataWord.addr s.heap bs free := by
  have hrun : sampleRun.map (fun s => s.heap.heapEnd) = some 0xD0281000 := by decide +kernel
  obtain ⟨s, hs, he⟩ := run_of_map hrun
  exact ⟨s, hs, he, heap_well_formed dataWord (sampleRun_reachable hs)⟩

/-! ## What callers hold is theirs -/

/-- The payload of `q` shares no byte with the records of `c`; `b` is the block
of `q`. -/
def ClearOf (q : Live) (b c : Blk) : Prop :=
  (b.fin - footerSize ≤ c.h ∨ c.h + headerSize ≤ q.ptr) ∧
    (b.fin - footerSize ≤ c.fin - footerSize ∨ c.fin ≤ q.ptr)

theorem Inv.clearOf {k : Kheap} (I : Inv nil k bs free) (hb : b ∈ bs) (hc : c ∈ bs)
    (hp : Payload q b) : ClearOf q b c := by
  have h1 := I.bounds hb
  have h2 := I.bounds hc
  have h3 := hp.ptr
  have h20 : headerSize = 20 := rfl
  have h8 : footerSize = 8 := rfl
  unfold ClearOf
  cases I.apart hb hc with
  | inl he =>
    subst he
    omega
  | inr ha => omega

/-- **Payload safety.** In every state of every run, every live payload has the
bytes asked for in front of its block's footer and the alignment asked for,
shares no byte with another live payload or with a record, and is mapped; no
`alloc` and no `free` of another payload takes it away or writes to it. -/
theorem payloads_safe (nil : Sentinel) {s : Run} (h : Reachable nil.addr s) :
    ∃ bs free, WellFormed nil.addr s.heap bs free ∧
      (∀ q ∈ s.live, ∃ b ∈ bs, Payload q b ∧ (∀ c ∈ bs, ClearOf q b c) ∧
        ∀ q' ∈ s.live, q'.ptr ≠ q.ptr → ∃ b' ∈ bs, Payload q' b' ∧
          (b.fin ≤ b'.h ∨ b'.fin ≤ b.h)) ∧
      (s.live.map Live.ptr).Nodup ∧
      ∀ a t, sizesFit nil.addr s a → s.step nil.addr a = some t → (∀ x v, a ≠ .write x v) →
        ∀ q ∈ s.live, a ≠ .free q.ptr → Untouched s t q := by
  obtain ⟨bs, free, R⟩ := reachable_inv h
  refine ⟨bs, free, R.toInv.wellFormed, ?_, R.nodup, ?_⟩
  · intro q hq
    obtain ⟨b, hb, hp⟩ := R.payload q hq
    refine ⟨b, hb, hp, fun c hc => R.toInv.clearOf hb hc hp, fun q' hq' hne => ?_⟩
    obtain ⟨b', hb', hp'⟩ := R.payload q' hq'
    refine ⟨b', hb', hp', (R.apart hb hb').resolve_left ?_⟩
    rintro rfl
    exact hne (hp'.ptr.trans hp.ptr.symm)
  · intro a t hok hs hw q hq hne
    cases a with
    | alloc n align fill =>
      obtain ⟨-, -, -, hu⟩ := R.alloc hok hs
      exact hu q hq
    | free p =>
      obtain ⟨-, -, -, hu, -⟩ := R.freed hs
      exact hu q hq fun he => hne (he ▸ rfl)
    | write x v => exact absurd rfl (hw x v)

theorem payloads_safe_sample :
    ∃ s, sampleRun = some s ∧ s.live.map Live.ptr = [0xD0003020, 0xD0001000] ∧
      ∃ bs free, WellFormed dataWord.addr s.heap bs free ∧
        ∀ q ∈ s.live, ∃ b ∈ bs, Payload q b ∧ ∀ c ∈ bs, ClearOf q b c := by
  have hrun : sampleRun.map (fun s => s.live.map Live.ptr) = some [0xD0003020, 0xD0001000] := by
    decide +kernel
  obtain ⟨s, hs, he⟩ := run_of_map hrun
  obtain ⟨bs, free, hwf, hpay, -⟩ := payloads_safe dataWord (sampleRun_reachable hs)
  refine ⟨s, hs, he, bs, free, hwf, fun q hq => ?_⟩
  obtain ⟨b, hb, hp, hc, -⟩ := hpay q hq
  exact ⟨b, hb, hp, hc⟩

end Sysint.Heap
