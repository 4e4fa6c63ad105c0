import Sysint.Heap.Run

/-! What `heap::alloc` does for its callers: it finds the best fit, it meets its own
assertions, and it stays inside the heap's region. -/
namespace Sysint.Heap
open Tiling Dlink List Option
open Machine

variable {nil : Sentinel} {s : Run} {bs : List Blk} {free : List Nat} {k : Kheap}

/-! ## Best fit -/

/-- The first hit in a sorted list is the least hit. -/
theorem find_least {α : Type} {xs : List α} {p : α → Bool} {R : α → α → Prop} (hr : ∀ x, R x x)
    (hs : xs.Pairwise R) {a b : α} (ha : xs.find? p = some a) (hb : b ∈ xs) (hp : p b = true) :
    R a b := by
  obtain ⟨-, ys, zs, rfl, hys⟩ := List.find?_eq_some_iff_append.mp ha
  have hs := (pairwise_append.mp hs).2.1
  rcases mem_append.mp hb with hb | hb
  · have := hys b hb
    simp [hp] at this
  · cases mem_cons.mp hb with
    | inl he => exact he ▸ hr a
    | inr hb => exact (pairwise_cons.mp hs).1 b hb

theorem cutUp_sum {h k sz : Nat} (hsz : sz ≤ k) : ((cutUp h k sz).map Blk.size).sum = k := by
  unfold cutUp
  split
  · simp only [map_cons, map_nil, sum_cons, sum_nil, Blk.busy, Blk.spare]
    omega
  · simp [Blk.busy]

/-- How `alloc` serves a request for a block of `sz` bytes: from a smallest unused block that
is large enough, cut down if the rest can be a block of its own, or, if there is none, by
extending the heap. -/
inductive Served (s s' : Kheap) (bs bs' : List Blk) (sz p : Nat) : Prop where
  | hit {l r : List Blk} {c : Blk} (blocks : bs = l ++ c :: r) (unused : c.used = false)
      (large : sz ≤ c.size)
      (least : ∀ d ∈ bs, d.used = false → sz ≤ d.size → c.size ≤ d.size)
      (stay : s'.heapEnd = s.heapEnd) (ptr : p = c.h + headerSize)
      (pieces : bs' = l ++ (cutUp c.h c.size sz ++ r))
      (sum : ((cutUp c.h c.size sz).map Blk.size).sum = c.size)
  | grow {l : List Blk} {h : Nat} (none : ∀ d ∈ bs, d.used = false → d.size < sz)
      (grows : s.heapEnd < s'.heapEnd)
      (start : (bs = l ∧ h = s.heapEnd) ∨ ∃ c, bs = l ++ [c] ∧ c.used = false ∧ h = c.h)
      (ptr : p = h + headerSize) (pieces : bs' = l ++ cutUp h (s'.heapEnd - h) sz)

theorem Inv.listed_unused (I : Inv nil k bs free) {d : Blk} (hd : d ∈ bs)
    (hu : d.used = false) : d.h ∈ free ∧ size k.mem d.h = d.size := by
  have hs := I.settled d hd
  refine ⟨I.mem_free.mpr ⟨d, hd, ?_, rfl⟩, (I.record d hd).size_eq hs.written⟩
  rw [hs.listed, hu]
  rfl

theorem Inv.served {n : Nat} (I : Inv nil k bs free) (hn : NoWrap nil.addr k n false) (fill : Mem) :
    ∃ k' p bs' free', Heap.alloc nil.addr k n false fill = some (k', p) ∧ Inv nil k' bs' free' ∧
      Served k k' bs bs' (blockSize n) p := by
  obtain ⟨k₁, l, b, r, O, hok, -⟩ := I.alloc hn fill
  obtain ⟨k', l', h, m, r', free', halloc, G⟩ := hok (by simp)
  obtain ⟨hl, hh, hcut⟩ := G.plain rfl
  subst hl hh
  refine ⟨k', _, _, free', halloc, G.inv, ?_⟩
  rw [hcut, hn.blockSize_eq]
  have h36 := (exactSize_spec n).1
  have hmin : minBlock = 36 := rfl
  have hfits (x : Nat) : fits k.mem (exactSize n) false x = true ↔ exactSize n ≤ size k.mem x := by
    simp [fits]
  have hnone (hmiss : free.find? (fits k.mem (exactSize n) false) = none) (d : Blk) (hd : d ∈ bs)
      (hu : d.used = false) : d.size < exactSize n := by
    obtain ⟨hf, hs⟩ := I.listed_unused hd hu
    have := List.find?_eq_none.mp hmiss d.h hf
    rw [hfits, hs] at this
    omega
  cases O with
  | @listed c hit hbs hu hstart hsize hstay =>
    have hc : c ∈ bs := by simp [hbs]
    obtain ⟨-, hs⟩ := I.listed_unused hc hu
    have hlarge : exactSize n ≤ c.size := by
      have := (hfits b.h).mp (List.find?_some hit)
      rwa [hstart, hs] at this
    rw [hstart, hsize]
    refine .hit hbs hu hlarge ?_ (G.stay.trans hstay) rfl rfl (cutUp_sum hlarge)
    intro d hd hdu hdl
    obtain ⟨hf, hds⟩ := I.listed_unused hd hdu
    have hle := find_least (R := fun x y => size k.mem x ≤ size k.mem y) (fun _ => Nat.le_refl _)
      I.sorted hit hf ((hfits d.h).mpr (by omega))
    rwa [hstart, hs, hds] at hle
  | last miss hbs hu hstart hr hfin hleast _ =>
    subst hr
    have hgrow := G.stay
    simp only [request] at hleast
    refine .grow (l := l') (h := b.h) (hnone miss) (by omega) (.inr ⟨_, hbs, hu, hstart⟩) rfl ?_
    rw [append_nil, G.stay, ← hfin, Blk.fin, Nat.add_sub_cancel_left]
  | new miss hbs _ hstart hr hfin hleast _ =>
    subst hr
    have hgrow := G.stay
    simp only [request] at hleast
    refine .grow (l := l') (h := b.h) (hnone miss) (by omega) (.inl ⟨hbs, hstart⟩) rfl ?_
    rw [append_nil, G.stay, ← hfin, Blk.fin, Nat.add_sub_cancel_left]

/-- **Best fit.** In every state of every run, `alloc` without alignment takes a smallest
unused block that is large enough and extends the heap only if there is none. -/
theorem alloc_best_fit (nil : Sentinel) {s : Run} (h : Reachable nil.addr s) (n : Nat) (fill : Mem)
    (hn : NoWrap nil.addr s.heap n false) :
    ∃ bs free, WellFormed nil.addr s.heap bs free ∧ ∃ k p bs' free',
      alloc nil.addr s.heap n false fill = some (k, p) ∧ WellFormed nil.addr k bs' free' ∧
      Served s.heap k bs bs' (blockSize n) p := by
  obtain ⟨bs, free, R⟩ := reachable_inv h
  obtain ⟨k, p, bs', free', halloc, I, S⟩ := R.toInv.served hn fill
  exact ⟨bs, free, R.toInv.wellFormed, k, p, bs', free', halloc, I.wellFormed, S⟩

theorem alloc_best_fit_sample : ∃ s, sampleRun = some s ∧ ∃ bs k p bs',
    alloc dataWord.addr s.heap 64 false (fun _ => 0) = some (k, p) ∧
      Served s.heap k bs bs' 92 p := by
  have hrun : sampleRun.map (fun s => decide (NoWrap dataWord.addr s.heap 64 false)) =
      some true := by
    decide +kernel
  obtain ⟨s, hs, hn⟩ := run_of_map hrun
  obtain ⟨bs, free, -, k, p, bs', free', halloc, -, S⟩ :=
    alloc_best_fit dataWord (sampleRun_reachable hs) 64 (fun _ => 0) (of_decide_eq_true hn)
  exact ⟨s, hs, bs, k, p, bs', halloc, S⟩

/-! ## The assertions of an aligned allocation -/

/-- If the heap has to grow at an unused last block, that block is not a few bytes away from
where an aligned payload would start. -/
def LastAligns (nil : Nat) (s : Kheap) (n : Nat) : Prop :=
  searchFree s.mem nil (blockSize n) true s.heapEnd (next s.mem nil) = some none →
    used s.mem (footerHeader s.mem (s.heapEnd - footerSize)) = false →
      OffsetOk (footerHeader s.mem (s.heapEnd - footerSize))

instance (nil : Nat) (s : Kheap) (n : Nat) : Decidable (LastAligns nil s n) :=
  inferInstanceAs (Decidable (_ → _ → _))

/-- A block at the end of the heap leaves room in front of the aligned payload. -/
theorem offsetOk_end {e : Nat} (hpage : e % 4096 = 0) (htop : e + 4096 < 2 ^ 32) : OffsetOk e := by
  obtain ⟨h1, h2, -⟩ := alignOffset_spec (h := e) (by omega) (by omega)
  right
  simp only [minBlock, headerSize, footerSize, minBlockSize]
  omega

/-- The last footer leads to the last block. -/
theorem RunInv.lastBlock {nil : Sentinel} {s : Run} {bs : List Blk} {free : List Nat}
    (R : RunInv nil s bs free) : ∃ l c, bs = l ++ [c] ∧
      footerHeader s.heap.mem (s.heap.heapEnd - footerSize) = c.h ∧
      used s.heap.mem c.h = c.used := by
  obtain ⟨l, c, rfl, hfin⟩ := R.toInv.last
  have hs := R.settled c (by simp)
  have hrec := R.record c (by simp)
  refine ⟨l, c, rfl, ?_, hrec.used_eq hs.written⟩
  rw [← hfin]
  exact hrec.ftr.trans hs.ftr

/-- **An aligned allocation meets its assertions** exactly if it does not extend an unused last
block at such a place. -/
theorem alloc_aligned (nil : Sentinel) {s : Run} (h : Reachable nil.addr s) (n : Nat) (fill : Mem)
    (hn : NoWrap nil.addr s.heap n true) :
    (∃ k p, alloc nil.addr s.heap n true fill = some (k, p)) ↔ LastAligns nil.addr s.heap n := by
  obtain ⟨bs, free, R⟩ := reachable_inv h
  obtain ⟨k₁, l, b, r, O, hok, hbad⟩ := R.toInv.alloc hn fill
  have hsearch := R.searchFree (exactSize n) true
  obtain ⟨l₀, c₀, hbs₀, hfoot, hused⟩ := R.lastBlock
  have hiff : (∃ k p, alloc nil.addr s.heap n true fill = some (k, p)) ↔ OffsetOk b.h := by
    constructor
    · rintro ⟨k, p, halloc⟩
      by_contra hoff
      rw [hbad fun h => hoff (h rfl)] at halloc
      cases halloc
    · intro hoff
      obtain ⟨k, l', h, m, r', free', halloc, -⟩ := hok fun _ => hoff
      exact ⟨k, _, halloc⟩
  rw [hiff]
  unfold LastAligns
  rw [hfoot, hused, hn.blockSize_eq, hsearch]
  cases O with
  | listed hit _ _ _ _ _ =>
    have hfit := List.find?_some hit
    simp only [fits, if_true, Bool.and_eq_true, Bool.or_eq_true, beq_iff_eq,
      decide_eq_true_eq] at hfit
    exact iff_of_true hfit.1 (by simp [hit])
  | last miss hbs hu hstart _ _ _ _ =>
    obtain ⟨rfl, rfl⟩ := append_singleton_inj.mp (hbs₀.symm.trans hbs)
    simp [miss, hu, hstart]
  | new miss hbs hlast hstart _ _ _ _ =>
    rw [miss, ← hn.blockSize_eq] at hsearch
    have hend := hn.2 hsearch
    have hreq : request (exactSize n) true = exactSize n + 0x1000 := rfl
    rw [hstart]
    refine iff_of_true (offsetOk_end R.ends.page (by omega)) ?_
    simp [hlast c₀ (by simp [← hbs, hbs₀])]

theorem alloc_aligned_sample : ∃ s, sampleRun = some s ∧
    ∃ k p, alloc dataWord.addr s.heap 0x180000 true (fun _ => 0) = some (k, p) := by
  have hrun : sampleRun.map (fun s => decide (NoWrap dataWord.addr s.heap 0x180000 true ∧
      LastAligns dataWord.addr s.heap 0x180000)) = some true := by
    decide +kernel
  obtain ⟨s, hs, hd⟩ := run_of_map hrun
  obtain ⟨hn, hlast⟩ := of_decide_eq_true hd
  exact ⟨s, hs, (alloc_aligned dataWord (sampleRun_reachable hs) 0x180000
    (fun _ => 0) hn).mpr hlast⟩

/-- After an allocation of 4044 bytes the unused last block starts 24 bytes before a page
boundary, and an aligned request larger than it fails the assertion. -/
theorem alloc_aligned_stops : ∃ s, Reachable dataWord.addr s ∧
    NoWrap dataWord.addr s.heap 0x100000 true ∧
    alloc dataWord.addr s.heap 0x100000 true (fun _ => 0) = none := by
  have hrun : ((init dataWord.addr fun _ => 5).bind fun k =>
      run (guarded (Run.step dataWord.addr) (sizesFit dataWord.addr)) ⟨k, []⟩
        [.alloc 4044 false fun _ => 0]).map (fun s =>
      (decide (NoWrap dataWord.addr s.heap 0x100000 true),
        (alloc dataWord.addr s.heap 0x100000 true (fun _ => 0)).isNone)) = some (true, true) := by
    decide +kernel
  obtain ⟨s, hs, hv⟩ := run_of_map hrun
  obtain ⟨k, hk, hr⟩ := bind_eq_some_iff.mp hs
  obtain ⟨hn, hnone⟩ := Prod.mk.inj hv
  have h0 : Reachable dataWord.addr ⟨k, []⟩ := .init ⟨_, hk, rfl⟩
  exact ⟨s, h0.runGuarded hr, of_decide_eq_true hn, isNone_iff_eq_none.mp hnone⟩

/-! ## The region of the heap -/

/-- `HEAP_END`, where the remap area begins. -/
def heapLimit : Nat := heapBase + 0x20000000

/-- No sum of the request wraps, and if the heap has to grow it has room below its limit. -/
def StaysBelow (nil : Nat) (s : Kheap) (n : Nat) (align : Bool) : Prop :=
  request (exactSize n) align < 2 ^ 32 ∧
    (searchFree s.mem nil (blockSize n) align s.heapEnd (next s.mem nil) = some none →
      s.heapEnd + request (exactSize n) align ≤ heapLimit)

instance (nil : Nat) (s : Kheap) (n : Nat) (align : Bool) :
    Decidable (StaysBelow nil s n align) := inferInstanceAs (Decidable (_ ∧ _))

theorem StaysBelow.noWrap {nil n : Nat} {align : Bool} (h : StaysBelow nil k n align) :
    NoWrap nil k n align := by
  refine ⟨h.1, fun hs => ?_⟩
  have := h.2 hs
  have hlim : heapLimit = 0xF0000000 := rfl
  omega

def requestsBelow (nil : Nat) (s : Run) : Op → Prop
  | .alloc n align _ => StaysBelow nil s.heap n align
  | _ => True

instance (nil : Nat) (s : Run) (a : Op) : Decidable (requestsBelow nil s a) :=
  match a with
  | .alloc n align _ => inferInstanceAs (Decidable (StaysBelow nil s.heap n align))
  | .free _ => .isTrue trivial
  | .write _ _ => .isTrue trivial

/-- The runs whose requests stay below the limit. -/
abbrev ReachableBelow (nil : Nat) : Run → Prop :=
  Reach (fun s => ∃ junk, init nil junk = some s.heap ∧ s.live = []) (Run.step nil)
    (requestsBelow nil)

/-- The heap does not grow past its limit. -/
theorem Origin.below {k' : Kheap} {n : Nat} {align : Bool} {l r : List Blk} {b : Blk}
    (I : Inv nil k bs free) (he : EndOk k'.heapEnd) (hb : StaysBelow nil.addr k n align)
    (hle : k.heapEnd ≤ heapLimit)
    (O : Origin k k' bs (request (exactSize n) align) (free.find? (fits k.mem (exactSize n) align))
      l b r) : k'.heapEnd ≤ heapLimit := by
  have hsearch := I.searchFree (exactSize n) align
  rw [← hb.noWrap.blockSize_eq] at hsearch O
  have hlim : heapLimit = 0xF0000000 := rfl
  have hpage := he.page
  cases O with
  | listed _ _ _ _ _ hstay => omega
  | last miss _ _ _ _ _ _ hmost =>
    have := hb.2 (miss ▸ hsearch)
    rw [hb.noWrap.blockSize_eq] at hmost
    omega
  | new miss _ _ _ _ _ _ hmost =>
    have := hb.2 (miss ▸ hsearch)
    rw [hb.noWrap.blockSize_eq] at hmost
    omega

theorem below_inv (h : ReachableBelow nil.addr s) :
    (∃ bs free, RunInv nil s bs free) ∧ s.heap.heapEnd ≤ heapLimit := by
  apply Reach.invariant _ _ h
  · rintro s ⟨junk, hinit, hlive⟩
    refine ⟨reachable_inv (.init ⟨junk, hinit, hlive⟩), ?_⟩
    obtain ⟨k, free, hk, -, hend⟩ := init_inv nil junk
    obtain rfl : k = s.heap := Option.some.inj (hk.symm.trans hinit)
    rw [hend]
    decide
  rintro s a t ⟨⟨bs, free, R⟩, hle⟩ hok hs
  cases a with
  | alloc n align fill =>
    have hb : StaysBelow nil.addr s.heap n align := hok
    obtain ⟨bs', free', R', -⟩ := R.alloc hb.noWrap hs
    refine ⟨⟨bs', free', R'⟩, ?_⟩
    obtain ⟨⟨k, p⟩, hres, rfl⟩ := map_eq_some_iff.mp hs
    obtain ⟨k₁, l, b, r, l', g, m, r', free'', -, O, G⟩ := R.toInv.alloc_some hb.noWrap hres
    have he : EndOk k₁.heapEnd := G.stay ▸ G.inv.ends
    exact Nat.le_trans (Nat.le_of_eq G.stay) (O.below R.toInv he hb hle)
  | free p =>
    obtain ⟨bs', free', R', -, -, hless⟩ := R.freed hs
    exact ⟨⟨bs', free', R'⟩, Nat.le_trans hless hle⟩
  | write x v =>
    refine ⟨⟨bs, free, R.write hs⟩, ?_⟩
    simp only [Run.step] at hs
    split at hs
    · cases hs
      exact hle
    · cases hs

/-- **The heap stays in its region.** In every run whose requests stay below the limit, the
heap ends at the limit or before it, and such a request gets a block inside the region with
room for it, or fails the assertion of an aligned allocation. -/
theorem alloc_in_region (nil : Sentinel) {s : Run} (h : ReachableBelow nil.addr s) :
    s.heap.heapEnd ≤ heapLimit ∧ ∀ n align fill, StaysBelow nil.addr s.heap n align →
      (∃ k h, alloc nil.addr s.heap n align fill = some (k, h + headerSize) ∧ heapBase ≤ h ∧
        h + size k.mem h ≤ heapLimit ∧ headerSize + n + footerSize ≤ size k.mem h ∧
        k.heapEnd ≤ heapLimit) ∨
      (align = true ∧ alloc nil.addr s.heap n align fill = none) := by
  obtain ⟨⟨bs, free, R⟩, hle⟩ := below_inv h
  refine ⟨hle, fun n align fill hb => ?_⟩
  obtain ⟨k₁, l, b, r, O, hok, hbad⟩ := R.toInv.alloc hb.noWrap fill
  by_cases hoff : align = true → OffsetOk b.h
  · left
    obtain ⟨k, l', h, m, r', free', halloc, G⟩ := hok hoff
    have he : EndOk k₁.heapEnd := G.stay ▸ G.inv.ends
    have hbelow : k.heapEnd ≤ heapLimit := G.stay ▸ O.below R.toInv he hb hle
    have hbm : Blk.busy h m ∈ l' ++ Blk.busy h m :: r' := by simp
    obtain ⟨h1, h2, h3, -⟩ := G.inv.bounds hbm
    have hsize : size k.mem h = m := (G.inv.record _ hbm).size_eq rfl
    have h28 := (exactSize_spec n).2.2
    have hroom := G.room
    refine ⟨k, h, halloc, h1, ?_, ?_, hbelow⟩
    · rw [hsize]
      simp only [Blk.busy, Blk.fin] at h2
      omega
    · rw [hsize]
      omega
  · exact .inr ⟨(Classical.not_imp.mp hoff).1, hbad hoff⟩

theorem alloc_in_region_sample : ∃ s, ReachableBelow dataWord.addr s ∧
    ∃ k h, alloc dataWord.addr s.heap 0x180000 false (fun _ => 0) = some (k, h + headerSize) ∧
      h + size k.mem h ≤ heapLimit := by
  have hrun : ((init dataWord.addr fun _ => 5).bind fun k =>
      run (guarded (Run.step dataWord.addr) (requestsBelow dataWord.addr)) ⟨k, []⟩
        sampleOps).map (fun s => decide (StaysBelow dataWord.addr s.heap 0x180000 false)) =
      some true := by
    decide +kernel
  obtain ⟨s, hs, hb⟩ := run_of_map hrun
  obtain ⟨k, hk, hr⟩ := bind_eq_some_iff.mp hs
  have h0 : ReachableBelow dataWord.addr ⟨k, []⟩ := .init ⟨_, hk, rfl⟩
  have h := h0.runGuarded hr
  rcases (alloc_in_region dataWord h).2 0x180000 false (fun _ => 0) (of_decide_eq_true hb) with
    ⟨k', g, h1, -, h2, -⟩ | ⟨hf, -⟩
  · exact ⟨s, h, k', g, h1, h2⟩
  · cases hf

/-- A request for the whole address space gets a block of 28 bytes, which are its records, and
a request for 511 MiB moves the end of the heap past its limit. -/
theorem alloc_out_of_region : ((init dataWord.addr fun _ => 5).bind fun k =>
      alloc dataWord.addr k 0xFFFFFFFF false fun _ => 0).map
        (fun r => (r.2, size r.1.mem (r.2 - headerSize))) = some (heapBase + headerSize, 28) ∧
    ((init dataWord.addr fun _ => 5).bind fun k =>
      alloc dataWord.addr k 0x1FF00000 false fun _ => 0).map
        (fun r => (r.2, r.1.heapEnd)) = some (heapBase + headerSize, heapLimit + 0x1000) := by
  decide +kernel

end Sysint.Heap
