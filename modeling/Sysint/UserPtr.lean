import Sysint.Lib.Block
import Sysint.Paging.PageDir

/-! `user_ptr::check_region` of `kernel/include/lib/userptr.h`, the buffer check
that `read` and `write` of `kernel/fs/syscall.cpp` build on it, and the copies
`copy_from` and `copy_to`. -/
namespace Sysint.UserPtr

open Paging Option

def checkPtr (d : PageDir) (ptr : Nat) (write : Bool) : Bool :=
  match d.getPage (ptr >>> pageShift) with
  | none => false
  | some pg => pg.present && pg.user && (!write || pg.rw)

/-- The loop of `check_region`, for at most `fuel` turns. -/
def checkLoop (d : PageDir) (write : Bool) (endloc : Nat) : Nat → Nat → Option Bool
  | 0, _ => none
  | fuel + 1, loc =>
    if loc < endloc then
      if checkPtr d loc write then checkLoop d write endloc fuel (u32 (loc + pageSize))
      else some false
    else some true

/-- `none` would be a loop that is still running after one turn for each page
of the address space. -/
def checkRegion (d : PageDir) (start stop : Nat) (write : Bool) : Option Bool :=
  checkLoop d write (alignAddr stop) (2 ^ 20) start

/-- What `read` (with `write` set) and `write` (without) check before they hand
the buffer to the file. -/
def checkBuffer (d : PageDir) (buf count : Nat) (write : Bool) : Option Bool :=
  if checkPtr d buf write && buf != 0 then checkRegion d buf (u32 (buf + count)) write
  else some false

theorem checkPtr_iff (d : PageDir) (a : Nat) (w : Bool) :
    checkPtr d a w = true ↔ d.UserAccess a w := by
  unfold checkPtr PageDir.UserAccess
  cases d.getPage (a >>> pageShift) with
  | none => simp
  | some pg => cases w <;> simp [and_assoc]

variable {w : Bool} {d : PageDir}

/-- Addresses of one page are accessible together. -/
theorem access_page {a b : Nat} (h : d.UserAccess a w)
    (he : a / 4096 = b / 4096) : d.UserAccess b w := by
  have hs : b >>> pageShift = a >>> pageShift := by
    simp only [Nat.shiftRight_eq_div_pow, pageShift]
    exact he.symm
  unfold PageDir.UserAccess
  rw [hs]
  exact h

/-- With an end on a page boundary the loop stops, and it has checked every
page up to there. -/
theorem checkLoop_iff {e : Nat} (he : e * 4096 + 4096 ≤ 2 ^ 32)
    (fuel loc : Nat) (hf : e ≤ loc / 4096 + fuel) :
    ∃ r, checkLoop d w (e * 4096) (fuel + 1) loc = some r ∧
      (r = true ↔ ∀ a, loc / 4096 ≤ a / 4096 → a < e * 4096 → d.UserAccess a w) := by
  induction fuel generalizing loc with
  | zero =>
    have hge : ¬ loc < e * 4096 := by omega
    refine ⟨true, by simp [checkLoop, hge], by simp only [true_iff]; omega⟩
  | succ fuel ih =>
    by_cases hlt : loc < e * 4096
    · cases hc : checkPtr d loc w with
      | false =>
        refine ⟨false, by simp [checkLoop, hlt, hc], ?_⟩
        simp only [Bool.false_eq_true, false_iff]
        intro h
        have := (checkPtr_iff d loc w).mpr (h loc (Nat.le_refl _) hlt)
        simp [hc] at this
      | true =>
        have hnext : u32 (loc + pageSize) = loc + 4096 := by
          have hp : pageSize = 4096 := rfl
          rw [hp]
          exact u32_of_lt (by omega)
        obtain ⟨r, hr, hiff⟩ := ih (loc + 4096) (by omega)
        refine ⟨r, ?_, ?_⟩
        · unfold checkLoop
          rw [hnext, hr]
          simp [hlt, hc]
        rw [hiff]
        have hloc := (checkPtr_iff d loc w).mp hc
        constructor
        · intro h a h1 h2
          by_cases hp : a / 4096 = loc / 4096
          · exact access_page hloc hp.symm
          · exact h a (by omega) h2
        · intro h a h1 h2
          exact h a (by omega) h2
    · refine ⟨true, by simp [checkLoop, hlt], by simp only [true_iff]; omega⟩

/-- The rounded end, when it does not wrap, is the end of the last page. -/
theorem checkRegion_of_le (d : PageDir) (w : Bool) (start : Nat) {stop : Nat}
    (h : stop ≤ 0xFFFFF000) :
    ∃ r, checkRegion d start stop w = some r ∧
      (r = true ↔ ∀ a, start / 4096 ≤ a / 4096 → a / 4096 < (stop + 4095) / 4096 →
        d.UserAccess a w) := by
  have halign : alignAddr stop = (stop + 4095) / 4096 * 4096 := by
    rw [alignAddr_eq (by omega), u32_of_lt (by omega)]
  obtain ⟨r, hr, hiff⟩ := checkLoop_iff (d := d) (w := w) (e := (stop + 4095) / 4096) (by omega)
    (2 ^ 20 - 1) start (by omega)
  refine ⟨r, ?_, hiff.trans ?_⟩
  · rw [checkRegion, halign]
    exact hr
  · constructor <;> intro h a h1 h2 <;> exact h a h1 (by omega)

/-- Above the last page boundary the rounded end is 0 and nothing is checked. -/
theorem checkRegion_of_gt {start stop : Nat} (h : 0xFFFFF000 < stop)
    (hs : stop < 2 ^ 32) : checkRegion d start stop w = some true := by
  have halign : alignAddr stop = 0 := by
    rw [alignAddr_eq hs, u32]
    omega
  rw [checkRegion, halign]
  rfl

/-- A directory in which user code may access the pages of `p` and no others. -/
def onlyPages (p : Nat → Bool) : PageDir where
  tables := fun t => some ⟨fun i => ⟨if p (t * 1024 + i) then 7#32 else 0#32⟩⟩

theorem onlyPages_access (p : Nat → Bool) (a : Nat) (w : Bool) :
    (onlyPages p).UserAccess a w ↔ p (a / 4096) = true := by
  have hand : a / 4096 &&& 1023 = a / 4096 % 1024 := and_low _ 10
  have hpage : a / 4096 / 1024 * 1024 + a / 4096 % 1024 = a / 4096 := by omega
  have hshift : a >>> pageShift = a / 4096 := Nat.shiftRight_eq_div_pow a 12
  have hshift' : (a / 4096) >>> 10 = a / 4096 / 1024 := Nat.shiftRight_eq_div_pow _ 10
  simp only [PageDir.UserAccess, PageDir.getPage, onlyPages, map_some, hshift, hshift',
    hand, hpage, some.injEq, exists_eq_left']
  cases p (a / 4096) <;> simp [Page.present, Page.user, Page.rw]

/-- Every byte of the buffer is accessible. -/
def BufferAccess (d : PageDir) (buf count : Nat) (w : Bool) : Prop :=
  ∀ k, k < count → d.UserAccess (u32 (buf + k)) w

theorem region_sound {buf count : Nat} (h : buf + count ≤ 0xFFFFF000)
    (hc : checkRegion d buf (u32 (buf + count)) w = some true) : BufferAccess d buf count w := by
  rw [u32_of_lt (by omega)] at hc
  obtain ⟨r, hr, hiff⟩ := checkRegion_of_le d w buf h
  rw [hc] at hr
  intro k hk
  rw [u32_of_lt (by omega)]
  exact hiff.mp (Option.some.inj hr).symm (buf + k) (by omega) (by omega)

/-- Past the last boundary, access to the first page is all a region check can
ask for, however far the buffer reaches. -/
theorem region_unsound {buf count : Nat} (hb : buf < 2 ^ 32) (hc : count < 2 ^ 32)
    (h : 0xFFFFF000 < buf + count) :
    checkRegion (onlyPages (· = buf / 4096)) buf (u32 (buf + count)) w = some true := by
  by_cases hs : u32 (buf + count) ≤ 0xFFFFF000
  · obtain ⟨r, hr, hiff⟩ := checkRegion_of_le (onlyPages (· = buf / 4096)) w buf hs
    rw [hr, some.injEq, hiff]
    intro a h1 h2
    rw [onlyPages_access]
    have hwrap : u32 (buf + count) = buf + count - 2 ^ 32 := by
      simp only [u32] at hs ⊢
      omega
    rw [hwrap] at h2
    simp only [decide_eq_true_eq]
    omega
  · exact checkRegion_of_gt (by omega) (u32_lt _)

/-- A buffer that ends in the last page is not checked at all. -/
theorem region_unchecked (d : PageDir) {buf count : Nat} (w : Bool) (h : 0xFFFFF000 < buf + count)
    (hle : buf + count ≤ 2 ^ 32) : checkRegion d buf (u32 (buf + count)) w = some true := by
  by_cases he : buf + count = 2 ^ 32
  · rw [he]
    rfl
  · rw [u32_of_lt (by omega)]
    exact checkRegion_of_gt h (by omega)

/-- A buffer that leaves its first page has a byte outside it. -/
theorem buffer_leaves_page (buf count : Nat) (w : Bool)
    (h : buf / 4096 * 4096 + 4096 < buf + count) :
    ¬ BufferAccess (onlyPages (· = buf / 4096)) buf count w := by
  intro hall
  have hk := hall (buf / 4096 * 4096 + 4096 - buf) (by omega)
  rw [onlyPages_access] at hk
  have he := of_decide_eq_true hk
  simp only [u32] at he
  omega

theorem check_region_only_if {buf count : Nat} (hb : buf < 2 ^ 32) (hc : count < 2 ^ 32)
    (h : ∀ d, checkRegion d buf (u32 (buf + count)) w = some true → BufferAccess d buf count w) :
    count = 0 ∨ buf + count ≤ 0xFFFFF000 := by
  by_contra hn
  obtain ⟨h0, hgt⟩ := not_or.mp hn
  by_cases hpage : buf / 4096 * 4096 + 4096 < buf + count
  · exact buffer_leaves_page buf count w hpage (h _ (region_unsound hb hc (by omega)))
  · have hk := h _ (region_unchecked (onlyPages fun _ => false) w (by omega) (by omega)) 0
      (by omega)
    rw [onlyPages_access] at hk
    exact Bool.false_ne_true hk

theorem check_buffer_only_if {buf count : Nat} (hb : buf < 2 ^ 32) (hc : count < 2 ^ 32)
    (h : ∀ d, checkBuffer d buf count w = some true → BufferAccess d buf count w) :
    buf = 0 ∨ count = 0 ∨ buf + count ≤ 0xFFFFF000 ∨
      0xFFFFF000 ≤ buf ∧ buf + count ≤ 2 ^ 32 := by
  by_contra hn
  simp only [not_or, not_and] at hn
  obtain ⟨hnull, h0, hgt, hlast⟩ := hn
  have hfirst : checkPtr (onlyPages (· = buf / 4096)) buf w = true := by
    rw [checkPtr_iff, onlyPages_access]
    exact decide_eq_true rfl
  apply buffer_leaves_page buf count w (by omega)
  apply h
  rw [checkBuffer, hfirst, region_unsound hb hc (by omega)]
  simp [hnull]

/-- **Region checks.** `check_region` is sound for a buffer, over all page
directories, exactly when the buffer is empty or ends at or before the start of
the last page: behind that the rounded end wraps and pages go unchecked. The
check that `read` and `write` make also looks at the first byte, so it is sound
for a buffer inside the last page as well. -/
theorem check_region_sound_iff (buf count : Nat) (w : Bool) (hb : buf < 2 ^ 32)
    (hc : count < 2 ^ 32) :
    ((∀ d, checkRegion d buf (u32 (buf + count)) w = some true → BufferAccess d buf count w) ↔
      count = 0 ∨ buf + count ≤ 0xFFFFF000) ∧
    ((∀ d, checkBuffer d buf count w = some true → BufferAccess d buf count w) ↔
      buf = 0 ∨ count = 0 ∨ buf + count ≤ 0xFFFFF000 ∨
        0xFFFFF000 ≤ buf ∧ buf + count ≤ 2 ^ 32) := by
  refine ⟨⟨check_region_only_if hb hc, ?_⟩, ⟨check_buffer_only_if hb hc, ?_⟩⟩
  · rintro (rfl | hle) d hd
    · intro k hk
      omega
    · exact region_sound hle hd
  intro hcond d hd
  obtain ⟨hguard, hd⟩ : (checkPtr d buf w = true ∧ buf ≠ 0) ∧
      checkRegion d buf (u32 (buf + count)) w = some true := by
    simp only [checkBuffer] at hd
    split at hd
    · rename_i hg
      exact ⟨by simpa using hg, hd⟩
    · simp at hd
  rcases hcond with hnull | rfl | hle | ⟨hlo, hhi⟩
  · exact absurd hnull hguard.2
  · intro k hk
    omega
  · exact region_sound hle hd
  · intro k hk
    have hacc := (checkPtr_iff d buf w).mp hguard.1
    rw [u32_of_lt (by omega)]
    exact access_page hacc (by omega)

theorem check_region_sound_iff_page :
    checkRegion (onlyPages (· = 0x8048)) 0x8048000 (u32 (0x8048000 + 4096)) true = some true ∧
      BufferAccess (onlyPages (· = 0x8048)) 0x8048000 4096 true := by
  have hpass : checkRegion (onlyPages (· = 0x8048)) 0x8048000 (u32 (0x8048000 + 4096)) true =
      some true := by decide +kernel
  exact ⟨hpass, (check_region_sound_iff 0x8048000 4096 true (by decide) (by decide)).1.mpr
    (by decide) _ hpass⟩

/-- A buffer that starts in a mapped page and wraps around the address space
passes both checks, though every other page is unmapped. -/
theorem check_region_unsound_wrap :
    ¬ ∀ (d : PageDir) (buf count : Nat) (w : Bool), buf < 2 ^ 32 → count < 2 ^ 32 →
      (checkRegion d buf (u32 (buf + count)) w = some true → BufferAccess d buf count w) ∧
      (checkBuffer d buf count w = some true → BufferAccess d buf count w) := by
  intro h
  have hpass : checkBuffer (onlyPages (· = 0x8048)) 0x8048000 0xFFFFF000 true = some true := by
    decide +kernel
  exact buffer_leaves_page 0x8048000 0xFFFFF000 true (by decide)
    ((h _ 0x8048000 0xFFFFF000 true (by decide) (by decide)).2 hpass)

/-! ## Copies -/

/-- `memcpy`, for blocks that do not wrap. -/
def memcpy (m : Nat → BitVec 8) (dest src num : Nat) : Nat → BitVec 8 :=
  Block.moveUp 1 num m dest src

def memcpyd (m : Nat → BitVec 8) (dest src num : Nat) : Nat → BitVec 8 :=
  Block.moveUp 4 num m dest src

/-- The body of both copies, with the pointer to check, and the result with the
memory behind the call. There is no `return` behind the copy: the caller finds what
happens to be `left` in the register. -/
def copyChecked (d : PageDir) (left : Bool) (ptr : Nat) (write : Bool) (m : Nat → BitVec 8)
    (dest src n : Nat) : Option (Bool × (Nat → BitVec 8)) :=
  if n = 0 then some (true, m)
  else (checkRegion d ptr (u32 (ptr + n)) write).map fun ok =>
    if !ok then (false, m)
    else if n &&& 3 ≠ 0 then (left, memcpyd m dest src (n / 4))
    else (left, memcpy m dest src n)

def copyFrom (d : PageDir) (left : Bool) (m : Nat → BitVec 8) (ptr src n : Nat) :
    Option (Bool × (Nat → BitVec 8)) :=
  copyChecked d left ptr true m ptr src n

def copyTo (d : PageDir) (left : Bool) (m : Nat → BitVec 8) (ptr dest n : Nat) :
    Option (Bool × (Nat → BitVec 8)) :=
  copyChecked d left ptr false m dest ptr n

/-- A region of `n` bytes that user code may access. -/
def Valid (d : PageDir) (ptr n : Nat) (w : Bool) : Prop :=
  ptr + n ≤ 2 ^ 32 ∧ BufferAccess d ptr n w

/-- Two blocks of `n` bytes that do not meet. -/
def Apart (a b n : Nat) : Prop := b + n ≤ a ∨ a + n ≤ b

theorem Apart.symm {a b n : Nat} (h : Apart a b n) : Apart b a n := Or.symm h

theorem Valid.read {ptr n : Nat} (h : Valid d ptr n true) : Valid d ptr n false := by
  refine ⟨h.1, ?_⟩
  intro k hk
  obtain ⟨pg, hpg, hp, hu, -⟩ := h.2 k hk
  exact ⟨pg, hpg, hp, hu, nofun⟩

theorem onlyPages_valid {p ptr n : Nat} (w : Bool) (hp : p < 2 ^ 20) (hlo : p * 4096 ≤ ptr)
    (hhi : ptr + n ≤ p * 4096 + 4096) : Valid (onlyPages (· = p)) ptr n w := by
  refine ⟨by omega, ?_⟩
  intro k hk
  rw [onlyPages_access, u32_of_lt (by omega)]
  exact decide_eq_true (by omega)

/-- A valid region passes the check. -/
theorem Valid.checkRegion {ptr n : Nat} (h : Valid d ptr n w)
    (hn : 0 < n) : checkRegion d ptr (u32 (ptr + n)) w = some true := by
  obtain ⟨hle, hacc⟩ := h
  by_cases hlast : ptr + n ≤ 0xFFFFF000
  · rw [u32_of_lt (by omega)]
    obtain ⟨r, hr, hiff⟩ := checkRegion_of_le d w ptr hlast
    rw [hr, some.injEq, hiff]
    intro a h1 h2
    -- the page of `a` holds a byte of the region
    obtain ⟨k, hk, hpage⟩ : ∃ k < n, (ptr + k) / 4096 = a / 4096 := by
      by_cases ha : a < ptr
      · exact ⟨0, hn, by omega⟩
      · by_cases hend : a < ptr + n
        · exact ⟨a - ptr, by omega, by omega⟩
        · exact ⟨n - 1, by omega, by omega⟩
    have hbyte := hacc k hk
    rw [u32_of_lt (by omega)] at hbyte
    exact access_page hbyte hpage
  · exact region_unchecked d w (by omega) hle

/-- The copy stops before the last bytes of a length that is no multiple of four. -/
theorem copyChecked_eq {ptr n : Nat} (h : Valid d ptr n w) (left : Bool)
    (m : Nat → BitVec 8) {dest src : Nat} (hapart : dest ≤ src ∨ src + n ≤ dest) :
    copyChecked d left ptr w m dest src n =
      some (n == 0 || left, Block.move m dest src (n - n % 4)) := by
  by_cases h0 : n = 0
  · subst h0
    have hnone : Block.move m dest src 0 = m := funext fun a => Block.move_of_not_mem (by omega)
    simp [copyChecked, hnone]
  have hlow : n &&& 3 = n % 4 := and_low n 2
  rw [copyChecked, if_neg h0, h.checkRegion (by omega)]
  by_cases h4 : n % 4 = 0
  · have hmove : memcpy m dest src n = Block.move m dest src (n - n % 4) := by
      rw [memcpy, Block.moveUp_eq_move (by omega), h4, Nat.one_mul, Nat.sub_zero]
    simp [hlow, h4, hmove, h0]
  · have hmove : memcpyd m dest src (n / 4) = Block.move m dest src (n - n % 4) := by
      rw [memcpyd, Block.moveUp_eq_move (by omega)]
      congr 1
      omega
    simp [hlow, h4, hmove, h0]

/-- A shorter move is seen by some memory. -/
theorem move_prefix_iff {dest src k n : Nat} (hne : dest ≠ src) (hk : k ≤ n) :
    (∀ m : Nat → BitVec 8, Block.move m dest src k = Block.move m dest src n) ↔ k = n := by
  constructor
  · intro h
    by_contra hlt
    -- a memory in which only the first byte left out is set
    have hbyte := congrFun (h fun a => if a = src + k then 1 else 0) (dest + k)
    rw [Block.move_of_not_mem (by omega), Block.move_of_mem (by omega) (by omega),
      if_neg (by omega), if_pos (by omega)] at hbyte
    exact absurd hbyte (by decide)
  · rintro rfl m
    rfl

theorem copyChecked_exact_iff {ptr n : Nat} (h : Valid d ptr n w)
    (left : Bool) {dest src : Nat} (hapart : Apart dest src n) :
    (∀ m, copyChecked d left ptr w m dest src n = some (true, Block.move m dest src n)) ↔
      n % 4 = 0 ∧ (n = 0 ∨ left = true) := by
  have hmod : n - n % 4 = n ↔ n % 4 = 0 := by omega
  rw [Apart] at hapart
  by_cases h0 : n = 0
  · subst h0
    simp [copyChecked_eq h left _ (by omega : dest ≤ src ∨ src + 0 ≤ dest)]
  · have hiff := move_prefix_iff (k := n - n % 4) (n := n) (by omega : dest ≠ src) (by omega)
    simp [copyChecked_eq h left _ (by omega : dest ≤ src ∨ src + n ≤ dest), forall_and,
      hiff, hmod, h0, and_comm]

/-- **User copies.** A copy into or out of a valid region moves the `n` bytes, nothing
else, and reports success exactly when `n` is a multiple of four and, unless it is 0,
the register happens to hold `true`. Then the one undoes the other. -/
theorem user_copies_exact (d : PageDir) (left left' : Bool) {ptr src dest n : Nat}
    (hsrc : Apart ptr src n) (hdest : Apart ptr dest n) : (Valid d ptr n true →
      ((∀ m, copyFrom d left m ptr src n = some (true, Block.move m ptr src n)) ↔
        n % 4 = 0 ∧ (n = 0 ∨ left = true))) ∧
    (Valid d ptr n false →
      ((∀ m, copyTo d left' m ptr dest n = some (true, Block.move m dest ptr n)) ↔
        n % 4 = 0 ∧ (n = 0 ∨ left' = true))) ∧
    (Valid d ptr n true → n % 4 = 0 → n = 0 ∨ left = true → n = 0 ∨ left' = true →
      ∀ m, ∃ m1 m2, copyFrom d left m ptr src n = some (true, m1) ∧
        copyTo d left' m1 ptr dest n = some (true, m2) ∧
        ∀ k, k < n → m2 (dest + k) = m (src + k)) := by
  have hfrom (h : Valid d ptr n true) := copyChecked_exact_iff h left hsrc
  have hto (h : Valid d ptr n false) := copyChecked_exact_iff h left' hdest.symm
  refine ⟨hfrom, hto, ?_⟩
  intro h h4 hl hl' m
  refine ⟨_, _, (hfrom h).mpr ⟨h4, hl⟩ m, (hto h.read).mpr ⟨h4, hl'⟩ _, ?_⟩
  intro k hk
  rw [Block.move_of_mem (by omega) (by omega), Block.move_of_mem (by omega) (by omega)]
  congr 1
  omega

theorem user_copies_exact_word :
    ∃ m1 m2, copyFrom (onlyPages (· = 0x8048)) true (BitVec.ofNat 8) 0x8048FFC 0xC0000001 4 =
        some (true, m1) ∧
      copyTo (onlyPages (· = 0x8048)) true m1 0x8048FFC 0xC0000011 4 = some (true, m2) ∧
      ∀ k, k < 4 → m2 (0xC0000011 + k) = BitVec.ofNat 8 (0xC0000001 + k) := by
  have hvalid : Valid (onlyPages (· = 0x8048)) 0x8048FFC 4 true :=
    onlyPages_valid true (by decide) (by decide) (by decide)
  exact (user_copies_exact (onlyPages (· = 0x8048)) true true (.inr (by decide))
    (.inr (by decide))).2.2 hvalid rfl (.inr rfl) (.inr rfl) _

/-- Of five bytes the last one stays behind, in both directions, although the call may
report success; for four bytes it may report failure. -/
theorem copy_from_drops_tail :
    Valid (onlyPages (· = 0x8048)) 0x8048000 5 true ∧ Apart 0x8048000 0xC0000000 5 ∧
      ∃ m : Nat → BitVec 8, m 0xC0000004 = 1 ∧
        ((copyFrom (onlyPages (· = 0x8048)) true m 0x8048000 0xC0000000 5).map fun r =>
          (r.1, r.2 0x8048004)) = some (true, 0) ∧
        ((copyTo (onlyPages (· = 0x8048)) true m 0x8048000 0xC0000000 5).map fun r =>
          (r.1, r.2 0xC0000004)) = some (true, 1) ∧ m 0x8048004 = 0 ∧
        ((copyFrom (onlyPages (· = 0x8048)) false m 0x8048000 0xC0000000 4).map (·.1)) =
          some false := by
  refine ⟨onlyPages_valid true (by decide) (by decide) (by decide), .inr (by decide),
    fun a => if a = 0xC0000004 then 1 else 0, ?_⟩
  decide +kernel

end Sysint.UserPtr
