import Mathlib.Tactic.SplitIfs
import Sysint.Lib.Block

/-! The text console of `kernel/devices/console.cpp`. Cells of video memory are
given by their index from `video_mem` on. -/
namespace Sysint.Devices
open Function

/-- `blank`: a space, white on black. -/
def blank : BitVec 16 := 0x0f20

def attbyte : BitVec 16 := 0x0f

/-- Video memory, with the indices of all stores so far. -/
structure Video where
  cells : Nat → BitVec 16
  stores : List Nat

namespace Video

def store (v : Video) (i : Nat) (x : BitVec 16) : Video :=
  ⟨update v.cells i x, i :: v.stores⟩

/-- `memmoved`: `num` units of two cells. -/
def memmoved (v : Video) (dest src num : Nat) : Video :=
  if src > dest then
    ⟨Block.moveUp 2 num v.cells dest src, List.range' dest (2 * num) ++ v.stores⟩
  else if src < dest then
    ⟨Block.moveDown 2 num v.cells (dest + 2 * num - 2) (src + 2 * num - 2),
      List.range' dest (2 * num) ++ v.stores⟩
  else v

def memsetw (v : Video) (ptr : Nat) (value : BitVec 16) (num : Nat) : Video :=
  ⟨Block.fillUp value num v.cells ptr, List.range' ptr num ++ v.stores⟩

theorem memsetw_cells (v : Video) (ptr : Nat) (value : BitVec 16) (num a : Nat) :
    (v.memsetw ptr value num).cells a = if ptr ≤ a ∧ a < ptr + num then value else v.cells a :=
  Block.fillUp_apply value a

theorem memmoved_cells (v : Video) (dest src num : Nat) :
    (v.memmoved dest src num).cells = Block.move v.cells dest src (2 * num) := by
  rw [memmoved]
  split_ifs with hup hdown
  · exact Block.moveUp_eq_move (.inl (Nat.le_of_lt hup))
  · cases num with
    | zero => exact funext fun a => (Block.move_of_not_mem (by omega)).symm
    | succ n => exact Block.moveDown_eq_move (Nat.le_of_lt hdown)
  · obtain rfl : src = dest := by omega
    exact (Block.move_self _ _ _).symm

end Video

/-- The console; the cursor is in two variables of 8 bits. -/
structure Console where
  video : Video
  cursorX : Nat
  cursorY : Nat

namespace Console

def scroll (s : Console) : Console :=
  if s.cursorY ≥ 25 then
    { s with
      video := (s.video.memmoved 0 80 (80 * 24 / 2)).memsetw (80 * 24) blank 80
      cursorY := 24 }
  else s

/-- The `switch` of `put`. A character is signed, so one above 127 is below the
space. -/
def write (s : Console) (c : BitVec 8) : Console :=
  if c = 8 then if s.cursorX ≠ 0 then { s with cursorX := s.cursorX - 1 } else s
  else if c = 9 then { s with cursorX := (s.cursorX + 8) / 8 * 8 % 256 }
  else if c = 10 then { s with cursorY := (s.cursorY + 1) % 256, cursorX := 0 }
  else if c = 13 then { s with cursorX := 0 }
  else if 32 ≤ c.toInt then
    { s with
      video := s.video.store (s.cursorY * 80 + s.cursorX) (c.signExtend 16 ||| attbyte <<< 8)
      cursorX := (s.cursorX + 1) % 256 }
  else s

/-- Start a new line at the right margin. -/
def wrap (s : Console) : Console :=
  if s.cursorX ≥ 80 then { s with cursorX := 0, cursorY := (s.cursorY + 1) % 256 } else s

def put (s : Console) (c : BitVec 8) : Console := (s.write c).wrap.scroll

/-- `puts` of a string with the characters `cs` before its NUL. -/
def puts (s : Console) (cs : List (BitVec 8)) : Console := cs.foldl put s

def clear (s : Console) : Console :=
  { s with video := s.video.memsetw 0 blank (80 * 25), cursorX := 0, cursorY := 0 }

end Console

/-! ## The page -/

/-- A page of 80 columns with any number of rows. -/
structure Page where
  cell : Nat → Nat → BitVec 16
  x : Nat
  y : Nat

namespace Page

def blankPage : Page := ⟨fun _ _ => blank, 0, 0⟩

def newline (p : Page) : Page := { p with x := 0, y := p.y + 1 }

def write (p : Page) (c : BitVec 8) : Page :=
  if c = 8 then { p with x := p.x - 1 }
  else if c = 9 then { p with x := (p.x / 8 + 1) * 8 }
  else if c = 10 then p.newline
  else if c = 13 then { p with x := 0 }
  else if 32 ≤ c.toInt then
    { p with
      cell := update p.cell p.y
        (update (p.cell p.y) p.x (c.signExtend 16 ||| attbyte <<< 8))
      x := p.x + 1 }
  else p

def put (p : Page) (c : BitVec 8) : Page :=
  if (p.write c).x ≥ 80 then (p.write c).newline else p.write c

def render (cs : List (BitVec 8)) : Page := cs.foldl put blankPage

/-- The rows of the page; an empty page fills the screen. -/
def rows (p : Page) : Nat := max 25 (p.y + 1)

end Page

/-! ## The screen shows the end of the page -/

/-- The screen shows the page from row `top` on, and nothing is written below. -/
structure Shows (top : Nat) (s : Console) (p : Page) : Prop where
  x : s.cursorX = p.x
  y : s.cursorY + top = p.y
  cells : ∀ r < 25, ∀ c < 80, s.video.cells (r * 80 + c) = p.cell (top + r) c
  below : ∀ r ≥ top + 25, ∀ c, p.cell r c = blank
  stores : ∀ i ∈ s.video.stores, i < 2000

/-- The cursor is on the screen; where rows of the page are above the screen, it is
in the last row. -/
structure OnScreen (top : Nat) (s : Console) : Prop where
  x : s.cursorX < 80
  y : s.cursorY < 25
  top : top = 0 ∨ s.cursorY = 24

variable {top : Nat} {s : Console} {p : Page}

section

variable (h : Shows top s p)
include h

/-- A character is written on the screen where it is written on the page. -/
theorem Shows.store (ho : OnScreen top s) (v : BitVec 16) : Shows top
      { s with
        video := s.video.store (s.cursorY * 80 + s.cursorX) v
        cursorX := (s.cursorX + 1) % 256 }
      { p with
        cell := update p.cell p.y (update (p.cell p.y) p.x v)
        x := p.x + 1 } := by
  have hx := ho.x
  have hy := ho.y
  have hxp := h.x
  have hyp := h.y
  constructor
  · simp only
    omega
  · exact h.y
  · intro r hr c hc
    simp only [Video.store]
    by_cases hrow : top + r = p.y
    · rw [hrow, update_self]
      by_cases hcol : c = p.x
      · rw [hcol, update_self, show r * 80 + p.x = s.cursorY * 80 + s.cursorX by omega,
          update_self]
      · rw [update_of_ne hcol, update_of_ne (by omega), h.cells r hr c hc, hrow]
    · rw [update_of_ne hrow, update_of_ne (by omega), h.cells r hr c hc]
  · intro r hr c
    simp only
    rw [update_of_ne (by omega), h.below r hr c]
  · intro i hi
    obtain rfl | hi := List.mem_cons.mp hi
    · omega
    · exact h.stores i hi

/-- Where only the cursor moves. -/
theorem Shows.cursor {x y x' y' : Nat} (hx : x = x') (hy : y + top = y') :
    Shows top { s with cursorX := x, cursorY := y } { p with x := x', y := y' } :=
  ⟨hx, hy, h.cells, h.below, h.stores⟩

theorem Shows.write (ho : OnScreen top s) (c : BitVec 8) :
    Shows top (s.write c) (p.write c) ∧ (s.write c).cursorX ≤ 80 ∧ (s.write c).cursorY ≤ 25 ∧
      ((s.write c).cursorX = 80 → (s.write c).cursorY < 25) ∧
      (top = 0 ∨ 24 ≤ (s.write c).cursorY) := by
  have hx := ho.x
  have hy := ho.y
  have htop := ho.top
  have hxp := h.x
  have hyp := h.y
  unfold Console.write Page.write
  split_ifs with h1 h2 h3 h4 h5
  · exact ⟨h.cursor (by omega) h.y, by simp only; omega⟩
  · rw [show p.x - 1 = p.x by omega]
    exact ⟨h, by omega⟩
  · exact ⟨h.cursor (by omega) h.y, by simp only; omega⟩
  · exact ⟨h.cursor rfl (by omega), by simp, by simp only; omega, nofun, by simp only; omega⟩
  · exact ⟨h.cursor rfl h.y, by simp only; omega⟩
  · exact ⟨h.store ho _, by simp only; omega⟩
  · exact ⟨h, by omega⟩

theorem Shows.wrap (hx : s.cursorX ≤ 80) (hy : s.cursorY ≤ 25)
    (hxy : s.cursorX = 80 → s.cursorY < 25) (htop : top = 0 ∨ 24 ≤ s.cursorY) :
    Shows top s.wrap (if p.x ≥ 80 then p.newline else p) ∧ s.wrap.cursorX < 80 ∧
      s.wrap.cursorY ≤ 25 ∧ (top = 0 ∨ 24 ≤ s.wrap.cursorY) := by
  have hyp := h.y
  unfold Console.wrap
  rw [← h.x]
  split_ifs with h80
  · exact ⟨h.cursor rfl (by omega), by simp only; omega⟩
  · exact ⟨h, by omega, hy, htop⟩

end

/-- Scrolling moves every row up and blanks the last one. -/
theorem scroll_cells (v : Video) {r c : Nat} (hr : r < 25) (hc : c < 80) :
    ((v.memmoved 0 80 960).memsetw 1920 blank 80).cells (r * 80 + c) =
      if r = 24 then blank else v.cells ((r + 1) * 80 + c) := by
  rw [Video.memsetw_cells]
  split_ifs with h1 h2 h2
  · rfl
  · omega
  · omega
  · rw [Video.memmoved_cells, Block.move_of_mem (by omega) (by omega)]
    congr 1
    omega

theorem scroll_stores (v : Video) (h : ∀ i ∈ v.stores, i < 2000) :
    ∀ i ∈ ((v.memmoved 0 80 960).memsetw 1920 blank 80).stores, i < 2000 := by
  intro i hi
  rw [Video.memsetw, Video.memmoved, if_pos (by omega)] at hi
  simp only [List.mem_append, List.mem_range'_1] at hi
  obtain hi | hi | hi := hi
  · omega
  · omega
  · exact h i hi

theorem Shows.scroll (h : Shows top s p) (hx : s.cursorX < 80) (hy : s.cursorY ≤ 25)
    (htop : top = 0 ∨ 24 ≤ s.cursorY) : ∃ top', Shows top' s.scroll p ∧ OnScreen top' s.scroll := by
  have hyp := h.y
  unfold Console.scroll
  split_ifs with h25
  · refine ⟨top + 1, ⟨h.x, by simp only; omega, ?_, ?_, scroll_stores s.video h.stores⟩, hx,
      by simp, by simp⟩
    · intro r hr c hc
      refine (scroll_cells s.video hr hc).trans ?_
      split_ifs with h24
      · exact (h.below _ (by omega) c).symm
      · rw [h.cells (r + 1) (by omega) c hc, show top + 1 + r = top + (r + 1) by omega]
    · intro r hr c
      exact h.below r (by omega) c
  · exact ⟨top, h, hx, by omega, by omega⟩

/-- A character keeps the screen at the end of the page. -/
theorem Shows.put (h : Shows top s p) (ho : OnScreen top s) (c : BitVec 8) :
    ∃ top', Shows top' (s.put c) (p.put c) ∧ OnScreen top' (s.put c) := by
  obtain ⟨hw, hx, hy, hxy, htop⟩ := h.write ho c
  obtain ⟨hw, hx, hy, htop⟩ := hw.wrap hx hy hxy htop
  exact hw.scroll hx hy htop

theorem Shows.puts (h : Shows top s p) (ho : OnScreen top s) (cs : List (BitVec 8)) :
    ∃ top', Shows top' (s.puts cs) (cs.foldl Page.put p) ∧ OnScreen top' (s.puts cs) := by
  induction cs generalizing top s p with
  | nil => exact ⟨top, h, ho⟩
  | cons c cs ih =>
    obtain ⟨top', h', ho'⟩ := h.put ho c
    exact ih h' ho'

theorem shows_clear (s : Console) (h : s.video.stores = []) :
    Shows 0 s.clear Page.blankPage ∧ OnScreen 0 s.clear := by
  refine ⟨⟨rfl, rfl, ?_, fun _ _ _ => rfl, ?_⟩, by simp [Console.clear], by simp [Console.clear],
    .inl rfl⟩
  · intro r hr c hc
    rw [Console.clear, Video.memsetw_cells, if_pos (by omega)]
    rfl
  · intro i hi
    simp only [Console.clear, Video.memsetw, h, List.append_nil, List.mem_range'_1] at hi
    omega

/-- After `clear`, with any contents of video memory before, any characters leave
the cursor on the screen and the last 25 rows of the page on the screen, and all
stores went to the screen. -/
theorem console_shows_page (cells : Nat → BitVec 16) (x y : Nat) (cs : List (BitVec 8)) :
    let s := (Console.clear ⟨⟨cells, []⟩, x, y⟩).puts cs
    let p := Page.render cs
    s.cursorX < 80 ∧ s.cursorY < 25 ∧ (∀ i ∈ s.video.stores, i < 2000) ∧
      ∀ r < 25, ∀ c < 80, s.video.cells (r * 80 + c) = p.cell (p.rows - 25 + r) c := by
  intro s p
  obtain ⟨hs, ho⟩ := shows_clear ⟨⟨cells, []⟩, x, y⟩ rfl
  obtain ⟨top, hs, ho⟩ := hs.puts ho cs
  have hrows : p.rows - 25 = top := by
    have hy := hs.y
    have hlt := ho.y
    have htop := ho.top
    have hp : p.y = (cs.foldl Page.put Page.blankPage).y := rfl
    rw [Page.rows]
    omega
  refine ⟨ho.x, ho.y, hs.stores, ?_⟩
  rw [hrows]
  exact hs.cells

end Sysint.Devices
