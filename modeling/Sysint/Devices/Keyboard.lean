import Sysint.Devices.Printf
import Sysint.Lib.Machine
import Sysint.Lib.Circular

/-! The keyboard of `kernel/devices/keyboard.cpp`: interrupts decode scancodes into a
circular buffer, and readers take characters out of it with `getch`. A system call
runs with interrupts off and the kernel changes the process only where it waits, so
no reader runs while another one is between its test and its return. Interrupts are
allowed between any two accesses all the same. -/
namespace Sysint.Devices
open Machine List

def keyCntrl : BitVec 8 := 0x1d

def keyAlt : BitVec 8 := 0x38

def keyLshift : BitVec 8 := 0x2a

def keyRshift : BitVec 8 := 0x36

def kbdus : List (BitVec 8) :=
  [0, 27, ch '1', ch '2', ch '3', ch '4', ch '5', ch '6', ch '7', ch '8', ch '9', ch '0', ch '-',
    ch '=', 8, 9, ch 'q', ch 'w', ch 'e', ch 'r', ch 't', ch 'y', ch 'u', ch 'i', ch 'o', ch 'p',
    ch '[', ch ']', 10, 0, ch 'a', ch 's', ch 'd', ch 'f', ch 'g', ch 'h', ch 'j', ch 'k', ch 'l',
    ch ';', ch '\'', ch '`', 0, ch '\\', ch 'z', ch 'x', ch 'c', ch 'v', ch 'b', ch 'n', ch 'm',
    ch ',', ch '.', ch '/', 0, ch '*', 0, ch ' '] ++ List.replicate 16 0 ++
    [ch '-', 0, 0, 0, ch '+'] ++ List.replicate 49 0

/-- The entries of `shift_table` that `init` sets one by one. -/
def shiftPairs : List (Char × Char) :=
  [('1', '!'), ('2', '@'), ('3', '#'), ('4', '$'), ('5', '%'), ('6', '^'), ('7', '&'), ('8', '*'),
    ('9', '('), ('0', ')'), ('`', '~'), ('-', '_'), ('=', '+'), ('[', '{'), (']', '}'),
    ('\\', '|'), (';', ':'), ('\'', '"'), (',', '<'), ('.', '>'), ('/', '?')]

def shiftTable (c : BitVec 8) : BitVec 8 :=
  match shiftPairs.find? fun p => ch p.1 == c with
  | some p => ch p.2
  | none => if ch 'a' ≤ c ∧ c ≤ ch 'z' then c - ch 'a' + ch 'A' else c

/-- The entries of `modifier_pressed`. -/
inductive Modifier where
  | ctrl
  | alt
  | lshift
  | rshift
  deriving DecidableEq

namespace Modifier

def key : Modifier → BitVec 8
  | ctrl => keyCntrl
  | alt => keyAlt
  | lshift => keyLshift
  | rshift => keyRshift

def ofKey (sc : BitVec 8) : Option Modifier :=
  if sc = keyCntrl then some ctrl
  else if sc = keyAlt then some alt
  else if sc = keyLshift then some lshift
  else if sc = keyRshift then some rshift
  else none

end Modifier

/-- Where a reader stands in `getch`. -/
inductive Reading where
  | outside
  /-- About to test whether the buffer is empty. -/
  | test
  | asleep
  /-- About to read the first character. -/
  | read
  /-- About to advance `buffer_begin` and to return `ch`. -/
  | advance (ch : BitVec 8)
  deriving DecidableEq

/-- Between the test and the return. -/
def Reading.taking : Reading → Bool
  | .read | .advance _ => true
  | .outside | .test | .asleep => false

/-- What the last piece of `getch` returns. -/
def Reading.returns : Reading → List (BitVec 8)
  | .advance ch => [ch]
  | .outside | .test | .asleep | .read => []

/-- `ring` is `buffer` with `buffer_begin` and `buffer_end`, `waiting` the list of
`buffer_nonempty`, and `busy` the reader between its test and its return. -/
structure Keyboard where
  ring : Circular (BitVec 8) 4096
  pressed : Modifier → Bool
  console : Console
  reading : Nat → Reading
  waiting : List Nat
  busy : Option Nat

namespace Keyboard

def boot (console : Console) : Keyboard where
  ring := ⟨fun _ => 0, 0, 0⟩
  pressed _ := false
  console := console
  reading _ := .outside
  waiting := []
  busy := none

/-- The test of `read_scancode` for a full buffer. -/
def full (s : Keyboard) : Bool := (s.ring.last + 1) % 4096 == s.ring.first

/-- `buffer_nonempty.wake()`: all readers that wait test again. -/
def wake (s : Keyboard) : Keyboard :=
  { s with
    reading := fun r => if r ∈ s.waiting then .test else s.reading r
    waiting := [] }

def setModifier (s : Keyboard) (sc : BitVec 8) (b : Bool) : Keyboard :=
  match Modifier.ofKey sc with
  | some m => { s with pressed := Function.update s.pressed m b }
  | none => s

/-- The character of a key that is no modifier. -/
def decode (shift : Bool) (sc : BitVec 8) : BitVec 8 :=
  if shift then shiftTable (kbdus.getD sc.toNat 0) else kbdus.getD sc.toNat 0

def shift (s : Keyboard) : Bool := s.pressed .lshift || s.pressed .rshift

/-- A character that is not zero is buffered. -/
def accept (s : Keyboard) (c : BitVec 8) : Keyboard :=
  if c ≠ 0 then { s with ring := s.ring.push c }.wake else s

/-- `read_scancode`, with the byte that port 0x60 gives. -/
def readScancode (s : Keyboard) (sc : BitVec 8) : Keyboard :=
  if s.full then s
  else if sc &&& 0x80 ≠ 0 then s.setModifier (sc &&& 0x7f) false
  else if (Modifier.ofKey sc).isSome then s.setModifier sc true
  else { s with console := s.console.put (decode s.shift sc) }.accept (decode s.shift sc)

def goto (s : Keyboard) (r : Nat) (pt : Reading) : Keyboard :=
  { s with reading := Function.update s.reading r pt }

/-- The next piece of `getch` for the reader `r`. -/
def getch (s : Keyboard) (r : Nat) : Option Keyboard :=
  match s.reading r with
  | .test =>
    if s.ring.first = s.ring.last then some { s.goto r .asleep with waiting := r :: s.waiting }
    else some { s.goto r .read with busy := some r }
  | .read => some (s.goto r (.advance (s.ring.cell s.ring.first)))
  | .advance _ => some { s.goto r .outside with ring := s.ring.pop, busy := none }
  | .outside | .asleep => none

inductive Event where
  | interrupt (sc : BitVec 8)
  | call (r : Nat)
  | run (r : Nat)
  /-- A signal takes a reader off the list. -/
  | signal (r : Nat)

def step (s : Keyboard) : Event → Option Keyboard
  | .interrupt sc => some (s.readScancode sc)
  | .call r => if s.reading r = .outside ∧ s.busy = none then some (s.goto r .test) else none
  | .run r => if s.busy = none ∨ s.busy = some r then s.getch r else none
  | .signal r =>
    if s.reading r = .asleep then
      some { s.goto r .test with waiting := s.waiting.filter (· ≠ r) }
    else none

/-- What a scancode adds to the buffer. -/
def chars (shift : Bool) (sc : BitVec 8) : List (BitVec 8) :=
  if sc &&& 0x80 ≠ 0 ∨ (Modifier.ofKey sc).isSome ∨ decode shift sc = 0 then []
  else [decode shift sc]

/-- What happened so far: the scancodes of all interrupts, the latest first, with whether they
found the buffer full; the characters decoded by those that did not; and the characters that
`getch` has returned. -/
structure Log where
  scancodes : List (BitVec 8 × Bool)
  decoded : List (BitVec 8)
  returned : List (BitVec 8)

def log (s : Keyboard) (e : Event) (_ : Keyboard) (g : Log) : Log :=
  match e with
  | .interrupt sc =>
    { g with
      scancodes := (sc, s.full) :: g.scancodes
      decoded := if s.full then g.decoded else g.decoded ++ chars s.shift sc }
  | .run r => { g with returned := g.returned ++ (s.reading r).returns }
  | .call _ | .signal _ => g

/-- The start of a run. -/
def Started (x : Keyboard × Log) : Prop := ∃ console, x = (boot console, ⟨[], [], []⟩)

/-! ## What a step does -/

variable {s t : Keyboard} {g : Log} {sc : BitVec 8} {r : Nat}

theorem setModifier_eq (s : Keyboard) (sc : BitVec 8) (b : Bool) :
    ∃ pressed, s.setModifier sc b = { s with pressed := pressed } := by
  unfold setModifier
  split
  · exact ⟨_, rfl⟩
  · exact ⟨s.pressed, rfl⟩

/-- An interrupt is ignored, or it changes no more than the modifiers and the screen,
or it buffers a character. -/
theorem readScancode_cases (s : Keyboard) (sc : BitVec 8) :
    (s.full = true ∧ s.readScancode sc = s) ∨
    (s.full = false ∧ chars s.shift sc = [] ∧ ∃ pressed console,
      s.readScancode sc = { s with pressed := pressed, console := console }) ∨
    (s.full = false ∧ ∃ c console, chars s.shift sc = [c] ∧
      s.readScancode sc = { s with console := console, ring := s.ring.push c }.wake) := by
  cases hfull : s.full with
  | true => exact .inl ⟨rfl, by simp [readScancode, hfull]⟩
  | false =>
    by_cases h1 : sc &&& 0x80 ≠ 0
    · obtain ⟨pressed, hp⟩ := s.setModifier_eq (sc &&& 0x7f) false
      refine .inr (.inl ⟨rfl, if_pos (.inl h1), pressed, s.console, ?_⟩)
      rw [← hp, readScancode, hfull, if_neg nofun, if_pos h1]
    by_cases h2 : (Modifier.ofKey sc).isSome = true
    · obtain ⟨pressed, hp⟩ := s.setModifier_eq sc true
      refine .inr (.inl ⟨rfl, if_pos (.inr (.inl h2)), pressed, s.console, ?_⟩)
      rw [← hp, readScancode, hfull, if_neg nofun, if_neg h1, if_pos h2]
    have hread : s.readScancode sc =
        { s with console := s.console.put (decode s.shift sc) }.accept (decode s.shift sc) := by
      rw [readScancode, hfull, if_neg nofun, if_neg h1, if_neg h2]
    by_cases h3 : decode s.shift sc = 0
    · refine .inr (.inl ⟨rfl, if_pos (.inr (.inr h3)), s.pressed,
        s.console.put (decode s.shift sc), ?_⟩)
      rw [hread, accept, if_neg fun h => h h3]
    refine .inr (.inr ⟨rfl, decode s.shift sc, s.console.put (decode s.shift sc), if_neg ?_, ?_⟩)
    · rintro (h | h | h)
      · exact h1 h
      · exact h2 h
      · exact h3 h
    · rw [hread, accept, if_pos h3]

/-- The characters that came out and those in the buffer are those that went in. A
reader between its test and its return is the busy one, the buffer is not empty for
it, and what it has read is still the first character. -/
structure Fifo (s : Keyboard) (g : Log) : Prop where
  ok : s.ring.Ok
  kept : g.returned ++ s.ring.contents = g.decoded
  busy : ∀ r, (s.reading r).taking = true → s.busy = some r ∧ s.ring.first ≠ s.ring.last
  held : ∀ r ch, s.reading r = .advance ch → ch = s.ring.cell s.ring.first

theorem full_iff : s.full = true ↔ (s.ring.last + 1) % 4096 = s.ring.first := beq_iff_eq

theorem full_false_iff : s.full = false ↔ (s.ring.last + 1) % 4096 ≠ s.ring.first := by
  rw [← Bool.not_eq_true, full_iff]

theorem log_interrupt : log s (.interrupt sc) t g = { g with
      scancodes := (sc, s.full) :: g.scancodes
      decoded := if s.full then g.decoded else g.decoded ++ chars s.shift sc } := rfl

/-- A reader that is woken tests again; the others stay where they are. -/
theorem wake_taking (h : (s.wake.reading r).taking = true) : s.wake.reading r = s.reading r := by
  simp only [wake] at h ⊢
  split_ifs at h ⊢
  · cases h
  · rfl

theorem goto_self (pt : Reading) : (s.goto r pt).reading r = pt := by simp [goto]

theorem goto_of_ne {q : Nat} (h : q ≠ r) (pt : Reading) :
    (s.goto r pt).reading q = s.reading q := by
  simp [goto, h]

theorem goto_or {pt : Reading} (hpt : pt.taking = false) (q : Nat) :
    (s.goto r pt).reading q = s.reading q ∨ ((s.goto r pt).reading q).taking = false := by
  by_cases hqr : q = r
  · rw [hqr, goto_self]
    exact .inr hpt
  · exact .inl (goto_of_ne hqr pt)

namespace Fifo

variable (h : Fifo s g)
include h

theorem interrupt (sc : BitVec 8) : Fifo (s.readScancode sc) (log s (.interrupt sc) t g) := by
  rw [log_interrupt]
  obtain ⟨hfull, heq⟩ | ⟨hfull, hchars, pressed, console, heq⟩ |
    ⟨hfull, c, console, hchars, heq⟩ := readScancode_cases s sc
  · rw [heq, hfull]
    exact ⟨h.ok, h.kept, h.busy, h.held⟩
  · rw [heq, hfull, hchars, append_nil]
    exact ⟨h.ok, h.kept, h.busy, h.held⟩
  · have hfree := full_false_iff.mp hfull
    rw [heq, hfull, hchars]
    refine ⟨h.ok.push c, ?_, ?_, ?_⟩
    · refine (congrArg _ (h.ok.contents_push hfree)).trans ?_
      rw [← append_assoc, h.kept]
      rfl
    · intro r hr
      have hsame := wake_taking hr
      rw [hsame] at hr
      exact ⟨(h.busy r hr).1, hfree.symm⟩
    · intro r ch hr
      have hsame := wake_taking (by rw [hr]; rfl)
      have hr' : s.reading r = .advance ch := hsame.symm.trans hr
      have hne := (h.busy r (by rw [hr']; rfl)).2
      -- the new character goes to another cell
      exact (h.held r ch hr').trans (Function.update_of_ne hne ..).symm

/-- Where the buffer stays as it is and no reader passes its test. -/
theorem move (hring : t.ring = s.ring) (hbusy : t.busy = s.busy)
    (hread : ∀ q, t.reading q = s.reading q ∨ (t.reading q).taking = false) : Fifo t g := by
  have hsame (q : Nat) (hq : (t.reading q).taking = true) : t.reading q = s.reading q := by
    refine (hread q).resolve_right fun h => ?_
    rw [h] at hq
    cases hq
  refine ⟨hring ▸ h.ok, hring ▸ h.kept, fun q hq => ?_, fun q ch hq => ?_⟩
  · rw [hbusy, hring]
    rw [hsame q hq] at hq
    exact h.busy q hq
  · rw [hring]
    rw [hsame q (by rw [hq]; rfl)] at hq
    exact h.held q ch hq

theorem pass (hne : s.ring.first ≠ s.ring.last) (hfree : s.busy = none ∨ s.busy = some r) :
    Fifo { s.goto r .read with busy := some r } g := by
  refine ⟨h.ok, h.kept, fun q hq => ?_, fun q ch hq => ?_⟩
  · by_cases hqr : q = r
    · exact ⟨congrArg some hqr.symm, hne⟩
    have hq' : (s.reading q).taking = true := by
      rw [← goto_of_ne hqr .read]
      exact hq
    obtain hb | hb := hfree
    · rw [(h.busy q hq').1] at hb
      cases hb
    · rw [(h.busy q hq').1] at hb
      exact absurd (Option.some.inj hb) hqr
  · by_cases hqr : q = r
    · subst hqr
      rw [show _ = Reading.read from goto_self .read] at hq
      cases hq
    · exact h.held q ch ((goto_of_ne hqr .read).symm.trans hq)

theorem read (hr : s.reading r = .read) :
    Fifo (s.goto r (.advance (s.ring.cell s.ring.first))) g := by
  refine ⟨h.ok, h.kept, fun q hq => ?_, fun q ch hq => ?_⟩
  · by_cases hqr : q = r
    · subst hqr
      exact h.busy q (by rw [hr]; rfl)
    · rw [goto_of_ne hqr] at hq
      exact h.busy q hq
  by_cases hqr : q = r
  · subst hqr
    rw [goto_self] at hq
    exact (Reading.advance.inj hq).symm
  · rw [goto_of_ne hqr] at hq
    exact h.held q ch hq

theorem advance {ch : BitVec 8} (hr : s.reading r = .advance ch) :
    Fifo { s.goto r .outside with ring := s.ring.pop, busy := none }
      { g with returned := g.returned ++ [ch] } := by
  obtain ⟨hbusy, hne⟩ := h.busy r (by rw [hr]; rfl)
  -- no other reader is between its test and its return
  have hnone (q : Nat) : ((s.goto r .outside).reading q).taking = false := by
    by_cases hqr : q = r
    · rw [hqr, goto_self]
      rfl
    rw [goto_of_ne hqr]
    cases hq : (s.reading q).taking with
    | false => rfl
    | true =>
      have hb := (h.busy q hq).1
      rw [hbusy] at hb
      exact absurd (Option.some.inj hb).symm hqr
  refine ⟨h.ok.pop, ?_, fun q hq => ?_, fun q ch hq => ?_⟩
  · rw [append_assoc, singleton_append, h.held r ch hr]
    exact (congrArg _ (h.ok.contents_pop hne).symm).trans h.kept
  · rw [show _ = false from hnone q] at hq
    cases hq
  · have hq' : ((s.goto r .outside).reading q).taking = true := by
      rw [show _ = Reading.advance ch from hq]
      rfl
    rw [hnone q] at hq'
    cases hq'

theorem run (hfree : s.busy = none ∨ s.busy = some r) (hrun : s.getch r = some t) :
    Fifo t (log s (.run r) t g) := by
  have hlog : log s (.run r) t g = { g with returned := g.returned ++ (s.reading r).returns } := rfl
  rw [hlog]
  unfold getch at hrun
  cases hr : s.reading r with
  | outside =>
    rw [hr] at hrun
    cases hrun
  | asleep =>
    rw [hr] at hrun
    cases hrun
  | test =>
    rw [hr] at hrun
    rw [Reading.returns, append_nil]
    dsimp only at hrun
    split_ifs at hrun with hempty
    · cases hrun
      exact h.move rfl rfl (goto_or (show Reading.asleep.taking = false from rfl))
    · cases hrun
      exact h.pass hempty hfree
  | read =>
    rw [hr] at hrun
    cases hrun
    rw [Reading.returns, append_nil]
    exact h.read hr
  | advance ch =>
    rw [hr] at hrun
    cases hrun
    exact h.advance hr

theorem step {e : Event} (hstep : Keyboard.step s e = some t) : Fifo t (log s e t g) := by
  cases e with
  | interrupt sc =>
    cases hstep
    exact h.interrupt sc
  | call r =>
    simp only [Keyboard.step] at hstep
    split_ifs at hstep
    cases hstep
    exact h.move rfl rfl (goto_or rfl)
  | run r =>
    simp only [Keyboard.step] at hstep
    split_ifs at hstep with hfree
    exact h.run hfree hstep
  | signal r =>
    simp only [Keyboard.step] at hstep
    split_ifs at hstep
    cases hstep
    exact h.move rfl rfl (goto_or rfl)

end Fifo

theorem fifo_start (console : Console) : Fifo (boot console) ⟨[], [], []⟩ where
  ok := ⟨by simp [boot], by simp [boot]⟩
  kept := by simp [boot, Circular.contents, Circular.count]
  busy _ h := by cases h
  held _ _ h := by cases h

theorem reach_fifo {ok : Keyboard × Log → Event → Prop}
    (h : Reach Started (recorded step log) ok (s, g)) : Fifo s g := by
  have hinit : ∀ s g, Started (s, g) → Fifo s g := by
    rintro s g ⟨console, hx⟩
    cases hx
    exact fifo_start console
  refine h.invariantRecorded (I := Fifo) hinit ?_
  intro s g e t hI _ hs
  exact hI.step hs

theorem Fifo.full_iff (h : Fifo s g) : s.full = true ↔ s.ring.contents.length = 4095 := by
  rw [Keyboard.full_iff, h.ok.full_iff, Circular.length_contents]

/-- An interrupt adds its character if there is room. -/
theorem Fifo.adds (h : Fifo s g) (sc : BitVec 8) (hlen : s.ring.contents.length ≠ 4095) :
    (s.readScancode sc).ring.contents = s.ring.contents ++ chars s.shift sc := by
  have hfull : s.full = false := by
    rw [← Bool.not_eq_true, h.full_iff]
    exact hlen
  obtain ⟨hf, -⟩ | ⟨-, hchars, pressed, console, heq⟩ | ⟨-, c, console, hchars, heq⟩ :=
    readScancode_cases s sc
  · rw [hfull] at hf
    cases hf
  · rw [heq, hchars, append_nil]
  · rw [heq, hchars]
    exact h.ok.contents_push (full_false_iff.mp hfull)

/-- What `getch` has returned is the beginning of what was decoded, at most 4095
characters wait, and only then an interrupt is lost. -/
theorem keyboard_fifo (h : Reach Started (recorded step log) always (s, g)) :
    g.returned <+: g.decoded ∧ s.ring.contents.length ≤ 4095 ∧
      s.ring.first < 4096 ∧ s.ring.last < 4096 ∧
      ∀ sc, s.ring.contents.length ≠ 4095 →
        (s.readScancode sc).ring.contents = s.ring.contents ++ chars s.shift sc := by
  have hfifo := reach_fifo h
  have hlt := hfifo.ok.count_lt
  rw [← Circular.length_contents] at hlt
  exact ⟨⟨s.ring.contents, hfifo.kept⟩, by omega, hfifo.ok.first, hfifo.ok.last, hfifo.adds⟩

/-- Two keys and two readers: the first reader has its character and waits for more,
the second one sleeps. -/
def sampleEvents : List Event :=
  [.call 1, .run 1, .call 2, .run 2, .interrupt 0x23, .run 1, .interrupt 0x17, .run 1, .run 1]

theorem keyboard_fifo_sample : ∃ s g, Reach Started (recorded step log) always (s, g) ∧
      g.returned = [ch 'h'] ∧ g.decoded = [ch 'h', ch 'i'] ∧
      (g.returned <+: g.decoded ∧ s.ring.contents.length ≤ 4095 ∧
      s.ring.first < 4096 ∧ s.ring.last < 4096 ∧
      ∀ sc, s.ring.contents.length ≠ 4095 →
        (s.readScancode sc).ring.contents = s.ring.contents ++ chars s.shift sc) := by
  have hrun : (run (recorded step log)
      (boot (Console.clear ⟨⟨fun _ => 0, []⟩, 0, 0⟩), ⟨[], [], []⟩) sampleEvents).map
        (fun x => (x.2.returned, x.2.decoded)) = some ([ch 'h'], [ch 'h', ch 'i']) := by
    decide +kernel
  obtain ⟨⟨s, g⟩, hs, he⟩ := run_of_map hrun
  have hreach : Reach Started (recorded step log) always (s, g) :=
    Reach.run (.init ⟨_, rfl⟩) hs
  obtain ⟨hret, hdec⟩ := Prod.mk.inj he
  exact ⟨s, g, hreach, hret, hdec, keyboard_fifo hreach⟩

/-! ## Modifiers -/

/-- Whether the last scancode of the key was that of a press. -/
def held (m : Modifier) : List (BitVec 8 × Bool) → Bool
  | [] => false
  | (sc, _) :: log =>
    if sc = m.key then true else if sc = m.key ||| 0x80 then false else held m log

/-- The characters of the scancodes that found room, each decoded with the shift table exactly
if a shift key is held. -/
def translate : List (BitVec 8 × Bool) → List (BitVec 8)
  | [] => []
  | (_, true) :: log => translate log
  | (sc, false) :: log => translate log ++ chars (held .lshift log || held .rshift log) sc

/-- No scancode of a modifier finds the buffer full, unless it changes nothing. -/
def NotFull (x : Keyboard × Log) : Event → Prop
  | .interrupt sc => x.1.full = true → ∀ m ∈ [.ctrl, .alt, .lshift, .rshift],
      held m ((sc, true) :: x.2.scancodes) = held m x.2.scancodes
  | .call _ | .run _ | .signal _ => True

instance (x : Keyboard × Log) : (e : Event) → Decidable (NotFull x e)
  | .interrupt _ => inferInstanceAs (Decidable (_ → _))
  | .call _ | .run _ | .signal _ => inferInstanceAs (Decidable True)

/-- The flags and the decoded characters are those of the scancodes. -/
structure Follows (s : Keyboard) (g : Log) : Prop where
  pressed : ∀ m, s.pressed m = held m g.scancodes
  decoded : g.decoded = translate g.scancodes

theorem ofKey_release (m : Modifier) (sc : BitVec 8) (h : sc &&& 0x80 ≠ 0) :
    sc ≠ m.key ∧ (Modifier.ofKey (sc &&& 0x7f) = some m ↔ sc = m.key ||| 0x80) := by
  revert sc
  cases m <;> decide +kernel

theorem ofKey_press (m : Modifier) (sc : BitVec 8) (h : ¬ sc &&& 0x80 ≠ 0) :
    sc ≠ m.key ||| 0x80 ∧ (Modifier.ofKey sc = some m ↔ sc = m.key) := by
  revert sc
  cases m <;> decide +kernel

theorem setModifier_pressed (s : Keyboard) (sc : BitVec 8) (b : Bool) (m : Modifier) :
    (s.setModifier sc b).pressed m = if Modifier.ofKey sc = some m then b else s.pressed m := by
  unfold setModifier
  cases hk : Modifier.ofKey sc with
  | none => rfl
  | some m' =>
    by_cases hm : m = m'
    · subst hm
      simp
    · have hne : ¬ (some m' = some m) := fun h => hm (Option.some.inj h).symm
      rw [if_neg hne]
      exact Function.update_of_ne hm ..

/-- A scancode that is read sets the flag of its key and no other. -/
theorem readScancode_pressed (hfull : s.full = false) (sc : BitVec 8) (m : Modifier) :
    (s.readScancode sc).pressed m =
      if sc = m.key then true else if sc = m.key ||| 0x80 then false else s.pressed m := by
  rw [readScancode, hfull, if_neg nofun]
  by_cases h1 : sc &&& 0x80 ≠ 0
  · obtain ⟨hne, hiff⟩ := ofKey_release m sc h1
    rw [if_pos h1, setModifier_pressed, if_neg hne]
    simp only [hiff]
  obtain ⟨hne, hiff⟩ := ofKey_press m sc h1
  rw [if_neg h1, if_neg hne]
  split_ifs with h2 h3 h3
  · rw [setModifier_pressed, if_pos (hiff.mpr h3)]
  · rw [setModifier_pressed, if_neg fun h => h3 (hiff.mp h)]
  · rw [hiff.mpr h3] at h2
    exact absurd rfl h2
  · unfold accept
    split_ifs <;> rfl

theorem getch_pressed (h : s.getch r = some t) : t.pressed = s.pressed := by
  unfold getch at h
  split at h
  · split_ifs at h <;> cases h <;> rfl
  · cases h
    rfl
  · cases h
    rfl
  · cases h
  · cases h

namespace Follows

variable (h : Follows s g)
include h

theorem interrupt (sc : BitVec 8) : Follows (s.readScancode sc) (log s (.interrupt sc) t g) ↔
    NotFull (s, g) (.interrupt sc) := by
  rw [log_interrupt]
  cases hfull : s.full with
  | false =>
    have hshift : s.shift = (held .lshift g.scancodes || held .rshift g.scancodes) := by
      rw [shift, h.pressed, h.pressed]
    refine iff_of_true ⟨fun m => ?_, ?_⟩ fun ht => ?_
    · rw [readScancode_pressed hfull, h.pressed, held]
    · rw [if_neg nofun, h.decoded, hshift, translate]
    · rw [hfull] at ht
      cases ht
  | true =>
    rw [readScancode, if_pos hfull]
    constructor
    · intro hf _ m _
      exact (hf.pressed m).symm.trans (h.pressed m)
    · intro hok
      refine ⟨fun m => ?_, by rw [if_pos rfl, h.decoded, translate]⟩
      rw [h.pressed, hok hfull m (by cases m <;> decide)]

theorem step {e : Event} (hok : NotFull (s, g) e) (hstep : Keyboard.step s e = some t) :
    Follows t (log s e t g) := by
  cases e with
  | interrupt sc =>
    cases hstep
    exact (h.interrupt sc).mpr hok
  | call r =>
    simp only [Keyboard.step] at hstep
    split_ifs at hstep
    cases hstep
    exact ⟨h.pressed, h.decoded⟩
  | run r =>
    simp only [Keyboard.step] at hstep
    split_ifs at hstep
    refine ⟨fun m => ?_, h.decoded⟩
    rw [getch_pressed hstep]
    exact h.pressed m
  | signal r =>
    simp only [Keyboard.step] at hstep
    split_ifs at hstep
    cases hstep
    exact ⟨h.pressed, h.decoded⟩

end Follows

/-- The flags say which keys are held, and every character was decoded accordingly; after an
interrupt this holds again exactly if the buffer has not kept a modifier's scancode away. -/
theorem modifiers_follow (h : Reach Started (recorded step log) NotFull (s, g)) :
    ((∀ m, s.pressed m = held m g.scancodes) ∧ g.decoded = translate g.scancodes) ∧
      ∀ sc, Follows (s.readScancode sc) (log s (.interrupt sc) (s.readScancode sc) g) ↔
        NotFull (s, g) (.interrupt sc) := by
  have hinit : ∀ s g, Started (s, g) → Follows s g := by
    rintro s g ⟨console, hx⟩
    cases hx
    exact ⟨fun _ => rfl, rfl⟩
  have hfollows : Follows s g := by
    refine h.invariantRecorded (I := Follows) hinit ?_
    intro s g e t hI hok hs
    exact hI.step hok hs
  exact ⟨⟨hfollows.pressed, hfollows.decoded⟩, fun sc => hfollows.interrupt sc⟩

theorem modifiers_follow_sample : ∃ s g, Reach Started (recorded step log) NotFull (s, g) ∧
      g.decoded = [ch 'A', ch 'a'] ∧
      (∀ m, s.pressed m = held m g.scancodes) ∧ g.decoded = translate g.scancodes := by
  have hrun : (run (guarded (recorded step log) NotFull)
      (boot (Console.clear ⟨⟨fun _ => 0, []⟩, 0, 0⟩), ⟨[], [], []⟩)
        [.interrupt 0x2a, .interrupt 0x1e, .interrupt 0xaa, .interrupt 0x1e]).map
          (fun x => x.2.decoded) = some [ch 'A', ch 'a'] := by
    decide +kernel
  obtain ⟨⟨s, g⟩, hs, he⟩ := run_of_map hrun
  have hreach : Reach Started (recorded step log) NotFull (s, g) :=
    Reach.runGuarded (.init ⟨_, rfl⟩) hs
  exact ⟨s, g, hreach, he, (modifiers_follow hreach).1⟩

/-- With the left shift key held, any number of characters up to 4095 can wait. -/
theorem exists_shift_held (n : Nat) (hn : n ≤ 4095) :
    ∃ s g, Reach Started (recorded step log) always (s, g) ∧
      s.pressed .lshift = true ∧ s.ring.contents.length = n := by
  induction n with
  | zero =>
    let s0 := boot (Console.clear ⟨⟨fun _ => 0, []⟩, 0, 0⟩)
    have h0 : Reach Started (recorded step log) always
        (s0, ⟨[], [], []⟩) := .init ⟨_, rfl⟩
    have hempty : s0.ring.contents = [] := by
      simp [s0, boot, Circular.contents, Circular.count]
    refine ⟨s0.readScancode keyLshift, _, h0.step (a := .interrupt keyLshift) trivial rfl, rfl, ?_⟩
    rw [(fifo_start _).adds keyLshift (by rw [hempty]; decide), hempty]
    rfl
  | succ n ih =>
    obtain ⟨s, g, hreach, hshift, hlen⟩ := ih (by omega)
    have hfifo := reach_fifo hreach
    have hfull : s.full = false := by
      rw [← Bool.not_eq_true, hfifo.full_iff]
      omega
    refine ⟨s.readScancode 0x1e, _, hreach.step (a := .interrupt 0x1e) trivial rfl, ?_, ?_⟩
    · rw [readScancode_pressed hfull, hshift]
      rfl
    · rw [hfifo.adds _ (by omega), length_append, hlen]
      cases s.shift <;> rfl

/-- The key is released while the buffer is full: the flag stays set. -/
theorem release_missed : ∃ s g, Reach Started (recorded step log) always (s, g) ∧
      s.pressed .lshift = true ∧ held .lshift g.scancodes = false := by
  obtain ⟨s, g, hreach, hshift, hlen⟩ := exists_shift_held 4095 (Nat.le_refl _)
  have hfull := (reach_fifo hreach).full_iff.mpr hlen
  refine ⟨s.readScancode 0xaa, _, hreach.step (a := .interrupt 0xaa) trivial rfl, ?_, rfl⟩
  rw [readScancode, if_pos hfull]
  exact hshift

end Keyboard

end Sysint.Devices
