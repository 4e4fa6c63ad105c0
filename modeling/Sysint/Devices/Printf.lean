import Mathlib.Data.Nat.Digits.Defs
import Sysint.Devices.Console

/-! `printf` of `kernel/devices/consoleprintf.cpp`. The characters that `_vprintf`
passes to `put_n` are a function of the format and the arguments; `put_n` collects
them in a buffer of 1024 bytes. -/
namespace Sysint.Devices

open List Nat

/-- A character constant. -/
def ch (c : Char) : BitVec 8 := BitVec.ofNat 8 c.toNat

def isdigit (c : BitVec 8) : Bool := ch '0' ≤ c && c ≤ ch '9'

namespace Printf

def zeropad : Nat := 1

def sign : Nat := 2

def plus : Nat := 4

def space : Nat := 8

def left : Nat := 16

def special : Nat := 32

def small : Nat := 64

/-- `skip_atoi`; an `int` wraps around. -/
def skipAtoi : Int → List (BitVec 8) → Int × List (BitVec 8)
  | i, [] => (i, [])
  | i, c :: s =>
    if isdigit c then skipAtoi ((i * 10 + (c.toNat - 48)).bmod (2 ^ 32)) s else (i, c :: s)

/-- `while (len < w--) put_n(c);` and the value of `w` after it. -/
def pad (len w : Int) (c : BitVec 8) : List (BitVec 8) × Int :=
  (List.replicate (w - len).toNat c, min len w - 1)

/-- `while (--w > 0) put_n(' ');` and the value of `w` after it. -/
def padBefore (w : Int) : List (BitVec 8) × Int :=
  (List.replicate (w - 1).toNat (ch ' '), min 0 (w - 1))

/-- The entry `d` of `digits`. -/
def digit (type d : Nat) : BitVec 8 :=
  if d < 10 then BitVec.ofNat 8 (48 + d)
  else BitVec.ofNat 8 ((if type &&& small ≠ 0 then 97 else 65) + (d - 10))

/-- The sign of a number, and the number without it. -/
def signOf (num : BitVec 32) (type : Nat) : Option (BitVec 8) × BitVec 32 :=
  if type &&& sign ≠ 0 ∧ num.toInt < 0 then (some (ch '-'), -num)
  else if type &&& plus ≠ 0 then (some (ch '+'), num)
  else if type &&& space ≠ 0 then (some (ch ' '), num)
  else (none, num)

/-- What `SPECIAL` puts before the digits. -/
def specialOf (base type : Nat) : List (BitVec 8) :=
  if type &&& special = 0 then []
  else if base = 8 then [ch '0']
  else if base = 16 then [ch '0', digit type 33]
  else []

/-- The characters that `number` puts. -/
def number (num : BitVec 32) (base : Nat) (size precision : Int) (type : Nat) :
    List (BitVec 8) :=
  if base < 2 ∨ base > 36 then []
  else
    let type := if type &&& left ≠ 0 then type &&& (127 - zeropad) else type
    let c := if type &&& zeropad ≠ 0 then ch '0' else ch ' '
    let s := signOf num type
    let size := size - s.1.toList.length - (specialOf base type).length
    -- the digits, the last one first
    let tmp := if s.2 = 0 then [ch '0'] else (Nat.digits base s.2.toNat).map (digit type)
    let precision := max precision tmp.length
    let size := size - precision
    let blanks := if type &&& (zeropad + left) = 0 then pad 0 size (ch ' ') else ([], size)
    let fills := if type &&& left = 0 then pad 0 blanks.2 c else ([], blanks.2)
    blanks.1 ++ s.1.toList ++ specialOf base type ++ fills.1 ++
      List.replicate (precision - tmp.length).toNat (ch '0') ++ tmp.reverse ++
      (pad 0 fills.2 (ch ' ')).1

/-- The flags after a `%`. -/
def parseFlags : Nat → List (BitVec 8) → Nat × List (BitVec 8)
  | flags, [] => (flags, [])
  | flags, c :: s =>
    if c = ch '-' then parseFlags (flags ||| left) s
    else if c = ch '+' then parseFlags (flags ||| plus) s
    else if c = ch ' ' then parseFlags (flags ||| space) s
    else if c = ch '#' then parseFlags (flags ||| special) s
    else if c = ch '0' then parseFlags (flags ||| zeropad) s
    else (flags, c :: s)

/-- What stands between a `%` and the conversion character. `fmt` is the rest of
the format and `arg` the number of arguments taken so far. -/
structure Directive where
  flags : Nat
  fieldWidth : Int
  precision : Int
  arg : Nat
  fmt : List (BitVec 8)

/-- The field width. A `*` takes an argument and stays in the format. -/
def Directive.parseWidth (d : Directive) (args : Nat → BitVec 32) : Directive :=
  match d.fmt with
  | [] => d
  | c :: _ =>
    if isdigit c then
      { d with fieldWidth := (skipAtoi 0 d.fmt).1, fmt := (skipAtoi 0 d.fmt).2 }
    else if c = ch '*' then
      let w := (args d.arg).toInt
      if w < 0 then { d with fieldWidth := -w, flags := d.flags ||| left, arg := d.arg + 1 }
      else { d with fieldWidth := w, arg := d.arg + 1 }
    else d

/-- The precision, behind its point. -/
def Directive.parseDigits (d : Directive) (args : Nat → BitVec 32) : Directive :=
  match d.fmt with
  | [] => { d with precision := 0 }
  | c :: _ =>
    if isdigit c then
      { d with precision := max 0 (skipAtoi 0 d.fmt).1, fmt := (skipAtoi 0 d.fmt).2 }
    else if c = ch '*' then { d with precision := max 0 (args d.arg).toInt, arg := d.arg + 1 }
    else { d with precision := 0 }

def Directive.parsePrecision (d : Directive) (args : Nat → BitVec 32) : Directive :=
  match d.fmt with
  | [] => d
  | c :: s => if c = ch '.' then { d with fmt := s }.parseDigits args else d

/-- The qualifier, which is ignored. -/
def Directive.skipQualifier (d : Directive) : Directive :=
  match d.fmt with
  | [] => d
  | c :: s => if c = ch 'h' ∨ c = ch 'l' ∨ c = ch 'L' then { d with fmt := s } else d

def parse (args : Nat → BitVec 32) (arg : Nat) (fmt : List (BitVec 8)) : Directive :=
  let f := parseFlags 0 fmt
  (({ flags := f.1, fieldWidth := -1, precision := -1, arg := arg, fmt := f.2 :
    Directive }.parseWidth args).parsePrecision args).skipQualifier

/-- The characters of a conversion, and how many arguments it takes. `str` gives
the string at an address. -/
def convert (str : BitVec 32 → List (BitVec 8)) (args : Nat → BitVec 32) (d : Directive) :
    Option (BitVec 8) → List (BitVec 8) × Nat
  | none => ([ch '%'], 0)
  | some c =>
    let a := args d.arg
    if c = ch 'c' then
      let before := if d.flags &&& left = 0 then padBefore d.fieldWidth else ([], d.fieldWidth)
      (before.1 ++ [a.setWidth 8] ++ (padBefore before.2).1, 1)
    else if c = ch 's' then
      let s := str a
      let len : Int := if d.precision < 0 then s.length else min s.length d.precision
      let before :=
        if d.flags &&& left = 0 then pad len d.fieldWidth (ch ' ') else ([], d.fieldWidth)
      (before.1 ++ s.take len.toNat ++ (pad len before.2 (ch ' ')).1, 1)
    else if c = ch 'o' then (number a 8 d.fieldWidth d.precision d.flags, 1)
    else if c = ch 'p' then
      (if d.fieldWidth = -1 then number a 16 8 d.precision (d.flags ||| zeropad)
        else number a 16 d.fieldWidth d.precision d.flags, 1)
    else if c = ch 'x' then (number a 16 d.fieldWidth d.precision (d.flags ||| small), 1)
    else if c = ch 'X' then (number a 16 d.fieldWidth d.precision d.flags, 1)
    else if c = ch 'd' ∨ c = ch 'i' then
      (number a 10 d.fieldWidth d.precision (d.flags ||| sign), 1)
    else if c = ch 'u' then (number a 10 d.fieldWidth d.precision d.flags, 1)
    -- `%n` stores `num_printed` and prints nothing
    else if c = ch 'n' then ([], 1)
    else if c = ch '%' then ([c], 0)
    else ([ch '%', c], 0)

theorem skipAtoi_length (i : Int) (s : List (BitVec 8)) : (skipAtoi i s).2.length ≤ s.length := by
  induction s generalizing i with
  | nil => exact Nat.le_refl _
  | cons c s ih =>
    rw [skipAtoi]
    split_ifs
    · exact le_succ_of_le (ih _)
    · exact Nat.le_refl _

theorem parseFlags_length (flags : Nat) (s : List (BitVec 8)) :
    (parseFlags flags s).2.length ≤ s.length := by
  induction s generalizing flags with
  | nil => exact Nat.le_refl _
  | cons c s ih =>
    rw [parseFlags]
    split_ifs
    case neg => exact Nat.le_refl _
    all_goals exact le_succ_of_le (ih _)

namespace Directive

variable (d : Directive) (args : Nat → BitVec 32)

theorem parseWidth_length : (d.parseWidth args).fmt.length ≤ d.fmt.length := by
  unfold parseWidth
  have h := skipAtoi_length 0 d.fmt
  split
  · exact Nat.le_refl _
  · dsimp only
    split_ifs <;> first | exact h | exact Nat.le_refl _

theorem parseDigits_length : (d.parseDigits args).fmt.length ≤ d.fmt.length := by
  unfold parseDigits
  have h := skipAtoi_length 0 d.fmt
  split
  · exact Nat.le_refl _
  · split_ifs <;> first | exact h | exact Nat.le_refl _

theorem parsePrecision_length : (d.parsePrecision args).fmt.length ≤ d.fmt.length := by
  unfold parsePrecision
  split
  · exact Nat.le_refl _
  · rename_i c s hs
    split_ifs
    · rw [hs]
      exact le_succ_of_le (parseDigits_length { d with fmt := s } args)
    · exact Nat.le_refl _

theorem skipQualifier_length : d.skipQualifier.fmt.length ≤ d.fmt.length := by
  unfold skipQualifier
  split
  · exact Nat.le_refl _
  · rename_i c s hs
    split_ifs
    · rw [hs]
      exact le_succ _
    · exact Nat.le_refl _

end Directive

theorem parse_length (args : Nat → BitVec 32) (arg : Nat) (fmt : List (BitVec 8)) :
    (parse args arg fmt).fmt.length ≤ fmt.length :=
  calc (parse args arg fmt).fmt.length
    _ ≤ _ := Directive.skipQualifier_length _
    _ ≤ _ := Directive.parsePrecision_length _ _
    _ ≤ _ := Directive.parseWidth_length _ _
    _ ≤ fmt.length := parseFlags_length 0 fmt

/-- The characters that `_vprintf` passes to `put_n`. -/
def format (str : BitVec 32 → List (BitVec 8)) (args : Nat → BitVec 32) (arg : Nat)
    (fmt : List (BitVec 8)) : List (BitVec 8) :=
  match fmt with
  | [] => []
  | c :: s =>
    if c ≠ ch '%' then c :: format str args arg s
    else
      let d := parse args arg s
      let r := convert str args d d.fmt.head?
      r.1 ++ format str args (d.arg + r.2) d.fmt.tail
termination_by fmt.length
decreasing_by
  · exact lt_succ_self _
  · have h := parse_length args arg s
    rw [length_tail, length_cons]
    omega

end Printf

/-! ## The buffer -/

/-- `buffer`, `cur_loc` as an index into it, `num_printed`, and the strings handed
to `puts`. -/
structure Printer where
  buffer : Nat → BitVec 8
  curLoc : Nat
  numPrinted : BitVec 32
  out : List (List (BitVec 8))

namespace Printer

/-- `puts(buffer)`: the characters before the first NUL. -/
def puts (s : Printer) : Printer :=
  { s with out := s.out ++ [((List.range 1024).map s.buffer).takeWhile (· ≠ 0)] }

def store (s : Printer) (c : BitVec 8) : Printer :=
  { s with buffer := Function.update s.buffer s.curLoc c }

def putN (s : Printer) (c : BitVec 8) : Printer :=
  if s.curLoc > 1022 then { s.puts with curLoc := 0, numPrinted := s.numPrinted + 1 }
  else { s.store c with curLoc := s.curLoc + 1, numPrinted := s.numPrinted + 1 }

/-- The start of `_vprintf`, with what an earlier call left in the buffer. -/
def start (buffer : Nat → BitVec 8) : Printer := ⟨Function.update buffer 1023 0, 0, 0, []⟩

/-- The end of `_vprintf`. -/
def finish (s : Printer) : Printer := if s.curLoc ≠ 0 then (s.store 0).puts else s

/-- A call of `_vprintf` that passes the characters `cs` to `put_n`. -/
def print (buffer : Nat → BitVec 8) (cs : List (BitVec 8)) : Printer :=
  (cs.foldl putN (start buffer)).finish

end Printer

/-- `_vprintf`. -/
def vprintf (buffer : Nat → BitVec 8) (str : BitVec 32 → List (BitVec 8)) (args : Nat → BitVec 32)
    (fmt : List (BitVec 8)) : Printer := Printer.print buffer (Printf.format str args 0 fmt)

namespace Printer

variable {s : Printer} {cs : List (BitVec 8)}

theorem store_self (s : Printer) (c : BitVec 8) : (s.store c).buffer s.curLoc = c := by
  simp [store]

theorem store_of_ne {i : Nat} (h : i ≠ s.curLoc) (c : BitVec 8) :
    (s.store c).buffer i = s.buffer i := by simp [store, h]

/-- The buffer holds `cs`, and nothing has been printed. -/
structure Holds (s : Printer) (cs : List (BitVec 8)) : Prop where
  len : cs.length ≤ 1023
  loc : s.curLoc = cs.length
  chars : ∀ i (h : i < cs.length), s.buffer i = cs[i]
  last : s.buffer 1023 = 0
  count : s.numPrinted = BitVec.ofNat 32 cs.length
  out : s.out = []

theorem holds_start (buffer : Nat → BitVec 8) : Holds (start buffer) [] where
  len := Nat.zero_le _
  loc := rfl
  chars _ h := absurd h (Nat.not_lt_zero _)
  last := Function.update_self 1023 0 buffer
  count := rfl
  out := rfl

section

variable (h : Holds s cs)
include h

theorem Holds.putN (hlen : cs.length < 1023) (c : BitVec 8) :
    Holds (s.putN c) (cs ++ [c]) := by
  have hloc := h.loc
  have hlt : ¬ s.curLoc > 1022 := by omega
  rw [Printer.putN, if_neg hlt]
  constructor
  · rw [length_append, length_singleton]
    omega
  · rw [length_append, length_singleton, ← hloc]
  · intro i hi
    rw [length_append, length_singleton] at hi
    by_cases hic : i = s.curLoc
    · subst hic
      refine (store_self s c).trans ?_
      simp [hloc]
    · refine (store_of_ne hic c).trans ?_
      rw [h.chars i (by omega), getElem_append_left]
  · exact (store_of_ne (by omega) c).trans h.last
  · rw [h.count, length_append, length_singleton, BitVec.ofNat_add]
    rfl
  · exact h.out

theorem Holds.puts_all {ds : List (BitVec 8)}
    (hlen : cs.length + ds.length ≤ 1023) : Holds (ds.foldl Printer.putN s) (cs ++ ds) := by
  induction ds generalizing s cs with
  | nil => rwa [append_nil]
  | cons d ds ih =>
    rw [length_cons] at hlen
    have h' := ih (h.putN (by omega) d) (by rw [length_append, length_singleton]; omega)
    rwa [append_assoc] at h'

/-- The string in the buffer, once its end is marked. -/
theorem Holds.string (hnul : 0 ∉ cs) (hend : s.buffer cs.length = 0) :
    ((List.range 1024).map s.buffer).takeWhile (· ≠ 0) = cs := by
  have hlen := h.len
  have hcs : (List.range cs.length).map s.buffer = cs := by
    apply ext_getElem
    · simp
    · intro i _ hi
      simp [h.chars i hi]
  obtain ⟨k, hk⟩ := Nat.exists_eq_add_of_le (show cs.length + 1 ≤ 1024 by omega)
  rw [hk, range_add, range_succ, map_append, map_append, hcs]
  rw [append_assoc, takeWhile_append_of_pos]
  · simp [hend]
  · intro c hc
    have hne : c ≠ 0 := by
      rintro rfl
      exact hnul hc
    simpa using hne

/-- Up to 1023 characters are printed by the call's end, all of them. -/
theorem Holds.finish (hnul : 0 ∉ cs) :
    s.finish.out.flatten = cs ∧ s.finish.numPrinted = BitVec.ofNat 32 cs.length := by
  have hloc := h.loc
  unfold Printer.finish
  split_ifs with h0
  · have h' : Holds (s.store 0) cs := by
      refine ⟨h.len, h.loc, fun i hi => ?_, ?_, h.count, h.out⟩
      · exact (store_of_ne (by omega) 0).trans (h.chars i hi)
      · by_cases h1023 : 1023 = s.curLoc
        · rw [h1023]
          exact store_self s 0
        · exact (store_of_ne h1023 0).trans h.last
    have hend : (s.store 0).buffer cs.length = 0 := by
      rw [← hloc]
      exact store_self s 0
    refine ⟨?_, h.count⟩
    rw [Printer.puts, h'.string hnul hend, h'.out]
    simp
  · obtain rfl : cs = [] := eq_nil_of_length_eq_zero (by omega)
    exact ⟨by rw [h.out]; rfl, h.count⟩

/-- In a full buffer the next character makes room and is lost. -/
theorem Holds.full (hlen : cs.length = 1023) (hnul : 0 ∉ cs) (c : BitVec 8) :
    (s.putN c).finish.out = [cs] := by
  have hloc := h.loc
  have hend : s.buffer cs.length = 0 := by
    rw [hlen]
    exact h.last
  rw [Printer.putN, if_pos (by omega), Printer.finish, if_neg (by simp), Printer.puts,
    h.string hnul hend, h.out]
  rfl

end

theorem puts_length {k : Nat} (hk : k ≤ 1023) (h : s.buffer k = 0) :
    s.puts.out.flatten.length ≤ s.out.flatten.length + k := by
  obtain ⟨m, hm⟩ := Nat.exists_eq_add_of_le (show k + 1 ≤ 1024 by omega)
  rw [puts, flatten_append, flatten_singleton, length_append, hm, range_add,
    range_succ, map_append, map_append, append_assoc, takeWhile_append]
  have hle := (takeWhile_sublist (· ≠ 0) (l := (List.range k).map s.buffer)).length_le
  rw [length_map, length_range] at hle
  split
  · simp [h]
  · omega

/-- At most `n` characters are printed if the call ends here. -/
structure AtMost (s : Printer) (n : Nat) : Prop where
  loc : s.curLoc ≤ 1023
  last : s.buffer 1023 = 0
  bound : s.out.flatten.length + s.curLoc ≤ n

variable {n : Nat}

theorem AtMost.putN_full (h : AtMost s n) (hfull : s.curLoc = 1023) (c : BitVec 8) :
    AtMost (s.putN c) n := by
  have hbound := h.bound
  have hputs := puts_length (Nat.le_refl _) h.last
  rw [Printer.putN, if_pos (by omega)]
  exact ⟨Nat.zero_le _, h.last, by simp only; omega⟩

theorem AtMost.putN (h : AtMost s n) (c : BitVec 8) : AtMost (s.putN c) (n + 1) := by
  have hloc := h.loc
  have hbound := h.bound
  by_cases hfull : s.curLoc = 1023
  · obtain ⟨h1, h2, h3⟩ := h.putN_full hfull c
    exact ⟨h1, h2, by omega⟩
  · rw [Printer.putN, if_neg (by omega)]
    refine ⟨by simp only; omega, (store_of_ne (Ne.symm hfull) c).trans h.last, ?_⟩
    simp only [store]
    omega

theorem AtMost.puts_all (h : AtMost s n) (ds : List (BitVec 8)) :
    AtMost (ds.foldl Printer.putN s) (n + ds.length) := by
  induction ds generalizing s n with
  | nil => exact h
  | cons d ds ih =>
    have h' := ih (h.putN d)
    rwa [Nat.add_assoc, Nat.add_comm 1] at h'

theorem AtMost.finish (h : AtMost s n) : s.finish.out.flatten.length ≤ n := by
  have hbound := h.bound
  unfold Printer.finish
  split
  · have hputs := puts_length h.loc (store_self s 0)
    simp only [store] at hputs ⊢
    omega
  · omega

/-- The character that finds the buffer full is missing at the end. -/
theorem print_shorter (buffer : Nat → BitVec 8) {cs : List (BitVec 8)} (hlen : 1023 < cs.length) :
    (print buffer cs).out.flatten.length < cs.length := by
  have hfirst : (cs.take 1023).length = 1023 := by
    rw [length_take]
    omega
  obtain ⟨c, ds, hrest⟩ := exists_cons_of_length_pos (l := cs.drop 1023) (by simpa using hlen)
  have hcs : cs = cs.take 1023 ++ c :: ds := by rw [← hrest, take_append_drop]
  have h : Holds ((cs.take 1023).foldl Printer.putN (start buffer)) (cs.take 1023) :=
    (holds_start buffer).puts_all (by simp [hfirst])
  have hloc := h.loc.trans hfirst
  have hmost : AtMost _ 1023 := ⟨hloc.le, h.last, by simp [h.out, hloc]⟩
  have hfin := ((hmost.putN_full hloc c).puts_all ds).finish
  have hsum := congrArg List.length hcs
  rw [length_append, hfirst, length_cons] at hsum
  rw [print, hcs, foldl_append, foldl_cons, ← hcs]
  omega

end Printer

/-- What a call passes to `put_n` is printed and counted exactly up to 1023 characters. -/
theorem print_loses_nothing (buffer : Nat → BitVec 8) (cs : List (BitVec 8)) (hnul : 0 ∉ cs) :
    ((Printer.print buffer cs).out.flatten = cs ∧
      (Printer.print buffer cs).numPrinted.toInt = cs.length) ↔ cs.length ≤ 1023 := by
  constructor
  · rintro ⟨hout, -⟩
    by_contra hlen
    have hlt := Printer.print_shorter buffer (Nat.lt_of_not_le hlen)
    rw [hout] at hlt
    exact Nat.lt_irrefl _ hlt
  intro hlen
  have h : Printer.Holds (cs.foldl Printer.putN (Printer.start buffer)) cs :=
    (Printer.holds_start buffer).puts_all (by simpa using hlen)
  obtain ⟨hout, hcount⟩ := h.finish hnul
  refine ⟨hout, ?_⟩
  have hnat : (BitVec.ofNat 32 cs.length).toNat = cs.length := by
    rw [BitVec.toNat_ofNat]
    omega
  rw [Printer.print, hcount, BitVec.toInt_eq_toNat_of_lt (by omega), hnat]

/-- A format without a `%` is printed as it is. -/
theorem format_plain (str : BitVec 32 → List (BitVec 8)) (args : Nat → BitVec 32)
    {fmt : List (BitVec 8)} (h : ch '%' ∉ fmt) : Printf.format str args 0 fmt = fmt := by
  induction fmt with
  | nil => simp [Printf.format]
  | cons c fmt ih =>
    have hc : c ≠ ch '%' := (ne_of_not_mem_cons h).symm
    rw [Printf.format, if_pos hc, ih (not_mem_of_not_mem_cons h)]

theorem format_percent_d (str : BitVec 32 → List (BitVec 8)) :
    Printf.format str (fun _ => 42) 0 [ch '%', ch 'd', ch '\n'] =
      [ch '4', ch '2', ch '\n'] := by
  have hrest : Printf.format str (fun _ => 42) 1 [ch '\n'] = [ch '\n'] := by
    rw [Printf.format, if_pos (by decide), Printf.format]
  rw [Printf.format, if_neg (by decide)]
  have hparse : Printf.parse (fun _ => 42) 0 [ch 'd', ch '\n'] =
      ⟨0, -1, -1, 0, [ch 'd', ch '\n']⟩ := rfl
  rw [hparse]
  show Printf.number 42 10 (-1) (-1) 2 ++ Printf.format str (fun _ => 42) 1 [ch '\n'] = _
  rw [hrest]
  decide +kernel

theorem print_loses_nothing_short :
    (vprintf (fun _ => 0) (fun _ => []) (fun _ => 42) [ch '%', ch 'd', ch '\n']).out.flatten =
        [ch '4', ch '2', ch '\n'] ∧
      (vprintf (fun _ => 0) (fun _ => []) (fun _ => 42)
        [ch '%', ch 'd', ch '\n']).numPrinted.toInt = 3 := by
  rw [vprintf, format_percent_d]
  exact (print_loses_nothing (fun _ => 0) [ch '4', ch '2', ch '\n'] (by decide)).mpr (by decide)

theorem print_full (buffer : Nat → BitVec 8) {cs : List (BitVec 8)} (hlen : cs.length = 1023)
    (hnul : 0 ∉ cs) (c : BitVec 8) : (Printer.print buffer (cs ++ [c])).out.flatten = cs := by
  have h : Printer.Holds (cs.foldl Printer.putN (Printer.start buffer)) cs :=
    (Printer.holds_start buffer).puts_all (by simp [hlen])
  rw [Printer.print, foldl_append, foldl_cons, foldl_nil, h.full hlen hnul]
  simp

/-- Of 1024 characters the last one is not printed. -/
theorem print_drops_last :
    Printf.format (fun _ => []) (fun _ => 0) 0 (List.replicate 1024 (ch 'a')) =
        List.replicate 1024 (ch 'a') ∧
      (vprintf (fun _ => 0) (fun _ => []) (fun _ => 0)
        (List.replicate 1024 (ch 'a'))).out.flatten = List.replicate 1023 (ch 'a') := by
  have hne (c : BitVec 8) (n : Nat) (hc : c ≠ ch 'a') : c ∉ List.replicate n (ch 'a') :=
    fun hn => hc (eq_of_mem_replicate hn)
  have hformat := format_plain (fun _ => []) (fun _ => 0) (hne (ch '%') 1024 (by decide))
  refine ⟨hformat, ?_⟩
  rw [vprintf, hformat, replicate_succ']
  exact print_full _ length_replicate (hne _ _ (by decide)) _

end Sysint.Devices
