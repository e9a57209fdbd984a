import RustKV.Rust.Bytes
import Mathlib.Data.List.Infix
import Mathlib.Data.List.DropRight

/-!
# `str`: the methods a parser of small texts uses

A string slice is the list of its characters. `from_utf8` is the only way in
from bytes.
-/

namespace Rust.Str

/-- `std::str::from_utf8`. -/
def fromUtf8 (raw : List UInt8) : Option (List Char) :=
  (String.fromUTF8? ⟨raw.toArray⟩).map String.toList

/-- `char::is_whitespace`: the Unicode property `White_Space`. -/
def isWhitespace (c : Char) : Bool :=
  let n := c.toNat
  n = 0x20 ∨ (0x09 ≤ n ∧ n ≤ 0x0d) ∨ n = 0x85 ∨ n = 0xa0 ∨ n = 0x1680 ∨
    (0x2000 ≤ n ∧ n ≤ 0x200a) ∨ n = 0x2028 ∨ n = 0x2029 ∨ n = 0x202f ∨
    n = 0x205f ∨ n = 0x3000

def splitWhitespace (s : List Char) : List (List Char) :=
  (s.splitOnP isWhitespace).filter fun word => word ≠ []

def trim (s : List Char) : List Char :=
  (s.dropWhile isWhitespace).rdropWhile isWhitespace

def toAsciiLowercase (s : List Char) : List Char := s.map Char.toLower

def contains (s pat : List Char) : Bool := decide (pat <:+: s)

/-- The line without its `\n`, and without the `\r` in front of it. -/
def chomp (line : List Char) : List Char :=
  if line.getLast? = some '\n' then
    if line.dropLast.getLast? = some '\r' then line.dropLast.dropLast
    else line.dropLast
  else line

def lines (s : List Char) : List (List Char) :=
  (splitInclusive (fun c => c = '\n') s).map chomp

/-- `str::parse` for an unsigned type whose largest value is `max`: digits,
a `+` in front of them allowed. -/
def parseUnsigned (max : Nat) (s : List Char) : Option Nat :=
  let digits := if s.head? = some '+' then s.tail else s
  if digits = [] ∨ ¬ digits.all Char.isDigit then none
  else
    let value := digits.foldl (fun n c => 10 * n + (c.toNat - 48)) 0
    if value ≤ max then some value else none

/-! ## Searching a text line by line -/

variable {s t line : List Char} {c : Char}

@[simp] theorem contains_iff : contains s t = true ↔ t <:+: s :=
  decide_eq_true_iff

theorem isInfix_of_concat (hc : c ∉ t) (h : t <:+: s ++ [c]) : t <:+: s := by
  rcases List.infix_concat_iff.mp h with h | h
  · rcases List.suffix_concat_iff.mp h with rfl | ⟨u, rfl, -⟩
    · exact List.nil_infix
    · exact absurd (List.mem_append_right u (List.mem_singleton_self c)) hc
  · exact h

theorem chomp_isPrefix (line : List Char) : chomp line <+: line := by
  rw [chomp]
  split
  · split
    · exact (List.dropLast_prefix _).trans (List.dropLast_prefix _)
    · exact List.dropLast_prefix _
  · exact List.prefix_rfl

theorem isInfix_chomp (hn : '\n' ∉ t) (hr : '\r' ∉ t) (h : t <:+: line) :
    t <:+: chomp line := by
  rw [chomp]
  split
  · next hlast =>
      rw [← List.dropLast_append_getLast? _ hlast] at h
      have h := isInfix_of_concat hn h
      split
      · next hlast' =>
          rw [← List.dropLast_append_getLast? _ hlast'] at h
          exact isInfix_of_concat hr h
      · exact h
  · exact h

theorem isInfix_of_mem_lines (h : line ∈ lines s) : line <:+: s := by
  obtain ⟨piece, hpiece, rfl⟩ := List.mem_map.mp h
  have hin := List.infix_of_mem_flatten hpiece
  rw [flatten_splitInclusive] at hin
  exact (chomp_isPrefix piece).isInfix.trans hin

/-- A text without line breaks is found in one of the lines. -/
theorem exists_line (hn : '\n' ∉ t) (hr : '\r' ∉ t) (hne : t ≠ [])
    (h : t <:+: s) : ∃ line ∈ lines s, t <:+: line := by
  obtain ⟨piece, hpiece, hin⟩ := isInfix_splitInclusive
    (p := fun c => c = '\n') (fun c hc => by
      refine decide_eq_false ?_
      rintro rfl
      exact hn hc) hne h
  exact ⟨chomp piece, List.mem_map_of_mem hpiece, isInfix_chomp hn hr hin⟩

end Rust.Str
