import Abacus.Text.Blank

/-!
# Lines of a source

A source is cut at its line breaks. A carriage return followed by a line feed is one break. A
source that ends in a break has no empty last line, and the empty source has no line at all.

## Main definitions

* `isBreak`: the characters that break a line
* `pieces`: the texts between the breaks
* `lines`: the lines of a source
* `unifyBreaks`: every carriage return, alone or before a line feed, as one line feed
-/

namespace Abacus.Text

/-- The characters that break a line: line feed, carriage return, next line, line separator and
paragraph separator. -/
def isBreak (c : Char) : Bool :=
  c = '\n' || c = '\r' || c = '\u0085' || c = '\u2028' || c = '\u2029'

/-- The texts between the line breaks, one more than there are breaks. -/
def pieces : List Char → List (List Char)
  | [] => [[]]
  | '\r' :: '\n' :: cs => [] :: pieces cs
  | c :: cs => if isBreak c then [] :: pieces cs else (pieces cs).modifyHead (c :: ·)

/-- **The lines of a source**: its pieces, without the last one if that is empty. -/
def lines (source : String) : List String :=
  let all := pieces source.toList
  (if all.getLast? = some [] then all.dropLast else all).map String.ofList

/-- A carriage return becomes a line feed, together with the line feed after it if there is
one. -/
def unifyBreaks : List Char → List Char
  | [] => []
  | '\r' :: '\n' :: cs => '\n' :: unifyBreaks cs
  | c :: cs => (if c = '\r' then '\n' else c) :: unifyBreaks cs

/-- Every line break is blank, so no token reaches across lines. -/
theorem isBlank_of_isBreak {c : Char} (h : isBreak c = true) : isBlank c = true := by
  simp only [isBreak, Bool.or_eq_true, decide_eq_true_eq] at h
  rcases h with (((rfl | rfl) | rfl) | rfl) | rfl <;> decide

theorem pieces_ne_nil (cs : List Char) : pieces cs ≠ [] := by
  fun_induction pieces cs <;> simp_all

end Abacus.Text
