import Abacus.Diagnostic

/-!
# Literals

A text made only of decimal digits is a literal. It denotes a constant when its value is at most
the greatest 32-bit signed integer; a literal of more than `Fault.maxDigits` characters is not
read at all.

## Main definitions

* `Literal.isDigits`: the texts made only of digits
* `Literal.value`: the number that a digit text denotes
* `Literal.read`: the constant that a text denotes, if any
-/

namespace Abacus.Literal

/-- The greatest constant, 2³¹ − 1. -/
def maxValue : Nat := 2147483647

/-- A text of at least one character, all of them decimal digits. -/
def isDigits (cs : List Char) : Bool :=
  !cs.isEmpty && cs.all Char.isDigit

/-- The number that decimal digits denote, most significant first. -/
def value (cs : List Char) : Nat :=
  cs.foldl (fun n c => 10 * n + (c.toNat - '0'.toNat)) 0

@[simp] theorem value_nil : value [] = 0 := rfl

@[simp] theorem value_concat (cs : List Char) (c : Char) :
    value (cs ++ [c]) = 10 * value cs + (c.toNat - '0'.toNat) := by
  simp [value]

/-- **The constant that a text denotes.** None if the text is not a literal or its value is too
great; a literal that is too long is a fault. -/
def read (text : String) : Except Fault (Option Nat) :=
  let cs := text.toList
  if !isDigits cs then .ok none
  else if cs.length > Fault.maxDigits then .error (.literalTooLong cs.length)
  else if value cs ≤ maxValue then .ok (some (value cs))
  else .ok none

end Abacus.Literal
