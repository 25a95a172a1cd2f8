import Abacus.Fragment

/-!
# Diagnostics and faults

A rejected program is answered by a diagnostic: a line number and a cause. A fault is a diagnostic
or one of the two failures that are not about a line: a literal with too many digits, and an
ill-formed request for an instruction or a diagnostic.

## Main definitions

* `Side`, `Cause`, `Diagnostic`: why a program is rejected, and where
* `Cause.exitCode`, `Cause.description`, `Diagnostic.message`: how a diagnostic is reported
* `Fault`: everything that stops the lowering of a line
-/

namespace Abacus

/-- The two sides of a pair of parentheses. -/
inductive Side where
  | left
  | right
  deriving DecidableEq, Repr

namespace Side

/-- The word for a side. -/
def word : Side → String
  | left => "left"
  | right => "right"

/-- The side that a word names. -/
def ofWord? : String → Option Side
  | "left" => some left
  | "right" => some right
  | _ => none

@[simp] theorem ofWord?_word (s : Side) : ofWord? s.word = some s := by
  cases s <;> rfl

end Side

/-- Why a line is rejected. -/
inductive Cause where
  /-- No more is known. -/
  | unspecified
  /-- An operand is neither a literal nor a declared variable. -/
  | undefinedVariable (name : String)
  /-- A parenthesis has no partner; `side` is the missing one. -/
  | missingParenthesis (side : Side)
  /-- An operator lacks a neighbour, or, without operator, the expression is empty. -/
  | missingOperand (operator? : Option String)
  /-- Two operands stand side by side; `near` is the second one. -/
  | missingOperator (near : Item)
  /-- The line has several equals signs, or its left side is not a name. -/
  | invalidAssignment (line : String)
  deriving DecidableEq, Repr

namespace Cause

/-- The exit status of a compilation that fails for this cause. -/
def exitCode : Cause → Nat
  | unspecified => 1
  | undefinedVariable _ => 1
  | missingParenthesis _ => 2
  | missingOperand _ => 3
  | missingOperator _ => 4
  | invalidAssignment _ => 5

/-- The text that a cause is about. -/
def detail? : Cause → Option String
  | unspecified => none
  | undefinedVariable name => some name
  | missingParenthesis side => some side.word
  | missingOperand operator? => operator?
  | missingOperator near => some near.text
  | invalidAssignment line => some line

/-- A cause in words. -/
def description : Cause → String
  | unspecified => "compilation failed"
  | undefinedVariable name => "undefined variable " ++ name
  | missingParenthesis side => side.word ++ " parenthesis is missing"
  | missingOperand (some operator) => "missing variable near " ++ operator
  | missingOperand none => "missing variable in empty expression"
  | missingOperator near => "missing operator near " ++ near.text
  | invalidAssignment line => "invalid assignment " ++ line

end Cause

/-- A cause and the number of the line that it was met on. -/
structure Diagnostic where
  line : Int
  cause : Cause
  deriving DecidableEq, Repr

/-- The line that reports a diagnostic. -/
def Diagnostic.message (d : Diagnostic) : String :=
  "Error: Line " ++ toString d.line ++ ": " ++ d.cause.description ++ "."

/-- What stops the lowering of a line. -/
inductive Fault where
  /-- The line is rejected. -/
  | rejected (d : Diagnostic)
  /-- A literal has more digits than are ever read. -/
  | literalTooLong (digits : Nat)
  /-- An instruction was asked for by an unknown mnemonic, or a diagnostic by an unknown side. -/
  | illFormed
  deriving DecidableEq, Repr

/-- The most characters that a literal may have, leading zeros included. -/
def Fault.maxDigits : Nat := 4300

/-- The line that reports a fault; an ill-formed request has no words. -/
def Fault.message : Fault → String
  | rejected d => d.message
  | literalTooLong digits =>
    "Exceeds the limit (" ++ toString maxDigits ++ " digits) for integer string conversion: " ++
      "value has " ++ toString digits ++ " digits; use sys.set_int_max_str_digits() to " ++
      "increase the limit"
  | illFormed => ""

end Abacus
