import Abacus.Fragment.Lower
import Abacus.Token.Lexer

/-!
# Statements

A line is an assignment, which has one equals sign after a name, or an expression to print.

## Main definitions

* `Statement`: assignments and prints
* `isName`: the texts that name a variable
* `Statement.parse`: the statement that a line spells
* `Statement.lower`: its instructions
-/

namespace Abacus

/-- A statement, with the tokens of its expression. -/
inductive Statement where
  /-- Assign the value of an expression to a variable. -/
  | assign (target : String) (value : List Token)
  /-- Print the value of an expression. -/
  | print (value : List Token)
  deriving DecidableEq, Repr

/-- An ASCII letter or an underscore. -/
def isNameStart (c : Char) : Bool :=
  c.isAlpha || c = '_'

/-- A name: an ASCII letter or an underscore, then ASCII letters, digits and underscores. -/
def isName (text : String) : Bool :=
  match text.toList with
  | [] => false
  | c :: cs => isNameStart c && cs.all fun d => isNameStart d || d.isDigit

namespace Statement

/-- **The statement that a line spells.** Without an equals sign it is a print. With more than one
it is no assignment; with one, both sides must have tokens, and the left side must be one operand
that is a name. -/
def parse (text : String) (line : Int) : Except Diagnostic Statement :=
  let ts := tokens text
  let invalid := ⟨line, .invalidAssignment (String.ofList (Text.dropBlanks text.toList))⟩
  match ts.takeWhile (·.kind ≠ .equals), ts.dropWhile (·.kind ≠ .equals) with
  | _, [] => .ok (.print ts)
  | target, _ :: value =>
    if value.any (·.kind = .equals) then .error invalid
    else if target.isEmpty || value.isEmpty then .error ⟨line, .missingOperand "="⟩
    else
      match target with
      | [⟨.operand, name⟩] => if isName name then .ok (.assign name value) else .error invalid
      | _ => .error invalid

/-- **The instructions of a statement.** The slot of an assigned variable is declared before the
expression is lowered. -/
def lower : Statement → Lowering Unit
  | assign target value => do
    let slot ← Session.declareSlot target
    let v ← (← (Fragment.ofTokens value).lower).fetch
    Session.emit (.store v slot)
  | print value => do
    let v ← (← (Fragment.ofTokens value).lower).fetch
    let result ← Session.freshTemp
    Session.emit (.print result v)

end Statement

end Abacus
