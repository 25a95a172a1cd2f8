import Abacus.Text.Blank

/-!
# Tokens

A token is a parenthesis, an operator sign, an equals sign, or an operand: a maximal run of other
characters that are not blank.

## Main definitions

* `Kind`, `Token`: the kinds of tokens, and a token with its text
* `Kind.ofChar`: the kind of token that a character belongs to
* `isOperandChar`: the characters of operands
-/

namespace Abacus

/-- The kinds of tokens. -/
inductive Kind where
  | leftParen
  | rightParen
  | plus
  | minus
  | star
  | slash
  | equals
  | operand
  deriving DecidableEq, Repr

namespace Kind

/-- The kind of token that a character which is not blank belongs to. -/
def ofChar : Char → Kind
  | '(' => leftParen
  | ')' => rightParen
  | '+' => plus
  | '-' => minus
  | '*' => star
  | '/' => slash
  | '=' => equals
  | _ => operand

/-- A parenthesis, of either side. -/
def isParen : Kind → Bool
  | leftParen | rightParen => true
  | _ => false

/-- One of the four arithmetic signs. -/
def isOperator : Kind → Bool
  | plus | minus | star | slash => true
  | _ => false

end Kind

/-- A token: its kind and its text. -/
structure Token where
  kind : Kind
  text : String
  deriving DecidableEq, Repr

/-- The characters an operand is made of. -/
def isOperandChar (c : Char) : Bool :=
  !Text.isBlank c && Kind.ofChar c = .operand

end Abacus
