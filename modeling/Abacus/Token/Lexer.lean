import Abacus.Token

/-!
# Reading tokens

`lex` reads the tokens of a raw text together with their positions; blanks between tokens are
skipped. `tokens` drops the blanks first, so that two operands with only blanks between them are
one.

## Main definitions

* `Position`, `Lexeme`: a place in a text, and a token found there
* `scan`: the lexemes of a text that starts at a given position
* `lex`, `tokens`: the two readings
-/

namespace Abacus

/-- A place in a text. Offsets count characters from 0, lines and columns from 1, and only a line
feed starts a line. -/
structure Position where
  offset : Nat := 0
  line : Nat := 1
  column : Nat := 1
  deriving DecidableEq, Repr

namespace Position

/-- The place after one character. -/
def next (p : Position) (c : Char) : Position :=
  if c = '\n' then ⟨p.offset + 1, p.line + 1, 1⟩ else ⟨p.offset + 1, p.line, p.column + 1⟩

/-- The place after a text. -/
def after (p : Position) (cs : List Char) : Position :=
  cs.foldl next p

@[simp] theorem after_nil (p : Position) : p.after [] = p := rfl

@[simp] theorem after_cons (p : Position) (c : Char) (cs : List Char) :
    p.after (c :: cs) = (p.next c).after cs := rfl

@[simp] theorem after_append (p : Position) (cs ds : List Char) :
    p.after (cs ++ ds) = (p.after cs).after ds :=
  List.foldl_append ..

theorem offset_next (p : Position) (c : Char) : (p.next c).offset = p.offset + 1 := by
  unfold next; split <;> rfl

end Position

/-- A token and the place of its first character. -/
structure Lexeme where
  token : Token
  start : Position
  deriving DecidableEq, Repr

/-- **The lexemes of a text that starts at `p`.** A blank is skipped, an operand character begins
a maximal run of its kind, and every other character is a token by itself. -/
def scan (p : Position) : List Char → List Lexeme
  | [] => []
  | c :: cs =>
    if Text.isBlank c then scan (p.next c) cs
    else if Kind.ofChar c = .operand then
      let word := c :: cs.takeWhile isOperandChar
      ⟨⟨.operand, String.ofList word⟩, p⟩ :: scan (p.after word) (cs.dropWhile isOperandChar)
    else ⟨⟨Kind.ofChar c, String.singleton c⟩, p⟩ :: scan (p.next c) cs
termination_by cs => cs.length
decreasing_by
  · simp
  · exact Nat.lt_succ_of_le (List.dropWhile_sublist _).length_le
  · simp

@[simp] theorem scan_nil (p : Position) : scan p [] = [] := by
  rw [scan]

/-- The lexemes of a raw text. -/
def lex (text : String) : List Lexeme :=
  scan {} text.toList

/-- **The tokens of a line**, read after its blanks are dropped. -/
def tokens (text : String) : List Token :=
  (scan {} (Text.dropBlanks text.toList)).map (·.token)

end Abacus
