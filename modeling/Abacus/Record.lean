import Abacus.Instr

/-!
# Log records

A record is what a command tells about its work while it is at it: one line, with a level that says
how important it is.

## Main definitions

* `Level`, `Record`: levels and records
* `Record.text`: a record as a line
* `Record.emission`: the record of an instruction that is emitted for a line
-/

namespace Abacus

/-- How important a record is. -/
inductive Level where
  | info
  | debug
  deriving DecidableEq, Repr

namespace Level

/-- The word for a level. -/
def word : Level → String
  | info => "INFO"
  | debug => "DEBUG"

/-- The colour code of a level. -/
def colour : Level → String
  | info => "32"
  | debug => "37"

end Level

/-- An entry of the command's log. -/
structure Record where
  level : Level
  message : String
  deriving DecidableEq, Repr

namespace Record

/-- The code that ends a colour. -/
def resetCode : String := "\x1b[0m"

/-- A record as a coloured line, its level padded to seven characters. The colour is ended once: a
message that ends it by itself gets no second code. Where in the program's own text the record was
made, which a logger may show in brackets between the level and the message, is left out. -/
def text (r : Record) : String :=
  let line := "\x1b[" ++ r.level.colour ++ "m" ++
    String.ofList (r.level.word.toList.rightpad 7 ' ') ++ " " ++ r.message
  (if resetCode.toList.isSuffixOf line.toList then line else line ++ resetCode) ++ "\n"

/-- The record of an instruction that is emitted for a line. -/
def emission (line : Int) (instr : Instr) : Record :=
  ⟨.debug, "line " ++ toString line ++ ": " ++ instr.text⟩

end Record

end Abacus
