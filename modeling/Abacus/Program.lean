import Abacus.Statement
import Abacus.Text.Line

/-!
# Programs

A program is compiled line by line in one session. The first line that fails ends the
compilation; what the session held at that point is kept.

## Main definitions

* `compileLine`: read and lower one line
* `compileLines`, `compile`: all lines, from a session and from a fresh one
-/

namespace Abacus

/-- Read the statement on the current line. -/
def readStatement (text : String) : Lowering Statement := do
  match Statement.parse text (← get).line with
  | .ok stmt => return stmt
  | .error d => throw (.rejected d)

/-- Go to the next line, read it and lower it. -/
def compileLine (text : String) : Lowering Unit := do
  Session.nextLine
  (← readStatement text).lower

/-- Compile lines in order, up to the first that fails. -/
def compileLines : List String → Lowering Unit
  | [] => return
  | text :: rest => do
    compileLine text
    compileLines rest

/-- **Compile a source** in a fresh session. -/
def compile (source : String) : EStateM.Result Fault Session Unit :=
  compileLines (Text.lines source) {}

end Abacus
