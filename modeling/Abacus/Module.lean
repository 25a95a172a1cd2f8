import Abacus.Instr

/-!
# Modules

The text of a module: a header with the module's name, the declarations that printing needs, and
one function with the instructions.

## Main definitions

* `Module`: a name and instructions
* `Module.lines`, `Module.text`: the module as text
-/

namespace Abacus

/-- A module: its name and the instructions of its one function. -/
structure Module where
  id : String
  code : List Instr
  deriving DecidableEq, Repr

namespace Module

/-- The lines before the instructions. -/
def header (id : String) : List String :=
  ["; ModuleID = '" ++ id ++ "'",
    "declare i32 @printf(i8*, ...)",
    "@print.str = constant [4 x i8] c\"%d\\0A\\00\"",
    "define i32 @main() \x7b"]

/-- The lines after the instructions. -/
def footer : List String :=
  ["  ret i32 0", "\x7d"]

/-- The lines of a module. -/
def lines (m : Module) : List String :=
  header m.id ++ m.code.map ("  " ++ ·.text) ++ footer

/-- **The text of a module**: its lines, each ended by a line feed. -/
def text (m : Module) : String :=
  String.join (m.lines.map (· ++ "\n"))

end Module

end Abacus
