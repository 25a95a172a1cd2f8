/-!
# Instructions

The target code is straight-line: an instruction reserves a stack slot, writes one, reads one into
a temporary, combines two values into a temporary, or prints a value. A value or a slot that stands
alone does nothing.

## Main definitions

* `Temp`, `Value`, `Slot`: numbered temporaries, operands of instructions, named stack slots
* `BinOp`: the arithmetic operations, with their mnemonics
* `Instr`: the instructions
* `Instr.text`: an instruction as a line of the module

## Main results

* `BinOp.ofMnemonic?_mnemonic`: a mnemonic names its operation
-/

namespace Abacus

/-- A temporary, known by its number. -/
structure Temp where
  id : Int
  deriving DecidableEq, Repr

/-- The name of a temporary: its number after a percent sign. -/
def Temp.name (t : Temp) : String :=
  "%" ++ toString t.id

/-- What an instruction works on: a constant or a temporary. -/
inductive Value where
  | const (n : Int)
  | temp (t : Temp)
  deriving DecidableEq, Repr

/-- A value as an operand of an instruction's text. -/
def Value.text : Value → String
  | .const n => toString n
  | .temp t => t.name

/-- The stack slot of a source variable. -/
structure Slot where
  name : String
  deriving DecidableEq, Repr

/-- A slot's address: the variable's name after a percent sign. -/
def Slot.text (s : Slot) : String :=
  "%" ++ s.name

/-- The arithmetic operations. -/
inductive BinOp where
  | mul
  | sdiv
  | sub
  | add
  deriving DecidableEq, Repr

namespace BinOp

/-- The mnemonic of an operation. -/
def mnemonic : BinOp → String
  | mul => "mul"
  | sdiv => "sdiv"
  | sub => "sub"
  | add => "add"

/-- The operation that a mnemonic names. -/
def ofMnemonic? : String → Option BinOp
  | "mul" => some mul
  | "sdiv" => some sdiv
  | "sub" => some sub
  | "add" => some add
  | _ => none

@[simp] theorem ofMnemonic?_mnemonic (op : BinOp) : ofMnemonic? op.mnemonic = some op := by
  cases op <;> rfl

end BinOp

/-- The instructions. Those with a `result` define that temporary. -/
inductive Instr where
  /-- Reserve a slot. -/
  | alloca (slot : Slot)
  /-- Write a value into a slot. -/
  | store (value : Value) (slot : Slot)
  /-- Read a slot. -/
  | load (result : Temp) (slot : Slot)
  /-- Combine two values. -/
  | binary (op : BinOp) (result : Temp) (left right : Value)
  /-- Print a value on a line of its own. -/
  | print (result : Temp) (value : Value)
  /-- A value alone, without effect. -/
  | bareValue (value : Value)
  /-- A slot alone, without effect. -/
  | bareSlot (slot : Slot)
  deriving DecidableEq, Repr

namespace Instr

/-- An instruction as a line of the module, without indentation. -/
def text : Instr → String
  | alloca slot => slot.text ++ " = alloca i32"
  | store value slot => "store i32 " ++ value.text ++ ", i32* " ++ slot.text
  | load result slot => result.name ++ " = load i32* " ++ slot.text
  | binary op result left right =>
    result.name ++ " = " ++ op.mnemonic ++ " i32 " ++ left.text ++ ", " ++ right.text
  | print result value =>
    result.name ++ " = call i32 (i8*, ...)* @printf(i8* getelementptr ([4 x i8]* @print.str, "
      ++ "i32 0, i32 0), i32 " ++ value.text ++ ")"
  | bareValue value => value.text
  | bareSlot slot => slot.text

/-- The temporary that an instruction defines. -/
def result? : Instr → Option Temp
  | alloca _ | store _ _ | bareValue _ | bareSlot _ => none
  | load result _ | binary _ result _ _ | print result _ => some result

end Instr

end Abacus
