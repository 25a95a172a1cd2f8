import Abacus.Diagnostic
import Abacus.Record
import Abacus.Scope

/-!
# Sessions

A session is what lowering works on: the current line number, the declared names, the next
temporary's number, the log of the emitted instructions, and the records that were made of them. A
step that fails keeps what it did to the session before it failed.

## Main definitions

* `Entry`, `Session`: a logged instruction, and the state of a compilation
* `Lowering`: steps on a session that may fail
* `Session.emit`, `Session.freshTemp`, `Session.declare`, `Session.declareSlot`: the basic steps
* `Session.reject`: fail with a diagnostic at the current line
-/

namespace Abacus

/-- An emitted instruction and the number of the line it was emitted for. -/
structure Entry where
  line : Int
  instr : Instr
  deriving DecidableEq, Repr

/-- The record of an entry. -/
def Entry.record (e : Entry) : Record :=
  .emission e.line e.instr

/-- The state of a compilation. -/
structure Session where
  /-- The number of the current line. -/
  line : Int := 0
  /-- The declared names. -/
  scope : Scope := {}
  /-- The number of the next temporary. -/
  nextTemp : Int := 1
  /-- The emitted instructions, oldest first. -/
  log : List Entry := []
  /-- The records of the emitted instructions, oldest first. -/
  trace : List Record := []
  deriving DecidableEq, Repr

/-- The emitted instructions without their lines. -/
def Session.code (s : Session) : List Instr :=
  s.log.map (·.instr)

/-- A step on a session. A failing step leaves the session as it was when it failed. -/
abbrev Lowering := EStateM Fault Session

namespace Session

/-- Fail with a diagnostic at the current line. -/
def reject {α : Type} (cause : Cause) : Lowering α := do
  throw (.rejected ⟨(← get).line, cause⟩)

/-- Log an instruction for the current line, and make a record of it. -/
def emit (instr : Instr) : Lowering Unit :=
  modify fun s =>
    { s with
      log := s.log ++ [⟨s.line, instr⟩]
      trace := s.trace ++ [.emission s.line instr] }

/-- Declare a name, and say whether it is new. -/
def declare (name : String) : Lowering Bool := do
  let s ← get
  set { s with scope := s.scope.insert name }
  return name ∉ s.scope

/-- Take the next temporary; its name is declared. -/
def freshTemp : Lowering Temp := do
  let t : Temp := ⟨(← get).nextTemp⟩
  modify fun s => { s with nextTemp := s.nextTemp + 1, scope := s.scope.insert t.name }
  return t

/-- The slot of a variable, reserved when the name is first declared. -/
def declareSlot (name : String) : Lowering Slot := do
  if ← declare name then emit (.alloca ⟨name⟩)
  return ⟨name⟩

/-- Go to the next line. -/
def nextLine : Lowering Unit :=
  modify fun s => { s with line := s.line + 1 }

/-! ## One equation per step -/

section Steps

variable (s : Session)

@[simp] theorem reject_run {α : Type} (cause : Cause) :
    (reject cause : Lowering α) s = .error (.rejected ⟨s.line, cause⟩) s := rfl

@[simp] theorem emit_run (instr : Instr) :
    emit instr s = .ok ()
      { s with
        log := s.log ++ [⟨s.line, instr⟩]
        trace := s.trace ++ [.emission s.line instr] } := rfl

@[simp] theorem declare_run (name : String) :
    declare name s = .ok (decide (name ∉ s.scope)) { s with scope := s.scope.insert name } := rfl

@[simp] theorem freshTemp_run :
    freshTemp s = .ok ⟨s.nextTemp⟩
      { s with nextTemp := s.nextTemp + 1, scope := s.scope.insert (Temp.name ⟨s.nextTemp⟩) } := rfl

@[simp] theorem nextLine_run : nextLine s = .ok () { s with line := s.line + 1 } := rfl

end Steps

end Session

end Abacus
