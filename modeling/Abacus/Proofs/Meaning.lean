import Mathlib.Data.List.Forall2
import Mathlib.Logic.Function.Basic
import Abacus.Proofs.Grammar

/-!
# What code and source mean

Code is executed by a machine with named slots, temporaries and an output, one instruction after
the other. Source is evaluated line by line over the contents of its variables. Both work on words
of 32 bits with the same operations, both may come to an operation that is not defined, and both
say at which line that was and what had been printed by then.

## Main definitions

* `BinOp.apply`: the operations on words
* `Machine`, `Instr.exec`, `Machine.run`: the machine, one instruction, and a log of them
* `Expr.eval`: the value of a tree
* `Sentence`, `Sentence.Reads`, `ReadsProgram`: the lines of a source as they are read
* `Sentence.exec`, `State.run`: direct evaluation

## Main results

* `Machine.run_concat_of_ok`, `Machine.run_of_error`: how a run goes on, and that it stays stopped
* `Instr.exec_temps`: an instruction defines no temporary but its result
-/

namespace Abacus

/-- The numbers that code and source work on. -/
abbrev Word := BitVec 32

/-- **The operations on words.** Products, differences and sums are taken modulo 2³². A quotient is
truncated; there is none for the divisor zero and for the least word divided by minus one. -/
def BinOp.apply : BinOp → Word → Word → Option Word
  | mul, a, b => some (a * b)
  | sdiv, a, b => if b = 0 ∨ a = BitVec.intMin 32 ∧ b = -1 then none else some (a.sdiv b)
  | sub, a, b => some (a - b)
  | add, a, b => some (a + b)

/-- Why a computation stops. -/
inductive Trap where
  /-- An operation is not defined on its arguments. -/
  | undefined
  /-- A slot or a temporary is not there, or a slot is reserved twice. -/
  | stuck
  deriving DecidableEq, Repr

/-- Where a computation stops: the line, the reason, and what was printed before. -/
structure Stop where
  line : Int
  trap : Trap
  output : List Word
  deriving DecidableEq, Repr

/-! ## Executing code -/

/-- A machine: the contents of the slots that are reserved, the values of the temporaries that are
defined, and what was printed. -/
structure Machine where
  slots : String → Option Word := fun _ => none
  temps : Temp → Option Word := fun _ => none
  output : List Word := []

namespace Machine

/-- The word of a value. -/
def word? (m : Machine) : Value → Option Word
  | .const n => some (BitVec.ofInt 32 n)
  | .temp t => m.temps t

/-- The machine after a temporary is defined. -/
def define (m : Machine) (t : Temp) (v : Word) : Machine :=
  { m with temps := Function.update m.temps t (some v) }

/-- The machine after a slot is written. -/
def write (m : Machine) (name : String) (v : Word) : Machine :=
  { m with slots := Function.update m.slots name (some v) }

/-- The machine after a word is printed. -/
def print (m : Machine) (v : Word) : Machine :=
  { m with output := m.output ++ [v] }

section Fields

variable (m : Machine) (t : Temp) (name : String) (v : Word)

@[simp] theorem define_slots : (m.define t v).slots = m.slots := rfl

@[simp] theorem define_output : (m.define t v).output = m.output := rfl

@[simp] theorem define_temps_self : (m.define t v).temps t = some v := by
  simp [define]

@[simp] theorem write_slots_self : (m.write name v).slots name = some v := by
  simp [write]

@[simp] theorem write_output : (m.write name v).output = m.output := rfl

@[simp] theorem print_slots : (m.print v).slots = m.slots := rfl

@[simp] theorem print_output : (m.print v).output = m.output ++ [v] := rfl

end Fields

theorem write_slots_of_ne (m : Machine) {name x : String} (v : Word) (h : x ≠ name) :
    (m.write name v).slots x = m.slots x :=
  Function.update_of_ne h _ _

end Machine

/-- **One instruction.** A new slot holds what `garbage` says. What a print returns is never used
and gets no value. -/
def Instr.exec (garbage : String → Word) (m : Machine) : Instr → Except Trap Machine
  | alloca slot =>
    match m.slots slot.name with
    | none => .ok (m.write slot.name (garbage slot.name))
    | some _ => .error .stuck
  | store value slot =>
    match m.word? value, m.slots slot.name with
    | some v, some _ => .ok (m.write slot.name v)
    | _, _ => .error .stuck
  | load result slot =>
    match m.slots slot.name with
    | some v => .ok (m.define result v)
    | none => .error .stuck
  | binary op result left right =>
    match m.word? left, m.word? right with
    | some a, some b =>
      match op.apply a b with
      | some v => .ok (m.define result v)
      | none => .error .undefined
    | _, _ => .error .stuck
  | print _ value =>
    match m.word? value with
    | some v => .ok (m.print v)
    | none => .error .stuck
  | bareValue _ | bareSlot _ => .ok m

/-- An instruction gives no value to a temporary other than its result. -/
theorem Instr.exec_temps {garbage : String → Word} {m m' : Machine} {instr : Instr} {t : Temp}
    (h : instr.exec garbage m = .ok m') (ht : instr.result? ≠ some t) : m'.temps t = m.temps t := by
  have hdefine : ∀ r v, some r ≠ some t → (m.define r v).temps t = m.temps t := fun r v hr =>
    Function.update_of_ne (fun h => hr (by rw [h])) _ _
  cases instr with
  | alloca slot | store value slot | print result value =>
    simp only [exec] at h
    split at h <;> cases h
    rfl
  | bareValue value | bareSlot slot =>
    cases h
    rfl
  | load result slot =>
    simp only [exec] at h
    split at h <;> cases h
    exact hdefine _ _ ht
  | binary op result left right =>
    simp only [exec] at h
    split at h
    · split at h <;> cases h
      exact hdefine _ _ ht
    · cases h

namespace Machine

/-- One logged instruction. -/
def step (garbage : String → Word) (m : Machine) (entry : Entry) : Except Stop Machine :=
  match entry.instr.exec garbage m with
  | .ok m' => .ok m'
  | .error trap => .error ⟨entry.line, trap, m.output⟩

/-- **The instructions of a log, in order.** -/
def run (garbage : String → Word) (log : List Entry) (m : Machine) : Except Stop Machine :=
  log.foldlM (step garbage) m

section Run

variable {garbage : String → Word} {log log' : List Entry} {m m' : Machine}

/-- What one logged instruction does when it is not stopped. -/
theorem step_eq_ok_iff {entry : Entry} :
    step garbage m entry = .ok m' ↔ entry.instr.exec garbage m = .ok m' := by
  unfold step
  cases entry.instr.exec garbage m <;> simp

theorem run_append : run garbage (log ++ log') m = run garbage log m >>= run garbage log' := by
  rw [run, List.foldlM_append]
  rfl

/-- A run that was not stopped goes on with the next instruction. -/
theorem run_concat_of_ok {entry : Entry} (h : run garbage log m = .ok m') :
    run garbage (log ++ [entry]) m = step garbage m' entry := by
  rw [run_append, h]
  show run garbage [entry] m' = _
  simp [run]

theorem run_concat_eq_ok_iff {entry : Entry} :
    run garbage (log ++ [entry]) m = .ok m' ↔
      ∃ m₁, run garbage log m = .ok m₁ ∧ entry.instr.exec garbage m₁ = .ok m' := by
  cases h : run garbage log m with
  | ok m₁ => simp [run_concat_of_ok h, step_eq_ok_iff]
  | error stop =>
    rw [run_append, h]
    simp [bind, Except.bind]

/-- A run that was stopped stays so. -/
theorem run_of_error {stop : Stop} (h : run garbage log m = .error stop) (hle : log <+: log') :
    run garbage log' m = .error stop := by
  obtain ⟨more, rfl⟩ := hle
  rw [run_append, h]
  rfl

end Run

end Machine

/-! ## Evaluating source -/

/-- **The value of a tree** where `contents` gives what the variables hold. -/
def Expr.eval (contents : String → Word) : Expr → Option Word
  | operand text =>
    if Literal.isDigits text.toList then some (BitVec.ofNat 32 (Literal.value text.toList))
    else some (contents text)
  | binary op left right => do
    let a ← left.eval contents
    let b ← right.eval contents
    op.apply a b

/-- A line of a source. -/
inductive Sentence where
  | assign (target : String) (value : Expr)
  | print (value : Expr)
  deriving DecidableEq, Repr

/-- **How a line without blanks is read.** -/
inductive Sentence.Reads : List Char → Sentence → Prop where
  | assign {x : String} {r : List Char} {e : Expr} (hx : isName x = true)
    (h : Abacus.Reads (fun _ => True) .sum r e) : Reads (x.toList ++ '=' :: r) (assign x e)
  | print {cs : List Char} {e : Expr} (h : Abacus.Reads (fun _ => True) .sum cs e) :
    Reads cs (print e)

/-- How a source is read, line by line. -/
def ReadsProgram (source : String) (program : List Sentence) : Prop :=
  List.Forall₂ Sentence.Reads (strippedLines source) program

/-- What direct evaluation has come to: the contents of the variables and what was printed. -/
structure State where
  contents : String → Word
  output : List Word

/-- **One line.** The target of an assignment changes after its value is known. -/
def Sentence.exec (st : State) : Sentence → Option State
  | assign x e => (e.eval st.contents).map fun v =>
    { st with contents := Function.update st.contents x v }
  | print e => (e.eval st.contents).map fun v => { st with output := st.output ++ [v] }

/-- **All lines, in order**, of which the first has the number `line`. -/
def State.run (line : Int) (st : State) : List Sentence → Except Stop State
  | [] => .ok st
  | p :: program =>
    match p.exec st with
    | some st' => run (line + 1) st' program
    | none => .error ⟨line, .undefined, st.output⟩

/-- Direct evaluation stops only where something is not defined. -/
theorem State.trap_of_run {line : Int} {st : State} {program : List Sentence} {stop : Stop}
    (h : run line st program = .error stop) : stop.trap = .undefined := by
  induction program generalizing line st with
  | nil => cases h
  | cons p program ih =>
    rw [run] at h
    split at h
    · exact ih h
    · cases h
      rfl

/-- What a line assigns to. -/
def Sentence.target? : Sentence → Option String
  | assign x _ => some x
  | print _ => none

/-- What the lines of a program assign to, in order. -/
def Sentence.targets (program : List Sentence) : List String :=
  program.filterMap target?

theorem Sentence.mem_targets_cons {p : Sentence} {program : List Sentence} {x : String} :
    x ∈ targets (p :: program) ↔ p.target? = some x ∨ x ∈ targets program := by
  simp [targets, List.mem_filterMap]

end Abacus
