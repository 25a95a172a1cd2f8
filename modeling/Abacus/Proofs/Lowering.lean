import Abacus.Program

/-!
# The steps of a lowering

What the basic steps do to a session, as equations, and the two ways in which a composed step is
taken apart: by the sessions between its parts when it succeeds, and by an assertion that holds
wherever it ends. Later modules use only these statements and never open a step.

## Main definitions

* `Lowering.Ensures`: an assertion about the end of a step, whether it succeeds or fails
* `Session.append`, `Session.define`: a session after an instruction without and with a result
* `Literal.Resolves`: the texts that have a value where some variables are declared
* `Fragment.value`: the value of a whole expression

## Main results

* `Lowering.bind_eq_ok_iff`: a sequence succeeds through a session between its parts
* `Lowering.Ensures.bind`: assertions compose
* `Item.fetch_eq_ok_iff`, `Item.exists_fetch_iff`: what a fetch does, and when it succeeds
* `Fragment.combine_eq_ok_iff`: what a combination does
* `Session.declareSlot_of_mem`, `Session.declareSlot_of_notMem`, `readStatement_run`: the steps of a
  statement
-/

namespace Abacus

/-! ## Sequences of steps -/

namespace Lowering

variable {α β : Type} {x : Lowering α} {f : α → Lowering β} {s s₁ s' : Session}

@[simp] theorem pure_run (a : α) (s : Session) : (pure a : Lowering α) s = .ok a s := rfl

@[simp] theorem throw_run (fault : Fault) (s : Session) :
    (throw fault : Lowering α) s = .error fault s := rfl

theorem bind_of_ok {a : α} (h : x s = .ok a s₁) : (x >>= f) s = f a s₁ := by
  show EStateM.bind x f s = _
  simp only [EStateM.bind, h]

theorem bind_of_error {fault : Fault} (h : x s = .error fault s₁) :
    (x >>= f) s = .error fault s₁ := by
  show EStateM.bind x f s = _
  simp only [EStateM.bind, h]

/-- A sequence depends on its first part only through where that ends. -/
theorem bind_run_congr {y : Lowering α} {s₂ : Session} (h : x s = y s₂) :
    (x >>= f) s = (y >>= f) s₂ := by
  show EStateM.bind x f s = EStateM.bind y f s₂
  simp only [EStateM.bind, h]

/-- A sequence succeeds when both parts do, one after the other. -/
theorem bind_eq_ok_iff {b : β} :
    (x >>= f) s = .ok b s' ↔ ∃ a s₁, x s = .ok a s₁ ∧ f a s₁ = .ok b s' := by
  cases hx : x s with
  | ok a s₁ =>
    rw [bind_of_ok hx]
    constructor
    · intro h
      exact ⟨a, s₁, rfl, h⟩
    · rintro ⟨a', s₁', h, hf⟩
      cases h
      exact hf
  | error fault s₁ =>
    rw [bind_of_error hx]
    simp

/-- How a run on a given source ends can be evaluated. -/
instance decidableExistsOk (r : EStateM.Result Fault Session Unit) :
    Decidable (∃ s, r = .ok () s) :=
  match r with
  | .ok () s => isTrue ⟨s, rfl⟩
  | .error _ _ => isFalse nofun

instance decidableExistsOkAnd (r : EStateM.Result Fault Session Unit) (p : Session → Prop)
    [DecidablePred p] : Decidable (∃ s, r = .ok () s ∧ p s) :=
  match r with
  | .ok () s => decidable_of_iff (p s) (by simp)
  | .error _ _ => isFalse nofun

instance decidableExistsError (r : EStateM.Result Fault Session Unit) (fault : Fault) :
    Decidable (∃ s, r = .error fault s) :=
  match r with
  | .ok () _ => isFalse nofun
  | .error fault' s => decidable_of_iff (fault' = fault) ⟨fun h => ⟨s, h ▸ rfl⟩, fun ⟨_, h⟩ => by
      injection h⟩

/-- The step `x` started in `s` ends where `ok` holds of its result and the session, or fails where
`fail` holds of the fault and the session. -/
def Ensures (s : Session) (x : Lowering α) (ok : α → Session → Prop)
    (fail : Fault → Session → Prop) : Prop :=
  match x s with
  | .ok a s' => ok a s'
  | .error fault s' => fail fault s'

namespace Ensures

variable {ok ok' : α → Session → Prop} {fail fail' : Fault → Session → Prop}

theorem of_ok {a : α} (h : x s = .ok a s') (ha : ok a s') : Ensures s x ok fail := by
  simpa only [Ensures, h] using ha

theorem of_error {fault : Fault} (h : x s = .error fault s') (hf : fail fault s') :
    Ensures s x ok fail := by
  simpa only [Ensures, h] using hf

theorem ok_of_eq {a : α} (hx : Ensures s x ok fail) (h : x s = .ok a s') : ok a s' := by
  simpa only [Ensures, h] using hx

theorem fail_of_eq {fault : Fault} (hx : Ensures s x ok fail) (h : x s = .error fault s') :
    fail fault s' := by
  simpa only [Ensures, h] using hx

theorem mono (hx : Ensures s x ok fail) (hok : ∀ a s', ok a s' → ok' a s')
    (hfail : ∀ fault s', fail fault s' → fail' fault s') : Ensures s x ok' fail' := by
  cases h : x s with
  | ok a s' => exact of_ok h (hok a s' (hx.ok_of_eq h))
  | error fault s' => exact of_error h (hfail fault s' (hx.fail_of_eq h))

/-- An assertion depends only on where the step ends. -/
theorem of_run_eq {y : Lowering α} (h : x s = y s₁) (hy : Ensures s₁ y ok fail) :
    Ensures s x ok fail := by
  simpa only [Ensures, h] using hy

/-- Two assertions about a step hold together. -/
theorem and (hx : Ensures s x ok fail) (hx' : Ensures s x ok' fail') :
    Ensures s x (fun a s' => ok a s' ∧ ok' a s')
      fun fault s' => fail fault s' ∧ fail' fault s' := by
  cases h : x s with
  | ok a s' => exact of_ok h ⟨hx.ok_of_eq h, hx'.ok_of_eq h⟩
  | error fault s' => exact of_error h ⟨hx.fail_of_eq h, hx'.fail_of_eq h⟩

/-- **Assertions compose**: what the first part ensures is what the second one starts from. -/
theorem bind {ok : α → Session → Prop} {ok' : β → Session → Prop}
    (hx : Ensures s x ok fail) (hf : ∀ a s₁, ok a s₁ → Ensures s₁ (f a) ok' fail) :
    Ensures s (x >>= f) ok' fail := by
  cases h : x s with
  | ok a s₁ =>
    have hfa := hf a s₁ (hx.ok_of_eq h)
    simpa only [Ensures, Lowering.bind_of_ok h] using hfa
  | error fault s₁ => exact of_error (bind_of_error h) (hx.fail_of_eq h)

/-- A first part whose end is known leaves the second one to look at. -/
theorem bind_of_ok {ok : β → Session → Prop} {a : α} (h : x s = .ok a s₁)
    (hf : Ensures s₁ (f a) ok fail) : Ensures s (x >>= f) ok fail := by
  simpa only [Ensures, Lowering.bind_of_ok h] using hf

/-- Two continuations that agree on what the first part can return give the same sequence. -/
theorem bind_congr {g : α → Lowering β} {ok : α → Session → Prop} (hx : Ensures s x ok fail)
    (hfg : ∀ a s₁, ok a s₁ → f a s₁ = g a s₁) : (x >>= f) s = (x >>= g) s := by
  cases h : x s with
  | ok a s₁ => rw [Lowering.bind_of_ok h, Lowering.bind_of_ok h, hfg a s₁ (hx.ok_of_eq h)]
  | error fault s₁ => rw [bind_of_error h, bind_of_error h]

end Ensures

end Lowering

/-! ## Sessions after an instruction -/

namespace Session

/-- The session after an instruction without a result. -/
def append (s : Session) (instr : Instr) : Session :=
  { s with
    log := s.log ++ [⟨s.line, instr⟩]
    trace := s.trace ++ [.emission s.line instr] }

/-- The session after an instruction that defines the next temporary. -/
def define (s : Session) (instr : Temp → Instr) : Session :=
  { s with
    nextTemp := s.nextTemp + 1
    scope := s.scope.insert (Temp.name ⟨s.nextTemp⟩)
    log := s.log ++ [⟨s.line, instr ⟨s.nextTemp⟩⟩]
    trace := s.trace ++ [.emission s.line (instr ⟨s.nextTemp⟩)] }

/-- Define the next temporary by an instruction. -/
def defining (instr : Temp → Instr) : Lowering Temp := fun s =>
  .ok ⟨s.nextTemp⟩ (s.define instr)

section Fields

variable (s : Session) (instr : Instr) (mk : Temp → Instr)

theorem emit_eq_append : emit instr s = .ok () (s.append instr) := rfl

@[simp] theorem defining_run : defining mk s = .ok ⟨s.nextTemp⟩ (s.define mk) := rfl

@[simp] theorem append_line : (s.append instr).line = s.line := rfl

@[simp] theorem append_scope : (s.append instr).scope = s.scope := rfl

@[simp] theorem append_log : (s.append instr).log = s.log ++ [⟨s.line, instr⟩] := rfl

@[simp] theorem append_code : (s.append instr).code = s.code ++ [instr] := by
  simp [code]

@[simp] theorem define_line : (s.define mk).line = s.line := rfl

@[simp] theorem define_scope :
    (s.define mk).scope = s.scope.insert (Temp.name ⟨s.nextTemp⟩) := rfl

@[simp] theorem define_nextTemp : (s.define mk).nextTemp = s.nextTemp + 1 := rfl

@[simp] theorem define_log :
    (s.define mk).log = s.log ++ [⟨s.line, mk ⟨s.nextTemp⟩⟩] := rfl

@[simp] theorem define_code : (s.define mk).code = s.code ++ [mk ⟨s.nextTemp⟩] := by
  simp [code]

end Fields

end Session

/-! ## Source variables -/

namespace Scope

theorem mem_sourceNames {scope : Scope} {name : String} :
    name ∈ scope.sourceNames ↔ name ∈ scope ∧ isTemporary name = false := by
  simp [sourceNames, mem_def]

/-- Declaring a temporary adds no source variable. -/
@[simp] theorem sourceNames_insert_name (scope : Scope) (t : Temp) :
    (scope.insert t.name).sourceNames = scope.sourceNames := by
  by_cases h : t.name ∈ scope
  · rw [insert_of_mem h]
  · simp [sourceNames, names_insert_of_notMem h]

/-- Declaring a source variable adds it to the others. -/
theorem mem_sourceNames_insert {scope : Scope} {name x : String} (hn : isTemporary name = false) :
    x ∈ (scope.insert name).sourceNames ↔ x ∈ scope.sourceNames ∨ x = name := by
  rw [mem_sourceNames, mem_sourceNames, mem_insert]
  constructor
  · rintro ⟨hx | rfl, ht⟩
    · exact Or.inl ⟨hx, ht⟩
    · exact Or.inr rfl
  · rintro (⟨hx, ht⟩ | rfl)
    · exact ⟨Or.inl hx, ht⟩
    · exact ⟨Or.inr rfl, hn⟩

end Scope

/-! ## Fetching a value -/

/-- The literals that denote a constant. -/
theorem Literal.read_eq_some_iff {text : String} {n : Nat} :
    read text = .ok (some n) ↔ isDigits text.toList = true ∧ text.toList.length ≤ 4300 ∧
      value text.toList ≤ 2147483647 ∧ n = value text.toList := by
  rw [show 4300 = Fault.maxDigits from rfl, show 2147483647 = maxValue from rfl]
  by_cases hd : isDigits text.toList = true
  · by_cases hl : text.toList.length ≤ Fault.maxDigits
    · by_cases hv : value text.toList ≤ maxValue
      · simp [read, hd, hv, hl, Nat.not_lt.mpr hl, eq_comm]
      · simp [read, hd, hv, Nat.not_lt.mpr hl]
    · simp [read, hd, hl, Nat.lt_of_not_le hl]
  · simp [read, hd]

/-- The literals that are not read, because they are too long. -/
theorem Literal.read_eq_error_iff {text : String} {fault : Fault} :
    read text = .error fault ↔ isDigits text.toList = true ∧ 4300 < text.toList.length ∧
      fault = .literalTooLong text.toList.length := by
  rw [show 4300 = Fault.maxDigits from rfl]
  by_cases hd : isDigits text.toList = true
  · by_cases hl : text.toList.length ≤ Fault.maxDigits
    · by_cases hv : value text.toList ≤ maxValue <;> simp [read, hd, hv, Nat.not_lt.mpr hl]
    · simp [read, hd, Nat.lt_of_not_le hl, eq_comm]
  · simp [read, hd]

/-- **The texts that have a value** where the variables `vars` are declared: the literals that are
not too great, and the declared names that are no literals. -/
def Literal.Resolves (vars : List String) (text : String) : Prop :=
  (∃ n, read text = .ok (some n)) ∨ read text = .ok none ∧ text ∈ vars

namespace Item

open Literal (Resolves)

/-- The items that have a value where the variables `vars` are declared: every temporary, and the
tokens whose texts have one. -/
def Resolves (vars : List String) : Item → Prop
  | token t => Literal.Resolves vars t.text
  | temp _ => True

section Fetch

variable {t : Token} {s s' : Session}

@[simp] theorem fetch_temp (t : Temp) (s : Session) : (temp t).fetch s = .ok (.temp t) s := rfl

theorem fetch_literal {n : Nat} (h : Literal.read t.text = .ok (some n)) :
    (token t).fetch s = .ok (.const n) s := by
  simp [fetch, h]

/-- A declared variable is loaded into the next temporary. -/
theorem fetch_variable (h : Literal.read t.text = .ok none) (hv : t.text ∈ s.scope.sourceNames) :
    (token t).fetch s = .ok (.temp ⟨s.nextTemp⟩) (s.define (.load · ⟨t.text⟩)) := by
  obtain ⟨hm, ht⟩ := Scope.mem_sourceNames.mp hv
  simp only [fetch, h]
  show (if t.text ∈ s.scope ∧ (!Scope.isTemporary t.text) = true then _ else _ :
    Lowering Value) s = _
  rw [if_pos ⟨hm, by simp [ht]⟩]
  rfl

/-- What is neither a literal nor a declared variable is rejected. -/
theorem fetch_undefined (h : Literal.read t.text = .ok none)
    (hv : t.text ∉ s.scope.sourceNames) :
    (token t).fetch s = .error (.rejected ⟨s.line, .undefinedVariable t.text⟩) s := by
  simp only [fetch, h]
  show (if t.text ∈ s.scope ∧ (!Scope.isTemporary t.text) = true then _ else _ :
    Lowering Value) s = _
  rw [if_neg (by simpa [Scope.mem_sourceNames] using hv)]
  rfl

theorem fetch_fault {fault : Fault} (h : Literal.read t.text = .error fault) :
    (token t).fetch s = .error fault s := by
  simp [fetch, h]

/-- **The three ways in which a fetch succeeds.** -/
theorem fetch_eq_ok_iff {x : Item} {v : Value} :
    x.fetch s = .ok v s' ↔
      (∃ t, x = temp t ∧ v = .temp t ∧ s' = s) ∨
      (∃ t n, x = token t ∧ Literal.read t.text = .ok (some n) ∧ v = .const n ∧ s' = s) ∨
      ∃ t, x = token t ∧ Literal.read t.text = .ok none ∧ t.text ∈ s.scope.sourceNames ∧
        v = .temp ⟨s.nextTemp⟩ ∧ s' = s.define (.load · ⟨t.text⟩) := by
  cases x with
  | temp t => simp [eq_comm]
  | token t =>
    cases h : Literal.read t.text with
    | error fault => simp [fetch_fault h, h]
    | ok n? =>
      cases n? with
      | some n => simp [fetch_literal h, h, eq_comm]
      | none =>
        by_cases hv : t.text ∈ s.scope.sourceNames
        · simp [fetch_variable h hv, h, hv, eq_comm]
        · simp [fetch_undefined h hv, h, hv]

/-- A fetch that fails leaves the session as it was. -/
theorem eq_of_fetch_eq_error {x : Item} {fault : Fault} (h : x.fetch s = .error fault s') :
    s' = s := by
  cases x with
  | temp t => simp at h
  | token t =>
    cases hr : Literal.read t.text with
    | error fault => rw [fetch_fault hr] at h; cases h; rfl
    | ok n? =>
      cases n? with
      | some n => simp [fetch_literal hr] at h
      | none =>
        by_cases hv : t.text ∈ s.scope.sourceNames
        · simp [fetch_variable hr hv] at h
        · rw [fetch_undefined hr hv] at h; cases h; rfl

/-- **A fetch succeeds exactly on the items that have a value.** -/
theorem exists_fetch_iff {x : Item} :
    (∃ v s', x.fetch s = .ok v s') ↔ x.Resolves s.scope.sourceNames := by
  cases x with
  | temp t => simp [Item.Resolves]
  | token t =>
    cases h : Literal.read t.text with
    | error fault => simp [fetch_fault h, Item.Resolves, Literal.Resolves, h]
    | ok n? =>
      cases n? with
      | some n => simp [fetch_literal h, Item.Resolves, Literal.Resolves, h]
      | none =>
        by_cases hv : t.text ∈ s.scope.sourceNames
        · simp [fetch_variable h hv, Item.Resolves, Literal.Resolves, h, hv]
        · simp [fetch_undefined h hv, Item.Resolves, Literal.Resolves, h, hv]

end Fetch

end Item

/-! ## Combining two neighbours -/

namespace Fragment

variable {operator : String} {op : BinOp} {left right : Item} {s s' : Session}

theorem checkOperand_of_isOperand (operator? : Option String) {x : Item}
    (h : x.isOperand = true) : checkOperand operator? (some x) = pure () := by
  simp [checkOperand, h]

theorem checkOperand_of_not (operator? : Option String) {x : Item} (h : x.isOperand = false) :
    checkOperand operator? (some x) = Session.reject (.missingOperand operator?) := by
  simp [checkOperand, h]

/-- Two operands are fetched from left to right, then the result is defined. -/
theorem combine_of_operands (hl : left.isOperand = true) (hr : right.isOperand = true) :
    combine operator op.mnemonic left right = (do
      let a ← left.fetch
      let b ← right.fetch
      Session.defining (.binary op · a b)) := by
  simp only [combine, checkOperand_of_isOperand _ hl, checkOperand_of_isOperand _ hr,
    BinOp.ofMnemonic?_mnemonic, pure_bind]
  rfl

/-- A neighbour that is no operand is rejected before anything is fetched. -/
theorem combine_of_not (h : ¬ (left.isOperand = true ∧ right.isOperand = true)) :
    combine operator op.mnemonic left right s =
      .error (.rejected ⟨s.line, .missingOperand operator⟩) s := by
  by_cases hl : left.isOperand = true
  · have hr : right.isOperand = false := by
      cases hr : right.isOperand
      · rfl
      · exact absurd ⟨hl, hr⟩ h
    simp only [combine, checkOperand_of_isOperand _ hl, checkOperand_of_not _ hr, pure_bind]
    rfl
  · simp only [combine, checkOperand_of_not _ (Bool.eq_false_iff.mpr hl)]
    rfl

/-- **A combination succeeds** when both neighbours are operands that can be fetched. -/
theorem combine_eq_ok_iff {t : Temp} :
    combine operator op.mnemonic left right s = .ok t s' ↔
      left.isOperand = true ∧ right.isOperand = true ∧
        ∃ a s₁ b s₂, left.fetch s = .ok a s₁ ∧ right.fetch s₁ = .ok b s₂ ∧
          t = ⟨s₂.nextTemp⟩ ∧ s' = s₂.define (.binary op · a b) := by
  by_cases h : left.isOperand = true ∧ right.isOperand = true
  · rw [combine_of_operands h.1 h.2]
    simp only [Lowering.bind_eq_ok_iff, Session.defining_run, EStateM.Result.ok.injEq, h.1, h.2,
      true_and]
    constructor
    · rintro ⟨a, s₁, ha, b, s₂, hb, rfl, rfl⟩
      exact ⟨a, s₁, b, s₂, ha, hb, rfl, rfl⟩
    · rintro ⟨a, s₁, b, s₂, ha, hb, rfl, rfl⟩
      exact ⟨a, s₁, ha, b, s₂, hb, rfl, rfl⟩
  · rw [combine_of_not h]
    constructor
    · intro h'; cases h'
    · rintro ⟨hl, hr, -⟩; exact absurd ⟨hl, hr⟩ h

end Fragment

/-! ## Statements -/

namespace Session

variable {s : Session} {name : String}

/-- The slot of a declared variable is there already. -/
theorem declareSlot_of_mem (h : name ∈ s.scope) : declareSlot name s = .ok ⟨name⟩ s := by
  unfold declareSlot
  rw [Lowering.bind_of_ok (declare_run s name), Scope.insert_of_mem h]
  simp [h]

/-- A new variable is declared and its slot reserved. -/
theorem declareSlot_of_notMem (h : name ∉ s.scope) :
    declareSlot name s =
      .ok ⟨name⟩ ({ s with scope := s.scope.insert name }.append (.alloca ⟨name⟩)) := by
  unfold declareSlot
  rw [Lowering.bind_of_ok (declare_run s name)]
  simp only [h, not_false_eq_true, decide_true, if_true]
  rfl

/-- Declaring the slot of a variable puts it into the scope. -/
theorem exists_declareSlot (name : String) (s : Session) :
    ∃ s₁, declareSlot name s = .ok ⟨name⟩ s₁ ∧ s₁.scope = s.scope.insert name := by
  by_cases h : name ∈ s.scope
  · exact ⟨s, declareSlot_of_mem h, (Scope.insert_of_mem h).symm⟩
  · exact ⟨_, declareSlot_of_notMem h, rfl⟩

end Session

/-- The value of a whole expression. -/
def Fragment.value (f : Fragment) : Lowering Value := do
  (← f.lower).fetch

/-- An assignment declares its target, computes its value and stores it. -/
theorem Statement.lower_assign (target : String) (tokens : List Token) :
    (assign target tokens).lower = (do
      let slot ← Session.declareSlot target
      let v ← (Fragment.ofTokens tokens).value
      Session.emit (.store v slot)) := by
  simp [lower, Fragment.value]

/-- A print computes its value and defines the result of printing it. -/
theorem Statement.lower_print (tokens : List Token) :
    (print tokens).lower = (do
      let v ← (Fragment.ofTokens tokens).value
      let _ ← Session.defining (.print · v)) := by
  simp only [lower, Fragment.value, bind_assoc]
  rfl

/-- Reading a statement changes nothing. -/
theorem readStatement_run (text : String) (s : Session) :
    readStatement text s =
      match Statement.parse text s.line with
      | .ok stmt => .ok stmt s
      | .error d => .error (.rejected d) s := by
  have hget : (get : Lowering Session) s = .ok s s := rfl
  unfold readStatement
  rw [Lowering.bind_of_ok hget]
  cases Statement.parse text s.line <;> rfl

section Line

variable {text : String} {s : Session}

/-- A line that is a statement is lowered in the session that has gone on to it. -/
theorem compileLine_of_ok {stmt : Statement} (h : Statement.parse text (s.line + 1) = .ok stmt) :
    compileLine text s = stmt.lower { s with line := s.line + 1 } := by
  unfold compileLine
  rw [Lowering.bind_of_ok (Session.nextLine_run s)]
  exact Lowering.bind_of_ok (by simp [readStatement_run, h])

theorem compileLine_of_error {d : Diagnostic} (h : Statement.parse text (s.line + 1) = .error d) :
    compileLine text s = .error (.rejected d) { s with line := s.line + 1 } := by
  unfold compileLine
  rw [Lowering.bind_of_ok (Session.nextLine_run s)]
  exact Lowering.bind_of_error (by simp [readStatement_run, h])

/-- A line that compiles is a statement. -/
theorem exists_parse_of_compileLine {s' : Session} (h : compileLine text s = .ok () s') :
    ∃ stmt, Statement.parse text (s.line + 1) = .ok stmt ∧
      stmt.lower { s with line := s.line + 1 } = .ok () s' := by
  cases hparse : Statement.parse text (s.line + 1) with
  | error d =>
    rw [compileLine_of_error hparse] at h
    cases h
  | ok stmt =>
    rw [compileLine_of_ok hparse] at h
    exact ⟨stmt, rfl, h⟩

end Line

end Abacus
