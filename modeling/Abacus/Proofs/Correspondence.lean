import Abacus.Proofs.Increment
import Abacus.Proofs.SingleAssignment

/-!
# Sessions that correspond

Two sessions may have gone through different lines before. What a line does in them depends on what
they have in common only: which variables are declared, and the number of the line. Temporaries of
one session are those of the other, counted from another start. This is shown for every step, with
the names of variables mapped as well, so that one comparison of two runs serves both a different
history and different names.

## Main definitions

* `Renaming`: where the names of one session and the temporaries of one session are found in the
  other
* `Renaming.item`, `Renaming.entry`, `Renaming.fault`: items, entries and faults under a renaming
* `Session.Corresponds`: two sessions that have added the same to what they started with
* `Lowering.Together`: steps that do the same in such sessions
* `lowerLine`: read and lower the text of the current line

## Main results

* `Lowering.Together.bind`: sequences of such steps are such steps
* `Fragment.together_value`, `Statement.together_lower`: expressions and statements are lowered in
  the same way
* `together_lowerLine`: so are lines
* `lowerLine_history_independent`: a line does the same in sessions with the same variables
-/

namespace Abacus

/-! ## Renamings -/

/-- **A renaming** of variables, by texts that are literals and temporaries where they were before,
together with a number that the temporaries are shifted by. -/
structure Renaming where
  name : String → String
  shift : Int
  read_name : ∀ x, Literal.read (name x) = Literal.read x
  isTemporary_name : ∀ x, Scope.isTemporary (name x) = Scope.isTemporary x
  name_injective : Function.Injective name

namespace Renaming

/-- The renaming that keeps all names. -/
def shifting (d : Int) : Renaming where
  name := id
  shift := d
  read_name _ := rfl
  isTemporary_name _ := rfl
  name_injective _ _ h := h

variable (ρ : Renaming)

def temp (t : Temp) : Temp :=
  ⟨t.id + ρ.shift⟩

def value : Value → Value
  | .const n => .const n
  | .temp t => .temp (ρ.temp t)

def slot (slot : Slot) : Slot :=
  ⟨ρ.name slot.name⟩

def instr : Instr → Instr
  | .alloca slot => .alloca (ρ.slot slot)
  | .store value slot => .store (ρ.value value) (ρ.slot slot)
  | .load result slot => .load (ρ.temp result) (ρ.slot slot)
  | .binary op result left right =>
    .binary op (ρ.temp result) (ρ.value left) (ρ.value right)
  | .print result value => .print (ρ.temp result) (ρ.value value)
  | .bareValue value => .bareValue (ρ.value value)
  | .bareSlot slot => .bareSlot (ρ.slot slot)

/-- An entry stays with its line. -/
def entry (e : Entry) : Entry :=
  ⟨e.line, ρ.instr e.instr⟩

/-- A token keeps its kind. -/
def token (t : Token) : Token :=
  ⟨t.kind, ρ.name t.text⟩

def item : Item → Item
  | .token t => .token (ρ.token t)
  | .temp t => .temp (ρ.temp t)

def statement : Statement → Statement
  | .assign target tokens => .assign (ρ.name target) (tokens.map ρ.token)
  | .print tokens => .print (tokens.map ρ.token)

/-- A cause is about the same parts of the line, under their new names. -/
def cause : Cause → Cause
  | .undefinedVariable x => .undefinedVariable (ρ.name x)
  | .missingOperand operator? => .missingOperand (operator?.map ρ.name)
  | .missingOperator near => .missingOperator (ρ.item near)
  | cause => cause

/-- A diagnostic stays with its line. -/
def fault : Fault → Fault
  | .rejected d => .rejected ⟨d.line, ρ.cause d.cause⟩
  | fault => fault

@[simp] theorem kind?_item (x : Item) : (ρ.item x).kind? = x.kind? := by
  cases x <;> rfl

@[simp] theorem hasKind_item (k : Kind) (x : Item) : (ρ.item x).hasKind k = x.hasKind k := by
  simp [Item.hasKind]

@[simp] theorem isOperand_item (x : Item) : (ρ.item x).isOperand = x.isOperand := by
  simp [Item.isOperand]

theorem text_item_of_hasKind {k : Kind} {x : Item} (h : x.hasKind k = true) :
    (ρ.item x).text = ρ.name x.text := by
  cases x with
  | token t => rfl
  | temp t => simp at h

theorem ofTokens_map (ts : List Token) :
    Fragment.ofTokens (ts.map ρ.token) = (Fragment.ofTokens ts).map ρ.item := by
  simp [Fragment.ofTokens, item, Function.comp_def]

theorem splitAt?_map (k : Kind) (f : Fragment) :
    Fragment.splitAt? k (f.map ρ.item) =
      (Fragment.splitAt? k f).map fun parts => (parts.1.map ρ.item, parts.2.map ρ.item) := by
  induction f with
  | nil => rfl
  | cons x f ih =>
    cases hx : x.hasKind k <;> simp [Fragment.splitAt?, hx, ih, Function.comp_def]

end Renaming

/-! ## Sessions and steps -/

/-- **Corresponding sessions**, of which one began as `s₀` and the other as `s₀'`. They are on the
same line, they know the same variables, and they have added the same to their logs and to their
variables. -/
structure Session.Corresponds (ρ : Renaming) (s₀ s₀' s s' : Session) : Prop where
  line_eq : s'.line = s.line
  nextTemp_eq : s'.nextTemp = s.nextTemp + ρ.shift
  mem_iff : ∀ x, ρ.name x ∈ s'.scope.sourceNames ↔ x ∈ s.scope.sourceNames
  log_eq : ∃ new, s.log = s₀.log ++ new ∧ s'.log = s₀'.log ++ new.map ρ.entry
  names_eq : ∃ new, s.scope.sourceNames = s₀.scope.sourceNames ++ new ∧
    s'.scope.sourceNames = s₀'.scope.sourceNames ++ new.map ρ.name

namespace Session.Corresponds

variable {ρ : Renaming} {s₀ s₀' s s' : Session}

theorem temp_nextTemp (h : Corresponds ρ s₀ s₀' s s') : (⟨s'.nextTemp⟩ : Temp) =
    ρ.temp ⟨s.nextTemp⟩ := by
  rw [h.nextTemp_eq]
  rfl

theorem append (h : Corresponds ρ s₀ s₀' s s') (instr : Instr) :
    Corresponds ρ s₀ s₀' (s.append instr) (s'.append (ρ.instr instr)) where
  line_eq := h.line_eq
  nextTemp_eq := h.nextTemp_eq
  mem_iff := h.mem_iff
  log_eq := by
    obtain ⟨new, hlog, hlog'⟩ := h.log_eq
    refine ⟨new ++ [⟨s.line, instr⟩], by simp [hlog], ?_⟩
    simp [hlog', h.line_eq, Renaming.entry]
  names_eq := h.names_eq

theorem define (h : Corresponds ρ s₀ s₀' s s') {mk mk' : Temp → Instr}
    (hmk : ∀ t, mk' (ρ.temp t) = ρ.instr (mk t)) :
    Corresponds ρ s₀ s₀' (s.define mk) (s'.define mk') where
  line_eq := h.line_eq
  nextTemp_eq := by
    simp only [define_nextTemp, h.nextTemp_eq]
    omega
  mem_iff := by simpa using h.mem_iff
  log_eq := by
    obtain ⟨new, hlog, hlog'⟩ := h.log_eq
    refine ⟨new ++ [⟨s.line, mk ⟨s.nextTemp⟩⟩], by simp [hlog], ?_⟩
    simp [hlog', h.line_eq, h.temp_nextTemp, hmk, Renaming.entry]
  names_eq := by simpa using h.names_eq

end Session.Corresponds

namespace Lowering

open Session (Corresponds)

variable {α β α' β' : Type} {ρ : Renaming} {s₀ s₀' : Session}

/-- Two runs that end in the same way: with results of which one is the other's image, or with
faults of which one is the other's image. -/
inductive SameEnd (ρ : Renaming) (s₀ s₀' : Session) (f : α → α') :
    EStateM.Result Fault Session α → EStateM.Result Fault Session α' → Prop where
  | ok {a : α} {s s' : Session} (h : Corresponds ρ s₀ s₀' s s') :
    SameEnd ρ s₀ s₀' f (.ok a s) (.ok (f a) s')
  | error {fault : Fault} {s s' : Session} (h : Corresponds ρ s₀ s₀' s s') :
    SameEnd ρ s₀ s₀' f (.error fault s) (.error (ρ.fault fault) s')

/-- **Steps that do the same**: from corresponding sessions they end in the same way. -/
structure Together (ρ : Renaming) (s₀ s₀' : Session) (f : α → α') (x : Lowering α)
    (y : Lowering α') : Prop where
  run : ∀ s s', Corresponds ρ s₀ s₀' s s' → SameEnd ρ s₀ s₀' f (x s) (y s')

namespace Together

variable {f : α → α'} {x : Lowering α} {y : Lowering α'}

theorem pure (a : α) : Together ρ s₀ s₀' f (pure a) (pure (f a)) :=
  ⟨fun _ _ h => .ok h⟩

theorem reject (f : α → α') (cause : Cause) :
    Together ρ s₀ s₀' f (Session.reject cause) (Session.reject (ρ.cause cause)) where
  run s s' h := by
    rw [Session.reject_run, Session.reject_run, h.line_eq]
    exact .error h

theorem emit (instr : Instr) :
    Together ρ s₀ s₀' id (Session.emit instr) (Session.emit (ρ.instr instr)) :=
  ⟨fun _ _ h => .ok (h.append instr)⟩

theorem nextLine : Together ρ s₀ s₀' id Session.nextLine Session.nextLine where
  run s s' h := by
    have hline : s'.line + 1 = s.line + 1 := by rw [h.line_eq]
    exact .ok ⟨hline, h.nextTemp_eq, h.mem_iff, h.log_eq, h.names_eq⟩

theorem defining {mk mk' : Temp → Instr} (hmk : ∀ t, mk' (ρ.temp t) = ρ.instr (mk t)) :
    Together ρ s₀ s₀' ρ.temp (Session.defining mk) (Session.defining mk') where
  run s s' h := by
    rw [Session.defining_run, Session.defining_run, h.temp_nextTemp]
    exact .ok (h.define hmk)

/-- **Sequences of steps that do the same do the same.** -/
theorem bind {g : β → β'} {k : α → Lowering β} {k' : α' → Lowering β'}
    (hx : Together ρ s₀ s₀' f x y) (hk : ∀ a, Together ρ s₀ s₀' g (k a) (k' (f a))) :
    Together ρ s₀ s₀' g (x >>= k) (y >>= k') where
  run s s' h := by
    have hend := hx.run s s' h
    generalize hrun : x s = r, hrun' : y s' = r' at hend
    cases hend with
    | ok ht =>
      rw [bind_of_ok hrun, bind_of_ok hrun']
      exact (hk _).run _ _ ht
    | error ht =>
      rw [bind_of_error hrun, bind_of_error hrun']
      exact .error ht

end Together

end Lowering

open Lowering (Together SameEnd)

/-! ## Expressions -/

section Expression

variable {ρ : Renaming} {s₀ s₀' : Session}

theorem Item.together_fetch (x : Item) :
    Together ρ s₀ s₀' ρ.value x.fetch (ρ.item x).fetch := by
  refine ⟨fun s s' h => ?_⟩
  cases x with
  | temp t => exact .ok h
  | token t =>
    have hread' : Literal.read (ρ.token t).text = Literal.read t.text := ρ.read_name t.text
    show SameEnd _ _ _ _ _ ((token (ρ.token t)).fetch s')
    cases hread : Literal.read t.text with
    | error fault =>
      rw [fetch_fault hread, fetch_fault (hread'.trans hread)]
      obtain ⟨-, -, rfl⟩ := Literal.read_eq_error_iff.mp hread
      exact .error h
    | ok n? =>
      cases n? with
      | some n =>
        rw [fetch_literal hread, fetch_literal (hread'.trans hread)]
        exact .ok h
      | none =>
        by_cases hv : t.text ∈ s.scope.sourceNames
        · rw [fetch_variable hread hv,
            fetch_variable (hread'.trans hread) ((h.mem_iff t.text).mpr hv), h.temp_nextTemp]
          exact .ok (h.define fun _ => rfl)
        · have hv' : (ρ.token t).text ∉ s'.scope.sourceNames :=
            fun hmem => hv ((h.mem_iff t.text).mp hmem)
          rw [fetch_undefined hread hv, fetch_undefined (hread'.trans hread) hv', h.line_eq]
          exact .error h

namespace Fragment

theorem together_combine (operator : String) (op : BinOp) (left right : Item) :
    Together ρ s₀ s₀' ρ.temp (combine operator op.mnemonic left right)
      (combine (ρ.name operator) op.mnemonic (ρ.item left) (ρ.item right)) := by
  by_cases h : left.isOperand = true ∧ right.isOperand = true
  · rw [combine_of_operands h.1 h.2, combine_of_operands (by simpa using h.1) (by simpa using h.2)]
    exact left.together_fetch.bind fun a => right.together_fetch.bind fun b =>
      .defining fun _ => rfl
  · have hreject : ∀ (operator : String) (left right : Item),
        ¬ (left.isOperand = true ∧ right.isOperand = true) →
        combine operator op.mnemonic left right = Session.reject (.missingOperand operator) :=
      fun _ _ _ h => funext fun s => combine_of_not h
    rw [hreject _ _ _ h, hreject _ _ _ (by simpa using h)]
    exact .reject _ (.missingOperand operator)

/-- **A sweep does the same** behind items that it has passed. -/
theorem together_sweeping (k : Kind) (op : BinOp) (before rest : List Item) :
    Together ρ s₀ s₀' (List.map ρ.item) (sweeping k op before rest)
      (sweeping k op (before.map ρ.item) (rest.map ρ.item)) := by
  fun_induction sweeping k op before rest with
  | case1 before =>
    rw [List.map_nil, sweeping, ← List.map_reverse]
    exact .pure _
  | case2 x hx left before right rest ih =>
    simp only [List.map_cons, sweeping, Renaming.hasKind_item, hx, if_true,
      ρ.text_item_of_hasKind hx]
    exact (together_combine ..).bind fun t => ih t
  | case3 before x rest hx hn =>
    have hreject : sweeping k op (before.map ρ.item) ((x :: rest).map ρ.item) =
        Session.reject (ρ.cause (.missingOperand x.text)) := by
      have hcause : ρ.cause (.missingOperand x.text) = .missingOperand (ρ.item x).text := by
        rw [ρ.text_item_of_hasKind hx]
        rfl
      rw [hcause]
      rcases before with _ | ⟨left, before⟩
      · cases rest <;> simp [sweeping, hx]
      · rcases rest with _ | ⟨right, rest⟩
        · simp [sweeping, hx]
        · exact (hn left before right rest rfl rfl).elim
    rw [hreject]
    exact .reject _ _
  | case4 before x rest hx ih =>
    have hpass : sweeping k op (before.map ρ.item) ((x :: rest).map ρ.item) =
        sweeping k op ((x :: before).map ρ.item) (rest.map ρ.item) := by
      cases before <;> cases rest <;> simp [sweeping, hx]
    rw [hpass]
    exact ih

theorem together_eliminate (f : Fragment) (k : Kind) (op : BinOp) :
    Together ρ s₀ s₀' (List.map ρ.item) (f.eliminate k op)
      (eliminate (f.map ρ.item) k op) := by
  rw [eliminate_eq_sweeping, eliminate_eq_sweeping]
  exact together_sweeping k op [] f

theorem together_lowerFlat (f : Fragment) :
    Together ρ s₀ s₀' ρ.item f.lowerFlat (lowerFlat (f.map ρ.item)) := by
  have hsingle : ∀ f : Fragment, Together ρ s₀ s₀' ρ.item f.single (single (f.map ρ.item)) := by
    intro f
    match f with
    | [] => exact .reject _ (.missingOperand none)
    | [x] => exact .pure x
    | _ :: y :: _ => exact .reject _ (.missingOperator y)
  exact (together_eliminate ..).bind fun _ => (together_eliminate ..).bind fun _ =>
    (together_eliminate ..).bind fun _ => (together_eliminate ..).bind hsingle

theorem together_closeGroups (f : Fragment) :
    Together ρ s₀ s₀' (List.map ρ.item) f.closeGroups (closeGroups (f.map ρ.item)) := by
  induction f with
  | nil => exact .pure []
  | cons x f ih =>
    rw [List.map_cons]
    by_cases hx : x.hasKind .leftParen = true
    · rw [closeGroups_cons_leftParen hx, closeGroups_cons_leftParen (by simpa using hx)]
      refine ih.bind fun rest => ?_
      rw [ρ.splitAt?_map]
      cases splitAt? .rightParen rest with
      | none => exact .reject _ (.missingParenthesis .right)
      | some parts => exact (together_lowerFlat parts.1).bind fun y => .pure (y :: parts.2)
    · have hx := Bool.eq_false_iff.mpr hx
      rw [closeGroups_cons_of_not hx, closeGroups_cons_of_not (by simpa using hx)]
      exact ih.bind fun rest => .pure (x :: rest)

theorem together_lower (f : Fragment) :
    Together ρ s₀ s₀' ρ.item f.lower (lower (f.map ρ.item)) := by
  refine (together_closeGroups f).bind fun f' => ?_
  have hany : (f'.map ρ.item).any (·.hasKind .rightParen) = f'.any (·.hasKind .rightParen) := by
    simp [List.any_map, Function.comp_def]
  rw [hany]
  split
  · exact .reject _ (.missingParenthesis .left)
  · exact together_lowerFlat f'

/-- **An expression is lowered in the same way.** -/
theorem together_value (f : Fragment) :
    Together ρ s₀ s₀' ρ.value f.value (value (f.map ρ.item)) :=
  (together_lower f).bind Item.together_fetch

end Fragment

end Expression

/-! ## Statements and lines -/

/-- Declaring a new source variable puts it behind the others. -/
theorem Scope.sourceNames_insert_of_notMem {scope : Scope} {name : String}
    (hn : isTemporary name = false) (h : name ∉ scope) :
    (scope.insert name).sourceNames = scope.sourceNames ++ [name] := by
  simp [sourceNames, names_insert_of_notMem h, hn]

section Line

variable {ρ : Renaming} {s₀ s₀' : Session}

theorem Session.together_declareSlot {name : String} (hn : Scope.isTemporary name = false) :
    Together ρ s₀ s₀' ρ.slot (declareSlot name) (declareSlot (ρ.name name)) := by
  refine ⟨fun s s' h => ?_⟩
  have hn' : Scope.isTemporary (ρ.name name) = false := (ρ.isTemporary_name name).trans hn
  have hmem : ρ.name name ∈ s'.scope ↔ name ∈ s.scope := by
    simpa [Scope.mem_sourceNames, hn, hn'] using h.mem_iff name
  by_cases hm : name ∈ s.scope
  · rw [declareSlot_of_mem hm, declareSlot_of_mem (hmem.mpr hm)]
    exact .ok h
  · have hm' : ρ.name name ∉ s'.scope := fun hm' => hm (hmem.mp hm')
    rw [declareSlot_of_notMem hm, declareSlot_of_notMem hm']
    have hdeclared : Corresponds ρ s₀ s₀' { s with scope := s.scope.insert name }
        { s' with scope := s'.scope.insert (ρ.name name) } := by
      refine ⟨h.line_eq, h.nextTemp_eq, fun x => ?_, h.log_eq, ?_⟩
      · rw [Scope.mem_sourceNames_insert hn, Scope.mem_sourceNames_insert hn', h.mem_iff,
          ρ.name_injective.eq_iff]
      · obtain ⟨new, hnames, hnames'⟩ := h.names_eq
        refine ⟨new ++ [name], ?_, ?_⟩
        · rw [Scope.sourceNames_insert_of_notMem hn hm, hnames, List.append_assoc]
        · rw [Scope.sourceNames_insert_of_notMem hn' hm', hnames']
          simp
    exact .ok (hdeclared.append (.alloca ⟨name⟩))

/-- **A statement is lowered in the same way.** -/
theorem Statement.together_lower {stmt : Statement}
    (hn : ∀ target tokens, stmt = .assign target tokens → Scope.isTemporary target = false) :
    Together ρ s₀ s₀' id stmt.lower (ρ.statement stmt).lower := by
  cases stmt with
  | assign target tokens =>
    show Together _ _ _ _ _ (assign (ρ.name target) (tokens.map ρ.token)).lower
    rw [lower_assign, lower_assign, ρ.ofTokens_map]
    exact (Session.together_declareSlot (hn target tokens rfl)).bind fun slot =>
      (Fragment.together_value _).bind fun v => .emit (.store v slot)
  | print tokens =>
    show Together _ _ _ _ _ (print (tokens.map ρ.token)).lower
    rw [lower_print, lower_print, ρ.ofTokens_map]
    exact (Fragment.together_value _).bind fun v =>
      (Together.defining fun _ => rfl).bind fun _ => .pure ()

end Line

/-- A line that is no statement lacks a side of its equals sign or is no assignment. -/
theorem Statement.cause_of_parse_eq_error {text : String} {line : Int} {d : Diagnostic}
    (h : parse text line = .error d) :
    d.cause = .missingOperand "=" ∨ ∃ l, d.cause = .invalidAssignment l := by
  by_cases hequals : '=' ∈ Text.dropBlanks text.toList
  · obtain ⟨l, r, hcut, hl⟩ := List.eq_append_cons_of_mem hequals
    by_cases hr : '=' ∈ r
    · rw [parse_of_more_equals hcut hl hr] at h
      cases h
      exact Or.inr ⟨_, rfl⟩
    · rw [parse_of_one_equals hcut hl hr] at h
      split_ifs at h <;> cases h
      · exact Or.inl rfl
      · exact Or.inr ⟨_, rfl⟩
  · rw [parse_of_no_equals hequals] at h
    cases h

namespace Renaming

variable (d : Int)

/-- Shifting the temporaries changes no statement. -/
@[simp] theorem statement_shifting (stmt : Statement) : (shifting d).statement stmt = stmt := by
  have hmap : ∀ ts : List Token, ts.map (shifting d).token = ts := List.map_id
  cases stmt with
  | assign target ts => exact congrArg (Statement.assign target) (hmap ts)
  | print ts => exact congrArg Statement.print (hmap ts)

/-- A line that is no statement is rejected before there are temporaries. -/
theorem fault_shifting_of_parse {text : String} {line : Int} {diagnostic : Diagnostic}
    (h : Statement.parse text line = .error diagnostic) :
    (shifting d).fault (.rejected diagnostic) = .rejected diagnostic := by
  have hcause := Statement.cause_of_parse_eq_error h
  obtain ⟨line, cause⟩ := diagnostic
  rcases hcause with rfl | ⟨l, rfl⟩ <;> rfl

end Renaming

/-- Read the text of the current line and lower it. -/
def lowerLine (text : String) : Lowering Unit := do
  (← readStatement text).lower

theorem compileLine_eq_lowerLine (text : String) :
    compileLine text = Session.nextLine >>= fun _ => lowerLine text := rfl

/-- **A line is lowered in the same way**, but for the numbers of the temporaries. -/
theorem together_lowerLine {s₀ s₀' : Session} (d : Int) (text : String) :
    Together (.shifting d) s₀ s₀' id (lowerLine text) (lowerLine text) := by
  refine ⟨fun s s' h => ?_⟩
  unfold lowerLine
  cases hparse : Statement.parse text s.line with
  | error diagnostic =>
    have hread : readStatement text s = .error (.rejected diagnostic) s := by
      rw [readStatement_run, hparse]
    have hread' : readStatement text s' = .error (.rejected diagnostic) s' := by
      rw [readStatement_run, h.line_eq, hparse]
    rw [Lowering.bind_of_error hread, Lowering.bind_of_error hread']
    have hend : SameEnd (.shifting d) s₀ s₀' (id : Unit → Unit)
        (.error (.rejected diagnostic) s) _ := .error h
    rwa [Renaming.fault_shifting_of_parse _ hparse] at hend
  | ok stmt =>
    have hread : readStatement text s = .ok stmt s := by
      rw [readStatement_run, hparse]
    have hread' : readStatement text s' = .ok stmt s' := by
      rw [readStatement_run, h.line_eq, hparse]
    rw [Lowering.bind_of_ok hread, Lowering.bind_of_ok hread']
    have hlower : Together (.shifting d) s₀ s₀' id stmt.lower _ :=
      Statement.together_lower fun target tokens heq =>
        isTemporary_of_isName (Statement.parse_eq_assign_iff.mp (heq ▸ hparse)).1
    rw [Renaming.statement_shifting] at hlower
    exact hlower.run s s' h

/-- Sessions on the same line with the same variables correspond. -/
theorem Session.Corresponds.start {s s' : Session} (hline : s'.line = s.line)
    (hnames : ∀ x, x ∈ s'.scope.sourceNames ↔ x ∈ s.scope.sourceNames) :
    Corresponds (.shifting (s'.nextTemp - s.nextTemp)) s s' s s' where
  line_eq := hline
  nextTemp_eq := by
    simp only [Renaming.shifting]
    omega
  mem_iff := hnames
  log_eq := ⟨[], by simp⟩
  names_eq := ⟨[], by simp⟩

/-- **What a line does depends on the variables that are declared, and on nothing else that came
before it.** In two sessions on the same line with the same variables it succeeds in both or fails
in both with the same fault, emits the same entries and declares the same variables. Only the
temporaries are counted from where each session has come to. So it is for the line that the sessions
are on, and for the next one. -/
theorem lowerLine_history_independent (s s' : Session) (text : String)
    (hline : s'.line = s.line)
    (hnames : ∀ x, x ∈ s'.scope.sourceNames ↔ x ∈ s.scope.sourceNames) :
    SameEnd (.shifting (s'.nextTemp - s.nextTemp)) s s' id (lowerLine text s)
      (lowerLine text s') ∧
    SameEnd (.shifting (s'.nextTemp - s.nextTemp)) s s' id (compileLine text s)
      (compileLine text s') := by
  have hstart := Session.Corresponds.start hline hnames
  refine ⟨(together_lowerLine _ text).run s s' hstart, ?_⟩
  rw [compileLine_eq_lowerLine]
  exact (Together.nextLine.bind fun _ => together_lowerLine _ text).run s s' hstart

/-- Two histories with the same variables, one of which has a line that failed. The line is rejected
for the temporary that holds its group, which has another number in each. -/
theorem lowerLine_history_independent_group :
    let s := Session.afterAll [(1, "x = 1"), (2, "y = x * 2"), (3, "x + y")]
    let s' := Session.afterAll [(2, "y = 5 +"), (3, "x = 7")]
    (s'.line = s.line ∧ ∀ x, x ∈ s'.scope.sourceNames ↔ x ∈ s.scope.sourceNames) ∧
    (∃ t, lowerLine "x (x + y)" s = .error (.rejected ⟨3, .missingOperator (.temp ⟨9⟩)⟩) t) ∧
    SameEnd (.shifting (s'.nextTemp - s.nextTemp)) s s' id (lowerLine "x (x + y)" s)
      (lowerLine "x (x + y)" s') := by
  intro s s'
  have hline : s'.line = s.line := by decide +kernel
  have hnames : ∀ x, x ∈ s'.scope.sourceNames ↔ x ∈ s.scope.sourceNames := by
    have hs : s.scope.sourceNames = ["x", "y"] := by decide +kernel
    have hs' : s'.scope.sourceNames = ["y", "x"] := by decide +kernel
    intro x
    simp [hs, hs', or_comm]
  exact ⟨⟨hline, hnames⟩, by decide +kernel, (lowerLine_history_independent s s' _ hline hnames).1⟩

end Abacus
