import Mathlib.Logic.Embedding.Basic
import Abacus.Proofs.Continuation
import Abacus.Proofs.Correspondence
import Abacus.Proofs.Spelling
import Abacus.Proofs.Unmatched

/-!
# Renamed programs

The variables of a program may have any names. Where every name in it is replaced by another one,
different names by different ones, the program compiles to the same instructions under the new
names, or is rejected at the same line for the same cause, told in the new names. No name is
special, and a name that is replaced within its line is read there again as one token.

## Main definitions

* `Identifier`: the names of variables
* `Renaming.ofNames`: the renaming that an injective map of names gives
* `Renaming.line`, `Renaming.source`: a line and a program under a renaming
* `Renaming.session`, `Renaming.report`, `Renaming.outcome`: the end of a compilation under a
  renaming

## Main results

* `Renaming.tokens_line`: the tokens of a renamed line are its tokens, renamed
* `Renaming.parse_line`: a renamed line is the renamed statement
* `Renaming.compileLine_line`: a renamed line is compiled to the same, renamed
* `compile_rename`: compiling commutes with renaming
-/

namespace Abacus

open Lowering (Ensures SameEnd)

/-- The names of variables. -/
abbrev Identifier := {x : String // isName x = true}

/-- A name is read as no literal. -/
theorem Literal.read_of_isName {x : String} (h : isName x = true) : read x = .ok none := by
  simp [read, isDigits_of_isName h]

namespace Renaming

/-! ## Maps of names -/

section Names

variable (r : Identifier ↪ Identifier)

/-- A text under a map of names: a name becomes another one, and every other text stays. -/
def renamed (x : String) : String :=
  if h : isName x = true then (r ⟨x, h⟩).1 else x

variable {r}

theorem renamed_of_isName {x : String} (h : isName x = true) : renamed r x = (r ⟨x, h⟩).1 := by
  simp [renamed, h]

theorem renamed_of_not {x : String} (h : isName x = false) : renamed r x = x := by
  simp [renamed, h]

theorem isName_renamed (x : String) : isName (renamed r x) = isName x := by
  cases h : isName x with
  | true => rw [renamed_of_isName h, (r ⟨x, h⟩).2]
  | false => rw [renamed_of_not h, h]

theorem renamed_injective : Function.Injective (renamed r) := by
  intro x y hxy
  have hname : isName x = isName y := by rw [← isName_renamed (r := r) x, hxy, isName_renamed]
  cases hx : isName x with
  | false => rwa [renamed_of_not hx, renamed_of_not (hname ▸ hx)] at hxy
  | true =>
    have hy : isName y = true := hname ▸ hx
    rw [renamed_of_isName hx, renamed_of_isName hy] at hxy
    exact congrArg Subtype.val (r.injective (Subtype.ext hxy))

variable (r)

/-- **The renaming that a map of names gives.** -/
def ofNames : Renaming where
  name := renamed r
  shift := 0
  read_name x := by
    cases h : isName x with
    | true =>
      rw [Literal.read_of_isName h, Literal.read_of_isName ((isName_renamed x).trans h)]
    | false => rw [renamed_of_not h]
  isTemporary_name x := by
    cases h : isName x with
    | true =>
      rw [isTemporary_of_isName h, isTemporary_of_isName ((isName_renamed x).trans h)]
    | false => rw [renamed_of_not h]
  name_injective := renamed_injective

end Names

/-! ## Lines and programs -/

section Definitions

variable (ρ : Renaming)

/-- A line under a renaming, without blanks. -/
def line (text : String) : String :=
  String.ofList (spell ((tokens text).map ρ.token))

/-- **A program under a renaming**: its lines, each under the renaming and ended by a line feed. -/
def source (source : String) : String :=
  Text.unlines ((Text.lines source).map ρ.line)

/-- The declared names under a renaming, in the same order. -/
def scope (scope : Scope) : Scope :=
  ⟨scope.names.map ρ.name, scope.nodup.map ρ.name_injective⟩

/-- **A session under a renaming.** Its records are those of the entries under their new names. -/
def session (s : Session) : Session where
  line := s.line
  scope := ρ.scope s.scope
  nextTemp := s.nextTemp + ρ.shift
  log := s.log.map ρ.entry
  trace := (s.log.map ρ.entry).map Entry.record

/-- **A cause as it is reported under a renaming.** A line that is no assignment is shown as it is
after the renaming. -/
def report : Cause → Cause
  | .invalidAssignment text => .invalidAssignment (ρ.line text)
  | cause => ρ.cause cause

/-- A fault as it is reported under a renaming, at the same line. -/
def verdict : Fault → Fault
  | .rejected d => .rejected ⟨d.line, ρ.report d.cause⟩
  | fault => fault

/-- What a line is read as, under a renaming. -/
def reading : Except Diagnostic Statement → Except Diagnostic Statement
  | .ok stmt => .ok (ρ.statement stmt)
  | .error d => .error ⟨d.line, ρ.report d.cause⟩

/-- **The end of a compilation under a renaming.** -/
def outcome : EStateM.Result Fault Session Unit → EStateM.Result Fault Session Unit
  | .ok () s => .ok () (ρ.session s)
  | .error fault s => .error (ρ.verdict fault) (ρ.session s)

end Definitions

section Lines

variable {r : Identifier ↪ Identifier}

/-- A token that fits its kind does so under its new name. -/
theorem proper_token {t : Token} (h : t.Proper) : ((ofNames r).token t).Proper := by
  cases h with
  | @operand w hne hw =>
    cases hname : isName (String.ofList w) with
    | false =>
      have hsame : (ofNames r).token ⟨.operand, String.ofList w⟩ = ⟨.operand, String.ofList w⟩ :=
        congrArg (Token.mk .operand) (renamed_of_not hname)
      rw [hsame]
      exact .operand hne hw
    | true =>
      obtain ⟨hne', hw'⟩ := isOperandChar_of_isName ((isName_renamed (r := r) _).trans hname)
      have hproper := Token.Proper.operand hne' hw'
      rwa [String.ofList_toList] at hproper
  | @sign c hc =>
    have hname : isName (Token.ofSign c).text = false := by
      cases hname : isName (Token.ofSign c).text with
      | false => rfl
      | true =>
        have hop := (isOperandChar_of_isName hname).2 c (by simp)
        rw [not_isOperandChar_of_isSignChar hc] at hop
        cases hop
    have hsame : (ofNames r).token (Token.ofSign c) = Token.ofSign c :=
      congrArg (Token.mk (Kind.ofChar c)) (renamed_of_not hname)
    rw [hsame]
    exact .sign hc

theorem canonical_tokens (text : String) : Canonical (tokens text) :=
  canonical_readTokens fun _ hc => (Text.mem_dropBlanks.mp hc).2

theorem canonical_map {ts : List Token} (h : Canonical ts) :
    Canonical (ts.map (ofNames r).token) where
  proper := by
    intro t ht
    obtain ⟨u, hu, rfl⟩ := List.mem_map.mp ht
    exact proper_token (h.proper u hu)
  apart := (List.isChain_map _).mpr h.apart

theorem not_isBlank_line (text : String) :
    ∀ c ∈ ((ofNames r).line text).toList, Text.isBlank c = false := by
  rw [line, String.toList_ofList]
  exact not_isBlank_of_mem_spell (canonical_map (canonical_tokens text)).proper

/-- Nothing of a renamed line is blank. -/
theorem dropBlanks_line (text : String) :
    Text.dropBlanks ((ofNames r).line text).toList = ((ofNames r).line text).toList :=
  Text.dropBlanks_eq_self (not_isBlank_line text)

/-- **The tokens of a renamed line are its tokens, renamed.** -/
theorem tokens_line (text : String) :
    tokens ((ofNames r).line text) = (tokens text).map (ofNames r).token := by
  rw [tokens_eq, dropBlanks_line, line, String.toList_ofList]
  exact readTokens_spell (canonical_map (canonical_tokens text))

/-- The blanks of a line are dropped before it is renamed. -/
theorem line_dropBlanks (ρ : Renaming) (text : String) :
    ρ.line (String.ofList (Text.dropBlanks text.toList)) = ρ.line text := by
  simp [line, tokens, Text.dropBlanks]

/-- A sign keeps its text. -/
theorem ofNames_name_equals : (ofNames r).name "=" = "=" := by
  show renamed r "=" = "="
  exact renamed_of_not (by decide)

/-- **A renamed line is the renamed statement**, or no statement for the same cause. -/
theorem parse_line (text : String) (number : Int) :
    Statement.parse ((ofNames r).line text) number =
      (ofNames r).reading (Statement.parse text number) := by
  have hkind : ((fun t : Token => decide (t.kind ≠ .equals)) ∘ (ofNames r).token) =
      fun t => decide (t.kind ≠ .equals) := rfl
  have hshown : (ofNames r).line text =
      (ofNames r).line (String.ofList (Text.dropBlanks text.toList)) :=
    (line_dropBlanks _ text).symm
  have hmissing : (ofNames r).report (.missingOperand "=") = .missingOperand "=" :=
    congrArg (fun x => Cause.missingOperand (some x)) ofNames_name_equals
  simp only [Statement.parse, tokens_line, List.takeWhile_map, List.dropWhile_map, hkind,
    dropBlanks_line, String.ofList_toList]
  generalize (tokens text).takeWhile (fun t => decide (t.kind ≠ .equals)) = target
  cases (tokens text).dropWhile (fun t => decide (t.kind ≠ .equals)) with
  | nil => rfl
  | cons sign value =>
    have hany : (value.map (ofNames r).token).any (·.kind = .equals) =
        value.any (·.kind = .equals) := List.any_map
    simp only [List.map_cons, hany, List.isEmpty_map]
    split
    · rw [hshown]
      rfl
    · split
      · simp only [reading, hmissing]
      · rcases target with _ | ⟨⟨kind, x⟩, _ | ⟨u, target⟩⟩
        · simp only [List.map_nil, hshown, reading, report]
        · cases kind with
          | operand =>
            have hname : isName ((ofNames r).name x) = isName x := isName_renamed x
            simp only [List.map_cons, List.map_nil, token, hname]
            split
            · rfl
            · simp only [hshown, reading, report]
          | _ => simp only [List.map_cons, List.map_nil, token, hshown, reading, report]
        · simp only [List.map_cons, token, hshown, reading, report]

end Lines

/-! ## Sessions -/

section Sessions

variable {r : Identifier ↪ Identifier} {s t t' : Session}

/-- Temporaries keep their names. -/
theorem ofNames_name_temp (t : Temp) : (ofNames r).name t.name = t.name := by
  refine renamed_of_not (Bool.eq_false_iff.mpr fun h => ?_)
  have htemp := isTemporary_of_isName h
  rw [Scope.isTemporary_name] at htemp
  cases htemp

theorem ofNames_temp (t : Temp) : (ofNames r).temp t = t := by
  show (⟨t.id + 0⟩ : Temp) = t
  rw [Int.add_zero]

/-- A renamed instruction declares the renamed name. -/
theorem defined?_instr (i : Instr) :
    ((ofNames r).instr i).defined? = i.defined?.map (ofNames r).name := by
  cases i with
  | alloca slot => rfl
  | store | bareValue | bareSlot => rfl
  | load result | binary _ result | print result =>
    show some ((ofNames r).temp result).name = some ((ofNames r).name result.name)
    rw [ofNames_temp, ofNames_name_temp]

/-- Under a renaming a session begins in correspondence with itself. -/
theorem corresponds_session (ρ : Renaming) (s : Session) :
    Session.Corresponds ρ s (ρ.session s) s (ρ.session s) where
  line_eq := rfl
  nextTemp_eq := rfl
  mem_iff x := by
    have hmem : ρ.name x ∈ ρ.scope s.scope ↔ x ∈ s.scope := by
      simp [Scope.mem_def, scope, ρ.name_injective.eq_iff]
    rw [Scope.mem_sourceNames, Scope.mem_sourceNames, ρ.isTemporary_name]
    exact and_congr_left fun _ => hmem
  log_eq := ⟨[], by simp⟩
  names_eq := ⟨[], by simp⟩

/-- **What corresponds to a session is the session renamed**: the log tells which names are
declared. -/
theorem eq_session (h : Session.Corresponds (ofNames r) s ((ofNames r).session s) t t')
    (ht : InStep t) (ht' : InStep t') (htraced : t'.Traced) : t' = (ofNames r).session t := by
  have hlog : t'.log = t.log.map (ofNames r).entry := by
    obtain ⟨new, hnew, hnew'⟩ := h.log_eq
    rw [hnew, hnew', List.map_append]
    rfl
  have hcode : t'.code = t.code.map (ofNames r).instr := by
    simp [Session.code, hlog, entry]
  have hnames : t'.scope.names = t.scope.names.map (ofNames r).name := by
    rw [ht.names_eq, ht'.names_eq, hcode, List.filterMap_map, List.map_filterMap]
    exact congrArg (List.filterMap · t.code) (funext defined?_instr)
  have htrace : t'.trace = (t.log.map (ofNames r).entry).map Entry.record :=
    hlog ▸ htraced
  obtain ⟨number, ⟨names, hnodup⟩, nextTemp, log, trace⟩ := t'
  obtain rfl : number = t.line := h.line_eq
  obtain rfl : nextTemp = t.nextTemp + (ofNames r).shift := h.nextTemp_eq
  obtain rfl : log = t.log.map (ofNames r).entry := hlog
  obtain rfl : names = t.scope.names.map (ofNames r).name := hnames
  obtain rfl : trace = (t.log.map (ofNames r).entry).map Entry.record := htrace
  rfl

end Sessions

/-! ## What the lines compile to -/

section Compile

variable {ρ : Renaming} {s s' : Session} {fault : Fault}

/-- The faults of expressions show no line. -/
theorem verdict_of_ofOperands (h : fault.OfOperands) : ρ.verdict fault = ρ.fault fault := by
  cases h <;> rfl

theorem value_verdict (f : Fragment) (s : Session) :
    Ensures s f.value (fun _ _ => True) fun fault _ => ρ.verdict fault = ρ.fault fault := by
  have hlower : Ensures s f.lower (fun _ _ => True)
      fun fault _ => ρ.verdict fault = ρ.fault fault := by
    cases hrun : f.lower s with
    | ok x s₁ => exact Ensures.of_ok hrun trivial
    | error fault s₁ =>
      refine Ensures.of_error hrun ?_
      rcases Fragment.lower_fault hrun with h | ⟨side, rfl⟩
      · exact verdict_of_ofOperands h
      · rfl
  refine hlower.bind fun x s₁ _ => ?_
  have hs₁ : s₁.WorksOn s₁.line [] := ⟨rfl, by simp⟩
  exact (Item.fetch_unresolved hs₁ x).mono (fun _ _ _ => trivial) fun _ _ h =>
    verdict_of_ofOperands h.ofOperands

/-- A statement that was read is never reported as no assignment. -/
theorem verdict_of_lower {stmt : Statement} (h : stmt.lower s = .error fault s') :
    ρ.verdict fault = ρ.fault fault := by
  have hlower : Ensures s stmt.lower (fun _ _ => True)
      fun fault _ => ρ.verdict fault = ρ.fault fault := by
    cases stmt with
    | assign target tokens =>
      obtain ⟨s₁, hslot, -⟩ := Session.exists_declareSlot target s
      rw [Statement.lower_assign]
      refine Ensures.bind_of_ok hslot ((value_verdict _ s₁).bind fun v s₂ _ => ?_)
      exact Ensures.of_ok (Session.emit_eq_append ..) trivial
    | print tokens =>
      rw [Statement.lower_print]
      exact (value_verdict _ s).bind fun v s₁ _ => Ensures.of_ok rfl trivial
  exact hlower.fail_of_eq h

end Compile

section Compile

variable {r : Identifier ↪ Identifier} {s : Session}

/-- **A renamed line is compiled to the same, renamed.** -/
theorem compileLine_line (h : InStep s) (h' : InStep ((ofNames r).session s)) (text : String) :
    compileLine ((ofNames r).line text) ((ofNames r).session s) =
      (ofNames r).outcome (compileLine text s) := by
  have hread : Statement.parse ((ofNames r).line text) (((ofNames r).session s).line + 1) =
      (ofNames r).reading (Statement.parse text (s.line + 1)) := parse_line text _
  cases hparse : Statement.parse text (s.line + 1) with
  | error d =>
    rw [hparse] at hread
    rw [compileLine_of_error hparse, compileLine_of_error hread]
    rfl
  | ok stmt =>
    rw [hparse] at hread
    rw [compileLine_of_ok hparse, compileLine_of_ok hread]
    have hnamed : ∀ target tokens, stmt = .assign target tokens →
        Scope.isTemporary target = false := by
      rintro target tokens rfl
      exact isTemporary_of_isName (Statement.parse_eq_assign_iff.mp hparse).1
    have hend := (Statement.together_lower hnamed).run _ _
      (corresponds_session (ofNames r) { s with line := s.line + 1 })
    have hkeeps := Statement.lower_keeps_of_parse (h.setLine (s.line + 1)) hparse
    have hkeeps' := Statement.lower_keeps_of_parse (h'.setLine (s.line + 1)) hread
    show ((ofNames r).statement stmt).lower ((ofNames r).session { s with line := s.line + 1 }) = _
    have hgrows := ((ofNames r).statement stmt).additive_lower.grows
      ((ofNames r).session { s with line := s.line + 1 })
    change Ensures ((ofNames r).session { s with line := s.line + 1 }) _ _ _ at hkeeps'
    generalize hrun : stmt.lower { s with line := s.line + 1 } = e at hend
    generalize hrun' : ((ofNames r).statement stmt).lower
      ((ofNames r).session { s with line := s.line + 1 }) = e' at hend
    cases hend with
    | ok ht =>
      rw [eq_session ht (hkeeps.ok_of_eq hrun).inStep (hkeeps'.ok_of_eq hrun').inStep
        ((hgrows.ok_of_eq hrun').traced rfl)]
      rfl
    | error ht =>
      rw [eq_session ht (hkeeps.fail_of_eq hrun).inStep (hkeeps'.fail_of_eq hrun').inStep
        ((hgrows.fail_of_eq hrun').traced rfl), ← verdict_of_lower hrun]
      rfl

theorem compileLines_line (h : InStep s) (h' : InStep ((ofNames r).session s))
    (texts : List String) :
    compileLines (texts.map (ofNames r).line) ((ofNames r).session s) =
      (ofNames r).outcome (compileLines texts s) := by
  induction texts generalizing s with
  | nil => rfl
  | cons text texts ih =>
    have hline := compileLine_line h h' text
    rw [List.map_cons, compileLines, compileLines]
    cases hrun : compileLine text s with
    | ok u s₁ =>
      rw [hrun] at hline
      have hin := (compileLine_keeps h hrun).1
      have hin' := (compileLine_keeps h' hline).1
      rw [Lowering.bind_of_ok hline, Lowering.bind_of_ok hrun]
      exact ih hin hin'
    | error fault s₁ =>
      rw [hrun] at hline
      rw [Lowering.bind_of_error hline, Lowering.bind_of_error hrun]
      rfl

end Compile

end Renaming

/-- **Compiling commutes with renaming.** For an injective map of names, the renamed program
compiles where the program does, to the same instructions and the same declared names under the new
names. Where it is rejected, so is the renamed program, at the same line for the same cause, told in
the new names. -/
theorem compile_rename (r : Identifier ↪ Identifier) (source : String) :
    compile ((Renaming.ofNames r).source source) =
      (Renaming.ofNames r).outcome (compile source) := by
  have hfree : ∀ l ∈ (Text.lines source).map (Renaming.ofNames r).line,
      Text.BreakFree l.toList := by
    intro l hl c hc
    obtain ⟨text, -, rfl⟩ := List.mem_map.mp hl
    cases hbreak : Text.isBreak c with
    | false => rfl
    | true =>
      have hblank := Renaming.not_isBlank_line text c hc
      rw [Text.isBlank_of_isBreak hbreak] at hblank
      cases hblank
  rw [Renaming.source, compile_unlines hfree]
  exact Renaming.compileLines_line InStep.fresh InStep.fresh (Text.lines source)

example : (Renaming.ofNames
    (Equiv.swap ⟨"x", by decide⟩ ⟨"total", by decide⟩).toEmbedding).source "x = 1\n total*x + x1" =
      "total=1\nx*total+x1\n" := by
  decide +kernel

end Abacus
