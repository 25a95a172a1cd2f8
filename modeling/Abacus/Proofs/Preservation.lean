import Abacus.Proofs.Acceptance
import Abacus.Proofs.Simulation
import Abacus.Proofs.SingleAssignment

/-!
# Compiling keeps the meaning

The code of a source that is compiled does what direct evaluation of its lines does, whatever the
slots hold at first: it prints the same words and leaves the same contents, or it stops in the same
line at an operation without result, after it has printed the same words.

## Main definitions

* `Session.Reaches`: what the code of a session has come to after a line

## Main results

* `existsUnique_readsProgram`: a source that is compiled has one reading
* `compileLine_simulates`, `compileLines_simulates`: the code of a line, and of lines
* `compile_preserves_meaning`: the code of a source
-/

namespace Abacus

open Lowering (Ensures)

/-! ## Readings of lines -/

section Reading

variable {text : String} {p p' : Sentence}

/-- A reading of a line is a reading of its statement. -/
theorem Sentence.Reads.parse (h : Sentence.Reads (Text.dropBlanks text.toList) p) (line : Int) :
    ∃ (cs : List Char) (e : Expr), (∀ c ∈ cs, Text.isBlank c = false) ∧
      Abacus.Reads (fun _ => True) .sum cs e ∧
      ((∃ x, p = .assign x e ∧ isName x = true ∧
          Statement.parse text line = .ok (.assign x (readTokens cs))) ∨
        p = .print e ∧ Statement.parse text line = .ok (.print (readTokens cs))) := by
  have hblank : ∀ c ∈ Text.dropBlanks text.toList, Text.isBlank c = false := fun c hc =>
    (Text.mem_dropBlanks.mp hc).2
  generalize hcs : Text.dropBlanks text.toList = cs at h
  cases h with
  | @assign x r e hx hr =>
    refine ⟨r, e, fun c hc => hblank c (by simp [hcs, hc]), hr, Or.inl ⟨x, rfl, hx, ?_⟩⟩
    exact Statement.parse_eq_assign_iff.mpr
      ⟨hx, r, hcs, hr.generates.ne_nil, hr.generates.equals_notMem, rfl⟩
  | @print cs e hr =>
    refine ⟨cs, e, hcs ▸ hblank, hr, Or.inr ⟨rfl, ?_⟩⟩
    exact Statement.parse_eq_print_iff.mpr (by rw [hcs]; exact ⟨hr.generates.equals_notMem, rfl⟩)

/-- A line has at most one reading. -/
theorem Sentence.Reads.unique (h : Sentence.Reads (Text.dropBlanks text.toList) p)
    (h' : Sentence.Reads (Text.dropBlanks text.toList) p') : p = p' := by
  obtain ⟨cs, e, hblank, he, hparse⟩ := h.parse 0
  obtain ⟨cs', e', hblank', he', hparse'⟩ := h'.parse 0
  have heq : readTokens cs = readTokens cs' → e = e' := by
    intro htokens
    have hcs : cs = cs' := by
      rw [← spell_readTokens_of_noBlank hblank, ← spell_readTokens_of_noBlank hblank', htokens]
    subst hcs
    exact he.unique he' hblank
  rcases hparse with ⟨x, rfl, -, hparse⟩ | ⟨rfl, hparse⟩
  · rcases hparse' with ⟨x', rfl, -, hparse'⟩ | ⟨rfl, hparse'⟩
    · rw [hparse, Except.ok.injEq, Statement.assign.injEq] at hparse'
      rw [hparse'.1, heq hparse'.2]
    · simp [hparse] at hparse'
  · rcases hparse' with ⟨x', rfl, -, hparse'⟩ | ⟨rfl, hparse'⟩
    · simp [hparse] at hparse'
    · rw [hparse, Except.ok.injEq, Statement.print.injEq] at hparse'
      rw [heq hparse']

/-- A valid line has a reading. -/
theorem Line.Valid.exists_reads {declared : List String} {cs : List Char}
    (h : Line.Valid declared cs) : ∃ p, Sentence.Reads cs p := by
  rcases h with h | ⟨x, r, hx, rfl, h⟩
  · obtain ⟨e, he⟩ := h.exists_reads
    exact ⟨.print e, .print (he.mono fun _ _ => trivial)⟩
  · obtain ⟨e, he⟩ := h.exists_reads
    exact ⟨.assign x e, .assign hx (he.mono fun _ _ => trivial)⟩

/-- Lists that are related item by item are known from the first if items are. -/
theorem existsUnique_forall₂ {α β : Type} {R : α → β → Prop} {l : List α}
    (h : ∀ x ∈ l, ∃! y, R x y) : ∃! l', List.Forall₂ R l l' := by
  induction l with
  | nil => exact ⟨[], .nil, fun l' hl' => List.forall₂_nil_left_iff.mp hl'⟩
  | cons x l ih =>
    obtain ⟨y, hy, huy⟩ := h x (by simp)
    obtain ⟨l', hl', hul'⟩ := ih fun z hz => h z (by simp [hz])
    refine ⟨y :: l', .cons hy hl', fun l'' hl'' => ?_⟩
    obtain ⟨y', k, hy', hk, rfl⟩ := List.forall₂_cons_left_iff.mp hl''
    rw [huy y' hy', hul' k hk]

/-- **A source that is compiled has one reading.** -/
theorem existsUnique_readsProgram {source : String} {s : Session}
    (h : compile source = .ok () s) : ∃! program, ReadsProgram source program := by
  have hvalid := (compileLines_accepts (Text.lines source) Session.declares_fresh).mp ⟨s, h⟩
  refine existsUnique_forall₂ fun cs hcs => ?_
  obtain ⟨i, hi⟩ := List.mem_iff_getElem?.mp hcs
  obtain ⟨p, hp⟩ := (hvalid i cs hi).exists_reads
  obtain ⟨text, -, rfl⟩ := List.mem_map.mp hcs
  exact ⟨p, hp, fun p' hp' => hp'.unique hp⟩

end Reading

/-! ## The code of a line -/

section Line

variable {garbage : String → Word} {st : State} {s s' : Session} {m : Machine}

/-- The slot of a target is there before its value is computed, with what the variable holds. -/
theorem Tracks.exists_declareSlot {x : String} (ht : Tracks garbage st s m)
    (hm : s.outcome garbage = .ok m) (hx : isName x = true) :
    ∃ s₁ m₁, Session.declareSlot x s = .ok ⟨x⟩ s₁ ∧ s₁.outcome garbage = .ok m₁ ∧
      Tracks garbage st s₁ m₁ ∧ s₁.line = s.line ∧
      ∀ y, y ∈ s₁.scope.sourceNames ↔ y ∈ s.scope.sourceNames ∨ y = x := by
  have hsource := isTemporary_of_isName hx
  -- a new slot holds garbage, and so does a variable that was never assigned to
  by_cases hmem : x ∈ s.scope
  · have hold := Scope.mem_sourceNames.mpr ⟨hmem, hsource⟩
    refine ⟨s, m, Session.declareSlot_of_mem hmem, hm, ht, rfl, fun y => ?_⟩
    exact ⟨Or.inl, fun h => h.elim id fun hy => hy ▸ hold⟩
  · have hnew : x ∉ s.scope.sourceNames := fun h => hmem (Scope.mem_sourceNames.mp h).1
    obtain ⟨hslot, hcontents⟩ := ht.slots_of_notMem x hnew
    have hnames : ∀ y, y ∈ (s.scope.insert x).sourceNames ↔ y ∈ s.scope.sourceNames ∨ y = x :=
      fun y => Scope.mem_sourceNames_insert hsource
    refine ⟨_, m.write x (garbage x), Session.declareSlot_of_notMem hmem, ?_, ⟨?_, ?_, ?_, ?_⟩,
      rfl, hnames⟩
    · exact Session.outcome_append_eq_ok_iff.mpr ⟨m, hm, by simp [Instr.exec, hslot]⟩
    · intro y hy
      rcases (hnames y).mp hy with hy | rfl
      · exact ht.names y hy
      · exact hx
    · intro y hy
      rcases (hnames y).mp hy with hy | rfl
      · have hne : y ≠ x := fun h => hnew (h ▸ hy)
        rw [Machine.write_slots_of_ne _ _ hne, ht.slots_of_mem y hy]
      · rw [Machine.write_slots_self, hcontents]
    · intro y hy
      obtain ⟨hold, hne⟩ := not_or.mp fun h => hy ((hnames y).mpr h)
      rw [Machine.write_slots_of_ne _ _ hne]
      exact ht.slots_of_notMem y hold
    · exact ht.output_eq

/-- Writing the value of an assignment updates the contents of its target. -/
theorem Tracks.store {x : String} {v : Value} {w : Word} (ht : Tracks garbage st s m)
    (hm : s.outcome garbage = .ok m) (hx : x ∈ s.scope.sourceNames) (hw : m.word? v = some w) :
    ∃ m', (s.append (.store v ⟨x⟩)).outcome garbage = .ok m' ∧
      Tracks garbage { st with contents := Function.update st.contents x w }
        (s.append (.store v ⟨x⟩)) m' := by
  refine ⟨m.write x w, ?_, ht.names, ?_, ?_, ht.output_eq⟩
  · exact Session.outcome_append_eq_ok_iff.mpr
      ⟨m, hm, by simp [Instr.exec, hw, ht.slots_of_mem x hx]⟩
  · intro y hy
    by_cases hyx : y = x
    · subst hyx
      simp
    · simpa [Machine.write_slots_of_ne _ _ hyx, hyx] using ht.slots_of_mem y hy
  · intro y hy
    have hyx : y ≠ x := fun h => hy (h ▸ hx)
    simpa [Machine.write_slots_of_ne _ _ hyx, hyx] using ht.slots_of_notMem y hy

/-- Printing a value puts it at the end of the output. -/
theorem Tracks.print {v : Value} {w : Word} (ht : Tracks garbage st s m)
    (hm : s.outcome garbage = .ok m) (hw : m.word? v = some w) :
    ∃ m', (s.define (.print · v)).outcome garbage = .ok m' ∧
      Tracks garbage { st with output := st.output ++ [w] } (s.define (.print · v)) m' := by
  refine ⟨m.print w, ?_, ⟨by simpa using ht.names, by simpa using ht.slots_of_mem,
    by simpa using ht.slots_of_notMem, by simp [ht.output_eq]⟩⟩
  exact Session.outcome_define_eq_ok_iff.mpr ⟨m, hm, by simp [Instr.exec, hw]⟩

/-- The code of `s` has come to the state `next`, or it has stopped in the current line, after the
output of `st`, if there is none. -/
def Session.Reaches (garbage : String → Word) (st : State) (s : Session) : Option State → Prop
  | some next => ∃ m, s.outcome garbage = .ok m ∧ Tracks garbage next s m
  | none => s.outcome garbage = .error ⟨s.line, .undefined, st.output⟩

/-- **The code of an assignment** computes the value and writes it. -/
theorem Statement.lower_assign_simulates {x : String} {cs : List Char} {e : Expr}
    (hblank : ∀ c ∈ cs, Text.isBlank c = false) (he : Reads (fun _ => True) .sum cs e)
    (hx : isName x = true) (ht : Tracks garbage st s m) (hm : s.outcome garbage = .ok m)
    (h : Statement.lower (.assign x (readTokens cs)) s = .ok () s') :
    s'.line = s.line ∧
    (∀ y, y ∈ s'.scope.sourceNames ↔ y ∈ s.scope.sourceNames ∨ y = x) ∧
    s'.Reaches garbage st ((Sentence.assign x e).exec st) := by
  obtain ⟨u, row, hspells, hrow, hfuse⟩ := he.exists_row hblank
  obtain ⟨s₁, m₁, hslot, hm₁, ht₁, hline, hnames⟩ := ht.exists_declareSlot hm hx
  rw [lower_assign, Lowering.bind_of_ok hslot] at h
  obtain ⟨v, s₂, hv, hstore⟩ := Lowering.bind_eq_ok_iff.mp h
  rw [Session.emit_eq_append] at hstore
  cases hstore
  obtain ⟨hext, hvalue⟩ := (hspells.value_simulates hrow hfuse hm₁ ht₁).ok_of_eq hv
  refine ⟨hext.line_eq.trans hline, ?_, ?_⟩
  · intro y
    rw [Session.append_scope, hext.sourceNames_eq, hnames y]
  · cases heval : e.eval st.contents with
    | none =>
      rw [heval] at hvalue
      simp only [Sentence.exec, heval, Option.map_none]
      exact Machine.run_of_error hvalue (List.prefix_append _ _)
    | some w =>
      rw [heval] at hvalue
      obtain ⟨m₂, hm₂, ht₂, hw⟩ := hvalue
      have hmem : x ∈ s₂.scope.sourceNames := by
        rw [hext.sourceNames_eq]
        exact (hnames x).mpr (Or.inr rfl)
      simp only [Sentence.exec, heval, Option.map_some]
      exact ht₂.store hm₂ hmem hw

/-- **The code of an expression on a line of its own** computes the value and prints it. -/
theorem Statement.lower_print_simulates {cs : List Char} {e : Expr}
    (hblank : ∀ c ∈ cs, Text.isBlank c = false) (he : Reads (fun _ => True) .sum cs e)
    (ht : Tracks garbage st s m) (hm : s.outcome garbage = .ok m)
    (h : Statement.lower (.print (readTokens cs)) s = .ok () s') :
    s'.line = s.line ∧ s'.scope.sourceNames = s.scope.sourceNames ∧
    s'.Reaches garbage st ((Sentence.print e).exec st) := by
  obtain ⟨u, row, hspells, hrow, hfuse⟩ := he.exists_row hblank
  rw [lower_print] at h
  obtain ⟨v, s₁, hv, hprint⟩ := Lowering.bind_eq_ok_iff.mp h
  cases hprint
  obtain ⟨hext, hvalue⟩ := (hspells.value_simulates hrow hfuse hm ht).ok_of_eq hv
  refine ⟨hext.line_eq, ?_, ?_⟩
  · rw [Session.define_scope, Scope.sourceNames_insert_name, hext.sourceNames_eq]
  · cases heval : e.eval st.contents with
    | none =>
      rw [heval] at hvalue
      simp only [Sentence.exec, heval, Option.map_none]
      exact Machine.run_of_error hvalue (List.prefix_append _ _)
    | some w =>
      rw [heval] at hvalue
      obtain ⟨m₁, hm₁, ht₁, hw⟩ := hvalue
      simp only [Sentence.exec, heval, Option.map_some]
      exact ht₁.print hm₁ hw

/-- **The code of a line does what the line says**, or stops in it if that is not defined. -/
theorem compileLine_simulates {text : String} {p : Sentence}
    (hread : Sentence.Reads (Text.dropBlanks text.toList) p) (ht : Tracks garbage st s m)
    (hm : s.outcome garbage = .ok m) (h : compileLine text s = .ok () s') :
    s'.line = s.line + 1 ∧
    (∀ x, x ∈ s'.scope.sourceNames ↔ x ∈ s.scope.sourceNames ∨ p.target? = some x) ∧
    s'.Reaches garbage st (p.exec st) := by
  obtain ⟨cs, e, hblank, he, hparse⟩ := hread.parse (s.line + 1)
  have ht₀ : Tracks garbage st { s with line := s.line + 1 } m :=
    ⟨ht.names, ht.slots_of_mem, ht.slots_of_notMem, ht.output_eq⟩
  rcases hparse with ⟨x, rfl, hx, hparse⟩ | ⟨rfl, hparse⟩
  · rw [compileLine_of_ok hparse] at h
    obtain ⟨hline, hnames, hexec⟩ := Statement.lower_assign_simulates hblank he hx ht₀ hm h
    refine ⟨hline, ?_, hexec⟩
    intro y
    simp [hnames y, Sentence.target?, eq_comm]
  · rw [compileLine_of_ok hparse] at h
    obtain ⟨hline, hnames, hexec⟩ := Statement.lower_print_simulates hblank he ht₀ hm h
    refine ⟨hline, ?_, hexec⟩
    intro y
    simp [hnames, Sentence.target?]

/-! ## The code of a source -/

theorem compileLines_log_le {lines : List String} (hin : InStep s)
    (h : compileLines lines s = .ok () s') : s.log <+: s'.log := by
  induction lines generalizing s with
  | nil =>
    cases h
    exact List.prefix_refl _
  | cons text rest ih =>
    obtain ⟨_, s₁, hline, hrest⟩ := Lowering.bind_eq_ok_iff.mp h
    obtain ⟨hin₁, hle⟩ := compileLine_keeps hin hline
    exact hle.trans (ih hin₁ hrest)

/-- **The code of lines does what they say**, one after the other, and stops where they do. -/
theorem compileLines_simulates {lines : List String} {program : List Sentence}
    (hread : List.Forall₂ Sentence.Reads
      (lines.map fun line => Text.dropBlanks line.toList) program)
    (hin : InStep s) (ht : Tracks garbage st s m) (hm : s.outcome garbage = .ok m)
    (h : compileLines lines s = .ok () s') :
    match State.run (s.line + 1) st program with
    | .ok st' => ∃ m', s'.outcome garbage = .ok m' ∧ Tracks garbage st' s' m' ∧
      ∀ x, x ∈ s'.scope.sourceNames ↔ x ∈ s.scope.sourceNames ∨ x ∈ Sentence.targets program
    | .error stop => s'.outcome garbage = .error stop := by
  induction lines generalizing s st m program with
  | nil =>
    obtain rfl := List.forall₂_nil_left_iff.mp hread
    cases h
    exact ⟨m, hm, ht, fun x => by simp [Sentence.targets]⟩
  | cons text rest ih =>
    obtain ⟨p, program, hp, hrest, rfl⟩ := List.forall₂_cons_left_iff.mp hread
    obtain ⟨_, s₁, hline, hlines⟩ := Lowering.bind_eq_ok_iff.mp h
    obtain ⟨hin₁, -⟩ := compileLine_keeps hin hline
    obtain ⟨hnext, hnames, hexec⟩ := compileLine_simulates hp ht hm hline
    cases hst : p.exec st with
    | none =>
      -- the code has stopped, and the code of later lines does not change that
      rw [hst] at hexec
      have hstop : s₁.outcome garbage = .error ⟨s.line + 1, .undefined, st.output⟩ := hnext ▸ hexec
      simp only [State.run, hst]
      exact Machine.run_of_error hstop (compileLines_log_le hin₁ hlines)
    | some st₁ =>
      rw [hst] at hexec
      obtain ⟨m₁, hm₁, ht₁⟩ := hexec
      have hrun := ih hrest hin₁ ht₁ hm₁ hlines
      rw [hnext] at hrun
      simp only [State.run, hst]
      cases hresult : State.run (s.line + 1 + 1) st₁ program with
      | error stop =>
        rw [hresult] at hrun
        exact hrun
      | ok st' =>
        rw [hresult] at hrun
        obtain ⟨m', hm', ht', hnames'⟩ := hrun
        refine ⟨m', hm', ht', fun x => ?_⟩
        rw [hnames', hnames, Sentence.mem_targets_cons, or_assoc]

end Line

/-- **Compiling keeps the meaning of a source.** A source that is compiled has one reading. Whatever
the slots hold at first, its code ends with the printed words and the contents of the variables
that direct evaluation ends with, or it stops in the same line, after the same words, at an
operation that is not defined. -/
theorem compile_preserves_meaning {source : String} {s : Session}
    (h : compile source = .ok () s) :
    (∃! program, ReadsProgram source program) ∧
    ∀ program, ReadsProgram source program → ∀ garbage : String → Word,
      match State.run 1 ⟨garbage, []⟩ program with
      | .ok st => ∃ m, Machine.run garbage s.log {} = .ok m ∧ m.output = st.output ∧
        ∀ x, m.slots x = if x ∈ Sentence.targets program then some (st.contents x) else none
      | .error stop => Machine.run garbage s.log {} = .error stop ∧ stop.trap = .undefined := by
  refine ⟨existsUnique_readsProgram h, fun program hread garbage => ?_⟩
  have ht : Tracks garbage ⟨garbage, []⟩ {} {} :=
    ⟨by simp [Scope.sourceNames], by simp [Scope.sourceNames], by simp [Scope.sourceNames], rfl⟩
  have hrun := compileLines_simulates hread InStep.fresh ht rfl h
  rw [show (({} : Session).line + 1) = 1 from rfl] at hrun
  cases hresult : State.run 1 ⟨garbage, []⟩ program with
  | error stop =>
    rw [hresult] at hrun
    exact ⟨hrun, State.trap_of_run hresult⟩
  | ok st =>
    rw [hresult] at hrun
    obtain ⟨m, hm, htracks, hnames⟩ := hrun
    refine ⟨m, hm, htracks.output_eq, fun x => ?_⟩
    have hx : x ∈ s.scope.sourceNames ↔ x ∈ Sentence.targets program := by
      rw [hnames x]
      simp [Scope.sourceNames]
    by_cases hmem : x ∈ Sentence.targets program
    · rw [if_pos hmem]
      exact htracks.slots_of_mem x (hx.mpr hmem)
    · rw [if_neg hmem]
      exact (htracks.slots_of_notMem x fun h => hmem (hx.mp h)).1

/-- Three lines, of which the last stops the machine after the second has printed. -/
theorem compile_preserves_meaning_division :
    ∃ s, compile "x = 7\nx - 10\nx / 0" = .ok () s ∧ ∀ garbage : String → Word,
      Machine.run garbage s.log {} = .error ⟨3, .undefined, [-3]⟩ := by
  have hpieces : Text.pieces "x = 7\nx - 10\nx / 0".toList =
      ["x = 7".toList, "x - 10".toList, "x / 0".toList] := by
    decide
  have hlines : strippedLines "x = 7\nx - 10\nx / 0" =
      ["x=7".toList, "x-10".toList, "x/0".toList] := by
    simp only [strippedLines, Text.lines, hpieces]
    decide
  have hseven : Reads (Operand.Valid ["x"]) .sum "7".toList (.operand "7") :=
    (Reads.operand (w := ['7']) (by simp) (by simp [delimiters]) (Or.inl (by decide))).ofAtom .add
  have hx : Reads (Operand.Valid ["x"]) .atom "x".toList (.operand "x") :=
    .operand (w := ['x']) (by simp) (by simp [delimiters]) (Or.inr (by decide))
  have hten : Reads (Operand.Valid ["x"]) .atom "10".toList (.operand "10") :=
    .operand (w := ['1', '0']) (by simp) (by simp [delimiters]) (Or.inl (by decide))
  have hzero : Reads (Operand.Valid ["x"]) .atom "0".toList (.operand "0") :=
    .operand (w := ['0']) (by simp) (by simp [delimiters]) (Or.inl (by decide))
  have hminus : Reads (Operand.Valid ["x"]) .sum "x-10".toList
      (.binary .sub (.operand "x") (.operand "10")) :=
    .single .add (.join .sub (hx.ofAtom .sub) (hten.ofAtom .sdiv))
  have hquotient : Reads (Operand.Valid ["x"]) .sum "x/0".toList
      (.binary .sdiv (.operand "x") (.operand "0")) :=
    .single .add (.single .sub (.join .sdiv (hx.ofAtom .sdiv) (hzero.ofAtom .mul)))
  obtain ⟨s, hs⟩ : ∃ s, compile "x = 7\nx - 10\nx / 0" = .ok () s := by
    refine (compileLines_accepts _ Session.declares_fresh).mpr fun i cs hi => ?_
    rw [show ((Text.lines "x = 7\nx - 10\nx / 0").map fun line =>
      Text.dropBlanks line.toList) = _ from hlines] at hi ⊢
    match i with
    | 0 =>
      cases hi
      exact Or.inr ⟨"x", "7".toList, by decide, rfl, hseven.generates⟩
    | 1 =>
      cases hi
      exact Or.inl hminus.generates
    | 2 =>
      cases hi
      exact Or.inl hquotient.generates
    | n + 3 => simp at hi
  have hread : ReadsProgram "x = 7\nx - 10\nx / 0" [.assign "x" (.operand "7"),
      .print (.binary .sub (.operand "x") (.operand "10")),
      .print (.binary .sdiv (.operand "x") (.operand "0"))] := by
    rw [ReadsProgram, hlines]
    exact .cons (.assign (x := "x") (by decide) (hseven.mono fun _ _ => trivial))
      (.cons (.print (hminus.mono fun _ _ => trivial))
        (.cons (.print (hquotient.mono fun _ _ => trivial)) .nil))
  refine ⟨s, hs, fun garbage => ?_⟩
  simpa [State.run, Sentence.exec, Expr.eval, BinOp.apply, Literal.isDigits, Literal.value] using
    (compile_preserves_meaning hs).2 _ hread garbage

end Abacus
