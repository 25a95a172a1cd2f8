import Abacus.Proofs.Forest

/-!
# What a step adds to a session

A step looks at the line, the scope and the next temporary of a session, but never at its log. It
puts new entries after those that are there, all of them for the current line, and it would put the
same ones after any other log. This holds of every step of a lowering, whether it succeeds or fails,
and so of whole lines.

## Main definitions

* `Session.after`: a session with older entries in front of its log
* `Session.Traced`: the records of a session agree with its log
* `Session.Grows`: a session with more entries for its line
* `Lowering.Additive`: the steps that only add entries, and the same ones after every log
* `Fragment.sweeping`: a sweep as a sequence of steps

## Main results

* `Lowering.Additive.bind`: a sequence of such steps is one
* `Fragment.eliminate_eq_sweeping`: the sweep is the sequence
* `Statement.additive_lower`: lowering a statement only adds entries
* `compileLine_after`, `compileLine_grows`: what this says of a line
* `compileLines_traced`: a record is made of every entry
* `compileLines_eq_error_iff`: compiling fails at the first line that does
* `compileLines_grows`, `exists_compileLine_of_getElem?`: the entries of lines, and those of one
  line
-/

namespace Abacus

open Lowering (Ensures)

/-! ## Sessions with older entries -/

namespace Session

variable {s s' s'' : Session} {older : List Entry}

/-- The session with older entries in front of its log. -/
def after (s : Session) (older : List Entry) : Session :=
  { s with log := older ++ s.log }

@[simp] theorem after_scope : (s.after older).scope = s.scope := rfl

@[simp] theorem after_log : (s.after older).log = older ++ s.log := rfl

theorem append_after (instr : Instr) :
    (s.after older).append instr = (s.append instr).after older := by
  simp [after, append]

theorem define_after (mk : Temp → Instr) :
    (s.after older).define mk = (s.define mk).after older := by
  simp [after, define]

/-- The records of a session are those of its entries. -/
def Traced (s : Session) : Prop :=
  s.trace = s.log.map Entry.record

/-- The session `s'` has more entries than `s`, all of them for the line that both are on, and the
records of these entries. -/
structure Grows (s s' : Session) : Prop where
  line_eq : s'.line = s.line
  log_eq : ∃ new, s'.log = s.log ++ new ∧ s'.trace = s.trace ++ new.map Entry.record ∧
    ∀ e ∈ new, e.line = s.line

namespace Grows

theorem refl (s : Session) : s.Grows s := ⟨rfl, [], by simp, by simp, by simp⟩

theorem trans (h : s.Grows s') (h' : s'.Grows s'') : s.Grows s'' := by
  obtain ⟨hline, new, hlog, htrace, hnew⟩ := h
  obtain ⟨hline', new', hlog', htrace', hnew'⟩ := h'
  refine ⟨hline'.trans hline, new ++ new', by simp [hlog', hlog], by simp [htrace', htrace], ?_⟩
  intro e he
  rcases List.mem_append.mp he with he | he
  · exact hnew e he
  · exact (hnew' e he).trans hline

theorem append (s : Session) (instr : Instr) : s.Grows (s.append instr) :=
  ⟨rfl, [⟨s.line, instr⟩], rfl, rfl, by simp⟩

theorem define (s : Session) (mk : Temp → Instr) : s.Grows (s.define mk) :=
  ⟨rfl, [⟨s.line, mk ⟨s.nextTemp⟩⟩], rfl, rfl, by simp⟩

/-- What only adds entries with their records leaves the records in agreement with the log. -/
theorem traced (h : s.Grows s') (hs : s.Traced) : s'.Traced := by
  obtain ⟨-, new, hlog, htrace, -⟩ := h
  rw [Traced, htrace, hlog, hs, List.map_append]

end Grows

end Session

/-! ## Steps that only add entries -/

namespace Lowering

variable {α β : Type}

/-- The end of a step, with older entries in front of the log. -/
def endAfter (older : List Entry) :
    EStateM.Result Fault Session α → EStateM.Result Fault Session α
  | .ok a s => .ok a (s.after older)
  | .error fault s => .error fault (s.after older)

/-- **A step that only adds entries**, for the current line, and the same ones after every log. -/
structure Additive (x : Lowering α) : Prop where
  run_after : ∀ (older : List Entry) (s : Session), x (s.after older) = endAfter older (x s)
  grows : ∀ s : Session, Ensures s x (fun _ s' => s.Grows s') fun _ s' => s.Grows s'

namespace Additive

variable {x : Lowering α} {f : α → Lowering β}

theorem pure (a : α) : Additive (pure a : Lowering α) :=
  ⟨fun _ _ => rfl, fun s => Ensures.of_ok rfl (.refl s)⟩

theorem reject (cause : Cause) : Additive (Session.reject cause : Lowering α) :=
  ⟨fun _ _ => rfl, fun s => Ensures.of_error rfl (.refl s)⟩

theorem emit (instr : Instr) : Additive (Session.emit instr) where
  run_after older s := by
    rw [Session.emit_eq_append, Session.emit_eq_append, Session.append_after]
    rfl
  grows s := Ensures.of_ok (Session.emit_eq_append ..) (.append s instr)

theorem defining (mk : Temp → Instr) : Additive (Session.defining mk) where
  run_after older s := by
    rw [Session.defining_run, Session.defining_run, Session.define_after]
    rfl
  grows s := Ensures.of_ok (Session.defining_run ..) (.define s mk)

/-- **A sequence of steps that only add entries is one.** -/
theorem bind (hx : Additive x) (hf : ∀ a, Additive (f a)) : Additive (x >>= f) where
  run_after older s := by
    have hafter := hx.run_after older s
    cases h : x s with
    | ok a s₁ =>
      rw [h] at hafter
      rw [bind_of_ok h, bind_of_ok hafter, (hf a).run_after]
    | error fault s₁ =>
      rw [h] at hafter
      rw [bind_of_error h, bind_of_error hafter]
      rfl
  grows s := by
    refine (hx.grows s).bind fun a s₁ h₁ => ?_
    exact ((hf a).grows s₁).mono (fun _ _ h => h₁.trans h) fun _ _ h => h₁.trans h

end Additive

end Lowering

open Lowering (Additive)

/-! ## Expressions -/

theorem Item.additive_fetch (x : Item) : Additive x.fetch where
  run_after older s := by
    cases x with
    | temp t => rfl
    | token t =>
      cases h : Literal.read t.text with
      | error fault => simp [fetch_fault h, Lowering.endAfter]
      | ok n? =>
        cases n? with
        | some n => simp [fetch_literal h, Lowering.endAfter]
        | none =>
          by_cases hv : t.text ∈ s.scope.sourceNames
          · rw [fetch_variable h hv, fetch_variable (s := s.after older) h hv, Session.define_after]
            rfl
          · rw [fetch_undefined h hv, fetch_undefined (s := s.after older) h hv]
            rfl
  grows s := by
    cases h : x.fetch s with
    | error fault s' =>
      rw [eq_of_fetch_eq_error h] at h
      exact Ensures.of_error h (.refl s)
    | ok v s' =>
      refine Ensures.of_ok h ?_
      rcases fetch_eq_ok_iff.mp h with ⟨t, -, -, rfl⟩ | ⟨t, n, -, -, -, rfl⟩ | ⟨t, -, -, -, -, rfl⟩
      · exact .refl _
      · exact .refl _
      · exact .define s _

namespace Fragment

theorem additive_combine (operator : String) (op : BinOp) (left right : Item) :
    Additive (combine operator op.mnemonic left right) := by
  by_cases h : left.isOperand = true ∧ right.isOperand = true
  · rw [combine_of_operands h.1 h.2]
    exact left.additive_fetch.bind fun a => right.additive_fetch.bind fun b => .defining _
  · have hreject : combine operator op.mnemonic left right =
        Session.reject (.missingOperand operator) := funext fun s => combine_of_not h
    rw [hreject]
    exact .reject _

/-- A sweep as a sequence of steps; `before` holds the items already passed, the last one first. -/
def sweeping (k : Kind) (op : BinOp) : (before rest : List Item) → Lowering Fragment
  | before, [] => return before.reverse
  | before, x :: rest =>
    if x.hasKind k then
      match before, rest with
      | left :: before', right :: rest' => do
        let t ← combine x.text op.mnemonic left right
        sweeping k op (.temp t :: before') rest'
      | _, _ => Session.reject (.missingOperand x.text)
    else sweeping k op (x :: before) rest

/-- **The sweep is the sequence of its steps.** -/
theorem eliminate_eq_sweeping (f : Fragment) (k : Kind) (op : BinOp) :
    f.eliminate k op = sweeping k op [] f := by
  have hsweep : ∀ before rest s,
      (∀ f' s', sweepFrom k op.mnemonic before rest s = (⟨f', none⟩, s') →
        sweeping k op before rest s = .ok f' s') ∧
      ∀ f' fault s', sweepFrom k op.mnemonic before rest s = (⟨f', some fault⟩, s') →
        sweeping k op before rest s = .error fault s' := by
    intro before rest s
    fun_induction sweepFrom k op.mnemonic before rest s with
    | case1 before s => simp [sweeping]
    | case2 x s hx left before right rest t s' hc ih =>
      rw [sweeping, if_pos hx]
      simpa only [Lowering.bind_of_ok hc] using ih
    | case3 x s hx left before right rest fault s' hc =>
      rw [sweeping, if_pos hx]
      simp only [Lowering.bind_of_error hc]
      simp
    | case4 before x rest s hx hn =>
      rcases before with _ | ⟨left, before⟩
      · cases rest <;> simp [sweeping, hx]
      · rcases rest with _ | ⟨right, rest⟩
        · simp [sweeping, hx]
        · exact (hn left before right rest rfl rfl).elim
    | case5 before x rest s hx ih =>
      have hpass : sweeping k op before (x :: rest) s = sweeping k op (x :: before) rest s := by
        cases before <;> cases rest <;> simp [sweeping, hx]
      rw [hpass]
      exact ih
  funext s
  obtain ⟨hok, hfail⟩ := hsweep [] f s
  rcases hr : sweepFrom k op.mnemonic [] f s with ⟨⟨f', fault?⟩, s'⟩
  cases fault? with
  | none =>
    rw [hok f' s' hr]
    simp [eliminate, sweep, hr]
  | some fault =>
    rw [hfail f' fault s' hr]
    simp [eliminate, sweep, hr]

theorem additive_eliminate (f : Fragment) (k : Kind) (op : BinOp) :
    Additive (f.eliminate k op) := by
  rw [eliminate_eq_sweeping]
  generalize ([] : List Item) = before
  fun_induction sweeping k op before f with
  | case1 before => exact .pure _
  | case2 x hx left before right rest ih => exact (additive_combine ..).bind ih
  | case3 => exact .reject _
  | case4 before x rest hx ih => exact ih

theorem additive_lowerFlat (f : Fragment) : Additive f.lowerFlat := by
  have hsingle : ∀ f : Fragment, Additive f.single := by
    intro f
    match f with
    | [] => exact .reject _
    | [x] => exact .pure x
    | _ :: y :: _ => exact .reject _
  exact (additive_eliminate ..).bind fun _ => (additive_eliminate ..).bind fun _ =>
    (additive_eliminate ..).bind fun _ => (additive_eliminate ..).bind hsingle

theorem additive_closeGroups (f : Fragment) : Additive f.closeGroups := by
  induction f with
  | nil => exact .pure []
  | cons x f ih =>
    by_cases hx : x.hasKind .leftParen = true
    · rw [closeGroups_cons_leftParen hx]
      refine ih.bind fun rest => ?_
      split
      · exact .reject _
      · exact (additive_lowerFlat _).bind fun _ => .pure _
    · rw [closeGroups_cons_of_not (Bool.eq_false_iff.mpr hx)]
      exact ih.bind fun _ => .pure _

theorem additive_lower (f : Fragment) : Additive f.lower := by
  refine (additive_closeGroups f).bind fun f' => ?_
  split
  · exact .reject _
  · exact additive_lowerFlat f'

theorem additive_value (f : Fragment) : Additive f.value :=
  (additive_lower f).bind Item.additive_fetch

end Fragment

/-! ## Statements and lines -/

theorem Session.additive_declareSlot (name : String) : Additive (Session.declareSlot name) where
  run_after older s := by
    by_cases h : name ∈ s.scope
    · rw [declareSlot_of_mem h, declareSlot_of_mem (s := s.after older) h]
      rfl
    · rw [declareSlot_of_notMem h, declareSlot_of_notMem (s := s.after older) h]
      simp [Lowering.endAfter, after, append]
  grows s := by
    by_cases h : name ∈ s.scope
    · exact Ensures.of_ok (declareSlot_of_mem h) (.refl s)
    · refine Ensures.of_ok (declareSlot_of_notMem h) ⟨rfl, [⟨s.line, .alloca ⟨name⟩⟩], rfl, rfl, ?_⟩
      simp

/-- **Lowering a statement only adds entries.** -/
theorem Statement.additive_lower (stmt : Statement) : Additive stmt.lower := by
  cases stmt with
  | assign target tokens =>
    rw [lower_assign]
    exact (Session.additive_declareSlot target).bind fun slot =>
      (Fragment.additive_value _).bind fun v => .emit _
  | print tokens =>
    rw [lower_print]
    exact (Fragment.additive_value _).bind fun v => (Additive.defining _).bind fun _ => .pure ()

section Line

variable {text : String} {s s' : Session}

/-- A line adds the same entries after every log. -/
theorem compileLine_after (text : String) (s : Session) (older : List Entry) :
    compileLine text (s.after older) = Lowering.endAfter older (compileLine text s) := by
  cases hparse : Statement.parse text (s.line + 1) with
  | error d =>
    rw [compileLine_of_error hparse, compileLine_of_error (s := s.after older) hparse]
    rfl
  | ok stmt =>
    rw [compileLine_of_ok hparse, compileLine_of_ok (s := s.after older) hparse]
    exact stmt.additive_lower.run_after older { s with line := s.line + 1 }

/-- **A line goes on to the next number and adds entries for it**, whether it succeeds or fails. -/
theorem compileLine_grows (text : String) (s : Session) :
    Ensures s (compileLine text) (fun _ s' => Session.Grows { s with line := s.line + 1 } s')
      fun _ s' => Session.Grows { s with line := s.line + 1 } s' := by
  cases hparse : Statement.parse text (s.line + 1) with
  | error d => exact Ensures.of_error (compileLine_of_error hparse) (.refl _)
  | ok stmt => exact Ensures.of_run_eq (compileLine_of_ok hparse) (stmt.additive_lower.grows _)

/-- **A record is made of every entry**, whether the lines are compiled or not. -/
theorem compileLines_traced (lines : List String) (h : s.Traced) :
    Ensures s (compileLines lines) (fun _ s' => s'.Traced) fun _ s' => s'.Traced := by
  induction lines generalizing s with
  | nil => exact Ensures.of_ok rfl h
  | cons text rest ih =>
    have hline : Ensures s (compileLine text) (fun _ s' => s'.Traced) fun _ s' => s'.Traced :=
      (compileLine_grows text s).mono (fun _ _ hs' => hs'.traced h) fun _ _ hs' => hs'.traced h
    exact hline.bind fun _ s' hs' => ih hs'

/-- **Compiling fails at the first line that does**: all lines before it are compiled. -/
theorem compileLines_eq_error_iff {lines : List String} {fault : Fault} :
    compileLines lines s = .error fault s' ↔
      ∃ front text back s₁, lines = front ++ text :: back ∧ compileLines front s = .ok () s₁ ∧
        compileLine text s₁ = .error fault s' := by
  induction lines generalizing s with
  | nil => simp [compileLines]
  | cons line rest ih =>
    cases hline : compileLine line s with
    | error fault₁ s₁ =>
      rw [compileLines, Lowering.bind_of_error hline]
      constructor
      · rintro h
        cases h
        exact ⟨[], line, rest, s, rfl, rfl, hline⟩
      · rintro ⟨_ | ⟨first, front⟩, text, back, s₂, hcut, hfront, htext⟩
        · cases hcut
          cases hfront
          rw [← hline, htext]
        · cases hcut
          rw [compileLines, Lowering.bind_of_error hline] at hfront
          cases hfront
    | ok u s₁ =>
      rw [compileLines, Lowering.bind_of_ok hline, ih]
      constructor
      · rintro ⟨front, text, back, s₂, rfl, hfront, htext⟩
        refine ⟨line :: front, text, back, s₂, rfl, ?_, htext⟩
        rw [compileLines, Lowering.bind_of_ok hline, hfront]
      · rintro ⟨_ | ⟨first, front⟩, text, back, s₂, hcut, hfront, htext⟩
        · cases hcut
          cases hfront
          rw [hline] at htext
          cases htext
        · cases hcut
          rw [compileLines, Lowering.bind_of_ok hline] at hfront
          exact ⟨front, text, back, s₂, rfl, hfront, htext⟩

/-- Lines are compiled in parts. -/
theorem compileLines_append (front back : List String) :
    compileLines (front ++ back) = (do compileLines front; compileLines back) := by
  induction front with
  | nil => simp [compileLines]
  | cons text front ih => simp [compileLines, ih]

/-- Lines that are compiled are compiled in parts. -/
theorem compileLines_of_append {front back : List String}
    (h : compileLines (front ++ back) s = .ok () s') :
    ∃ s₁, compileLines front s = .ok () s₁ ∧ compileLines back s₁ = .ok () s' := by
  rw [compileLines_append] at h
  obtain ⟨_, s₁, hfront, hback⟩ := Lowering.bind_eq_ok_iff.mp h
  exact ⟨s₁, hfront, hback⟩

/-- **Lines that are compiled go on from number to number** and add entries for these numbers. -/
theorem compileLines_grows {lines : List String} (h : compileLines lines s = .ok () s') :
    s'.line = s.line + lines.length ∧
      ∃ new, s'.log = s.log ++ new ∧ ∀ e ∈ new, s.line < e.line ∧ e.line ≤ s'.line := by
  induction lines generalizing s with
  | nil =>
    cases h
    exact ⟨by simp, [], by simp, by simp⟩
  | cons text rest ih =>
    obtain ⟨_, s₁, hline, hrest⟩ := Lowering.bind_eq_ok_iff.mp h
    obtain ⟨hnext, new, hlog, -, hnew⟩ := (compileLine_grows text s).ok_of_eq hline
    obtain ⟨hlast, later, hlog', hlater⟩ := ih hrest
    simp only at hnext hlog hnew
    refine ⟨by rw [hlast, hnext, List.length_cons]; omega, new ++ later, by simp [hlog', hlog], ?_⟩
    intro e he
    rcases List.mem_append.mp he with he | he
    · have := hnew e he
      omega
    · have := hlater e he
      omega

/-- **The entries for a line are those that it adds**: lines before it and after it add entries for
other numbers. -/
theorem exists_compileLine_of_getElem? {lines : List String} (h : compileLines lines {} = .ok () s')
    {i : Nat} (hi : lines[i]? = some text) :
    ∃ s₁ s₂, compileLine text s₁ = .ok () s₂ ∧
      s₂.log = s₁.log ++ s'.log.filter (·.line = (i : Int) + 1) := by
  obtain ⟨hlt, rfl⟩ := List.getElem?_eq_some_iff.mp hi
  rw [← List.take_append_drop i lines, List.drop_eq_getElem_cons hlt, compileLines_append] at h
  obtain ⟨_, s₁, hfront, hrest⟩ := Lowering.bind_eq_ok_iff.mp h
  obtain ⟨_, s₂, hline, hback⟩ := Lowering.bind_eq_ok_iff.mp hrest
  obtain ⟨hnumber, before, hbefore, hle⟩ := compileLines_grows hfront
  obtain ⟨hnext, new, hlog, -, hnew⟩ := (compileLine_grows _ s₁).ok_of_eq hline
  obtain ⟨-, later, hlater, hlt'⟩ := compileLines_grows hback
  have hi : s₁.line = i := by simpa [Nat.min_eq_left (Nat.le_of_lt hlt)] using hnumber
  simp only [hi] at hnext hlog hnew
  refine ⟨s₁, s₂, hline, ?_⟩
  have hnone : s₁.log.filter (·.line = (i : Int) + 1) = [] := by
    refine List.filter_eq_nil_iff.mpr fun e he => ?_
    have := hle e (by simpa [hbefore] using he)
    simp only [decide_eq_true_eq]
    omega
  have hnone' : later.filter (·.line = (i : Int) + 1) = [] := by
    refine List.filter_eq_nil_iff.mpr fun e he => ?_
    have := hlt' e he
    simp only [decide_eq_true_eq]
    omega
  have hall : new.filter (·.line = (i : Int) + 1) = new :=
    List.filter_eq_self.mpr fun e he => by simpa using hnew e he
  rw [hlater, hlog, List.filter_append, List.filter_append, hnone, hnone', hall]
  simp

end Line

end Abacus
