import Mathlib.Data.List.Forall2
import Abacus.Proofs.Increment
import Abacus.Proofs.Lexing

/-!
# Other spellings of literals

Where lines compile, their literals may be spelled with other digits of the same value. The lowering
of the lines is followed, step by step, by that of the lines in the other spelling, which passes
through the same sessions. All constants come from literals, so they are in range on the way. No
variable is named by digits, so a literal that is out of range is never taken for one.

## Main definitions

* `Literal.Respells`, `Token.Respells`, `Item.Respells`: other spellings
* `Instr.constants`: the constants in an instruction
* `Session.Orderly`: constants in range, and variables named by names
* `Lowering.Follows`: a step that does what another one does, where that succeeds
* `Line.Respells`: lines with the same tokens up to the spelling of literals

## Main results

* `Literal.read_toString`: a number is read from the digits that it is written with
* `Lowering.Follows.bind`: sequences of steps that follow each other do so
* `Item.follows_fetch`: a literal is fetched as the same constant in every spelling
* `Fragment.follows_value`, `Statement.follows_lower`: expressions and statements
* `compileLines_follows`: lines are compiled in the same way in every spelling
-/

namespace Abacus

/-! ## Spellings of a value -/

namespace Literal

/-- **Two spellings of a literal**: digits of the same value. The new one is short enough to be
read. -/
structure Respells (d d' : List Char) : Prop where
  digits : isDigits d = true
  digits' : isDigits d' = true
  value_eq : Nat.ofDigitChars 10 d' 0 = Nat.ofDigitChars 10 d 0
  length_le : d'.length ≤ 4300

variable {d d' : String}

theorem value_eq_ofDigitChars (cs : List Char) : value cs = Nat.ofDigitChars 10 cs 0 := rfl

/-- A literal that is a constant is the same constant in every spelling. -/
theorem Respells.read_eq {n : Nat} (h : Respells d.toList d'.toList)
    (hread : read d = .ok (some n)) : read d' = .ok (some n) := by
  have hvalue : value d'.toList = value d.toList := h.value_eq
  obtain ⟨-, -, hrange, rfl⟩ := read_eq_some_iff.mp hread
  exact read_eq_some_iff.mpr ⟨h.digits', h.length_le, hvalue ▸ hrange, hvalue.symm⟩

/-- A number is read from the digits that it is written with. -/
theorem read_toString {n : Nat} (h : n ≤ 2147483647) : read (toString n) = .ok (some n) := by
  have hdigits : (toString n).toList = Nat.toDigits 10 n := Nat.toList_repr
  refine read_eq_some_iff.mpr ?_
  rw [hdigits]
  have hvalue : value (Nat.toDigits 10 n) = n := by
    rw [value_eq_ofDigitChars, Nat.ofDigitChars_ten_toDigits]
  refine ⟨?_, ?_, hvalue.symm ▸ h, hvalue.symm⟩
  · have hall : (Nat.toDigits 10 n).all Char.isDigit = true :=
      List.all_eq_true.mpr fun c hc => Nat.isDigit_of_mem_toDigits (by omega) (by omega) hc
    simp [isDigits, hall, Nat.toDigits_ne_nil]
  · have hten : (Nat.toDigits 10 n).length ≤ 10 :=
      (Nat.length_toDigits_le_iff (by omega) (by omega)).mpr (by omega)
    omega

end Literal

/-- A token, or the same literal in another spelling. -/
inductive Token.Respells : Token → Token → Prop where
  | same (t : Token) : Respells t t
  | literal {d d' : String} (h : Literal.Respells d.toList d'.toList) :
    Respells ⟨.operand, d⟩ ⟨.operand, d'⟩

/-- An item, or the same literal in another spelling. -/
inductive Item.Respells : Item → Item → Prop where
  | token {t t' : Token} (h : t.Respells t') : Respells (.token t) (.token t')
  | temp (t : Temp) : Respells (.temp t) (.temp t)

theorem Token.Respells.kind_eq {t t' : Token} (h : t.Respells t') : t'.kind = t.kind := by
  cases h <;> rfl

theorem Item.Respells.kind?_eq {x x' : Item} (h : x.Respells x') : x'.kind? = x.kind? := by
  cases h with
  | token h => exact congrArg some h.kind_eq
  | temp t => rfl

theorem Item.Respells.hasKind_eq {x x' : Item} (h : x.Respells x') (k : Kind) :
    x'.hasKind k = x.hasKind k := by
  rw [hasKind, hasKind, h.kind?_eq]

theorem Item.Respells.isOperand_eq {x x' : Item} (h : x.Respells x') :
    x'.isOperand = x.isOperand := by
  rw [isOperand, isOperand, h.kind?_eq]

theorem Token.forall₂_respells_refl (ts : List Token) : List.Forall₂ Token.Respells ts ts :=
  List.forall₂_same.mpr fun t _ => .same t

/-- What is found in a list is found in one with related elements. -/
theorem any_eq_of_forall₂ {α : Type} {R : α → α → Prop} {p : α → Bool} {l l' : List α}
    (h : List.Forall₂ R l l') (hp : ∀ a a', R a a' → p a' = p a) : l'.any p = l.any p := by
  induction h with
  | nil => rfl
  | cons ha _ ih => rw [List.any_cons, List.any_cons, hp _ _ ha, ih]

/-! ## Constants -/

/-- The constants in a value. -/
def Value.constants : Value → List Int
  | const n => [n]
  | temp _ => []

/-- The constants in an instruction. -/
def Instr.constants : Instr → List Int
  | store value _ | print _ value | bareValue value => value.constants
  | binary _ _ left right => left.constants ++ right.constants
  | alloca _ | load _ _ | bareSlot _ => []

/-- The constants of 32-bit literals. -/
def Literal.InRange (constants : List Int) : Prop :=
  ∀ n ∈ constants, 0 ≤ n ∧ n ≤ 2147483647

theorem Literal.inRange_nil : InRange [] :=
  nofun

/-- Where variables have names, no digit text is a variable. -/
theorem Literal.notMem_of_isDigits {names : List String}
    (hnames : ∀ name ∈ names, isName name = true) {d : String} (hd : isDigits d.toList = true) :
    d ∉ names := by
  intro hmem
  rw [isDigits_of_isName (hnames d hmem)] at hd
  cases hd

/-- **A session in which literals are what they seem**: its constants are in range, and no variable
is named by anything but a name. -/
structure Session.Orderly (s : Session) : Prop where
  inRange : ∀ instr ∈ s.code, Literal.InRange instr.constants
  named : ∀ name ∈ s.scope.sourceNames, isName name = true

namespace Session.Orderly

open Literal (InRange)

variable {s : Session}

theorem fresh : Orderly {} :=
  ⟨by simp [code], by simp [Scope.mem_sourceNames, Scope.mem_def]⟩

theorem setLine (h : Orderly s) (line : Int) : Orderly { s with line := line } :=
  ⟨h.inRange, h.named⟩

theorem append (h : Orderly s) {instr : Instr} (hi : InRange instr.constants) :
    Orderly (s.append instr) := by
  refine ⟨?_, h.named⟩
  rw [append_code]
  exact List.forall_mem_append.mpr ⟨h.inRange, by simpa using hi⟩

theorem define (h : Orderly s) {mk : Temp → Instr} (hmk : ∀ t, InRange (mk t).constants) :
    Orderly (s.define mk) := by
  refine ⟨?_, ?_⟩
  · rw [define_code]
    exact List.forall_mem_append.mpr ⟨h.inRange, by simpa using hmk _⟩
  · rw [define_scope, Scope.sourceNames_insert_name]
    exact h.named

theorem declare (h : Orderly s) {name : String} (hname : isName name = true) :
    Orderly { s with scope := s.scope.insert name } := by
  refine ⟨h.inRange, fun x hx => ?_⟩
  rcases (Scope.mem_sourceNames_insert (isTemporary_of_isName hname)).mp hx with hx | rfl
  · exact h.named x hx
  · exact hname

end Session.Orderly

/-! ## Steps that follow each other -/

namespace Lowering

variable {α β α' β' : Type} {R : α → α' → Prop} {Q : β → β' → Prop}

/-- **The step `y` follows the step `x`**: where `x` succeeds from an orderly session, `y` succeeds
with the same session and a related result, and that session is orderly too. -/
def Follows (R : α → α' → Prop) (x : Lowering α) (y : Lowering α') : Prop :=
  ∀ ⦃s a s'⦄, s.Orderly → x s = .ok a s' → s'.Orderly ∧ ∃ a', y s = .ok a' s' ∧ R a a'

namespace Follows

variable {x : Lowering α} {y : Lowering α'}

theorem pure {a : α} {a' : α'} (h : R a a') : Follows R (pure a) (pure a') := by
  rintro s _ _ hs ⟨⟩
  exact ⟨hs, a', rfl, h⟩

/-- A step that is rejected is followed by every other. -/
theorem reject (cause : Cause) (y : Lowering α') : Follows R (Session.reject cause) y := by
  rintro s a s' - ⟨⟩

theorem emit {instr : Instr} (h : Literal.InRange instr.constants) :
    Follows Eq (Session.emit instr) (Session.emit instr) := by
  rintro s _ _ hs ⟨⟩
  exact ⟨hs.append h, (), rfl, rfl⟩

theorem defining {mk : Temp → Instr} (h : ∀ t, Literal.InRange (mk t).constants) :
    Follows Eq (Session.defining mk) (Session.defining mk) := by
  intro s t s' hs hrun
  rw [Session.defining_run] at hrun
  cases hrun
  exact ⟨hs.define h, _, Session.defining_run .., rfl⟩

/-- **Sequences of steps that follow each other do so.** -/
theorem bind {k : α → Lowering β} {k' : α' → Lowering β'} (hx : Follows R x y)
    (hk : ∀ a a', R a a' → Follows Q (k a) (k' a')) : Follows Q (x >>= k) (y >>= k') := by
  intro s b s' hs hrun
  obtain ⟨a, s₁, ha, hb⟩ := bind_eq_ok_iff.mp hrun
  obtain ⟨hs₁, a', ha', hR⟩ := hx hs ha
  obtain ⟨hs', b', hb', hQ⟩ := hk a a' hR hs₁ hb
  exact ⟨hs', b', bind_eq_ok_iff.mpr ⟨a', s₁, ha', hb'⟩, hQ⟩

end Follows

end Lowering

open Lowering (Follows)

/-! ## Expressions -/

/-- Two values that are the same and in range. -/
def Value.Same (v v' : Value) : Prop :=
  v = v' ∧ Literal.InRange v.constants

/-- **A literal is fetched as the same constant in every spelling.** -/
theorem Item.follows_fetch {x x' : Item} (h : x.Respells x') :
    Follows Value.Same x.fetch x'.fetch := by
  intro s v s' hs hrun
  rcases fetch_eq_ok_iff.mp hrun with ⟨t, rfl, rfl, rfl⟩ | ⟨t, n, rfl, hread, rfl, rfl⟩ |
    ⟨t, rfl, hread, hmem, rfl, rfl⟩
  · cases h
    exact ⟨hs, .temp t, rfl, rfl, Literal.inRange_nil⟩
  · obtain ⟨-, -, hrange, rfl⟩ := Literal.read_eq_some_iff.mp hread
    have hconst : Literal.InRange (Value.const (Literal.value t.text.toList)).constants := by
      simp only [Literal.InRange, Value.constants, List.mem_singleton, forall_eq]
      omega
    cases h with
    | token h =>
      cases h with
      | same t => exact ⟨hs, _, fetch_literal hread, rfl, hconst⟩
      | literal h => exact ⟨hs, _, fetch_literal (h.read_eq hread), rfl, hconst⟩
  · have hs' : (s.define (.load · ⟨t.text⟩)).Orderly :=
      hs.define fun _ => Literal.inRange_nil
    cases h with
    | token h =>
      cases h with
      | same t => exact ⟨hs', _, fetch_variable hread hmem, rfl, Literal.inRange_nil⟩
      | literal h => exact absurd hmem (Literal.notMem_of_isDigits hs.named h.digits)

namespace Fragment

open List (Forall₂)

theorem follows_combine {left left' right right' : Item} (operator operator' : String) (op : BinOp)
    (hl : left.Respells left') (hr : right.Respells right') :
    Follows Eq (combine operator op.mnemonic left right)
      (combine operator' op.mnemonic left' right') := by
  by_cases h : left.isOperand = true ∧ right.isOperand = true
  · rw [combine_of_operands h.1 h.2,
      combine_of_operands (hl.isOperand_eq.trans h.1) (hr.isOperand_eq.trans h.2)]
    refine (Item.follows_fetch hl).bind ?_
    rintro a _ ⟨rfl, ha⟩
    refine (Item.follows_fetch hr).bind ?_
    rintro b _ ⟨rfl, hb⟩
    exact .defining fun t => List.forall_mem_append.mpr ⟨ha, hb⟩
  · have hreject : combine operator op.mnemonic left right =
        Session.reject (.missingOperand operator) := funext fun s => combine_of_not h
    rw [hreject]
    exact .reject _ _

/-- **A sweep follows a sweep** behind items that both have passed. -/
theorem follows_sweeping (k : Kind) (op : BinOp) {before before' rest rest' : List Item}
    (hbefore : Forall₂ Item.Respells before before') (hrest : Forall₂ Item.Respells rest rest') :
    Follows (Forall₂ Item.Respells) (sweeping k op before rest) (sweeping k op before' rest') := by
  fun_induction sweeping k op before rest generalizing before' rest' with
  | case1 before =>
    cases hrest
    rw [sweeping]
    exact .pure (List.forall₂_reverse_iff.mpr hbefore)
  | case2 x hx left before right rest ih =>
    -- both sweeps have stopped at the same sign, with neighbours that correspond
    obtain _ | ⟨hleft, hbefore⟩ := hbefore
    obtain _ | ⟨hx', _ | ⟨hright, hrest⟩⟩ := hrest
    simp only [sweeping, hx'.hasKind_eq, hx, if_true]
    refine (follows_combine _ _ op hleft hright).bind ?_
    rintro t _ rfl
    exact ih t (.cons (.temp t) hbefore) hrest
  | case3 => exact .reject _ _
  | case4 before x rest hx ih =>
    cases hrest with
    | @cons _ x' _ rest' hx' hrest =>
      have hpass : sweeping k op before' (x' :: rest') = sweeping k op (x' :: before') rest' := by
        cases before' <;> cases rest' <;> simp [sweeping, hx'.hasKind_eq, hx]
      rw [hpass]
      exact ih (.cons hx' hbefore) hrest

theorem follows_eliminate {f f' : Fragment} (k : Kind) (op : BinOp)
    (h : Forall₂ Item.Respells f f') :
    Follows (Forall₂ Item.Respells) (f.eliminate k op) (f'.eliminate k op) := by
  rw [eliminate_eq_sweeping, eliminate_eq_sweeping]
  exact follows_sweeping k op .nil h

theorem follows_lowerFlat {f f' : Fragment} (h : Forall₂ Item.Respells f f') :
    Follows Item.Respells f.lowerFlat f'.lowerFlat := by
  have hsingle : ∀ f f' : Fragment, Forall₂ Item.Respells f f' →
      Follows Item.Respells f.single f'.single := by
    rintro _ _ (_ | ⟨hx, _ | ⟨hy, -⟩⟩)
    · exact .reject _ _
    · exact .pure hx
    · exact .reject _ _
  exact (follows_eliminate _ _ h).bind fun _ _ h => (follows_eliminate _ _ h).bind fun _ _ h =>
    (follows_eliminate _ _ h).bind fun _ _ h => (follows_eliminate _ _ h).bind hsingle

theorem splitAt?_respells {f f' front back : Fragment} {k : Kind} (h : Forall₂ Item.Respells f f')
    (hsplit : splitAt? k f = some (front, back)) :
    ∃ front' back', splitAt? k f' = some (front', back') ∧
      Forall₂ Item.Respells front front' ∧ Forall₂ Item.Respells back back' := by
  induction h generalizing front back with
  | nil => cases hsplit
  | @cons x x' f f' hx h ih =>
    by_cases hk : x.hasKind k = true
    · rw [splitAt?, if_pos hk] at hsplit
      cases hsplit
      exact ⟨[], f', by rw [splitAt?, hx.hasKind_eq, if_pos hk], .nil, h⟩
    · rw [splitAt?, if_neg hk] at hsplit
      obtain ⟨parts, hparts, heq⟩ := Option.map_eq_some_iff.mp hsplit
      cases heq
      obtain ⟨front', back', hsplit', hfront, hback⟩ := ih hparts
      refine ⟨x' :: front', back', ?_, .cons hx hfront, hback⟩
      rw [splitAt?, hx.hasKind_eq, if_neg hk, hsplit']
      rfl

theorem follows_closeGroups {f f' : Fragment} (h : Forall₂ Item.Respells f f') :
    Follows (Forall₂ Item.Respells) f.closeGroups f'.closeGroups := by
  induction h with
  | nil => exact .pure .nil
  | @cons x x' f f' hx h ih =>
    by_cases hparen : x.hasKind .leftParen = true
    · rw [closeGroups_cons_leftParen hparen,
        closeGroups_cons_leftParen ((hx.hasKind_eq _).trans hparen)]
      refine ih.bind fun rest rest' hrest => ?_
      cases hsplit : splitAt? .rightParen rest with
      | none => exact .reject _ _
      | some parts =>
        obtain ⟨inside', after', hsplit', hinside, hafter⟩ := splitAt?_respells hrest hsplit
        rw [hsplit']
        exact (follows_lowerFlat hinside).bind fun y y' hy => .pure (.cons hy hafter)
    · have hparen := Bool.eq_false_iff.mpr hparen
      rw [closeGroups_cons_of_not hparen, closeGroups_cons_of_not ((hx.hasKind_eq _).trans hparen)]
      exact ih.bind fun rest rest' hrest => .pure (.cons hx hrest)

theorem follows_lower {f f' : Fragment} (h : Forall₂ Item.Respells f f') :
    Follows Item.Respells f.lower f'.lower := by
  refine (follows_closeGroups h).bind fun g g' hg => ?_
  have hany : g'.any (·.hasKind .rightParen) = g.any (·.hasKind .rightParen) :=
    any_eq_of_forall₂ hg fun _ _ hx => hx.hasKind_eq .rightParen
  rw [hany]
  split
  · exact .reject _ _
  · exact follows_lowerFlat hg

/-- **An expression has the same value in every spelling of its literals.** -/
theorem follows_value {f f' : Fragment} (h : Forall₂ Item.Respells f f') :
    Follows Value.Same f.value f'.value :=
  (follows_lower h).bind fun _ _ hx => Item.follows_fetch hx

end Fragment

/-! ## Statements and lines -/

open List (Forall₂)

/-- A statement, or the same one with other spellings of its literals. -/
inductive Statement.Respells : Statement → Statement → Prop where
  | assign {target : String} {ts ts' : List Token} (hname : isName target = true)
    (h : Forall₂ Token.Respells ts ts') : Respells (.assign target ts) (.assign target ts')
  | print {ts ts' : List Token} (h : Forall₂ Token.Respells ts ts') :
    Respells (.print ts) (.print ts')

theorem Fragment.ofTokens_respells {ts ts' : List Token} (h : Forall₂ Token.Respells ts ts') :
    Forall₂ Item.Respells (ofTokens ts) (ofTokens ts') := by
  rw [ofTokens, ofTokens, List.forall₂_map_left_iff, List.forall₂_map_right_iff]
  exact h.imp fun _ _ => .token

theorem Session.follows_declareSlot {name : String} (hname : isName name = true) :
    Follows Eq (declareSlot name) (declareSlot name) := by
  intro s slot s' hs hrun
  by_cases hmem : name ∈ s.scope
  · rw [declareSlot_of_mem hmem] at hrun ⊢
    cases hrun
    exact ⟨hs, _, rfl, rfl⟩
  · rw [declareSlot_of_notMem hmem] at hrun ⊢
    cases hrun
    exact ⟨(hs.declare hname).append Literal.inRange_nil, _, rfl, rfl⟩

/-- **A statement is lowered in the same way in every spelling of its literals.** -/
theorem Statement.follows_lower {stmt stmt' : Statement} (h : stmt.Respells stmt') :
    Follows Eq stmt.lower stmt'.lower := by
  cases h with
  | assign hname h =>
    rw [lower_assign, lower_assign]
    refine (Session.follows_declareSlot hname).bind ?_
    rintro slot _ rfl
    refine (Fragment.follows_value (Fragment.ofTokens_respells h)).bind ?_
    rintro v _ ⟨rfl, hv⟩
    exact .emit hv
  | print h =>
    rw [lower_print, lower_print]
    refine (Fragment.follows_value (Fragment.ofTokens_respells h)).bind ?_
    rintro v _ ⟨rfl, hv⟩
    have hprint : Follows Eq (Session.defining (.print · v)) (Session.defining (.print · v)) :=
      .defining fun _ => hv
    exact hprint.bind fun _ _ _ => .pure rfl

/-- Two lines with the same tokens up to the spelling of literals. -/
def Line.Respells (text text' : String) : Prop :=
  Forall₂ Token.Respells (tokens text) (tokens text')

section Lines

variable {text text' : String}

theorem Token.Respells.cut {ts ts' : List Token} (h : Forall₂ Token.Respells ts ts') :
    Forall₂ Token.Respells (ts.takeWhile (·.kind ≠ .equals)) (ts'.takeWhile (·.kind ≠ .equals)) ∧
      Forall₂ Token.Respells (ts.dropWhile (·.kind ≠ .equals))
        (ts'.dropWhile (·.kind ≠ .equals)) := by
  induction h with
  | nil => exact ⟨.nil, .nil⟩
  | @cons t t' ts ts' ht h ih =>
    by_cases hkind : t.kind = .equals
    · simpa [hkind, ht.kind_eq] using Forall₂.cons ht h
    · simpa [hkind, ht.kind_eq] using And.imp_left (Forall₂.cons ht) ih

/-- A literal is no target, so a line is the same sort of statement in every spelling. -/
theorem Statement.parse_respells {line : Int} {stmt : Statement} (h : Line.Respells text text')
    (hparse : parse text line = .ok stmt) :
    ∃ stmt', parse text' line = .ok stmt' ∧ stmt.Respells stmt' := by
  obtain ⟨htarget, hvalue⟩ := Token.Respells.cut h
  simp only [parse] at hparse ⊢
  generalize (tokens text).takeWhile (·.kind ≠ .equals) = target,
    (tokens text').takeWhile (·.kind ≠ .equals) = target',
    (tokens text).dropWhile (·.kind ≠ .equals) = value,
    (tokens text').dropWhile (·.kind ≠ .equals) = value' at hparse htarget hvalue ⊢
  cases hvalue with
  | nil =>
    cases hparse
    exact ⟨_, rfl, .print h⟩
  | @cons e e' value value' he hvalue =>
    have hany : value'.any (·.kind = .equals) = value.any (·.kind = .equals) :=
      any_eq_of_forall₂ hvalue fun _ _ ht => by rw [ht.kind_eq]
    have hempty : (target'.isEmpty || value'.isEmpty) = (target.isEmpty || value.isEmpty) := by
      cases htarget <;> cases hvalue <;> rfl
    simp only [hany, hempty] at hparse ⊢
    split_ifs at hparse with hequals hsides
    rw [if_neg hequals, if_neg hsides]
    split at hparse
    next name =>
      split_ifs at hparse with hname
      cases hparse
      rcases htarget with _ | ⟨ht, ⟨⟩⟩
      cases ht with
      | same => exact ⟨_, if_pos hname, .assign hname hvalue⟩
      | literal hd =>
        have hdigits := hd.digits
        rw [isDigits_of_isName hname] at hdigits
        cases hdigits
    next => cases hparse

theorem compileLine_follows (h : Line.Respells text text') :
    Follows Eq (compileLine text) (compileLine text') := by
  intro s u s' hs hrun
  obtain ⟨stmt, hparse, hlower⟩ := exists_parse_of_compileLine hrun
  obtain ⟨stmt', hparse', hstmt⟩ := Statement.parse_respells h hparse
  rw [compileLine_of_ok hparse']
  exact Statement.follows_lower hstmt (hs.setLine _) hlower

/-- **Lines are compiled in the same way in every spelling of their literals.** -/
theorem compileLines_follows {lines lines' : List String} (h : Forall₂ Line.Respells lines lines') :
    Follows Eq (compileLines lines) (compileLines lines') := by
  induction h with
  | nil => exact .pure rfl
  | cons htext _ ih => exact (compileLine_follows htext).bind fun _ _ _ => ih

theorem Line.forall₂_respells_refl (lines : List String) : Forall₂ Line.Respells lines lines :=
  List.forall₂_same.mpr fun text _ => Token.forall₂_respells_refl (tokens text)

end Lines

end Abacus
