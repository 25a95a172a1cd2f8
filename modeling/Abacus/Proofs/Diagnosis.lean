import Abacus.Proofs.Acceptance
import Abacus.Proofs.Increment
import Abacus.Proofs.Matching

/-!
# Truthful faults

A fault that stops a compilation is about the text of the line it stops in. Lowering works on
fragments in which parts of the text have been replaced, so each item is traced back to the part
that it stands for: a sign stands for itself, an operand for itself and the parentheses around it,
and a temporary for a part with matching parentheses, which the instructions of this line have
computed. What a step complains about is then found in the text.

## Main definitions

* `Fragment.LacksOperand`: a sign without an operand on one of its sides
* `Fault.Truthful`: the faults that a line gives cause for
* `Item.StandsFor`, `Fragment.StandsFor`: the part of an expression that an item stands for, and
  that a fragment stands for
* `Session.WorksOn`: a session in the middle of a line

## Main results

* `Fragment.lowerFlat_truthful`, `Fragment.closeGroups_truthful`, `Fragment.value_truthful`: faults
  of the sweeps, of the groups and of whole expressions are truthful
* `compile_fault_truthful`: the fault of a source is truthful for the line it stops in
-/

namespace Abacus

open Lowering (Ensures)

/-! ## What a line gives cause for -/

namespace Item

/-- The tokens that an operand may end with. -/
def endsOperand (x : Item) : Bool :=
  x.hasKind .operand || x.hasKind .rightParen

/-- The tokens that an operand may begin with. -/
def beginsOperand (x : Item) : Bool :=
  x.hasKind .operand || x.hasKind .leftParen

/-- A sign neither ends nor begins an operand. -/
theorem endsOperand_of_sign {x : Item} (ho : x.isOperand = false) (hp : x.isParen = false) :
    x.endsOperand = false ∧ x.beginsOperand = false := by
  cases x with
  | temp t => cases ho
  | token t =>
    obtain ⟨kind, text⟩ := t
    cases kind <;> simp_all [isOperand, isParen, endsOperand, beginsOperand, hasKind, kind?,
      Kind.isParen, Kind.isOperator]

theorem endsOperand_of_leftParen {x : Item} (h : x.hasKind .leftParen = true) :
    x.endsOperand = false := by
  simp_all [endsOperand, hasKind]

theorem beginsOperand_of_rightParen {x : Item} (h : x.hasKind .rightParen = true) :
    x.beginsOperand = false := by
  simp_all [beginsOperand, hasKind]

theorem isOperand_of_hasKind_sign {x : Item} {op : BinOp} (h : x.hasKind op.sign = true) :
    x.isOperand = false := by
  cases x with
  | temp t => simp at h
  | token t =>
    rw [hasKind, decide_eq_true_eq, kind?, Option.some.injEq] at h
    cases op <;> simp [isOperand, kind?, h, BinOp.sign, Kind.isOperator]

end Item

/-- **An item lacks an operand**, on its left or on its right: there is nothing beside it that an
operand or a group ends or begins with. -/
def Fragment.LacksOperand (f : Fragment) (x : Item) : Prop :=
  ∃ front back, f = front ++ x :: back ∧
    ((∀ y ∈ front.getLast?, y.endsOperand = false) ∨ ∀ y ∈ back.head?, y.beginsOperand = false)

/-- **The faults that a line without blanks gives cause for**, where `targets` are assigned to up to
it and `log` holds the entries that have been emitted for it. -/
inductive Fault.Truthful (cs : List Char) (line : Int) (targets : List String)
    (log : List Entry) : Fault → Prop where
  /-- An operand that is neither a literal that fits nor assigned to. -/
  | undefinedVariable {name : String} (hmem : ⟨.operand, name⟩ ∈ readTokens cs)
    (hliteral : ¬ (Literal.isDigits name.toList = true ∧ Literal.value name.toList ≤ 2147483647))
    (htargets : name ∉ targets) :
    Truthful cs line targets log (.rejected ⟨line, .undefinedVariable name⟩)
  /-- An opening parenthesis without partner. -/
  | missingRight (h : Fragment.OpeningUnmatched (.ofTokens (readTokens cs))) :
    Truthful cs line targets log (.rejected ⟨line, .missingParenthesis .right⟩)
  /-- A closing parenthesis without partner, where all opening ones have partners. -/
  | missingLeft (h : Fragment.ClosingUnmatched (.ofTokens (readTokens cs)))
    (hopen : ¬ Fragment.OpeningUnmatched (.ofTokens (readTokens cs))) :
    Truthful cs line targets log (.rejected ⟨line, .missingParenthesis .left⟩)
  /-- One equals sign with nothing on one of its sides. -/
  | missingSide {l r : List Char} (hcs : cs = l ++ '=' :: r) (hl : '=' ∉ l) (hr : '=' ∉ r)
    (h : l = [] ∨ r = []) :
    Truthful cs line targets log (.rejected ⟨line, .missingOperand "="⟩)
  /-- A sign without an operand on one of its sides. -/
  | missingOperand {op : BinOp}
    (h : Fragment.LacksOperand (.ofTokens (readTokens cs)) (.token (.ofSign op.char))) :
    Truthful cs line targets log
      (.rejected ⟨line, .missingOperand (some (String.singleton op.char))⟩)
  /-- An empty line or an empty group. -/
  | emptyExpression (h : cs = [] ∨ ['(', ')'] <:+: cs) :
    Truthful cs line targets log (.rejected ⟨line, .missingOperand none⟩)
  /-- An operand that is too much. -/
  | missingOperator {name : String} (hmem : ⟨.operand, name⟩ ∈ readTokens cs) :
    Truthful cs line targets log (.rejected ⟨line, .missingOperator (.token ⟨.operand, name⟩)⟩)
  /-- A temporary that is too much, with an instruction of this line that defines it. -/
  | missingOperatorTemp {t : Temp} {e : Entry} (he : e ∈ log) (hline : e.line = line)
    (ht : e.instr.result? = some t) :
    Truthful cs line targets log (.rejected ⟨line, .missingOperator (.temp t)⟩)
  /-- An equals sign in a line that is no assignment. -/
  | invalidAssignment (h : '=' ∈ cs) :
    Truthful cs line targets log (.rejected ⟨line, .invalidAssignment (String.ofList cs)⟩)
  /-- A literal with more digits than are read. -/
  | literalTooLong {digits : String} (hmem : ⟨.operand, digits⟩ ∈ readTokens cs)
    (hdigits : Literal.isDigits digits.toList = true) (hlong : 4300 < digits.toList.length) :
    Truthful cs line targets log (.literalTooLong digits.toList.length)

/-! ## Where items come from -/

/-- An entry for the current line defines the temporary. -/
def Session.DefinesNow (s : Session) (t : Temp) : Prop :=
  ∃ e ∈ s.log, e.line = s.line ∧ e.instr.result? = some t

theorem Session.DefinesNow.grow {s s' : Session} {t : Temp} (h : s.DefinesNow t)
    (hg : s.Grows s') : s'.DefinesNow t := by
  obtain ⟨e, he, hline, ht⟩ := h
  obtain ⟨hsame, new, hlog, -⟩ := hg
  exact ⟨e, by simp [hlog, he], by rw [hsame, hline], ht⟩

/-- **The part of an expression that an item stands for.** -/
inductive Item.StandsFor (s : Session) : Item → Fragment → Prop where
  | sign {t : Token} (h : (Item.token t).isOperand = false) : StandsFor s (.token t) [.token t]
  | operand {t : Token} {c : Fragment} (hk : t.kind = .operand) (hmem : .token t ∈ c)
    (hb : c.Balanced) : StandsFor s (.token t) c
  | temp {t : Temp} {c : Fragment} (ht : s.DefinesNow t) (hne : c ≠ []) (hb : c.Balanced) :
    StandsFor s (.temp t) c

namespace Item.StandsFor

variable {s s' : Session} {x : Item} {c : Fragment}

theorem grow (h : x.StandsFor s c) (hg : s.Grows s') : x.StandsFor s' c := by
  cases h with
  | sign h => exact .sign h
  | operand hk hmem hb => exact .operand hk hmem hb
  | temp ht hne hb => exact .temp (ht.grow hg) hne hb

theorem eq_of_not_isOperand (h : x.StandsFor s c) (hx : x.isOperand = false) : c = [x] := by
  cases h with
  | sign _ => rfl
  | operand hk _ _ => simp [isOperand, kind?, hk, Kind.isOperator, Kind.isParen] at hx
  | temp _ _ _ => cases hx

theorem balanced (h : x.StandsFor s c) (hx : x.isParen = false) : c.Balanced := by
  cases h with
  | sign _ => exact .singleton hx
  | operand _ _ hb => exact hb
  | temp _ _ hb => exact hb

/-- A token of an expression stands for itself. -/
theorem self {t : Token} (h : t.kind ≠ .equals) : (Item.token t).StandsFor s [.token t] := by
  cases ho : (Item.token t).isOperand with
  | false => exact .sign ho
  | true =>
    have hk : t.kind = .operand := by
      obtain ⟨kind, text⟩ := t
      cases kind <;> simp_all [isOperand, kind?, Kind.isOperator, Kind.isParen]
    refine .operand hk (by simp) (.singleton ?_)
    cases hp : (Item.token t).isParen with
    | false => rfl
    | true => simp [isOperand_of_isParen _ hp] at ho

/-- A group stands for what is left of it, with its parentheses. -/
theorem group (h : x.StandsFor s c) {l r : Item} (hl : l.hasKind .leftParen = true)
    (hr : r.hasKind .rightParen = true) (hx : x.isOperand = true) (hc : c.Balanced) :
    x.StandsFor s (l :: c ++ [r]) := by
  cases h with
  | sign h => simp [h] at hx
  | operand hk hmem _ => exact .operand hk (by simp [hmem]) (.group hl hr hc)
  | temp ht _ _ => exact .temp ht (by simp) (.group hl hr hc)

end Item.StandsFor

/-- A fragment stands for the parts of its items, one after the other. -/
inductive Fragment.StandsFor (s : Session) : Fragment → Fragment → Prop where
  | nil : StandsFor s [] []
  | cons {x : Item} {c f o : Fragment} (hx : x.StandsFor s c) (hf : StandsFor s f o) :
    StandsFor s (x :: f) (c ++ o)

namespace Fragment.StandsFor

variable {s s' : Session} {f g o o' : Fragment} {x : Item}

theorem grow (h : StandsFor s f o) (hg : s.Grows s') : StandsFor s' f o := by
  induction h with
  | nil => exact .nil
  | cons hx _ ih => exact .cons (hx.grow hg) ih

theorem append (h : StandsFor s f o) (h' : StandsFor s g o') : StandsFor s (f ++ g) (o ++ o') := by
  induction h with
  | nil => exact h'
  | cons hx _ ih =>
    rw [List.cons_append, List.append_assoc]
    exact .cons hx ih

theorem exists_of_cons (h : StandsFor s (x :: f) o) :
    ∃ c o', o = c ++ o' ∧ x.StandsFor s c ∧ StandsFor s f o' := by
  cases h with
  | cons hx hf => exact ⟨_, _, rfl, hx, hf⟩

theorem exists_of_append (h : StandsFor s (f ++ g) o) :
    ∃ o₁ o₂, o = o₁ ++ o₂ ∧ StandsFor s f o₁ ∧ StandsFor s g o₂ := by
  induction f generalizing o with
  | nil => exact ⟨[], o, rfl, .nil, h⟩
  | cons x f ih =>
    obtain ⟨c, o', rfl, hx, hrest⟩ := h.exists_of_cons
    obtain ⟨o₁, o₂, rfl, hf, hg⟩ := ih hrest
    exact ⟨c ++ o₁, o₂, by simp, .cons hx hf, hg⟩

theorem eq_nil (h : StandsFor s [] o) : o = [] := by
  cases h
  rfl

/-- Without parentheses in it, a fragment stands for a balanced part. -/
theorem balanced (h : StandsFor s f o) (hf : ∀ x ∈ f, x.isParen = false) : o.Balanced := by
  induction h with
  | nil => exact .nil
  | cons hx _ ih => exact (hx.balanced (hf _ (by simp))).append (ih fun x hx => hf x (by simp [hx]))

/-- Without openings in it, a fragment stands for a part in which every opening has a partner. -/
theorem not_openingUnmatched (h : StandsFor s f o) (hf : ∀ x ∈ f, x.hasKind .leftParen = false) :
    ¬ OpeningUnmatched o := by
  rintro ⟨front, l, back, heq, hl, hnone⟩
  induction h generalizing front back with
  | nil => simp at heq
  | @cons x c f o hx hrest ih =>
    have hlater : ∀ x ∈ f, x.hasKind .leftParen = false := fun x hx => hf x (by simp [hx])
    rcases List.append_eq_append_iff.mp heq with ⟨d, rfl, hd⟩ | ⟨d, rfl, hd⟩
    · exact ih hlater d back hd hnone
    · rcases List.cons_eq_append_iff.mp hd with ⟨rfl, rfl⟩ | ⟨d', rfl, rfl⟩
      · exact ih hlater [] back rfl hnone
      · cases hp : x.isParen with
        | true =>
          have hsign : x.isOperand = false := x.isOperand_of_isParen hp
          have hsingle := hx.eq_of_not_isOperand hsign
          have hmem : l ∈ [x] := hsingle ▸ (by simp)
          rw [List.mem_singleton.mp hmem, hf x (by simp)] at hl
          cases hl
        | false =>
          obtain ⟨inside, r, rest, rfl, hr, hb⟩ := (hx.balanced hp).exists_closing hl
          exact hnone inside r (rest ++ o) (by simp) hr hb

end Fragment.StandsFor

/-! ## Steps in the middle of a line -/

/-- The session is on the line with this number, and `targets` are declared. -/
structure Session.WorksOn (s : Session) (line : Int) (targets : List String) : Prop where
  line_eq : s.line = line
  declared : ∀ x ∈ targets, x ∈ s.scope.sourceNames

/-- The fault of an item that has no value where `targets` are declared. -/
def Item.Unresolved (line : Int) (targets : List String) (x : Item) (fault : Fault) : Prop :=
  ∃ t, x = .token t ∧ (Literal.read t.text = .error fault ∨
    Literal.read t.text = .ok none ∧ t.text ∉ targets ∧
      fault = .rejected ⟨line, .undefinedVariable t.text⟩)

section Steps

variable {s : Session} {line : Int} {targets : List String}

theorem Item.fetch_unresolved (hs : s.WorksOn line targets) (x : Item) :
    Ensures s x.fetch (fun _ s' => s'.WorksOn line targets)
      fun fault _ => x.Unresolved line targets fault := by
  cases hf : x.fetch s with
  | ok v s' =>
    refine Ensures.of_ok hf ⟨?_, ?_⟩
    · exact ((x.additive_fetch.grows s).ok_of_eq hf).line_eq.trans hs.line_eq
    · rw [Fragment.sourceNames_of_fetch hf]
      exact hs.declared
  | error fault s' =>
    refine Ensures.of_error hf ?_
    cases x with
    | temp t => simp at hf
    | token t =>
      refine ⟨t, rfl, ?_⟩
      cases hread : Literal.read t.text with
      | error fault' =>
        rw [fetch_fault hread] at hf
        cases hf
        exact Or.inl rfl
      | ok n? =>
        cases n? with
        | some n => simp [fetch_literal hread] at hf
        | none =>
          by_cases hv : t.text ∈ s.scope.sourceNames
          · simp [fetch_variable hread hv] at hf
          · rw [fetch_undefined hread hv, hs.line_eq] at hf
            cases hf
            exact Or.inr ⟨rfl, fun hmem => hv (hs.declared _ hmem), rfl⟩

/-- A combination defines its result for the line. It fails at a neighbour that is no operand, or at
one that has no value. -/
theorem Fragment.combine_unresolved (hs : s.WorksOn line targets) {operator : String} {op : BinOp}
    {left right : Item} :
    Ensures s (combine operator op.mnemonic left right)
      (fun t s' => s'.WorksOn line targets ∧ s'.DefinesNow t)
      fun fault _ => (left.isOperand = false ∨ right.isOperand = false) ∧
          fault = .rejected ⟨line, .missingOperand operator⟩ ∨
        ∃ y, (y = left ∨ y = right) ∧ y.isOperand = true ∧ y.Unresolved line targets fault := by
  by_cases ho : left.isOperand = true ∧ right.isOperand = true
  · rw [combine_of_operands ho.1 ho.2]
    refine ((Item.fetch_unresolved hs left).mono (fun _ _ h => h) fun fault _ h =>
      Or.inr ⟨left, Or.inl rfl, ho.1, h⟩).bind fun a s₁ hs₁ => ?_
    refine ((Item.fetch_unresolved hs₁ right).mono (fun _ _ h => h) fun fault _ h =>
      Or.inr ⟨right, Or.inr rfl, ho.2, h⟩).bind fun b s₂ hs₂ => ?_
    refine Ensures.of_ok (Session.defining_run ..) ⟨⟨hs₂.line_eq, by simpa using hs₂.declared⟩, ?_⟩
    exact ⟨⟨s₂.line, .binary op ⟨s₂.nextTemp⟩ a b⟩, by simp, rfl, rfl⟩
  · refine Ensures.of_error (combine_of_not ho) (Or.inl ⟨?_, by rw [hs.line_eq]⟩)
    simpa [imp_iff_not_or] using ho

end Steps

/-! ## Blame found in the text -/

/-- What is read as no literal is none, or one that is too great. -/
theorem Literal.not_of_read_eq_none {text : String} (h : read text = .ok none) :
    ¬ (isDigits text.toList = true ∧ value text.toList ≤ 2147483647) := by
  rintro ⟨hd, hv⟩
  by_cases hl : text.toList.length ≤ 4300
  · rw [read_eq_some_iff.mpr ⟨hd, hl, hv, rfl⟩] at h
    cases h
  · rw [read_eq_error_iff.mpr ⟨hd, Nat.lt_of_not_le hl, rfl⟩] at h
    cases h

section Blame

variable {s : Session} {cs : List Char} {line : Int} {targets : List String} {log : List Entry}
  {fault : Fault} {x : Item}

theorem mem_ofTokens {t : Token} {ts : List Token} : .token t ∈ Fragment.ofTokens ts ↔ t ∈ ts := by
  simp [Fragment.ofTokens]

/-- An operand of the text without a value. -/
theorem Item.Unresolved.truthful (h : x.Unresolved line targets fault) (ho : x.isOperand = true)
    {c : Fragment} (hx : x.StandsFor s c) (hc : ∀ y ∈ c, y ∈ Fragment.ofTokens (readTokens cs)) :
    fault.Truthful cs line targets log := by
  obtain ⟨⟨kind, text⟩, rfl, h⟩ := h
  cases hx with
  | sign hsign => simp [hsign] at ho
  | operand hk hmem _ =>
    obtain rfl : kind = .operand := hk
    have hmem : ⟨.operand, text⟩ ∈ readTokens cs := mem_ofTokens.mp (hc _ hmem)
    rcases h with hread | ⟨hread, htargets, rfl⟩
    · obtain ⟨hdigits, hlong, rfl⟩ := Literal.read_eq_error_iff.mp hread
      exact .literalTooLong hmem hdigits hlong
    · exact .undefinedVariable hmem (Literal.not_of_read_eq_none hread) htargets

/-- A sign of the text that lacks an operand. -/
theorem Fragment.LacksOperand.truthful {op : BinOp}
    (h : LacksOperand (.ofTokens (readTokens cs)) x) (hx : x.hasKind op.sign = true) :
    Fault.Truthful cs line targets log (.rejected ⟨line, .missingOperand (some x.text)⟩) := by
  obtain ⟨front, back, heq, hside⟩ := h
  cases x with
  | temp t => simp at hx
  | token t =>
    have hmem : t ∈ readTokens cs := mem_ofTokens.mp (by simp [heq])
    have hkind : t.kind = Kind.ofChar op.char := by
      rw [op.ofChar_char]
      exact Item.hasKind_token.mp hx
    have htext : t.text = String.singleton op.char := by
      rw [← String.toList_inj, (proper_of_mem_readTokens hmem).text_eq hkind op.isSignChar_char]
      simp
    obtain rfl : t = Token.ofSign op.char := by
      obtain ⟨kind, text⟩ := t
      simp_all [Token.ofSign]
    exact .missingOperand ⟨front, back, heq, hside⟩

/-- A second item of the text, or a temporary of the line. -/
theorem Item.StandsFor.truthful (hs : s.line = line) (ho : x.isOperand = true) {c : Fragment}
    (hx : x.StandsFor s c) (hc : ∀ y ∈ c, y ∈ Fragment.ofTokens (readTokens cs)) :
    Fault.Truthful cs line targets s.log (.rejected ⟨line, .missingOperator x⟩) := by
  cases hx with
  | sign hsign => simp [hsign] at ho
  | @operand t _ hk hmem _ =>
    obtain ⟨kind, text⟩ := t
    obtain rfl : kind = .operand := hk
    exact .missingOperator (mem_ofTokens.mp (hc _ hmem))
  | temp ht _ _ =>
    obtain ⟨e, he, hline, hresult⟩ := ht
    exact .missingOperatorTemp he (hline.trans hs) hresult

/-- Two parentheses of the text with nothing between them. -/
theorem Fault.Truthful.of_emptyGroup (hblank : ∀ c ∈ cs, Text.isBlank c = false)
    {front back : Fragment} {l r : Item}
    (h : Fragment.ofTokens (readTokens cs) = front ++ l :: r :: back)
    (hl : l.hasKind .leftParen = true) (hr : r.hasKind .rightParen = true) :
    Fault.Truthful cs line targets log (.rejected ⟨line, .missingOperand none⟩) := by
  obtain ⟨ts, rest, hcut, rfl, hrest⟩ := List.map_eq_append_iff.mp h
  obtain ⟨t, rest', rfl, rfl, hrest'⟩ := List.map_eq_cons_iff.mp hrest
  obtain ⟨u, us, rfl, rfl, rfl⟩ := List.map_eq_cons_iff.mp hrest'
  have htext : ∀ {t : Token} {c : Char}, t ∈ readTokens cs →
      (Item.token t).hasKind (Kind.ofChar c) = true → isSignChar c = true → t.text.toList = [c] :=
    fun hmem hk hc => (proper_of_mem_readTokens hmem).text_eq (Item.hasKind_token.mp hk) hc
  have ht : t.text.toList = ['('] := htext (by simp [hcut]) hl (by decide)
  have hu : u.text.toList = [')'] := htext (by simp [hcut]) hr (by decide)
  refine .emptyExpression (Or.inr ⟨spell ts, spell us, ?_⟩)
  rw [← spell_readTokens_of_noBlank hblank, hcut]
  simp [ht, hu]

end Blame

/-! ## Expressions -/

namespace Fragment

section Expression

variable {s : Session} {cs : List Char} {line : Int} {targets : List String}

/-- What a sweep keeps of a level: it stands for the part `o` of the text. The faults are truthful
if the text around the level begins and ends no operand beside it. -/
theorem sweepInvariant_truthful (op : BinOp) {front o back : Fragment}
    (hwhole : ofTokens (readTokens cs) = front ++ (o ++ back))
    (hfront : ∀ y ∈ front.getLast?, y.endsOperand = false)
    (hback : ∀ y ∈ back.head?, y.beginsOperand = false) :
    SweepInvariant op.sign op
      (fun f s => s.WorksOn line targets ∧ StandsFor s f o ∧ ∀ y ∈ f, y.isParen = false)
      fun fault s => fault.Truthful cs line targets s.log where
  edge {f g x s} _ hx hedge h := by
    obtain ⟨hs, hf, -⟩ := h
    obtain ⟨o₁, o₂, rfl, hf₁, hf₂⟩ := hf.exists_of_append
    obtain ⟨c, o₃, rfl, hsign, hg⟩ := hf₂.exists_of_cons
    obtain rfl := hsign.eq_of_not_isOperand (Item.isOperand_of_hasKind_sign hx)
    rw [hs.line_eq]
    refine LacksOperand.truthful ?_ hx
    rcases hedge with rfl | rfl
    · obtain rfl := hf₁.eq_nil
      exact ⟨front, o₃ ++ back, by simpa using hwhole, Or.inl hfront⟩
    · obtain rfl := hg.eq_nil
      exact ⟨front ++ o₁, back, by simpa using hwhole, Or.inr hback⟩
  step {f g left x right s} _ _ hx h := by
    obtain ⟨hs, hf, hparen⟩ := h
    obtain ⟨o₁, rest, rfl, hf₁, hrest⟩ := hf.exists_of_append
    obtain ⟨cl, rest', rfl, hl, hrest'⟩ := hrest.exists_of_cons
    obtain ⟨c, rest'', rfl, hsign, hrest''⟩ := hrest'.exists_of_cons
    obtain ⟨cr, o₂, rfl, hr, hg⟩ := hrest''.exists_of_cons
    obtain rfl := hsign.eq_of_not_isOperand (Item.isOperand_of_hasKind_sign hx)
    have hpl := hparen left (by simp)
    have hpr := hparen right (by simp)
    refine ((combine_unresolved hs).and ((additive_combine ..).grows s)).mono ?_ ?_
    · rintro t s' ⟨⟨hs', ht⟩, hgrows⟩
      have hb : Balanced (cl ++ ([x] ++ cr)) :=
        (hl.balanced hpl).append
          ((Balanced.singleton (hparen x (by simp))).append (hr.balanced hpr))
      have htemp : Item.StandsFor s' (.temp t) (cl ++ ([x] ++ cr)) := .temp ht (by simp) hb
      refine ⟨hs', ?_, ?_⟩
      · simpa using (hf₁.grow hgrows).append (.cons htemp (hg.grow hgrows))
      · intro y hy
        rcases List.mem_append.mp hy with hy | hy
        · exact hparen y (by simp [hy])
        · rcases List.mem_cons.mp hy with rfl | hy
          · rfl
          · exact hparen y (by simp [hy])
    · rintro fault s' ⟨⟨ho, rfl⟩ | ⟨y, hy, ho, hfault⟩, -⟩
      · refine LacksOperand.truthful ?_ hx
        rcases ho with ho | ho
        · obtain rfl := hl.eq_of_not_isOperand ho
          refine ⟨front ++ (o₁ ++ [left]), cr ++ o₂ ++ back, by simpa using hwhole, Or.inl ?_⟩
          simpa using (Item.endsOperand_of_sign ho hpl).1
        · obtain rfl := hr.eq_of_not_isOperand ho
          refine ⟨front ++ (o₁ ++ cl), right :: (o₂ ++ back), by simpa using hwhole, Or.inr ?_⟩
          simpa using (Item.endsOperand_of_sign ho hpr).2
      · rcases hy with rfl | rfl
        · exact hfault.truthful ho hl fun z hz => by simp [hwhole, hz]
        · exact hfault.truthful ho hr fun z hz => by simp [hwhole, hz]

/-- **Faults of the four sweeps are truthful**, and what is left stands for the whole level. -/
theorem lowerFlat_truthful {f front o back : Fragment}
    (hwhole : ofTokens (readTokens cs) = front ++ (o ++ back))
    (hfront : ∀ y ∈ front.getLast?, y.endsOperand = false)
    (hback : ∀ y ∈ back.head?, y.beginsOperand = false)
    (hs : s.WorksOn line targets) (hf : StandsFor s f o) (hparen : ∀ y ∈ f, y.isParen = false)
    (hnil : o = [] → ∀ log, Fault.Truthful cs line targets log
      (.rejected ⟨line, .missingOperand none⟩)) :
    Ensures s f.lowerFlat
      (fun x s' => s'.WorksOn line targets ∧ x.isOperand = true ∧ x.StandsFor s' o)
      fun fault s' => fault.Truthful cs line targets s'.log := by
  refine SweepInvariant.lowerFlat (fun op => sweepInvariant_truthful op hwhole hfront hback)
    ⟨hs, hf, hparen⟩ ?_ ?_ ?_
  · rintro s' ⟨hs', hf', -⟩
    rw [hs'.line_eq]
    exact hnil hf'.eq_nil s'.log
  · rintro x y g s' ⟨hs', hf', hparen'⟩ hsign
    obtain ⟨c, o', rfl, -, hrest⟩ := hf'.exists_of_cons
    obtain ⟨d, o'', rfl, hy, -⟩ := hrest.exists_of_cons
    have ho : y.isOperand = true :=
      Item.isOperand_of_forall_not (hsign y (by simp)) (hparen' y (by simp))
    rw [hs'.line_eq]
    exact hy.truthful hs'.line_eq ho fun z hz => by simp [hwhole, hz]
  · rintro x s' ⟨hs', hf', hparen'⟩ hsign
    obtain ⟨c, o', rfl, hx, hrest⟩ := hf'.exists_of_cons
    obtain rfl := hrest.eq_nil
    refine ⟨hs', Item.isOperand_of_forall_not hsign (hparen' x (by simp)), ?_⟩
    simpa using hx

/-- **Faults of a group are truthful**, and what is left of it stands for the group. -/
theorem group_truthful (hblank : ∀ c ∈ cs, Text.isBlank c = false) {inside front o back : Fragment}
    {l r : Item} (hl : l.hasKind .leftParen = true) (hr : r.hasKind .rightParen = true)
    (hwhole : ofTokens (readTokens cs) = front ++ l :: (o ++ r :: back))
    (hs : s.WorksOn line targets) (hf : StandsFor s inside o)
    (hparen : ∀ y ∈ inside, y.isParen = false) :
    Ensures s inside.lowerFlat
      (fun x s' => s'.WorksOn line targets ∧ s.Grows s' ∧ x.isOperand = true ∧
        x.StandsFor s' (l :: o ++ [r]))
      fun fault s' => fault.Truthful cs line targets s'.log := by
  have hlevel : ofTokens (readTokens cs) = (front ++ [l]) ++ (o ++ r :: back) := by
    simpa using hwhole
  have hflat := lowerFlat_truthful hlevel (by simpa using Item.endsOperand_of_leftParen hl)
    (by simpa using Item.beginsOperand_of_rightParen hr) hs hf hparen (by
      rintro rfl log
      exact .of_emptyGroup hblank hwhole hl hr)
  refine (hflat.and ((additive_lowerFlat _).grows s)).mono ?_ fun _ _ h => h.1
  rintro x s' ⟨⟨hs', ho, hx⟩, hgrows⟩
  exact ⟨hs', hgrows, ho, hx.group hl hr ho (hf.balanced hparen)⟩

/-- **Faults of closing the groups are truthful**, and every opening that was closed has a
partner. -/
theorem closeGroups_truthful (hblank : ∀ c ∈ cs, Text.isBlank c = false) {ts : List Token}
    (hequals : ∀ t ∈ ts, t.kind ≠ .equals) (front : Fragment)
    (hwhole : ofTokens (readTokens cs) = front ++ ofTokens ts) (hs : s.WorksOn line targets) :
    Ensures s (ofTokens ts).closeGroups
      (fun f s' => s'.WorksOn line targets ∧ StandsFor s' f (ofTokens ts) ∧
        ∀ y ∈ f, y.hasKind .leftParen = false)
      fun fault s' => fault.Truthful cs line targets s'.log := by
  induction ts generalizing front with
  | nil => exact Ensures.of_ok rfl ⟨hs, .nil, by simp⟩
  | cons t ts ih =>
    have hcons : ofTokens (t :: ts) = .token t :: ofTokens ts := rfl
    rw [hcons] at hwhole ⊢
    have hrest := ih (fun u hu => hequals u (by simp [hu])) (front ++ [.token t])
      (by simpa using hwhole)
    by_cases hl : (Item.token t).hasKind .leftParen = true
    · rw [closeGroups_cons_leftParen hl]
      refine hrest.bind ?_
      rintro rest s₁ ⟨hs₁, hstands, hopen⟩
      cases hsplit : splitAt? .rightParen rest with
      | none =>
        have hparen : ∀ y ∈ rest, y.isParen = false := fun y hy => by
          simp [Item.isParen_eq, hopen y hy, splitAt?_eq_none_iff.mp hsplit y hy]
        refine Ensures.of_error rfl ?_
        rw [hs₁.line_eq]
        refine .missingRight ?_
        rw [hwhole]
        exact openingUnmatched_of_balanced hl (hstands.balanced hparen)
      | some parts =>
        obtain ⟨r, hr, rfl, hinside⟩ := eq_append_of_splitAt? hsplit
        have hparen : ∀ y ∈ parts.1, y.isParen = false := fun y hy => by
          simp [Item.isParen_eq, hinside y hy, hopen y (by simp [hy])]
        obtain ⟨o, rest', heq, hfront, hrest'⟩ := hstands.exists_of_append
        obtain ⟨c, back, rfl, hclose, hback⟩ := hrest'.exists_of_cons
        obtain rfl := hclose.eq_of_not_isOperand
          (r.isOperand_of_isParen (by simp [Item.isParen_eq, hr]))
        refine (group_truthful hblank hl hr (by rw [hwhole, heq]; rfl) hs₁ hfront hparen).bind ?_
        rintro y s₂ ⟨hs₂, hgrows, ho, hy⟩
        refine Ensures.of_ok rfl ⟨hs₂, ?_, ?_⟩
        · rw [heq]
          simpa using Fragment.StandsFor.cons hy (hback.grow hgrows)
        · intro z hz
          rcases List.mem_cons.mp hz with rfl | hz
          · cases hleft : z.hasKind .leftParen with
            | false => rfl
            | true => simp [z.isOperand_of_isParen (by simp [Item.isParen_eq, hleft])] at ho
          · exact hopen z (by simp [hz])
    · have hl := Bool.eq_false_iff.mpr hl
      rw [closeGroups_cons_of_not hl]
      refine hrest.bind ?_
      rintro rest s₁ ⟨hs₁, hstands, hopen⟩
      refine Ensures.of_ok rfl ⟨hs₁, ?_, ?_⟩
      · exact .cons (.self (hequals t (by simp))) hstands
      · intro z hz
        rcases List.mem_cons.mp hz with rfl | hz
        · exact hl
        · exact hopen z hz

/-- **Faults of an expression are truthful.** The tokens before it have no parentheses, and the last
of them ends no operand. -/
theorem value_truthful (hblank : ∀ c ∈ cs, Text.isBlank c = false) {ts : List Token}
    (hequals : ∀ t ∈ ts, t.kind ≠ .equals) {front : Fragment}
    (hwhole : ofTokens (readTokens cs) = front ++ ofTokens ts)
    (hfront : ∀ y ∈ front.getLast?, y.endsOperand = false)
    (hparen : ∀ y ∈ front, y.isParen = false) (hempty : ts = [] → cs = [])
    (hs : s.WorksOn line targets) :
    Ensures s (ofTokens ts).value (fun _ _ => True)
      fun fault s' => fault.Truthful cs line targets s'.log := by
  have hlower : Ensures s (ofTokens ts).lower
      (fun x s' => s'.WorksOn line targets ∧ x.isOperand = true ∧ x.StandsFor s' (ofTokens ts))
      fun fault s' => fault.Truthful cs line targets s'.log := by
    refine (closeGroups_truthful hblank hequals front hwhole hs).bind ?_
    rintro f s₁ ⟨hs₁, hstands, hopen⟩
    cases hsplit : splitAt? .rightParen f with
    | none =>
      have hclose := splitAt?_eq_none_iff.mp hsplit
      have hlevel : ofTokens (readTokens cs) = front ++ (ofTokens ts ++ []) := by
        simpa using hwhole
      rw [if_neg (by simpa using hclose)]
      refine lowerFlat_truthful hlevel hfront (by simp) hs₁ hstands ?_ ?_
      · intro y hy
        simp [Item.isParen_eq, hopen y hy, hclose y hy]
      · intro hnil log
        exact .emptyExpression (Or.inl (hempty (by simpa [ofTokens] using hnil)))
    | some parts =>
      -- the first closing that is left is behind a part in which all parentheses match
      obtain ⟨r, hr, rfl, hinside⟩ := eq_append_of_splitAt? hsplit
      obtain ⟨o, rest, heq, hlevel, hrest⟩ := hstands.exists_of_append
      obtain ⟨c, back, rfl, hclose, -⟩ := hrest.exists_of_cons
      obtain rfl := hclose.eq_of_not_isOperand
        (r.isOperand_of_isParen (by simp [Item.isParen_eq, hr]))
      have hbalanced : o.Balanced := hlevel.balanced fun y hy => by
        simp [Item.isParen_eq, hinside y hy, hopen y (by simp [hy])]
      rw [if_pos (by simp [hr])]
      refine Ensures.of_error rfl ?_
      rw [hs₁.line_eq]
      refine .missingLeft ?_ ?_
      · have hcut : ofTokens (readTokens cs) = (front ++ o) ++ r :: back := by
          rw [hwhole, heq]
          simp
        rw [hcut]
        exact closingUnmatched_of_balanced hr ((Balanced.of_not_isParen hparen).append hbalanced)
      · rw [hwhole]
        intro hunmatched
        exact hstands.not_openingUnmatched hopen (hunmatched.of_append hparen)
  refine hlower.bind ?_
  rintro x s₁ ⟨hs₁, ho, hx⟩
  refine (Item.fetch_unresolved hs₁ x).mono (fun _ _ _ => trivial) fun fault s₂ hfault => ?_
  exact hfault.truthful ho hx fun y hy => by simp [hwhole, hy]

end Expression

end Fragment

/-! ## Lines -/

section Line

variable {s : Session} {targets : List String}

/-- **The fault of a line is truthful** where the targets up to it are declared, those of the lines
before as they stand and its own as soon as it is read. -/
theorem compileLine_truthful {text : String} {cs : List Char} {declared : List String}
    (hcs : Text.dropBlanks text.toList = cs) (hs : s.Declares declared)
    (hnames : ∀ x ∈ declared, isName x = true) :
    Ensures s (compileLine text) (fun _ _ => True) fun fault s' =>
      fault.Truthful cs (s.line + 1) (declared ++ (Line.target? cs).toList) s'.log := by
  have hblank : ∀ c ∈ cs, Text.isBlank c = false := fun c hc =>
    (Text.mem_dropBlanks.mp (hcs ▸ hc)).2
  have hexpression : ∀ {r : List Char}, '=' ∉ r → ∀ t ∈ readTokens r, t.kind ≠ .equals :=
    fun hr t ht hk => hr (exists_equals_iff.mp ⟨t, ht, hk⟩)
  by_cases hequals : '=' ∈ cs
  · obtain ⟨l, r, rfl, hl⟩ := List.eq_append_cons_of_mem hequals
    by_cases hr : '=' ∈ r
    · have hrun := compileLine_of_error (s := s) (Statement.parse_of_more_equals hcs hl hr)
      rw [hcs] at hrun
      exact Ensures.of_error hrun (.invalidAssignment hequals)
    · have hparse : Statement.parse text (s.line + 1) = _ :=
        Statement.parse_of_one_equals hcs hl hr
      rw [hcs] at hparse
      split_ifs at hparse with hsides hname
      · exact Ensures.of_error (compileLine_of_error hparse) (.missingSide rfl hl hr hsides)
      · refine Ensures.of_run_eq (compileLine_of_ok hparse) ?_
        rw [Statement.lower_assign, Line.target?_of_equals hl, Option.toList_some]
        obtain ⟨s₁, hs₁, hscope⟩ := Session.exists_declareSlot (String.ofList l)
          { s with line := s.line + 1 }
        have hworks : s₁.WorksOn (s.line + 1) (declared ++ [String.ofList l]) := by
          refine ⟨?_, fun x hx => ?_⟩
          · exact (((Session.additive_declareSlot _).grows _).ok_of_eq hs₁).line_eq
          · rw [hscope, Scope.mem_sourceNames_insert (isTemporary_of_isName hname)]
            rcases List.mem_append.mp hx with hx | hx
            · exact Or.inl ((hs x).mpr ⟨hnames x hx, hx⟩)
            · exact Or.inr (List.mem_singleton.mp hx)
        obtain ⟨hne, hop⟩ := isOperandChar_of_isName hname
        rw [String.toList_ofList] at hne hop
        have htokens : Fragment.ofTokens (readTokens (l ++ '=' :: r)) =
            [.token ⟨.operand, String.ofList l⟩, .token (.ofSign '=')] ++
              Fragment.ofTokens (readTokens r) := by
          rw [readTokens_append_sign (by decide), readTokens_word hne hop]
          rfl
        refine Ensures.bind_of_ok hs₁ ((Fragment.value_truthful hblank (hexpression hr) htokens
          ?_ ?_ ?_ hworks).bind fun v s₂ _ => Ensures.of_ok (Session.emit_eq_append ..) trivial)
        · simp [Item.endsOperand, Item.hasKind, Item.kind?, Token.ofSign, Kind.ofChar]
        · simp [Item.isParen, Item.kind?, Token.ofSign, Kind.ofChar, Kind.isParen]
        · intro hnil
          have hbr : ∀ c ∈ r, Text.isBlank c = false := fun c hc => hblank c (by simp [hc])
          exact absurd ((readTokens_eq_nil_iff hbr).mp hnil) fun h => hsides (Or.inr h)
      · exact Ensures.of_error (compileLine_of_error hparse) (.invalidAssignment hequals)
  · have hparse : Statement.parse text (s.line + 1) = _ :=
      Statement.parse_of_no_equals (hcs ▸ hequals)
    rw [hcs] at hparse
    refine Ensures.of_run_eq (compileLine_of_ok hparse) ?_
    rw [Statement.lower_print, Line.target?_of_no_equals hequals, Option.toList_none,
      List.append_nil]
    have hworks : Session.WorksOn { s with line := s.line + 1 } (s.line + 1) declared :=
      ⟨rfl, fun x hx => (hs x).mpr ⟨hnames x hx, hx⟩⟩
    refine (Fragment.value_truthful hblank (hexpression hequals) (List.nil_append _).symm ?_ ?_ ?_
      hworks).bind fun v s₂ _ => Ensures.of_ok rfl trivial
    · simp
    · simp
    · exact (readTokens_eq_nil_iff hblank).mp

/-- A line that is compiled assigns to a name. -/
theorem isName_of_target? {text x : String} {s' : Session} (h : compileLine text s = .ok () s')
    (hx : Line.target? (Text.dropBlanks text.toList) = some x) : isName x = true := by
  obtain ⟨stmt, hparse, -⟩ := exists_parse_of_compileLine h
  cases stmt with
  | print ts =>
    rw [Line.target?_of_no_equals (Statement.parse_eq_print_iff.mp hparse).1] at hx
    cases hx
  | assign y ts =>
    obtain ⟨hy, r, hcut, -⟩ := Statement.parse_eq_assign_iff.mp hparse
    have hl : '=' ∉ y.toList := equals_notMem_of_isName hy
    rw [hcut, Line.target?_of_equals hl, String.ofList_toList] at hx
    cases hx
    exact hy

theorem isName_of_mem_targets {lines : List String} {s' : Session}
    (h : compileLines lines s = .ok () s') :
    ∀ x ∈ Line.targets (lines.map fun line => Text.dropBlanks line.toList), isName x = true := by
  induction lines generalizing s with
  | nil => simp [Line.targets]
  | cons text rest ih =>
    obtain ⟨_, s₁, hline, hrest⟩ := Lowering.bind_eq_ok_iff.mp h
    intro x hx
    rw [List.map_cons, Line.targets_cons, List.mem_append, Option.mem_toList] at hx
    rcases hx with hx | hx
    · exact isName_of_target? hline hx
    · exact ih hrest x hx

end Line

/-- **Every fault is truthful.** A compilation that fails has compiled all lines before one, and its
fault is one that this line gives cause for. -/
theorem compile_fault_truthful {source : String} {fault : Fault} {s : Session}
    (h : compile source = .error fault s) :
    ∃ (k : Nat) (cs : List Char), (strippedLines source)[k]? = some cs ∧
      (∃ s₁, compileLines ((Text.lines source).take k) {} = .ok () s₁) ∧ s.line = k + 1 ∧
      fault.Truthful cs (k + 1) (Line.targets ((strippedLines source).take (k + 1))) s.log := by
  obtain ⟨front, text, back, s₁, hcut, hfront, hline⟩ := compileLines_eq_error_iff.mp h
  have hnumber : s₁.line = front.length := by simpa using (compileLines_grows hfront).1
  have hstripped : strippedLines source =
      (front.map fun line => Text.dropBlanks line.toList) ++ Text.dropBlanks text.toList ::
        back.map fun line => Text.dropBlanks line.toList := by
    simp [strippedLines, hcut]
  have htargets : Line.targets ((strippedLines source).take (front.length + 1)) =
      Line.targets (front.map fun line => Text.dropBlanks line.toList) ++
        (Line.target? (Text.dropBlanks text.toList)).toList := by
    have htake : (strippedLines source).take (front.length + 1) =
        (front.map fun line => Text.dropBlanks line.toList) ++ [Text.dropBlanks text.toList] := by
      have hlength : front.length =
          (front.map fun line => Text.dropBlanks line.toList).length := by simp
      rw [hstripped, hlength, List.take_length_add_append]
      rfl
    rw [htake, Line.targets, List.filterMap_append]
    cases hx : Line.target? (Text.dropBlanks text.toList) <;> simp [Line.targets, hx]
  refine ⟨front.length, Text.dropBlanks text.toList, ?_, ⟨s₁, by simpa [hcut] using hfront⟩, ?_, ?_⟩
  · simp [hstripped]
  · rw [((compileLine_grows text s₁).fail_of_eq hline).line_eq]
    simp [hnumber]
  · rw [htargets, ← hnumber]
    refine (compileLine_truthful rfl ?_ (isName_of_mem_targets hfront)).fail_of_eq hline
    simpa using compileLines_declares Session.declares_fresh hfront

/-- In the second line the sum lacks an operand, which is found before the unknown name. -/
theorem compile_fault_truthful_sum :
    ∃ s, compile "x = 1\n(x + ) * y" = .error (.rejected ⟨2, .missingOperand "+"⟩) s ∧
      ∃ (k : Nat) (cs : List Char), (strippedLines "x = 1\n(x + ) * y")[k]? = some cs ∧
        Fault.Truthful cs (k + 1) (Line.targets ((strippedLines "x = 1\n(x + ) * y").take (k + 1)))
          s.log (.rejected ⟨2, .missingOperand "+"⟩) := by
  obtain ⟨s, hs⟩ : ∃ s, compile "x = 1\n(x + ) * y" =
      .error (.rejected ⟨2, .missingOperand "+"⟩) s := by
    decide +kernel
  obtain ⟨k, cs, hk, -, -, htruthful⟩ := compile_fault_truthful hs
  exact ⟨s, hs, k, cs, hk, htruthful⟩

end Abacus
