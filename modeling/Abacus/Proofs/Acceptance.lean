import Abacus.Proofs.Alternation
import Abacus.Proofs.Grammar

/-!
# The language that is compiled

A source is compiled exactly when each of its lines, without its blanks, is an expression or an
assignment of one to a name, and every operand has a value: it is a literal that is neither too
long nor too great, or a name that is assigned on this line or an earlier one.

## Main definitions

* `Operand.Valid`: the operands that have a value
* `Line.Valid`, `Line.target?`: the lines of the language, and the name that a line assigns to

## Main results

* `Generates.exists_spells`, `Forest.Spells.generates`: the flat grammar is the rule of turns
* `compile_accepts_iff`: the sources that are compiled
-/

namespace Abacus

open Lowering (Ensures)

/-! ## Turns and the flat grammar -/

/-- An expression without blanks spells a forest in which the turns are kept, whatever follows. -/
theorem Generates.exists_spells {vars : List String} {n : Nonterminal} {cs : List Char}
    (h : Generates (Literal.Resolves vars) n cs) (hcs : ∀ c ∈ cs, Text.isBlank c = false) :
    ∃ t : Forest, t.Spells (Fragment.ofTokens (readTokens cs)) ∧
      ∀ u : Forest, u.Alternates vars false → (t ++ u).Alternates vars true := by
  induction h with
  | operand hne hw hok =>
    exact ⟨_, .word hne hw hcs, fun u hu => ⟨⟨rfl, hok⟩, hu⟩⟩
  | group _ ih =>
    obtain ⟨t, ht, halt⟩ := ih fun c hc => hcs c (by simp [hc])
    exact ⟨_, ht.parenthesized, fun u hu => ⟨by simpa using halt .nil trivial, hu⟩⟩
  | single _ ih => exact ih hcs
  | join op _ _ ih ih' =>
    obtain ⟨t, ht, halt⟩ := ih fun c hc => hcs c (by simp [hc])
    obtain ⟨u, hu, halt'⟩ := ih' fun c hc => hcs c (by simp [hc])
    have hsign : (Item.token (Token.ofSign op.char)).IsSign :=
      ⟨op, by simp [Item.hasKind, Item.kind?, Token.ofSign]⟩
    refine ⟨_, .join op ht hu, fun v hv => ?_⟩
    rw [Forest.append_assoc]
    exact halt _ ⟨hsign, halt' v hv⟩

/-- What may follow an atom of an expression: nothing, or an operator and more of it. -/
def Continues (ok : String → Prop) (cs : List Char) : Prop :=
  cs = [] ∨ ∃ (op : BinOp) (ds : List Char), cs = op.char :: ds ∧ Generates ok .expression ds

theorem Generates.append {ok : String → Prop} {cs ds : List Char} (h : Generates ok .atom cs)
    (h' : Continues ok ds) : Generates ok .expression (cs ++ ds) := by
  rcases h' with rfl | ⟨op, ds, rfl, hds⟩
  · simpa using Generates.single h
  · exact .join op h hds

theorem Item.hasKind_token {t : Token} {k : Kind} :
    (Item.token t).hasKind k = true ↔ t.kind = k := by
  simp [hasKind, kind?]

/-- Tokens that may occur in an expression. -/
def Token.InExpression (t : Token) : Prop :=
  t.Proper ∧ t.kind ≠ .equals

/-- A usable token of an expression is an operand of the grammar. -/
theorem Token.InExpression.generates {vars : List String} {t : Token} (ht : t.InExpression)
    (h : (Item.token t).Usable vars) :
    Generates (Literal.Resolves vars) .atom t.text.toList := by
  obtain ⟨hoperand, hresolves⟩ := h
  obtain ⟨hproper, hequals⟩ := ht
  cases hproper with
  | @operand w hne hw =>
    have hwd : ∀ c ∈ w, c ∉ delimiters := fun c hc => by
      have hop := hw c hc
      simp only [isOperandChar, Bool.and_eq_true, decide_eq_true_eq] at hop
      exact Kind.ofChar_eq_operand_iff.mp hop.2
    simpa using Generates.operand hne hwd hresolves
  | @sign c hc =>
    simp only [isSignChar, Bool.and_eq_true, decide_eq_true_eq] at hc
    cases hk : Kind.ofChar c <;>
      simp_all [Item.isOperand, Item.kind?, ofSign, Kind.isOperator, Kind.isParen]

/-- A sign among the tokens of an expression is an operator of the grammar. -/
theorem Token.InExpression.exists_char {t : Token} (ht : t.InExpression)
    (h : (Item.token t).IsSign) : ∃ op : BinOp, t.text.toList = [op.char] := by
  obtain ⟨op, hop⟩ := h
  exact ⟨op, ht.1.text_eq ((Item.hasKind_token.mp hop).trans op.ofChar_char.symm)
    op.isSignChar_char⟩

/-- **Tokens in which the turns are kept spell an expression.** -/
theorem Forest.Spells.generates {vars : List String} {t : Forest} {f : Fragment}
    (h : t.Spells f) :
    ∀ ts, f = Fragment.ofTokens ts → (∀ x ∈ ts, x.InExpression) →
      (t.Alternates vars true → Generates (Literal.Resolves vars) .expression (spell ts)) ∧
      (t.Alternates vars false → Continues (Literal.Resolves vars) (spell ts)) := by
  -- the two turns need each other: after an atom a sign is due, and after a sign an atom
  induction h with
  | nil =>
    rintro ts hts -
    obtain rfl : ts = [] := List.map_eq_nil_iff.mp hts.symm
    exact ⟨False.elim, fun _ => Or.inl rfl⟩
  | @leaf x t f _ _ ih =>
    intro ts hts hin
    obtain ⟨y, ys, rfl, rfl, hys⟩ := List.map_eq_cons_iff.mp hts.symm
    obtain ⟨-, hcont⟩ := ih ys hys.symm fun z hz => hin z (by simp [hz])
    obtain ⟨hexpr, -⟩ := ih ys hys.symm fun z hz => hin z (by simp [hz])
    have hy := hin y (by simp)
    refine ⟨fun halt => ?_, fun halt => ?_⟩
    · exact (hy.generates halt.1).append (hcont halt.2)
    · obtain ⟨op, hop⟩ := hy.exists_char halt.1
      exact Or.inr ⟨op, spell ys, by simp [hop], hexpr halt.2⟩
  | @group l r t u f g hl hr _ _ ih ih' =>
    intro ts hts hin
    obtain ⟨y, ys, rfl, rfl, hys⟩ := List.map_eq_cons_iff.mp hts.symm
    obtain ⟨fs, zs, rfl, hfs, hzs⟩ := List.map_eq_append_iff.mp hys
    obtain ⟨z, gs, rfl, rfl, hgs⟩ := List.map_eq_cons_iff.mp hzs
    obtain ⟨hinside, -⟩ := ih fs hfs.symm fun w hw => hin w (by simp [hw])
    obtain ⟨-, hcont⟩ := ih' gs hgs.symm fun w hw => hin w (by simp [hw])
    refine ⟨fun halt => ?_, False.elim⟩
    have hopen : y.text.toList = ['('] := (hin y (by simp)).1.text_eq
      (Item.hasKind_token.mp hl) (by decide)
    have hclose : z.text.toList = [')'] := (hin z (by simp)).1.text_eq
      (Item.hasKind_token.mp hr) (by decide)
    simpa [hopen, hclose] using (Generates.group (hinside halt.1)).append (hcont halt.2)

/-- **An expression has a value exactly when the grammar generates it** from operands that have
one. -/
theorem value_generates {cs : List Char} (hblank : ∀ c ∈ cs, Text.isBlank c = false)
    (hequals : '=' ∉ cs) {vars : List String} {s : Session} (hs : s.scope.sourceNames = vars) :
    Ensures s (Fragment.ofTokens (readTokens cs)).value
      (fun _ s' => s'.scope.sourceNames = vars ∧
        Generates (Literal.Resolves vars) .expression cs)
      fun _ _ => ¬ Generates (Literal.Resolves vars) .expression cs := by
  have hiff : (∃ t : Forest, t.Spells (Fragment.ofTokens (readTokens cs)) ∧
      t.Alternates vars true) ↔ Generates (Literal.Resolves vars) .expression cs := by
    constructor
    · rintro ⟨t, ht, halt⟩
      have hin : ∀ x ∈ readTokens cs, x.InExpression := fun x hx =>
        ⟨proper_of_mem_readTokens hx, fun hk => hequals (exists_equals_iff.mp ⟨x, hx, hk⟩)⟩
      have hgen := (ht.generates _ rfl hin).1 halt
      rwa [spell_readTokens_of_noBlank hblank] at hgen
    · intro h
      obtain ⟨t, ht, halt⟩ := h.exists_spells hblank
      exact ⟨t, ht, by simpa using halt .nil trivial⟩
  refine (Fragment.value_alternates _ hs).mono (fun v s' h => ⟨h.1, hiff.mp h.2⟩) fun _ _ h => ?_
  rwa [hiff] at h

/-! ## Operands and lines -/

/-- **The operands that have a value** where the names `declared` are assigned to: literals of at
most 4300 digits that denote at most `2 ^ 31 - 1`, and the declared names. -/
def Operand.Valid (declared : List String) (text : String) : Prop :=
  (Literal.isDigits text.toList = true ∧ text.toList.length ≤ 4300 ∧
    Literal.value text.toList ≤ 2147483647) ∨
  isName text = true ∧ text ∈ declared

/-- **The lines of the language**: an expression, or a name, an equals sign and an expression. -/
def Line.Valid (declared : List String) (cs : List Char) : Prop :=
  Generates (Operand.Valid declared) .expression cs ∨
  ∃ x r, isName x = true ∧ cs = x.toList ++ '=' :: r ∧
    Generates (Operand.Valid declared) .expression r

/-- What a line assigns to: the text before its first equals sign. -/
def Line.target? (cs : List Char) : Option String :=
  if '=' ∈ cs then some (String.ofList (cs.takeWhile (· ≠ '='))) else none

/-- The variables of a session are the names among `declared`. -/
def Session.Declares (s : Session) (declared : List String) : Prop :=
  ∀ x, x ∈ s.scope.sourceNames ↔ isName x = true ∧ x ∈ declared

theorem Session.declares_fresh : Session.Declares {} [] := fun x => by
  simp [Scope.sourceNames]

/-- The operands that have a value in a session are the valid ones. -/
theorem Session.Declares.resolves_iff {s : Session} {declared : List String}
    (h : s.Declares declared) (text : String) :
    Literal.Resolves s.scope.sourceNames text ↔ Operand.Valid declared text := by
  have hliteral : (∃ n, Literal.read text = .ok (some n)) ↔
      Literal.isDigits text.toList = true ∧ text.toList.length ≤ 4300 ∧
        Literal.value text.toList ≤ 2147483647 := by
    simp only [Literal.read_eq_some_iff]
    constructor
    · rintro ⟨_, hd, hl, hv, -⟩
      exact ⟨hd, hl, hv⟩
    · rintro ⟨hd, hl, hv⟩
      exact ⟨_, hd, hl, hv, rfl⟩
  have hname : Literal.read text = .ok none ∧ text ∈ s.scope.sourceNames ↔
      isName text = true ∧ text ∈ declared := by
    rw [h text, and_iff_right_iff_imp]
    intro hn
    simp [Literal.read, isDigits_of_isName hn.1]
  rw [Literal.Resolves, Operand.Valid, hliteral, hname]

namespace Line

variable {declared : List String} {cs l r : List Char}

theorem target?_of_no_equals (h : '=' ∉ cs) : target? cs = none := by
  simp [target?, h]

theorem target?_of_equals (hl : '=' ∉ l) : target? (l ++ '=' :: r) = some (String.ofList l) := by
  have hstop : ∀ c ∈ l, decide (c ≠ '=') = true := fun c hc => by
    simpa using fun h : c = '=' => hl (h ▸ hc)
  have htake : (l ++ '=' :: r).takeWhile (· ≠ '=') = l := by
    rw [List.takeWhile_append_of_pos hstop]
    simp
  rw [target?, if_pos (by simp), htake]

theorem valid_of_no_equals (h : '=' ∉ cs) :
    Valid declared cs ↔ Generates (Operand.Valid declared) .expression cs := by
  refine or_iff_left ?_
  rintro ⟨x, r, -, rfl, -⟩
  exact h (by simp)

/-- A line with an equals sign is valid when a name stands before it and an expression after it. -/
theorem valid_of_equals (hl : '=' ∉ l) :
    Valid declared (l ++ '=' :: r) ↔
      isName (String.ofList l) = true ∧ Generates (Operand.Valid declared) .expression r := by
  constructor
  · rintro (h | ⟨x, r', hx, hcut, hr'⟩)
    · exact absurd (by simp) h.equals_notMem
    · have hxl : '=' ∉ x.toList := equals_notMem_of_isName hx
      have htarget := target?_of_equals (r := r) hl
      rw [hcut, target?_of_equals hxl, String.ofList_toList] at htarget
      obtain rfl : x = String.ofList l := Option.some.inj htarget
      rw [String.toList_ofList, List.append_cancel_left_eq, List.cons.injEq] at hcut
      exact ⟨hx, hcut.2 ▸ hr'⟩
  · rintro ⟨hx, hr⟩
    exact Or.inr ⟨String.ofList l, r, hx, by simp, hr⟩

end Line

/-! ## Statements and programs -/

theorem Session.Declares.value_generates {s : Session} {declared : List String}
    (h : s.Declares declared) {cs : List Char} (hblank : ∀ c ∈ cs, Text.isBlank c = false)
    (hequals : '=' ∉ cs) :
    Ensures s (Fragment.ofTokens (readTokens cs)).value
      (fun _ s' => s'.Declares declared ∧ Generates (Operand.Valid declared) .expression cs)
      fun _ _ => ¬ Generates (Operand.Valid declared) .expression cs := by
  have hok : Literal.Resolves s.scope.sourceNames = Operand.Valid declared :=
    funext fun text => propext (h.resolves_iff text)
  rw [← hok]
  refine (Abacus.value_generates hblank hequals rfl).mono (fun v s' hv => ⟨?_, hv.2⟩) fun _ _ h => h
  intro x
  rw [hv.1, h x]

theorem Session.Declares.insert {s s₁ : Session} {declared : List String} {name : String}
    (h : s.Declares declared) (hname : isName name = true)
    (hscope : s₁.scope = s.scope.insert name) : s₁.Declares (declared ++ [name]) := by
  intro x
  rw [hscope, Scope.mem_sourceNames_insert (isTemporary_of_isName hname), h x, List.mem_append,
    List.mem_singleton]
  constructor
  · rintro (⟨hx, hd⟩ | rfl)
    · exact ⟨hx, Or.inl hd⟩
    · exact ⟨hname, Or.inr rfl⟩
  · rintro ⟨hx, hd | rfl⟩
    · exact Or.inl ⟨hx, hd⟩
    · exact Or.inr rfl

/-- **An assignment is lowered exactly when its value is an expression** where its target is
declared. -/
theorem Session.Declares.lower_assign {s : Session} {declared : List String}
    (h : s.Declares declared) {x : String} (hx : isName x = true) {r : List Char}
    (hblank : ∀ c ∈ r, Text.isBlank c = false) (hequals : '=' ∉ r) :
    Ensures s (Statement.assign x (readTokens r)).lower
      (fun _ s' => s'.Declares (declared ++ [x]) ∧
        Generates (Operand.Valid (declared ++ [x])) .expression r)
      fun _ _ => ¬ Generates (Operand.Valid (declared ++ [x])) .expression r := by
  rw [Statement.lower_assign]
  obtain ⟨s₁, hs₁, hscope⟩ := Session.exists_declareSlot x s
  have hdeclares : s₁.Declares (declared ++ [x]) := h.insert hx hscope
  refine Ensures.bind_of_ok hs₁ ((hdeclares.value_generates hblank hequals).bind ?_)
  intro v s₂ hv
  exact Ensures.of_ok (Session.emit_eq_append _ _) hv

/-- **A print is lowered exactly when it is an expression.** -/
theorem Session.Declares.lower_print {s : Session} {declared : List String}
    (h : s.Declares declared) {cs : List Char} (hblank : ∀ c ∈ cs, Text.isBlank c = false)
    (hequals : '=' ∉ cs) :
    Ensures s (Statement.print (readTokens cs)).lower
      (fun _ s' => s'.Declares declared ∧ Generates (Operand.Valid declared) .expression cs)
      fun _ _ => ¬ Generates (Operand.Valid declared) .expression cs := by
  rw [Statement.lower_print]
  refine (h.value_generates hblank hequals).bind ?_
  rintro v s₁ ⟨hdeclares, hgen⟩
  refine Ensures.of_ok rfl ⟨?_, hgen⟩
  intro x
  rw [Session.define_scope, Scope.sourceNames_insert_name, hdeclares x]

/-- **A line is compiled exactly when it is valid**, and then its target is declared. -/
theorem compileLine_accepts (text : String) {s : Session} {declared known : List String}
    (h : s.Declares declared) {cs : List Char} (hcs : Text.dropBlanks text.toList = cs)
    (hknown : known = declared ++ (Line.target? cs).toList) :
    Ensures s (compileLine text) (fun _ s' => s'.Declares known ∧ Line.Valid known cs)
      fun _ _ => ¬ Line.Valid known cs := by
  have hblank : ∀ c ∈ cs, Text.isBlank c = false := fun c hc =>
    (Text.mem_dropBlanks.mp (hcs ▸ hc)).2
  have hdeclares : Session.Declares { s with line := s.line + 1 } declared := h
  by_cases hequals : '=' ∈ cs
  · obtain ⟨l, r, rfl, hl⟩ := List.eq_append_cons_of_mem hequals
    rw [Line.target?_of_equals hl, Option.toList_some] at hknown
    subst hknown
    rw [Line.valid_of_equals hl]
    by_cases hr : '=' ∈ r
    · have hrun := compileLine_of_error (s := s) (Statement.parse_of_more_equals hcs hl hr)
      exact Ensures.of_error hrun fun hvalid => hvalid.2.equals_notMem hr
    · have hparse : Statement.parse text (s.line + 1) = _ :=
        Statement.parse_of_one_equals hcs hl hr
      split_ifs at hparse with hsides hname
      · refine Ensures.of_error (compileLine_of_error hparse) ?_
        rintro ⟨hname, hgen⟩
        rcases hsides with rfl | rfl
        · exact absurd hname (by decide)
        · exact hgen.ne_nil rfl
      · have hbr : ∀ c ∈ r, Text.isBlank c = false := fun c hc => hblank c (by simp [hc])
        exact Ensures.of_run_eq (compileLine_of_ok hparse)
          ((hdeclares.lower_assign hname hbr hr).mono (fun _ _ hok => ⟨hok.1, hname, hok.2⟩)
            fun _ _ hnot hvalid => hnot hvalid.2)
      · exact Ensures.of_error (compileLine_of_error hparse) fun hvalid => hname hvalid.1
  · rw [Line.target?_of_no_equals hequals, Option.toList_none, List.append_nil] at hknown
    subst hknown
    have hparse : Statement.parse text (s.line + 1) = _ :=
      Statement.parse_of_no_equals (hcs ▸ hequals)
    rw [hcs] at hparse
    rw [Line.valid_of_no_equals hequals]
    exact Ensures.of_run_eq (compileLine_of_ok hparse) (hdeclares.lower_print hblank hequals)

/-- The targets of lines, in order. -/
def Line.targets (lines : List (List Char)) : List String :=
  lines.filterMap target?

theorem Line.targets_cons (cs : List Char) (lines : List (List Char)) :
    targets (cs :: lines) = (target? cs).toList ++ targets lines := by
  unfold targets
  cases h : target? cs <;> simp [h]

/-- **Lines are compiled exactly when each is valid** where the targets up to it are declared. -/
theorem compileLines_accepts (lines : List String) {s : Session} {declared : List String}
    (h : s.Declares declared) :
    (∃ s', compileLines lines s = .ok () s') ↔
      ∀ i cs, (lines.map fun line => Text.dropBlanks line.toList)[i]? = some cs →
        Line.Valid (declared ++ Line.targets
          ((lines.map fun line => Text.dropBlanks line.toList).take (i + 1))) cs := by
  induction lines generalizing s declared with
  | nil => simp [compileLines]
  | cons text rest ih =>
    have hline := compileLine_accepts text h rfl rfl
    generalize hcs : Text.dropBlanks text.toList = cs₀ at hline
    rw [List.map_cons, hcs]
    rw [← Nat.and_forall_add_one (p := fun i => ∀ cs, _)]
    simp only [compileLines, List.getElem?_cons_zero, List.getElem?_cons_succ, List.take_succ_cons,
      List.take_zero, Line.targets_cons, Option.some.injEq, forall_eq', ← List.append_assoc]
    cases hrun : compileLine text s with
    | ok u s₁ =>
      obtain ⟨hdeclares, hvalid⟩ := hline.ok_of_eq hrun
      rw [Lowering.bind_of_ok hrun, ih hdeclares]
      simp [Line.targets, hvalid]
    | error fault s₁ =>
      have hnot := hline.fail_of_eq hrun
      rw [Lowering.bind_of_error hrun]
      simp [Line.targets, hnot]

/-- Lines that are compiled declare their targets. -/
theorem compileLines_declares {lines : List String} {s s' : Session} {declared : List String}
    (h : s.Declares declared) (hrun : compileLines lines s = .ok () s') :
    s'.Declares (declared ++ Line.targets (lines.map fun line => Text.dropBlanks line.toList)) := by
  induction lines generalizing s declared with
  | nil =>
    cases hrun
    simpa [Line.targets] using h
  | cons text rest ih =>
    obtain ⟨_, s₁, hline, hrest⟩ := Lowering.bind_eq_ok_iff.mp hrun
    obtain ⟨hdeclares, -⟩ := (compileLine_accepts text h rfl rfl).ok_of_eq hline
    simpa [Line.targets_cons] using ih hdeclares hrest

/-- **A source is compiled exactly when it is in the language.** -/
theorem compile_accepts_iff (source : String) :
    (∃ s, compile source = .ok () s) ↔
      ∀ i cs, (strippedLines source)[i]? = some cs →
        Line.Valid (Line.targets ((strippedLines source).take (i + 1))) cs :=
  compileLines_accepts (Text.lines source) Session.declares_fresh

end Abacus
