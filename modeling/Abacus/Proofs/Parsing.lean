import Abacus.Proofs.Rules

/-!
# Statements by their characters

Which statement a line spells is decided on its tokens, and can be told from its characters. Only
the equals signs have to be counted. A line without one is a print, and a line with several is no
assignment. A line with one is cut there: both sides must have something in them, and the left side
must be a name. A sign cuts a text wherever it stands, and a name is always one operand, so the two
ways to decide agree.

## Main definitions

* `SpellsName`: the characters of a name
* `Statement.Spelled`: the statement that characters without blanks spell

## Main results

* `isName_iff`: names by their characters
* `Statement.parse_eq_iff`: a line is read as what its characters spell
* `Statement.parse_exact`: what a line is read as, and that assignments are read from what they are
  written as
-/

namespace Abacus

/-! ## Names by their characters -/

/-- An ASCII letter or an underscore. -/
def IsLetter (c : Char) : Prop :=
  'A' ≤ c ∧ c ≤ 'Z' ∨ 'a' ≤ c ∧ c ≤ 'z' ∨ c = '_'

/-- **The characters of a name**: a letter or an underscore, and then letters, underscores and
digits. -/
def SpellsName (cs : List Char) : Prop :=
  ∃ first rest, cs = first :: rest ∧ IsLetter first ∧
    ∀ c ∈ rest, IsLetter c ∨ '0' ≤ c ∧ c ≤ '9'

section Names

variable {c : Char} {cs : List Char}

theorem isNameStart_iff : isNameStart c = true ↔ IsLetter c := by
  have hunderscore : c.toNat = 95 ↔ c = '_' := by
    refine ⟨fun h => ?_, fun h => by rw [h]; rfl⟩
    rw [← Char.ofNat_toNat c, h]
  rw [isNameStart_iff_toNat, hunderscore, or_assoc]
  exact Iff.rfl

/-- **Names by their characters.** -/
theorem isName_iff : isName (String.ofList cs) = true ↔ SpellsName cs := by
  unfold isName SpellsName
  rw [String.toList_ofList]
  cases cs with
  | nil => simp
  | cons first rest =>
    have hdigit : ∀ c : Char, c.isDigit = true ↔ '0' ≤ c ∧ c ≤ '9' := fun c => isDigit_iff_toNat
    simp [isNameStart_iff, hdigit]

end Names

/-- A text without blanks is read as it is. -/
theorem tokens_ofList {cs : List Char} (h : ∀ c ∈ cs, Text.isBlank c = false) :
    tokens (String.ofList cs) = readTokens cs := by
  rw [tokens_eq, String.toList_ofList, Text.dropBlanks_eq_self h]

namespace Statement

/-! ## Statements by their characters -/

/-- **The statement that characters without blanks spell**, on a given line. -/
inductive Spelled (line : Int) : List Char → Except Diagnostic Statement → Prop where
  | print {s : List Char} (h : '=' ∉ s) : Spelled line s (.ok (.print (tokens (String.ofList s))))
  /-- There is more than one equals sign. -/
  | several {s : List Char} (h : 2 ≤ s.count '=') :
    Spelled line s (.error ⟨line, .invalidAssignment (String.ofList s)⟩)
  /-- There is nothing on one side of the equals sign. -/
  | lacking {l r : List Char} (hl : '=' ∉ l) (hr : '=' ∉ r) (h : l = [] ∨ r = []) :
    Spelled line (l ++ '=' :: r) (.error ⟨line, .missingOperand "="⟩)
  | assign {l r : List Char} (hr : '=' ∉ r) (hne : r ≠ []) (hname : SpellsName l) :
    Spelled line (l ++ '=' :: r) (.ok (.assign (String.ofList l) (tokens (String.ofList r))))
  /-- There is no name on the left side. -/
  | misnamed {l r : List Char} (hl : '=' ∉ l) (hr : '=' ∉ r) (hl' : l ≠ []) (hr' : r ≠ [])
    (hname : ¬ SpellsName l) :
    Spelled line (l ++ '=' :: r)
      (.error ⟨line, .invalidAssignment (String.ofList (l ++ '=' :: r))⟩)

section Exact

variable {text : String} {line : Int} {out : Except Diagnostic Statement}

theorem equals_notMem_of_spellsName {l : List Char} (h : SpellsName l) : '=' ∉ l := by
  have hname := equals_notMem_of_isName (isName_iff.mpr h)
  rwa [String.toList_ofList] at hname

/-- A line with one equals sign, by its two sides. -/
theorem spelled_of_cut {l r : List Char} (h : Text.dropBlanks text.toList = l ++ '=' :: r)
    (hl : '=' ∉ l) (hr : '=' ∉ r) : Spelled line (l ++ '=' :: r) (parse text line) := by
  have hblank : ∀ c ∈ r, Text.isBlank c = false := by
    intro c hc
    have hmem : c ∈ Text.dropBlanks text.toList := by simp [h, hc]
    exact (Text.mem_dropBlanks.mp hmem).2
  rw [parse_of_one_equals h hl hr, h]
  split_ifs with hsides hname
  · exact .lacking hl hr hsides
  · rw [not_or] at hsides
    rw [← tokens_ofList hblank]
    exact .assign hr hsides.2 (isName_iff.mp hname)
  · rw [not_or] at hsides
    exact .misnamed hl hr hsides.1 hsides.2 fun h => hname (isName_iff.mpr h)

/-- A line spells the statement that it is read as. -/
theorem spelled_parse (text : String) (line : Int) :
    Spelled line (Text.dropBlanks text.toList) (parse text line) := by
  by_cases h : '=' ∈ Text.dropBlanks text.toList
  · obtain ⟨l, r, hcut, hl⟩ := List.eq_append_cons_of_mem h
    by_cases hr : '=' ∈ r
    · rw [parse_of_more_equals hcut hl hr]
      refine .several ?_
      have hcount := List.count_pos_iff.mpr hr
      rw [hcut, List.count_append, List.count_cons_self]
      omega
    · rw [hcut]
      exact spelled_of_cut hcut hl hr
  · have hblank : ∀ c ∈ Text.dropBlanks text.toList, Text.isBlank c = false := fun c hc =>
      (Text.mem_dropBlanks.mp hc).2
    rw [parse_of_no_equals h, ← tokens_ofList hblank]
    exact .print h

/-- A second equals sign stands behind the first one. -/
theorem exists_cut_of_several {s : List Char} (h : 2 ≤ s.count '=') :
    ∃ l r, s = l ++ '=' :: r ∧ '=' ∉ l ∧ '=' ∈ r := by
  have hmem : '=' ∈ s := List.count_pos_iff.mp (by omega)
  obtain ⟨l, r, rfl, hl⟩ := List.eq_append_cons_of_mem hmem
  refine ⟨l, r, rfl, hl, List.count_pos_iff.mp ?_⟩
  rw [List.count_append, List.count_cons_self, List.count_eq_zero.mpr hl] at h
  omega

/-- A line is read as the statement that it spells. -/
theorem Spelled.parse_eq (h : Spelled line (Text.dropBlanks text.toList) out) :
    parse text line = out := by
  have hblank : ∀ c ∈ Text.dropBlanks text.toList, Text.isBlank c = false := fun c hc =>
    (Text.mem_dropBlanks.mp hc).2
  generalize hs : Text.dropBlanks text.toList = s at h
  cases h with
  | print h => rw [parse_of_no_equals (hs ▸ h), hs, tokens_ofList (hs ▸ hblank)]
  | several h =>
    obtain ⟨l, r, rfl, hl, hr⟩ := exists_cut_of_several h
    rw [parse_of_more_equals hs hl hr, hs]
  | lacking hl hr h => rw [parse_of_one_equals hs hl hr, if_pos h]
  | @assign l r hr hne hname =>
    have hl : '=' ∉ l := equals_notMem_of_spellsName hname
    have hsides : ¬ (l = [] ∨ r = []) := by
      rintro (rfl | rfl)
      · obtain ⟨first, rest, hnil, -⟩ := hname
        cases hnil
      · exact hne rfl
    have hright : ∀ c ∈ r, Text.isBlank c = false := fun c hc => hblank c (by simp [hs, hc])
    rw [parse_of_one_equals hs hl hr, if_neg hsides, if_pos (isName_iff.mpr hname),
      tokens_ofList hright]
  | misnamed hl hr hl' hr' hname =>
    have hsides := not_or.mpr ⟨hl', hr'⟩
    rw [parse_of_one_equals hs hl hr, if_neg hsides, if_neg (fun h => hname (isName_iff.mp h)), hs]

/-- **A line is read as what its characters spell.** -/
theorem parse_eq_iff :
    parse text line = out ↔ Spelled line (Text.dropBlanks text.toList) out := by
  constructor
  · rintro rfl
    exact spelled_parse text line
  · exact Spelled.parse_eq

end Exact

/-! ## Assignments written and read again -/

/-- An assignment as it is written: its target, an equals sign, and the texts of its tokens. -/
def written (target : String) (value : List Token) : String :=
  target ++ "=" ++ String.join (value.map (·.text))

theorem toList_written (target : String) (value : List Token) :
    (written target value).toList = target.toList ++ '=' :: spell value := by
  simp [written, spell, String.toList_join, List.flatMap_map]

/-- Canonical tokens spell an equals sign only if one of them is one. -/
theorem equals_notMem_spell {ts : List Token} (hts : Canonical ts)
    (h : ∀ t ∈ ts, t.kind ≠ .equals) : '=' ∉ spell ts := by
  intro hmem
  obtain ⟨t, ht, hkind⟩ := exists_equals_iff.mpr hmem
  rw [readTokens_spell hts] at ht
  exact h t ht hkind

/-- **Assignments are read from what they are written as.** -/
theorem parse_written {target : String} {value : List Token} (hname : isName target = true)
    (hne : value ≠ []) (hvalue : Canonical value) (heq : ∀ t ∈ value, t.kind ≠ .equals)
    (line : Int) : parse (written target value) line = .ok (.assign target value) := by
  have hread : readTokens (spell value) = value := readTokens_spell hvalue
  have hblank : ∀ c ∈ (written target value).toList, Text.isBlank c = false := by
    intro c hc
    rw [toList_written, List.mem_append, List.mem_cons] at hc
    rcases hc with hc | rfl | hc
    · exact (isOperandChar_iff.mp ((isOperandChar_of_isName hname).2 c hc)).1
    · rfl
    · exact not_isBlank_of_mem_spell hvalue.proper c hc
  have hself : Text.dropBlanks (written target value).toList =
      target.toList ++ '=' :: spell value := by
    rw [Text.dropBlanks_eq_self hblank, toList_written]
  refine parse_eq_assign_iff.mpr ⟨hname, spell value, hself, ?_, equals_notMem_spell hvalue heq,
    hread.symm⟩
  intro hnil
  rw [hnil, readTokens_nil] at hread
  exact hne hread.symm

/-- **Statements are exactly those that the characters of a line spell.** A line is read as what its
characters without blanks spell, and as nothing else. So an assignment to a name, of tokens among
which there is no equals sign and no two operands are side by side, is read from what it is written
as. -/
theorem parse_exact :
    (∀ (text : String) (line : Int) (out : Except Diagnostic Statement),
      parse text line = out ↔ Spelled line (Text.dropBlanks text.toList) out) ∧
    ∀ (target : String) (value : List Token) (line : Int), SpellsName target.toList → value ≠ [] →
      (∀ t ∈ value, t.Fits ∧ t.kind ≠ .equals) →
      (value.IsChain fun t u => ¬ (t.kind = .operand ∧ u.kind = .operand)) →
      parse (written target value) line = .ok (.assign target value) := by
  refine ⟨fun text line out => parse_eq_iff, ?_⟩
  intro target value line hname hne hvalue hapart
  have htarget : isName target = true := by
    rw [← String.ofList_toList (s := target)]
    exact isName_iff.mpr hname
  have hcanonical : Canonical value := canonical_iff.mpr ⟨fun t ht => (hvalue t ht).1, hapart⟩
  exact parse_written htarget hne hcanonical (fun t ht => (hvalue t ht).2) line

/-- An assignment that is read as it is written, and a line with a blank in it whose left side is no
name. -/
theorem parse_exact_misnamed :
    let value : List Token :=
      [⟨.minus, "-"⟩, ⟨.leftParen, "("⟩, ⟨.operand, "7\u00e9"⟩, ⟨.rightParen, ")"⟩]
    (∀ t ∈ value, t.Fits ∧ t.kind ≠ .equals) ∧
    parse (written "_x9" value) 3 = .ok (.assign "_x9" value) ∧
    Text.dropBlanks "9 x = 1".toList = ['9', 'x'] ++ '=' :: ['1'] ∧
    parse "9 x = 1" 3 = .error ⟨3, .invalidAssignment "9x=1"⟩ := by
  intro value
  have hoperand : Token.Proper ⟨.operand, "7\u00e9"⟩ :=
    .operand (w := "7\u00e9".toList) (by decide) (List.all_eq_true.mp (by decide))
  have hvalue : ∀ t ∈ value, t.Fits ∧ t.kind ≠ .equals := by
    simp only [value, List.forall_mem_cons, List.not_mem_nil, false_imp_iff, implies_true, and_true]
    exact ⟨⟨rfl, nofun⟩, ⟨rfl, nofun⟩, ⟨Token.fits_iff_proper.mpr hoperand, nofun⟩, ⟨rfl, nofun⟩⟩
  have hname : SpellsName "_x9".toList := isName_iff.mp (by decide)
  have hcut : Text.dropBlanks "9 x = 1".toList = ['9', 'x'] ++ '=' :: ['1'] := by decide
  have hmisnamed : ¬ SpellsName ['9', 'x'] := by
    rw [← isName_iff]
    decide
  obtain ⟨hexact, hwritten⟩ := parse_exact
  refine ⟨hvalue, hwritten "_x9" value 3 hname nofun hvalue (by decide), hcut, ?_⟩
  refine (hexact _ _ _).mpr ?_
  rw [hcut]
  exact .misnamed (by decide) (by decide) nofun nofun hmisnamed

end Statement

end Abacus
