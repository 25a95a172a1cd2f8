import Mathlib.Data.List.TakeWhile
import Abacus.Program

/-!
# Lines, tokens and statements

What the tokens of a text are, without their positions, and how they are cut: a sign is a token
wherever it stands, and what stands between two signs is read on its own. From this follows which
lines are assignments and which are prints, in terms of their characters.

## Main definitions

* `readTokens`: the tokens of a text
* `isSignChar`: the characters that are tokens by themselves
* `Token.Proper`: tokens whose text fits their kind
* `spell`: the characters of a list of tokens
* `strippedLines`: the lines of a source

## Main results

* `readTokens_append_sign`, `readTokens_word`: a sign cuts a text, and a run of operand characters
  is one operand
* `spell_readTokens`, `spell_tokens`: the tokens of a text spell it, but for its blanks
* `isDigits_of_isName`, `isTemporary_of_isName`: names are no literals and no temporaries
* `Statement.parse_eq_print_iff`, `Statement.parse_eq_assign_iff`: which lines are prints and which
  are assignments
-/

namespace Abacus

/-- The tokens of a text, without their positions. -/
def readTokens (cs : List Char) : List Token :=
  (scan {} cs).map (·.token)

theorem tokens_eq (text : String) :
    tokens text = readTokens (Text.dropBlanks text.toList) := rfl

/-- The characters that are tokens by themselves. -/
def isSignChar (c : Char) : Bool :=
  !Text.isBlank c && Kind.ofChar c ≠ .operand

/-- The token that a sign is. -/
def Token.ofSign (c : Char) : Token :=
  ⟨Kind.ofChar c, String.singleton c⟩

section Read

variable {c : Char} {cs ds : List Char}

/-- A blank is passed. -/
theorem scan_blank (hc : Text.isBlank c = true) (p : Position) :
    scan p (c :: cs) = scan (p.next c) cs := by
  rw [scan]
  simp [hc]

/-- An operand character begins a maximal run, which is passed as a whole. -/
theorem scan_operand (hc : isOperandChar c = true) (p : Position) :
    scan p (c :: cs) =
      ⟨⟨.operand, String.ofList (c :: cs.takeWhile isOperandChar)⟩, p⟩ ::
        scan (p.after (c :: cs.takeWhile isOperandChar)) (cs.dropWhile isOperandChar) := by
  obtain ⟨hb, hk⟩ : Text.isBlank c = false ∧ Kind.ofChar c = .operand := by
    simpa [isOperandChar] using hc
  rw [scan]
  simp [hb, hk]

/-- A sign is a token by itself. -/
theorem scan_sign (hc : isSignChar c = true) (p : Position) :
    scan p (c :: cs) = ⟨Token.ofSign c, p⟩ :: scan (p.next c) cs := by
  obtain ⟨hb, hk⟩ : Text.isBlank c = false ∧ ¬ Kind.ofChar c = .operand := by
    simpa [isSignChar] using hc
  rw [scan]
  simp [hb, hk, Token.ofSign]

/-- Where a text stands does not change its tokens. -/
theorem scan_map_token (p q : Position) (cs : List Char) :
    (scan p cs).map (·.token) = (scan q cs).map (·.token) := by
  fun_induction scan p cs generalizing q with
  | case1 p => simp
  | case2 p c cs hb ih =>
    rw [scan]
    simpa [hb] using ih (q.next c)
  | case3 p c cs hb hk word ih =>
    rw [scan]
    simp only [hb, hk, if_true, Bool.false_eq_true, if_false, List.map_cons]
    rw [ih (q.after word)]
  | case4 p c cs hb hk ih =>
    rw [scan]
    simpa [hb, hk] using ih (q.next c)

@[simp] theorem readTokens_nil : readTokens [] = [] := by
  simp [readTokens]

theorem readTokens_blank (hc : Text.isBlank c = true) :
    readTokens (c :: cs) = readTokens cs := by
  rw [readTokens, scan_blank hc]
  exact scan_map_token _ _ cs

/-- An operand character begins a maximal run. -/
theorem readTokens_operand (hc : isOperandChar c = true) :
    readTokens (c :: cs) =
      ⟨.operand, String.ofList (c :: cs.takeWhile isOperandChar)⟩ ::
        readTokens (cs.dropWhile isOperandChar) := by
  rw [readTokens, scan_operand hc, List.map_cons]
  exact congrArg _ (scan_map_token _ _ (cs.dropWhile isOperandChar))

theorem readTokens_sign (hc : isSignChar c = true) :
    readTokens (c :: cs) = Token.ofSign c :: readTokens cs := by
  rw [readTokens, scan_sign hc, List.map_cons]
  exact congrArg _ (scan_map_token _ _ cs)

/-- A character is blank, part of an operand, or a sign. -/
theorem blank_or_operand_or_sign (c : Char) :
    Text.isBlank c = true ∨ isOperandChar c = true ∨ isSignChar c = true := by
  by_cases hb : Text.isBlank c = true
  · exact Or.inl hb
  · by_cases hk : Kind.ofChar c = .operand <;> simp [isOperandChar, isSignChar, hb, hk]

theorem not_isOperandChar_of_isSignChar (hc : isSignChar c = true) : isOperandChar c = false := by
  simp_all [isSignChar, isOperandChar]

/-- **Induction along the reading of a text**: past a blank, past the run of an operand, past a
sign. -/
theorem readTokens_induction {P : List Char → Prop} (nil : P [])
    (blank : ∀ c cs, Text.isBlank c = true → P cs → P (c :: cs))
    (operand : ∀ c cs, isOperandChar c = true → P (cs.dropWhile isOperandChar) → P (c :: cs))
    (sign : ∀ c cs, isSignChar c = true → P cs → P (c :: cs)) (cs : List Char) : P cs := by
  -- by length, since the run of an operand is passed as a whole
  induction hn : cs.length using Nat.strongRecOn generalizing cs with
  | _ n ih =>
    subst hn
    rcases cs with _ | ⟨c, cs⟩
    · exact nil
    · have hcs : P cs := ih cs.length (by simp) cs rfl
      rcases blank_or_operand_or_sign c with hc | hc | hc
      · exact blank c cs hc hcs
      · have hlen : (cs.dropWhile isOperandChar).length < (c :: cs).length :=
          Nat.lt_succ_of_le (List.dropWhile_sublist _).length_le
        exact operand c cs hc (ih _ hlen _ rfl)
      · exact sign c cs hc hcs

/-- **A sign cuts a text**: what stands on its two sides is read apart. -/
theorem readTokens_append_sign (hc : isSignChar c = true) (cs ds : List Char) :
    readTokens (cs ++ c :: ds) = readTokens cs ++ Token.ofSign c :: readTokens ds := by
  have hstop := not_isOperandChar_of_isSignChar hc
  induction cs using readTokens_induction with
  | nil => simp [readTokens_sign hc]
  | blank d cs hd ih => simpa [readTokens_blank hd] using ih
  | sign d cs hd ih => simpa [readTokens_sign hd] using ih
  | operand d cs hd ih =>
    have htake : (cs ++ c :: ds).takeWhile isOperandChar = cs.takeWhile isOperandChar := by
      rw [List.takeWhile_append]
      split
      · next h => rw [(List.takeWhile_sublist _).eq_of_length h]; simp [hstop]
      · rfl
    have hdrop : (cs ++ c :: ds).dropWhile isOperandChar =
        cs.dropWhile isOperandChar ++ c :: ds := by
      rw [List.dropWhile_append]
      split
      · next h => rw [List.isEmpty_iff.mp h]; simp [hstop]
      · rfl
    simp [readTokens_operand hd, htake, hdrop, ih]

/-- A run of operand characters is one operand. -/
theorem readTokens_word (hne : cs ≠ []) (hcs : ∀ c ∈ cs, isOperandChar c = true) :
    readTokens cs = [⟨.operand, String.ofList cs⟩] := by
  rcases cs with _ | ⟨c, cs⟩
  · exact absurd rfl hne
  · have htail : ∀ d ∈ cs, isOperandChar d = true := fun d hd => hcs d (List.mem_cons_of_mem c hd)
    have htake : cs.takeWhile isOperandChar = cs := List.takeWhile_eq_self_iff.mpr htail
    have hdrop : cs.dropWhile isOperandChar = [] := List.dropWhile_eq_nil_iff.mpr htail
    simp [readTokens_operand (hcs c (by simp)), htake, hdrop]

end Read

/-! ## What tokens spell -/

/-- A token whose text fits its kind: an operand is a run of operand characters, and every other
token is one sign. -/
inductive Token.Proper : Token → Prop where
  | operand {w : List Char} (hne : w ≠ []) (hw : ∀ c ∈ w, isOperandChar c = true) :
    Proper ⟨.operand, String.ofList w⟩
  | sign {c : Char} (hc : isSignChar c = true) : Proper (ofSign c)

/-- The characters of a list of tokens. -/
def spell (ts : List Token) : List Char :=
  ts.flatMap (·.text.toList)

@[simp] theorem spell_nil : spell [] = [] := rfl

@[simp] theorem spell_cons (t : Token) (ts : List Token) :
    spell (t :: ts) = t.text.toList ++ spell ts := rfl

@[simp] theorem spell_append (ts us : List Token) : spell (ts ++ us) = spell ts ++ spell us :=
  List.flatMap_append

@[simp] theorem Token.text_ofSign (c : Char) : (ofSign c).text.toList = [c] := by
  simp [ofSign]

section Spell

variable {c : Char} {cs : List Char} {t : Token}

theorem proper_of_mem_readTokens (h : t ∈ readTokens cs) : t.Proper := by
  induction cs using readTokens_induction with
  | nil => simp at h
  | blank c cs hc ih => exact ih (by simpa [readTokens_blank hc] using h)
  | operand c cs hc ih =>
    rw [readTokens_operand hc] at h
    rcases List.mem_cons.mp h with rfl | h
    · refine .operand (by simp) fun d hd => ?_
      rcases List.mem_cons.mp hd with rfl | hd
      · exact hc
      · exact List.mem_takeWhile_imp hd
    · exact ih h
  | sign c cs hc ih =>
    rw [readTokens_sign hc] at h
    rcases List.mem_cons.mp h with rfl | h
    · exact .sign hc
    · exact ih h

/-- **The tokens of a text spell it**, but for its blanks. -/
theorem spell_readTokens (cs : List Char) : spell (readTokens cs) = Text.dropBlanks cs := by
  induction cs using readTokens_induction with
  | nil => simp
  | blank c cs hc ih => simpa [readTokens_blank hc, Text.dropBlanks, hc] using ih
  | operand c cs hc ih =>
    have hrun : ∀ d ∈ c :: cs.takeWhile isOperandChar, Text.isBlank d = false := by
      intro d hd
      have hop : isOperandChar d = true := by
        rcases List.mem_cons.mp hd with rfl | hd
        · exact hc
        · exact List.mem_takeWhile_imp hd
      simp only [isOperandChar, Bool.and_eq_true, Bool.not_eq_true'] at hop
      exact hop.1
    calc spell (readTokens (c :: cs))
        = c :: cs.takeWhile isOperandChar ++ Text.dropBlanks (cs.dropWhile isOperandChar) := by
          simp [readTokens_operand hc, ih]
      _ = Text.dropBlanks (c :: cs.takeWhile isOperandChar ++ cs.dropWhile isOperandChar) := by
          rw [Text.dropBlanks_append, Text.dropBlanks_eq_self hrun]
      _ = Text.dropBlanks (c :: cs) := by simp
  | sign c cs hc ih =>
    have hb : Text.isBlank c = false := by
      simp only [isSignChar, Bool.and_eq_true, Bool.not_eq_true'] at hc
      exact hc.1
    simpa [readTokens_sign hc, Text.dropBlanks, hb] using ih

/-- The tokens of a line spell the line without its blanks. -/
theorem spell_tokens (text : String) : spell (tokens text) = Text.dropBlanks text.toList := by
  rw [tokens_eq, spell_readTokens]
  simp [Text.dropBlanks]

/-- A text without blanks is spelled by its tokens. -/
theorem spell_readTokens_of_noBlank (h : ∀ c ∈ cs, Text.isBlank c = false) :
    spell (readTokens cs) = cs := by
  rw [spell_readTokens, Text.dropBlanks_eq_self h]

theorem readTokens_eq_nil_iff (h : ∀ c ∈ cs, Text.isBlank c = false) :
    readTokens cs = [] ↔ cs = [] := by
  constructor
  · intro hnil
    rw [← spell_readTokens_of_noBlank h, hnil, spell_nil]
  · rintro rfl
    exact readTokens_nil

end Spell

/-! ## Equals signs -/

theorem Kind.ofChar_eq_operand_iff {c : Char} :
    ofChar c = .operand ↔ c ∉ ['(', ')', '+', '-', '*', '/', '='] := by
  constructor
  · intro h hc
    simp only [List.mem_cons, List.not_mem_nil, or_false] at hc
    rcases hc with rfl | rfl | rfl | rfl | rfl | rfl | rfl <;> cases h
  · intro hc
    unfold ofChar
    split <;> simp_all

/-- A sign is known by its kind. -/
theorem Kind.ofChar_inj {c d : Char} (h : ofChar c = ofChar d) (hd : ofChar d ≠ .operand) :
    c = d := by
  have hc : ofChar c ≠ .operand := h ▸ hd
  simp only [ne_eq, ofChar_eq_operand_iff, not_not, List.mem_cons, List.not_mem_nil, or_false]
    at hc hd
  rcases hc with rfl | rfl | rfl | rfl | rfl | rfl | rfl <;>
    rcases hd with rfl | rfl | rfl | rfl | rfl | rfl | rfl <;> first | rfl | cases h

/-- The text of a proper token of the kind of a sign. -/
theorem Token.Proper.text_eq {t : Token} {d : Char} (ht : t.Proper) (hk : t.kind = Kind.ofChar d)
    (hd : isSignChar d = true) : t.text.toList = [d] := by
  have hsign : Kind.ofChar d ≠ .operand := by
    simp only [isSignChar, Bool.and_eq_true, decide_eq_true_eq] at hd
    exact hd.2
  cases ht with
  | operand => exact absurd hk.symm hsign
  | @sign c _ => rw [text_ofSign, Kind.ofChar_inj hk hsign]

/-- A text has a token for every equals sign in it. -/
theorem exists_equals_iff {cs : List Char} :
    (∃ t ∈ readTokens cs, t.kind = .equals) ↔ '=' ∈ cs := by
  constructor
  · rintro ⟨t, ht, hk⟩
    have htext : t.text.toList = ['='] := (proper_of_mem_readTokens ht).text_eq hk (by decide)
    have hspell : '=' ∈ spell (readTokens cs) := List.mem_flatMap.mpr ⟨t, ht, by simp [htext]⟩
    rw [spell_readTokens] at hspell
    exact (Text.mem_dropBlanks.mp hspell).1
  · intro h
    obtain ⟨l, r, rfl⟩ := List.append_of_mem h
    refine ⟨Token.ofSign '=', ?_, rfl⟩
    rw [readTokens_append_sign (by decide)]
    simp

/-! ## Names -/

/-- The code points of the digits. -/
theorem isDigit_iff_toNat {c : Char} : c.isDigit = true ↔ 48 ≤ c.toNat ∧ c.toNat ≤ 57 := by
  have hdef : c.isDigit = (decide (c.val ≥ 48) && decide (c.val ≤ 57)) := rfl
  rw [hdef]
  simp only [Bool.and_eq_true, decide_eq_true_eq]
  exact Iff.rfl

/-- The code points that a name may begin with. -/
theorem isNameStart_iff_toNat {c : Char} : isNameStart c = true ↔
    (65 ≤ c.toNat ∧ c.toNat ≤ 90 ∨ 97 ≤ c.toNat ∧ c.toNat ≤ 122) ∨ c.toNat = 95 := by
  have hdef : isNameStart c = (decide (c.val ≥ 65 ∧ c.val ≤ 90) ||
      decide (c.val ≥ 97) && decide (c.val ≤ 122) || decide (c = '_')) := rfl
  have hunderscore : c = '_' ↔ c.toNat = 95 := by
    refine ⟨fun h => by rw [h]; rfl, fun h => ?_⟩
    rw [← Char.ofNat_toNat c, h]
  rw [hdef]
  simp only [Bool.or_eq_true, Bool.and_eq_true, decide_eq_true_eq, hunderscore]
  exact Iff.rfl

/-- Letters, digits and underscores are operand characters. -/
theorem isOperandChar_of_isNameStart {c : Char} (h : (isNameStart c || c.isDigit) = true) :
    isOperandChar c = true := by
  rw [Bool.or_eq_true, isNameStart_iff_toNat, isDigit_iff_toNat] at h
  have hblank : Text.isBlank c = false := by
    simp [Text.isBlank, Text.blankRanges]
    omega
  have hkind : Kind.ofChar c = .operand := by
    rw [Kind.ofChar_eq_operand_iff]
    intro hc
    simp only [List.mem_cons, List.not_mem_nil, or_false] at hc
    rcases hc with rfl | rfl | rfl | rfl | rfl | rfl | rfl <;> revert h <;> decide
  simp [isOperandChar, hblank, hkind]

theorem isOperandChar_of_isName {name : String} (h : isName name = true) :
    name.toList ≠ [] ∧ ∀ c ∈ name.toList, isOperandChar c = true := by
  unfold isName at h
  split at h
  · cases h
  · next c cs hcs =>
    rw [hcs]
    simp only [Bool.and_eq_true, List.all_eq_true] at h
    refine ⟨by simp, fun d hd => isOperandChar_of_isNameStart ?_⟩
    rcases List.mem_cons.mp hd with rfl | hd
    · simp [h.1]
    · exact h.2 d hd

theorem equals_notMem_of_isName {name : String} (h : isName name = true) : '=' ∉ name.toList := by
  intro hmem
  have hop := (isOperandChar_of_isName h).2 '=' hmem
  revert hop
  decide

theorem isNameStart_of_isDigit {c : Char} (h : c.isDigit = true) : isNameStart c = false := by
  rw [Bool.eq_false_iff, ne_eq, isNameStart_iff_toNat]
  rw [isDigit_iff_toNat] at h
  omega

/-- A name is no literal. -/
theorem isDigits_of_isName {name : String} (h : isName name = true) :
    Literal.isDigits name.toList = false := by
  unfold isName at h
  split at h
  · cases h
  · next c cs hcs =>
    simp only [Bool.and_eq_true] at h
    have hc : c.isDigit = false := by
      cases hd : c.isDigit
      · rfl
      · rw [isNameStart_of_isDigit hd] at h
        cases h.1
    simp [Literal.isDigits, hcs, hc]

/-- A name does not begin with a percent sign. -/
theorem isTemporary_of_isName {name : String} (h : isName name = true) :
    Scope.isTemporary name = false := by
  unfold isName at h
  unfold Scope.isTemporary
  cases hcs : name.toList with
  | nil => simp
  | cons c cs =>
    simp only [hcs, Bool.and_eq_true] at h
    have hc : c ≠ '%' := by
      rintro rfl
      exact absurd h.1 (by decide)
    simp [hc]

/-! ## The statement of a line -/

/-- The lines of a source without their blanks. -/
def strippedLines (source : String) : List (List Char) :=
  (Text.lines source).map fun line => Text.dropBlanks line.toList

namespace Statement

variable {text : String} {line : Int} {l r : List Char}

theorem not_equals_of_notMem {cs : List Char} (h : '=' ∉ cs) :
    ∀ t ∈ readTokens cs, decide (t.kind ≠ .equals) = true := by
  intro t ht
  simpa using fun hk => h (exists_equals_iff.mp ⟨t, ht, hk⟩)

/-- A line without an equals sign is a print. -/
theorem parse_of_no_equals (h : '=' ∉ Text.dropBlanks text.toList) :
    parse text line = .ok (.print (readTokens (Text.dropBlanks text.toList))) := by
  have hdrop : (tokens text).dropWhile (·.kind ≠ .equals) = [] :=
    List.dropWhile_eq_nil_iff.mpr (not_equals_of_notMem h)
  simp only [parse, hdrop]
  rfl

/-- The first equals sign cuts the tokens of a line. -/
theorem tokens_cut (h : Text.dropBlanks text.toList = l ++ '=' :: r) (hl : '=' ∉ l) :
    (tokens text).takeWhile (·.kind ≠ .equals) = readTokens l ∧
      (tokens text).dropWhile (·.kind ≠ .equals) = Token.ofSign '=' :: readTokens r := by
  have hkind : (Token.ofSign '=').kind = .equals := rfl
  rw [tokens_eq, h, readTokens_append_sign (by decide),
    List.takeWhile_append_of_pos (not_equals_of_notMem hl),
    List.dropWhile_append_of_pos (not_equals_of_notMem hl)]
  simp [hkind]

/-- A line with a second equals sign is no assignment. -/
theorem parse_of_more_equals (h : Text.dropBlanks text.toList = l ++ '=' :: r) (hl : '=' ∉ l)
    (hr : '=' ∈ r) :
    parse text line =
      .error ⟨line, .invalidAssignment (String.ofList (Text.dropBlanks text.toList))⟩ := by
  obtain ⟨htake, hdrop⟩ := tokens_cut h hl
  have hany : (readTokens r).any (·.kind = .equals) = true := by
    simpa using exists_equals_iff.mpr hr
  simp only [parse, htake, hdrop, hany, if_true]

/-- **A line with one equals sign** must have something on both sides of it, and a name on the
left. -/
theorem parse_of_one_equals (h : Text.dropBlanks text.toList = l ++ '=' :: r) (hl : '=' ∉ l)
    (hr : '=' ∉ r) :
    parse text line =
      if l = [] ∨ r = [] then .error ⟨line, .missingOperand "="⟩
      else if isName (String.ofList l) then .ok (.assign (String.ofList l) (readTokens r))
      else .error ⟨line, .invalidAssignment (String.ofList (Text.dropBlanks text.toList))⟩ := by
  obtain ⟨htake, hdrop⟩ := tokens_cut h hl
  have hblank : ∀ c ∈ l ++ '=' :: r, Text.isBlank c = false := by
    intro c hc
    rw [← h] at hc
    exact (Text.mem_dropBlanks.mp hc).2
  have hbl : ∀ c ∈ l, Text.isBlank c = false := fun c hc => hblank c (by simp [hc])
  have hbr : ∀ c ∈ r, Text.isBlank c = false := fun c hc => hblank c (by simp [hc])
  have hany : (readTokens r).any (·.kind = .equals) = false := by
    simpa using not_equals_of_notMem hr
  have hempty : ((readTokens l).isEmpty || (readTokens r).isEmpty) = true ↔ l = [] ∨ r = [] := by
    simp [readTokens_eq_nil_iff hbl, readTokens_eq_nil_iff hbr]
  simp only [parse, htake, hdrop, hany, Bool.false_eq_true, if_false, hempty]
  split
  · rfl
  · by_cases hname : isName (String.ofList l) = true
    · obtain ⟨hne, hop⟩ := isOperandChar_of_isName hname
      rw [String.toList_ofList] at hne hop
      simp [readTokens_word hne hop, hname]
    · -- a single operand on the left would be the whole left side, which is no name
      simp only [hname, Bool.false_eq_true, if_false]
      split
      · next name htokens =>
        have hspell := spell_readTokens_of_noBlank hbl
        rw [htokens] at hspell
        simp only [spell_cons, spell_nil, List.append_nil] at hspell
        rw [← hspell, String.ofList_toList] at hname
        simp [hname]
      · rfl

/-- **The prints** are the lines without an equals sign. -/
theorem parse_eq_print_iff {ts : List Token} :
    parse text line = .ok (.print ts) ↔
      '=' ∉ Text.dropBlanks text.toList ∧ ts = readTokens (Text.dropBlanks text.toList) := by
  by_cases h : '=' ∈ Text.dropBlanks text.toList
  · obtain ⟨l, r, hcut, hl⟩ := List.eq_append_cons_of_mem h
    have hnot : parse text line ≠ .ok (.print ts) := by
      by_cases hr : '=' ∈ r
      · simp [parse_of_more_equals hcut hl hr]
      · rw [parse_of_one_equals hcut hl hr]
        split_ifs <;> simp
    simp [h, hnot]
  · simp [parse_of_no_equals h, h, eq_comm]

/-- **The assignments** are the lines with one equals sign, after a name and before something. -/
theorem parse_eq_assign_iff {x : String} {ts : List Token} :
    parse text line = .ok (.assign x ts) ↔
      isName x = true ∧ ∃ r, Text.dropBlanks text.toList = x.toList ++ '=' :: r ∧
        r ≠ [] ∧ '=' ∉ r ∧ ts = readTokens r := by
  constructor
  · intro hparse
    by_cases h : '=' ∈ Text.dropBlanks text.toList
    · obtain ⟨l, r, hcut, hl⟩ := List.eq_append_cons_of_mem h
      by_cases hr : '=' ∈ r
      · simp [parse_of_more_equals hcut hl hr] at hparse
      · rw [parse_of_one_equals hcut hl hr] at hparse
        split_ifs at hparse with hsides hname
        cases hparse
        rw [not_or] at hsides
        exact ⟨hname, r, by simpa using hcut, hsides.2, hr, rfl⟩
    · simp [parse_of_no_equals h] at hparse
  · rintro ⟨hname, r, hcut, hne, hr, rfl⟩
    have hx := (isOperandChar_of_isName hname).1
    have hl : '=' ∉ x.toList := equals_notMem_of_isName hname
    rw [parse_of_one_equals hcut hl hr]
    simp [hx, hne, hname]

end Statement

end Abacus
