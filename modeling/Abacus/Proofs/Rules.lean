import Abacus.Proofs.Spelling

/-!
# Tokens by rules

Tokens can be told by a list of rules. At every place of a text the blanks are tried first, and are
skipped where there are some. Otherwise the rules are tried in their order, and the first whose
pattern is found makes a token of what it has found. A reading fails where nothing is found. With
the rules for tokens this does not happen: every character belongs to one of them, each round goes
further, and every reading ends in the same tokens.

So reading and spelling are inverse. What is read from a line spells the line without its blanks.
Tokens that fit their kinds, no two operands side by side, are read from whatever spells them, with
blanks put in anywhere.

## Main definitions

* `Pattern`, `Rule`, `Rules`: what is looked for, and in which order
* `Rules.round`, `Rules.Reads`: what is found at one place, and the reading of a whole text
* `lexicalRules`: the rules for tokens
* `Kind.char?`, `Token.Fits`: the text of each kind of token
* `Text.Spaced`: a text with blanks put in

## Main results

* `Rules.Reads.unique`: a text is read in one way at most
* `reads_scan`: the rules for tokens read every text, and read its lexemes
* `Token.fits_iff_proper`: the tokens that fit their kinds
* `tokens_inverse_spell`: reading tokens and spelling them are inverse
-/

namespace Abacus

/-! ## Reading by rules -/

/-- What is looked for at the front of a text. -/
inductive Pattern where
  /-- One given character. -/
  | char (c : Char)
  /-- As many characters in a row as possible that `p` holds of, and at least one. -/
  | run (p : Char → Bool)

/-- What a pattern finds at the front of a text, and the rest of the text. -/
def Pattern.take? : Pattern → List Char → Option (List Char × List Char)
  | char c, cs => if cs.head? = some c then some ([c], cs.tail) else none
  | run p, cs => if (cs.takeWhile p).isEmpty then none else some (cs.takeWhile p, cs.dropWhile p)

/-- What matches the pattern is a token of the kind. -/
structure Rule where
  kind : Kind
  pattern : Pattern

/-- What is skipped between tokens, and the rules for tokens in the order they are tried in. -/
structure Rules where
  ignored : Pattern
  rules : List Rule

namespace Rules

variable (R : Rules)

/-- What is found at one place of a text. -/
inductive Round where
  | skipped (word rest : List Char)
  | read (kind : Kind) (word rest : List Char)
  | stuck
  deriving DecidableEq, Repr

/-- **One round**: first what is ignored is looked for, and then what the rules say, one rule after
the other. -/
def round (cs : List Char) : Round :=
  match R.ignored.take? cs with
  | some (word, rest) => .skipped word rest
  | none =>
    match R.rules.findSome? fun rule => (rule.pattern.take? cs).map (rule.kind, ·) with
    | some (kind, word, rest) => .read kind word rest
    | none => .stuck

/-- **The reading of a text that starts at a position**, round after round. It ends in lexemes at
the end of the text, or in the part of the text where nothing is found. -/
inductive Reads : Position → List Char → Except (List Char) (List Lexeme) → Prop where
  | done {p : Position} : Reads p [] (.ok [])
  | skip {p : Position} {c : Char} {cs word rest : List Char}
    {outcome : Except (List Char) (List Lexeme)} (h : R.round (c :: cs) = .skipped word rest)
    (hrest : Reads (p.after word) rest outcome) : Reads p (c :: cs) outcome
  | token {p : Position} {c : Char} {cs word rest : List Char} {kind : Kind}
    {outcome : Except (List Char) (List Lexeme)} (h : R.round (c :: cs) = .read kind word rest)
    (hrest : Reads (p.after word) rest outcome) :
    Reads p (c :: cs) (outcome.map (⟨⟨kind, String.ofList word⟩, p⟩ :: ·))
  | stuck {p : Position} {c : Char} {cs : List Char} (h : R.round (c :: cs) = .stuck) :
    Reads p (c :: cs) (.error (c :: cs))

variable {R}

/-- **A text is read in one way at most.** -/
theorem Reads.unique {p : Position} {cs : List Char} {a b : Except (List Char) (List Lexeme)}
    (ha : R.Reads p cs a) (hb : R.Reads p cs b) : a = b := by
  induction ha generalizing b with
  | done =>
    cases hb
    rfl
  | skip h _ ih =>
    cases hb with
    | skip h' hrest =>
      cases h.symm.trans h'
      exact ih hrest
    | token h' => cases h.symm.trans h'
    | stuck h' => cases h.symm.trans h'
  | token h _ ih =>
    cases hb with
    | skip h' => cases h.symm.trans h'
    | token h' hrest =>
      cases h.symm.trans h'
      rw [ih hrest]
    | stuck h' => cases h.symm.trans h'
  | stuck h =>
    cases hb with
    | skip h' => cases h.symm.trans h'
    | token h' => cases h.symm.trans h'
    | stuck => rfl

end Rules

/-! ## The rules for tokens -/

/-- **The rules for tokens**: blanks are skipped, each sign is a token by itself, and all that is
neither blank nor a sign makes operands. -/
def lexicalRules : Rules where
  ignored := .run Text.isBlank
  rules := [⟨.leftParen, .char '('⟩, ⟨.rightParen, .char ')'⟩, ⟨.plus, .char '+'⟩,
    ⟨.minus, .char '-'⟩, ⟨.star, .char '*'⟩, ⟨.slash, .char '/'⟩, ⟨.equals, .char '='⟩,
    ⟨.operand, .run fun c => c ∉ ['+', '-', '*', '/', '(', ')', '='] && !Text.isBlank c⟩]

section Rounds

variable {c : Char} {cs : List Char}

theorem round_blank (hc : Text.isBlank c = true) :
    lexicalRules.round (c :: cs) =
      .skipped (c :: cs.takeWhile Text.isBlank) (cs.dropWhile Text.isBlank) := by
  simp [Rules.round, lexicalRules, Pattern.take?, hc]

theorem round_sign (hc : isSignChar c = true) :
    lexicalRules.round (c :: cs) = .read (Kind.ofChar c) [c] cs := by
  simp only [isSignChar, Bool.and_eq_true, Bool.not_eq_true', decide_eq_true_eq, ne_eq,
    Kind.ofChar_eq_operand_iff, not_not, List.mem_cons, List.not_mem_nil, or_false] at hc
  obtain ⟨hb, hc⟩ := hc
  rcases hc with rfl | rfl | rfl | rfl | rfl | rfl | rfl <;>
    simp [Rules.round, lexicalRules, Pattern.take?, hb, Kind.ofChar]

/-- What the last rule looks for are the characters of operands. -/
theorem isOperandChar_eq :
    isOperandChar = fun c => c ∉ ['+', '-', '*', '/', '(', ')', '='] && !Text.isBlank c := by
  funext c
  rw [Bool.eq_iff_iff]
  simp only [isOperandChar, Bool.and_eq_true, decide_eq_true_eq, Kind.ofChar_eq_operand_iff,
    List.mem_cons, List.not_mem_nil, or_false, not_or]
  tauto

theorem round_operand (hc : isOperandChar c = true) :
    lexicalRules.round (c :: cs) =
      .read .operand (c :: cs.takeWhile isOperandChar) (cs.dropWhile isOperandChar) := by
  have hrule := hc
  simp only [isOperandChar, Bool.and_eq_true, Bool.not_eq_true', decide_eq_true_eq,
    Kind.ofChar_eq_operand_iff, List.mem_cons, List.not_mem_nil, or_false, not_or] at hc
  simp only [Rules.round, lexicalRules, ← isOperandChar_eq]
  simp [Pattern.take?, hc, hrule]

/-- Blanks are passed as a whole. -/
theorem scan_blanks (p : Position) (cs : List Char) :
    scan p cs = scan (p.after (cs.takeWhile Text.isBlank)) (cs.dropWhile Text.isBlank) := by
  induction cs generalizing p with
  | nil => rfl
  | cons c cs ih =>
    cases hc : Text.isBlank c with
    | false => simp [hc]
    | true => simpa [scan_blank hc, hc] using ih (p.next c)

/-- **The rules for tokens read every text**, and read its lexemes. -/
theorem reads_scan (p : Position) (cs : List Char) :
    lexicalRules.Reads p cs (.ok (scan p cs)) := by
  -- by length, since a round passes a whole run
  induction hn : cs.length using Nat.strongRecOn generalizing p cs with
  | ind n ih =>
    subst hn
    rcases cs with _ | ⟨c, cs⟩
    · rw [scan_nil]
      exact .done
    · have hdrop : ∀ q : Char → Bool, (cs.dropWhile q).length < (c :: cs).length := fun q =>
        Nat.lt_succ_of_le (List.dropWhile_sublist q).length_le
      rcases blank_or_operand_or_sign c with hc | hc | hc
      · have hscan : scan p (c :: cs) =
            scan (p.after (c :: cs.takeWhile Text.isBlank)) (cs.dropWhile Text.isBlank) := by
          rw [scan_blank hc, scan_blanks, Position.after_cons]
        rw [hscan]
        exact .skip (round_blank hc) (ih _ (hdrop Text.isBlank) _ _ rfl)
      · rw [scan_operand hc]
        exact .token (round_operand hc) (ih _ (hdrop isOperandChar) _ _ rfl)
      · rw [scan_sign hc]
        have hrest := ih cs.length (by simp) (p.next c) cs rfl
        exact .token (round_sign hc) hrest

end Rounds

/-! ## Tokens that fit their kinds -/

/-- The one character that is the text of a token, for the kinds that have but one text. -/
def Kind.char? : Kind → Option Char
  | leftParen => some '('
  | rightParen => some ')'
  | plus => some '+'
  | minus => some '-'
  | star => some '*'
  | slash => some '/'
  | equals => some '='
  | operand => none

/-- **A token fits its kind**: a sign has the text of its kind, and an operand has a text that is
not empty and free of signs and blanks. -/
def Token.Fits (t : Token) : Prop :=
  match t.kind.char? with
  | some c => t.text = String.singleton c
  | none => t.text ≠ "" ∧
      ∀ c ∈ t.text.toList, Text.isBlank c = false ∧ ∀ k : Kind, k.char? ≠ some c

theorem Kind.char?_eq_some_iff {k : Kind} {c : Char} :
    k.char? = some c ↔ ofChar c = k ∧ k ≠ .operand := by
  constructor
  · intro h
    cases k <;> cases h <;> exact ⟨rfl, nofun⟩
  · rintro ⟨rfl, h⟩
    rw [ne_eq, ofChar_eq_operand_iff, not_not] at h
    simp only [List.mem_cons, List.not_mem_nil, or_false] at h
    rcases h with rfl | rfl | rfl | rfl | rfl | rfl | rfl <;> rfl

theorem isOperandChar_iff {c : Char} :
    isOperandChar c = true ↔ Text.isBlank c = false ∧ ∀ k : Kind, k.char? ≠ some c := by
  simp only [isOperandChar, Bool.and_eq_true, Bool.not_eq_true', decide_eq_true_eq, ne_eq,
    Kind.char?_eq_some_iff, not_and, not_not]
  refine and_congr_right fun _ => ⟨?_, ?_⟩
  · rintro h k rfl
    exact h
  · intro h
    exact h _ rfl

theorem isSignChar_of_char? {k : Kind} {c : Char} (h : k.char? = some c) : isSignChar c = true := by
  cases k <;> cases h <;> decide

/-- The tokens that fit their kinds are those that can be read. -/
theorem Token.fits_iff_proper {t : Token} : t.Fits ↔ t.Proper := by
  constructor
  · intro h
    obtain ⟨kind, text⟩ := t
    cases hchar : kind.char? with
    | some c =>
      obtain ⟨rfl, -⟩ := Kind.char?_eq_some_iff.mp hchar
      have htext : text = String.singleton c := by simpa only [Fits, hchar] using h
      rw [htext]
      exact .sign (isSignChar_of_char? hchar)
    | none =>
      have hkind : kind = .operand := by cases kind <;> first | rfl | cases hchar
      subst hkind
      obtain ⟨hne, hw⟩ := h
      rw [← String.ofList_toList (s := text)]
      refine .operand ?_ fun c hc => isOperandChar_iff.mpr (hw c hc)
      exact fun hnil => hne (String.toList_eq_nil_iff.mp hnil)
  · intro h
    cases h with
    | @operand w hne hw =>
      refine ⟨?_, fun c hc => ?_⟩
      · intro hempty
        exact hne (by simpa using congrArg String.toList hempty)
      · rw [String.toList_ofList] at hc
        exact isOperandChar_iff.mp (hw c hc)
    | @sign c hc =>
      have hchar : (ofSign c).kind.char? = some c :=
        Kind.char?_eq_some_iff.mpr ⟨rfl, kind_ofSign_ne hc⟩
      unfold Fits
      rw [hchar]
      rfl

theorem canonical_iff {ts : List Token} : Canonical ts ↔ (∀ t ∈ ts, t.Fits) ∧
    ts.IsChain fun t u => ¬ (t.kind = .operand ∧ u.kind = .operand) := by
  simp only [Token.fits_iff_proper]
  exact ⟨fun h => ⟨h.proper, h.apart⟩, fun h => ⟨h.1, h.2⟩⟩

/-! ## Texts with blanks put in -/

/-- **A text with blanks put in anywhere.** -/
inductive Text.Spaced : List Char → List Char → Prop where
  | nil : Spaced [] []
  | keep (c : Char) {cs ds : List Char} (h : Spaced cs ds) : Spaced (c :: cs) (c :: ds)
  | blank {c : Char} {cs ds : List Char} (hc : isBlank c = true) (h : Spaced cs ds) :
    Spaced cs (c :: ds)

theorem Text.Spaced.dropBlanks_eq {cs ds : List Char} (h : Spaced cs ds) :
    dropBlanks ds = dropBlanks cs := by
  induction h with
  | nil => rfl
  | keep c _ ih => cases hc : isBlank c <;> simpa [dropBlanks, hc] using ih
  | blank hc _ ih => simpa [dropBlanks, hc] using ih

/-- A text is what is left without its blanks, with blanks put in. -/
theorem Text.spaced_dropBlanks (cs : List Char) : Spaced (dropBlanks cs) cs := by
  induction cs with
  | nil => exact .nil
  | cons c cs ih =>
    cases hc : isBlank c with
    | true =>
      rw [show dropBlanks (c :: cs) = dropBlanks cs by simp [dropBlanks, hc]]
      exact .blank hc ih
    | false =>
      rw [show dropBlanks (c :: cs) = c :: dropBlanks cs by simp [dropBlanks, hc]]
      exact .keep c ih

/-- Canonical tokens are read from what they spell, with blanks put in. -/
theorem tokens_of_spaced {ts : List Token} {text : String} (h : Canonical ts)
    (hspaced : Text.Spaced (spell ts) text.toList) : tokens text = ts := by
  have hself := Text.dropBlanks_eq_self (not_isBlank_of_mem_spell h.proper)
  rw [tokens_eq, hspaced.dropBlanks_eq, hself, readTokens_spell h]

/-- **Reading tokens and spelling them are inverse.** The canonical rows of tokens are those that
fit their kinds and have no two operands side by side. By the rules for tokens, every line is read,
and in one way only: its tokens are canonical and spell the line without its blanks. Canonical
tokens are read from what they spell, with blanks put in anywhere. -/
theorem tokens_inverse_spell :
    (∀ ts : List Token, Canonical ts ↔ (∀ t ∈ ts, t.Fits) ∧
      ts.IsChain fun t u => ¬ (t.kind = .operand ∧ u.kind = .operand)) ∧
    (∀ text : String,
      (∃ lexemes : List Lexeme, lexemes.map (·.token) = tokens text ∧
        ∀ outcome, lexicalRules.Reads {} (Text.dropBlanks text.toList) outcome ↔
          outcome = .ok lexemes) ∧
      Canonical (tokens text) ∧ spell (tokens text) = Text.dropBlanks text.toList) ∧
    ∀ (ts : List Token) (text : String), Canonical ts → Text.Spaced (spell ts) text.toList →
      tokens text = ts := by
  refine ⟨fun ts => canonical_iff, fun text => ⟨?_, ?_, spell_tokens text⟩,
    fun ts text => tokens_of_spaced⟩
  · refine ⟨scan {} (Text.dropBlanks text.toList), rfl, fun outcome => ⟨?_, ?_⟩⟩
    · intro h
      exact h.unique (reads_scan _ _)
    · rintro rfl
      exact reads_scan _ _
  · exact canonical_readTokens fun c hc => (Text.mem_dropBlanks.mp hc).2

/-- An ASCII operand and one that is not, with blanks inside of them and beside the signs. -/
theorem tokens_inverse_spell_blanks :
    let ts : List Token := [⟨.operand, "a1"⟩, ⟨.equals, "="⟩, ⟨.minus, "-"⟩, ⟨.leftParen, "("⟩,
      ⟨.operand, "%\u00e9"⟩, ⟨.rightParen, ")"⟩]
    let text := "a\u20031 = -( %\t\u00e9)\n"
    Canonical ts ∧ Text.Spaced (spell ts) text.toList ∧ tokens text = ts := by
  intro ts text
  have hname : Token.Proper ⟨.operand, "a1"⟩ :=
    .operand (w := "a1".toList) (by decide) (List.all_eq_true.mp (by decide))
  have hother : Token.Proper ⟨.operand, "%\u00e9"⟩ :=
    .operand (w := "%\u00e9".toList) (by decide) (List.all_eq_true.mp (by decide))
  have hproper : ∀ t ∈ ts, t.Proper := by
    simp only [ts, List.forall_mem_cons, List.not_mem_nil, false_imp_iff, implies_true, and_true]
    exact ⟨hname, .sign (c := '=') (by decide), .sign (c := '-') (by decide),
      .sign (c := '(') (by decide), hother, .sign (c := ')') (by decide)⟩
  have hts : Canonical ts := ⟨hproper, by decide⟩
  have hspaced : Text.Spaced (spell ts) text.toList :=
    (show Text.dropBlanks text.toList = spell ts by decide) ▸ Text.spaced_dropBlanks text.toList
  exact ⟨hts, hspaced, tokens_inverse_spell.2.2 ts text hts hspaced⟩

end Abacus
