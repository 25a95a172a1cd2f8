import Mathlib.Data.List.Chain
import Abacus.Proofs.Lexing

/-!
# Tokens that are read as they are spelled

The tokens of a text without blanks fit their kinds, and no operand directly follows another, for
the two would have been read as one. Such a row of tokens can be spelled and read again: every
operand ends where a sign or the end of the text follows.

## Main definitions

* `Canonical`: the rows of tokens that are read from texts without blanks

## Main results

* `canonical_readTokens`: what is read from a text without blanks is canonical
* `readTokens_spell`: canonical tokens are read from what they spell
-/

namespace Abacus

/-- **A canonical row of tokens**: each fits its kind, and no two operands stand side by side. -/
structure Canonical (ts : List Token) : Prop where
  proper : ∀ t ∈ ts, t.Proper
  apart : ts.IsChain fun t u => ¬ (t.kind = .operand ∧ u.kind = .operand)

section Spelling

variable {t : Token} {ts : List Token} {c : Char} {cs : List Char}

theorem Canonical.tail (h : Canonical (t :: ts)) : Canonical ts :=
  ⟨fun u hu => h.proper u (List.mem_cons_of_mem t hu), h.apart.tail⟩

theorem Token.kind_ofSign_ne (hc : isSignChar c = true) : (Token.ofSign c).kind ≠ .operand := by
  simp only [isSignChar, Bool.and_eq_true, decide_eq_true_eq] at hc
  exact hc.2

theorem Token.Proper.not_isBlank (h : t.Proper) : ∀ c ∈ t.text.toList, Text.isBlank c = false := by
  cases h with
  | operand hne hw =>
    intro c hc
    rw [String.toList_ofList] at hc
    have hop := hw c hc
    simp only [isOperandChar, Bool.and_eq_true, Bool.not_eq_true'] at hop
    exact hop.1
  | sign hc =>
    intro c hmem
    rw [text_ofSign, List.mem_singleton] at hmem
    simp only [isSignChar, Bool.and_eq_true, Bool.not_eq_true'] at hc
    exact hmem ▸ hc.1

/-- No blank is spelled by tokens that fit their kinds. -/
theorem not_isBlank_of_mem_spell (h : ∀ t ∈ ts, t.Proper) :
    ∀ c ∈ spell ts, Text.isBlank c = false := by
  intro c hc
  obtain ⟨t, ht, hct⟩ := List.mem_flatMap.mp hc
  exact (h t ht).not_isBlank c hct

/-- **Canonical tokens are read from what they spell.** -/
theorem readTokens_spell (h : Canonical ts) : readTokens (spell ts) = ts := by
  induction ts with
  | nil => exact readTokens_nil
  | cons t ts ih =>
    have hrest := ih h.tail
    cases h.proper t (by simp) with
    | sign hc =>
      rw [spell_cons, Token.text_ofSign, List.singleton_append, readTokens_sign hc, hrest]
    | @operand w hne hw =>
      rw [spell_cons, String.toList_ofList]
      rcases ts with _ | ⟨u, ts⟩
      · rw [spell_nil, List.append_nil, readTokens_word hne hw]
      · have hu := h.tail.proper u (by simp)
        cases hu with
        | operand => exact absurd ⟨rfl, rfl⟩ (List.isChain_cons_cons.mp h.apart).1
        | @sign c hc =>
          rw [spell_cons, Token.text_ofSign, List.singleton_append] at hrest ⊢
          rw [readTokens_append_sign hc, readTokens_word hne hw, ← readTokens_sign hc, hrest]
          rfl

/-- Where the run of an operand has ended, a sign follows if anything does. -/
theorem isSignChar_of_dropWhile (h : ∀ d ∈ cs, Text.isBlank d = false) {ds : List Char}
    (hdrop : cs.dropWhile isOperandChar = c :: ds) : isSignChar c = true := by
  have hhead : isOperandChar c = false := by
    simpa [hdrop] using List.head?_dropWhile_not isOperandChar cs
  have hmem : c ∈ cs := (List.dropWhile_sublist isOperandChar).subset (by simp [hdrop])
  rcases blank_or_operand_or_sign c with hb | ho | hs
  · rw [h c hmem] at hb
    cases hb
  · rw [hhead] at ho
    cases ho
  · exact hs

/-- **What is read from a text without blanks is canonical.** -/
theorem canonical_readTokens (h : ∀ c ∈ cs, Text.isBlank c = false) :
    Canonical (readTokens cs) := by
  refine ⟨fun t ht => proper_of_mem_readTokens ht, ?_⟩
  induction cs using readTokens_induction with
  | nil => simp
  | blank c cs hc ih =>
    rw [h c (by simp)] at hc
    cases hc
  | sign c cs hc ih =>
    rw [readTokens_sign hc]
    refine List.isChain_cons.mpr ⟨?_, ih fun d hd => h d (by simp [hd])⟩
    intro u _ hboth
    exact Token.kind_ofSign_ne hc hboth.1
  | operand c cs hc ih =>
    rw [readTokens_operand hc]
    have htail : ∀ d ∈ cs, Text.isBlank d = false := fun d hd => h d (by simp [hd])
    have hdrop : ∀ d ∈ cs.dropWhile isOperandChar, Text.isBlank d = false := fun d hd =>
      htail d ((List.dropWhile_sublist _).subset hd)
    refine List.isChain_cons.mpr ⟨?_, ih hdrop⟩
    intro u hu hboth
    cases hrest : cs.dropWhile isOperandChar with
    | nil => simp [hrest] at hu
    | cons d ds =>
      have hsign := isSignChar_of_dropWhile htail hrest
      rw [hrest, readTokens_sign hsign] at hu
      obtain rfl : Token.ofSign d = u := by simpa using hu
      exact Token.kind_ofSign_ne hsign hboth.2

end Spelling

end Abacus
