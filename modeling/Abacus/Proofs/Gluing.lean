import Mathlib.Data.List.SplitBy
import Abacus.Proofs.Rules

/-!
# Operands glued together

Blanks are left out in two ways. A line loses its blanks before it is read, and a raw text is read
with its blanks skipped between the tokens. The two readings take the same characters for blank, and
their tokens end at the same places but for one thing: operands with only blanks between them are
several in the raw text and one in the line. So the tokens of a line are those of the raw text with
every run of operands glued into one.

## Main definitions

* `Token.sideBySide`: the tokens that are glued
* `glue`: tokens with every maximal run of operands as one operand

## Main results

* `canonical_glue`, `spell_glue`: glued tokens are canonical, and spell what they spelled before
* `reads_iff`: the rules for tokens read a text as its lexemes, and as nothing else
* `tokens_eq_glue_lex`: the tokens of a line are those of the raw text, glued
-/

namespace Abacus

/-- Two operands. -/
def Token.sideBySide (t u : Token) : Bool :=
  t.kind = .operand && u.kind = .operand

/-- The token that a run of tokens is glued into. It has the kind of the first one, and the texts of
all of them one after the other. -/
def Token.glued (run : List Token) : Token :=
  ⟨run.head?.elim .operand (·.kind), String.join (run.map (·.text))⟩

/-- **Glued tokens**: every maximal run of operands is one operand, and every other token stays. -/
def glue (ts : List Token) : List Token :=
  (ts.splitBy Token.sideBySide).map Token.glued

section Runs

variable {run ts : List Token} {t : Token}

theorem Token.Proper.isOperandChar (h : t.Proper) (hk : t.kind = .operand) :
    t.text.toList ≠ [] ∧ ∀ c ∈ t.text.toList, isOperandChar c = true := by
  cases h with
  | operand hne hw => exact ⟨by simpa using hne, by simpa using hw⟩
  | sign hc => exact absurd hk (kind_ofSign_ne hc)

theorem Token.glued_singleton (t : Token) : glued [t] = t := by
  simp [glued, String.join]

theorem Token.toList_glued (run : List Token) : (glued run).text.toList = spell run := by
  simp [glued, spell, String.toList_join, List.flatMap_map]

/-- A run is one token, or it is made of operands. -/
theorem singleton_or_operands (hne : run ≠ []) (h : run.IsChain (Token.sideBySide · ·)) :
    (∃ t, run = [t]) ∨ ∀ t ∈ run, t.kind = .operand := by
  induction run with
  | nil => exact absurd rfl hne
  | cons t rest ih =>
    rcases rest with _ | ⟨u, rest⟩
    · exact Or.inl ⟨t, rfl⟩
    · obtain ⟨hpair, hrest⟩ := List.isChain_cons_cons.mp h
      simp only [Token.sideBySide, Bool.and_eq_true, decide_eq_true_eq] at hpair
      refine Or.inr (List.forall_mem_cons.mpr ⟨hpair.1, ?_⟩)
      rcases ih (by simp) hrest with ⟨u', hu'⟩ | hall
      · cases hu'
        simpa using hpair.2
      · exact hall

/-- The tokens of a run are all of the same kind. -/
theorem Token.kind_glued (hne : run ≠ []) (h : run.IsChain (sideBySide · ·)) (ht : t ∈ run) :
    (glued run).kind = t.kind := by
  rcases singleton_or_operands hne h with ⟨u, rfl⟩ | hall
  · rw [glued_singleton, List.mem_singleton.mp ht]
  · obtain ⟨first, rest, rfl⟩ := List.exists_cons_of_ne_nil hne
    exact (hall first (by simp)).trans (hall t ht).symm

/-- A run of tokens that fit their kinds is glued into one that does. -/
theorem Token.proper_glued (hne : run ≠ []) (h : run.IsChain (sideBySide · ·))
    (hproper : ∀ t ∈ run, t.Proper) : (glued run).Proper := by
  rcases singleton_or_operands hne h with ⟨t, rfl⟩ | hall
  · rw [glued_singleton]
    exact hproper t (by simp)
  · obtain ⟨first, rest, rfl⟩ := List.exists_cons_of_ne_nil hne
    have hfirst := (hproper first (by simp)).isOperandChar (hall first (by simp))
    have hword : glued (first :: rest) = ⟨.operand, String.ofList (spell (first :: rest))⟩ := by
      rw [← toList_glued, String.ofList_toList, ← hall first (by simp)]
      rfl
    rw [hword]
    refine .operand (by simp [hfirst.1]) fun c hc => ?_
    obtain ⟨t, ht, hct⟩ := List.mem_flatMap.mp hc
    exact ((hproper t ht).isOperandChar (hall t ht)).2 c hct

theorem spell_map_glued (runs : List (List Token)) :
    spell (runs.map Token.glued) = spell runs.flatten := by
  induction runs with
  | nil => rfl
  | cons run runs ih => simp [Token.toList_glued, ih]

/-- Gluing keeps what tokens spell. -/
theorem spell_glue (ts : List Token) : spell (glue ts) = spell ts := by
  rw [glue, spell_map_glued, List.flatten_splitBy]

/-- **Glued tokens are canonical.** -/
theorem canonical_glue (h : ∀ t ∈ ts, t.Proper) : Canonical (glue ts) where
  proper := by
    intro t ht
    obtain ⟨run, hrun, rfl⟩ := List.mem_map.mp ht
    refine Token.proper_glued (List.ne_nil_of_mem_splitBy hrun) (List.isChain_of_mem_splitBy hrun)
      fun u hu => h u ?_
    rw [← List.flatten_splitBy Token.sideBySide ts]
    exact List.mem_flatten.mpr ⟨run, hrun, hu⟩
  apart := by
    refine (List.isChain_map _).mpr ?_
    refine (List.isChain_getLast_head_splitBy Token.sideBySide ts).imp_of_mem_imp ?_
    rintro run next hrun hnext ⟨hne, hne', hstop⟩ ⟨hk, hk'⟩
    rw [Token.kind_glued hne (List.isChain_of_mem_splitBy hrun) (List.getLast_mem hne)] at hk
    rw [Token.kind_glued hne' (List.isChain_of_mem_splitBy hnext) (List.head_mem hne')] at hk'
    simp [Token.sideBySide, hk, hk'] at hstop

end Runs

/-! ## The two readings -/

/-- The rules for tokens read a text as its lexemes, and as nothing else. -/
theorem reads_iff {p : Position} {cs : List Char} {outcome : Except (List Char) (List Lexeme)} :
    lexicalRules.Reads p cs outcome ↔ outcome = .ok (scan p cs) := by
  constructor
  · intro h
    exact h.unique (reads_scan p cs)
  · rintro rfl
    exact reads_scan p cs

/-- **The tokens of a line are those of the raw text, glued.** By the rules for tokens a text has
one reading, as it stands and without its blanks. In the first, replace each maximal run of operands
by one operand whose text is theirs together: the tokens are those of the second. They are the same
from the start exactly when no two operands stand side by side. -/
theorem tokens_eq_glue_lex (text : String) :
    (∀ outcome, lexicalRules.Reads {} text.toList outcome ↔ outcome = .ok (lex text)) ∧
    (∃ lexemes : List Lexeme, lexemes.map (·.token) = tokens text ∧
      ∀ outcome, lexicalRules.Reads {} (Text.dropBlanks text.toList) outcome ↔
        outcome = .ok lexemes) ∧
    tokens text = glue ((lex text).map (·.token)) ∧
    (tokens text = (lex text).map (·.token) ↔
      ((lex text).map (·.token)).IsChain fun t u => ¬ (t.kind = .operand ∧ u.kind = .operand)) := by
  have hproper : ∀ t ∈ readTokens text.toList, t.Proper := fun t ht => proper_of_mem_readTokens ht
  have hcanonical : Canonical (tokens text) :=
    canonical_readTokens fun c hc => (Text.mem_dropBlanks.mp hc).2
  have hread : tokens text = readTokens (spell (readTokens text.toList)) := by
    rw [tokens_eq, spell_readTokens]
  refine ⟨fun outcome => reads_iff, ⟨_, rfl, fun outcome => reads_iff⟩, ?_, ?_, ?_⟩
  · rw [hread, ← spell_glue, readTokens_spell (canonical_glue hproper)]
    rfl
  · intro heq
    rw [← heq]
    exact hcanonical.apart
  · intro hapart
    rw [hread, readTokens_spell ⟨hproper, hapart⟩]
    rfl

example : (lex "a b\t1 = 2 c").map (·.token) =
    [⟨.operand, "a"⟩, ⟨.operand, "b"⟩, ⟨.operand, "1"⟩, ⟨.equals, "="⟩, ⟨.operand, "2"⟩,
      ⟨.operand, "c"⟩] ∧
    glue ((lex "a b\t1 = 2 c").map (·.token)) =
      [⟨.operand, "ab1"⟩, ⟨.equals, "="⟩, ⟨.operand, "2c"⟩] := by
  decide +kernel

end Abacus
