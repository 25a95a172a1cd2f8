import Abacus.Proofs.Forest
import Abacus.Proofs.Lexing

/-!
# The grammar of expressions

Two grammars of the same language. The flat one says which texts are expressions: operands and
groups with an operator between any two neighbours. The stratified one also says how they are
read: it has a tier for each operator, `*` the tightest, then `/`, `-` and `+`, and every tier is
joined from left to right.

## Main definitions

* `Expr`: expressions as trees
* `Generates`: the flat grammar, `E ::= A (op A)*` and `A ::= operand | '(' E ')'`
* `Tier`, `Reads`: the stratified grammar, with the tree of each text

## Main results

* `Generates.exists_reads`, `Reads.generates`: the texts that have a reading are the expressions
* `Reads.mono`: a reading asks of its operands only what it is told to
* `Forest.Spells.word`, `Forest.Spells.parenthesized`, `Forest.Spells.join`: the forests that the
  tokens of expressions spell, one for each rule of the grammars
-/

namespace Abacus

/-- An expression as a tree. An operand is known by its text. -/
inductive Expr where
  | operand (text : String)
  | binary (op : BinOp) (left right : Expr)
  deriving DecidableEq, Repr

/-! ## Operator characters -/

namespace BinOp

/-- The character that stands for an operation. -/
def char : BinOp → Char
  | mul => '*'
  | sdiv => '/'
  | sub => '-'
  | add => '+'

theorem isSignChar_char (op : BinOp) : isSignChar op.char = true := by
  cases op <;> decide

@[simp] theorem ofChar_char (op : BinOp) : Kind.ofChar op.char = op.sign := by
  cases op <;> rfl

end BinOp

/-! ## The flat grammar -/

/-- The characters that are not part of an operand. -/
def delimiters : List Char := ['(', ')', '+', '-', '*', '/', '=']

/-- The nonterminals of the flat grammar. -/
inductive Nonterminal where
  | expression
  | atom
  deriving DecidableEq, Repr

/-- **The language of expressions**, with operands of which `ok` holds. Between two operands stands
an operator, so every operand is a maximal run of characters that are no delimiters. -/
inductive Generates (ok : String → Prop) : Nonterminal → List Char → Prop where
  | operand {w : List Char} (hne : w ≠ []) (hw : ∀ c ∈ w, c ∉ delimiters)
    (hok : ok (String.ofList w)) : Generates ok .atom w
  | group {cs : List Char} (h : Generates ok .expression cs) :
    Generates ok .atom ('(' :: cs ++ [')'])
  | single {cs : List Char} (h : Generates ok .atom cs) : Generates ok .expression cs
  | join {cs ds : List Char} (op : BinOp) (h : Generates ok .atom cs)
    (h' : Generates ok .expression ds) : Generates ok .expression (cs ++ op.char :: ds)

namespace Generates

variable {ok ok' : String → Prop} {n : Nonterminal} {cs : List Char}

theorem ne_nil (h : Generates ok n cs) : cs ≠ [] := by
  induction h with
  | operand hne _ _ => exact hne
  | group _ _ => simp
  | single _ ih => exact ih
  | join _ _ _ _ _ => simp

theorem equals_notMem (h : Generates ok n cs) : '=' ∉ cs := by
  induction h with
  | operand _ hw _ => exact fun hmem => hw '=' hmem (by decide)
  | group _ ih => simpa using ih
  | single _ ih => exact ih
  | join op _ _ ih ih' =>
    have hop : '=' ≠ op.char := by cases op <;> decide
    simp [ih, ih', hop]

/-- Two expressions with an operator between them are one. -/
theorem append_sign (op : BinOp) {ds : List Char} (h : Generates ok .expression cs)
    (h' : Generates ok .expression ds) : Generates ok .expression (cs ++ op.char :: ds) := by
  generalize hn : Nonterminal.expression = n at h
  induction h with
  | operand _ _ _ => cases hn
  | group _ _ => cases hn
  | single h _ => exact .join op h h'
  | join o h _ _ ih => simpa using Generates.join o h (ih hn)

end Generates

/-! ## The stratified grammar -/

/-- The tiers of the stratified grammar: atoms, and what one operator joins. -/
inductive Tier where
  | atom
  | joined (op : BinOp)
  deriving DecidableEq, Repr

/-- The tier whose texts an operator joins. -/
def BinOp.tighter : BinOp → Tier
  | mul => .atom
  | sdiv => .joined mul
  | sub => .joined sdiv
  | add => .joined sub

/-- The loosest tier, which holds all expressions. -/
abbrev Tier.sum : Tier := .joined .add

/-- The operators that may stand in a tier outside of groups, the tightest first. -/
def Tier.ops : Tier → List BinOp
  | atom => []
  | joined .mul => [.mul]
  | joined .sdiv => [.mul, .sdiv]
  | joined .sub => [.mul, .sdiv, .sub]
  | joined .add => [.mul, .sdiv, .sub, .add]

theorem Tier.ops_joined (op : BinOp) : (joined op).ops = op.tighter.ops ++ [op] := by
  cases op <;> rfl

theorem BinOp.notMem_tighter (op : BinOp) : op ∉ op.tighter.ops := by
  cases op <;> decide

theorem BinOp.mem_sum (op : BinOp) : op ∈ Tier.sum.ops := by
  cases op <;> decide

/-- **The stratified grammar**: a text of a tier and its tree. Every operator joins texts of the
next tighter tier from left to right, and a group is an atom whatever stands in it. -/
inductive Reads (ok : String → Prop) : Tier → List Char → Expr → Prop where
  | operand {w : List Char} (hne : w ≠ []) (hw : ∀ c ∈ w, c ∉ delimiters)
    (hok : ok (String.ofList w)) : Reads ok .atom w (.operand (String.ofList w))
  | group {cs : List Char} {e : Expr} (h : Reads ok .sum cs e) :
    Reads ok .atom ('(' :: cs ++ [')']) e
  | single {cs : List Char} {e : Expr} (op : BinOp) (h : Reads ok op.tighter cs e) :
    Reads ok (.joined op) cs e
  | join {cs ds : List Char} {a b : Expr} (op : BinOp) (h : Reads ok (.joined op) cs a)
    (h' : Reads ok op.tighter ds b) : Reads ok (.joined op) (cs ++ op.char :: ds) (.binary op a b)

namespace Reads

variable {ok ok' : String → Prop} {t : Tier} {cs ds : List Char} {e a : Expr}

theorem mono (h : Reads ok t cs e) (hok : ∀ text, ok text → ok' text) : Reads ok' t cs e := by
  induction h with
  | operand hne hw h => exact .operand hne hw (hok _ h)
  | group _ ih => exact .group ih
  | single op _ ih => exact .single op ih
  | join op _ _ ih ih' => exact .join op ih ih'

/-- What is read is an expression. -/
theorem generates (h : Reads ok t cs e) : Generates ok .expression cs := by
  induction h with
  | operand hne hw hok => exact .single (.operand hne hw hok)
  | group _ ih => exact .single (.group ih)
  | single _ _ ih => exact ih
  | join op _ _ ih ih' => exact ih.append_sign op ih'

/-- An atom belongs to every tier. -/
theorem ofAtom (h : Reads ok .atom cs a) (op : BinOp) : Reads ok (.joined op) cs a := by
  have hmul : Reads ok (.joined .mul) cs a := .single .mul h
  have hdiv : Reads ok (.joined .sdiv) cs a := .single .sdiv hmul
  have hsub : Reads ok (.joined .sub) cs a := .single .sub hdiv
  cases op with
  | mul => exact hmul
  | sdiv => exact hdiv
  | sub => exact hsub
  | add => exact .single .add hsub

/-- One more atom in front of a text is joined to the first part of the operator's own tier, which
leaves the text in the tier it was in. -/
theorem exists_prepend (ha : Reads ok .atom cs a) {op : BinOp} (h : Reads ok t ds e)
    (hop : op ∈ t.ops) : ∃ e', Reads ok t (cs ++ op.char :: ds) e' := by
  induction h with
  | operand _ _ _ => simp [Tier.ops] at hop
  | group _ _ => simp [Tier.ops] at hop
  | single o h ih =>
    rw [Tier.ops_joined, List.mem_append, List.mem_singleton] at hop
    rcases hop with hop | rfl
    · obtain ⟨e', he'⟩ := ih hop
      exact ⟨e', .single o he'⟩
    · exact ⟨_, .join op (ha.ofAtom op) h⟩
  | join o _ h' ih _ =>
    obtain ⟨e', he'⟩ := ih hop
    exact ⟨_, by simpa using Reads.join o he' h'⟩

end Reads

/-- **Every expression has a reading.** -/
theorem Generates.exists_reads {ok : String → Prop} {n : Nonterminal} {cs : List Char}
    (h : Generates ok n cs) :
    ∃ e, Reads ok (match n with | .atom => .atom | .expression => .sum) cs e := by
  induction h with
  | operand hne hw hok => exact ⟨_, .operand hne hw hok⟩
  | group _ ih =>
    obtain ⟨e, he⟩ := ih
    exact ⟨e, .group he⟩
  | single _ ih =>
    obtain ⟨e, he⟩ := ih
    exact ⟨e, he.ofAtom .add⟩
  | join op _ _ ih ih' =>
    obtain ⟨a, ha⟩ := ih
    obtain ⟨e, he⟩ := ih'
    exact ha.exists_prepend he op.mem_sum

/-! ## The forests of expressions -/

namespace Forest.Spells

variable {t u : Forest} {cs ds : List Char}

/-- An operand without blanks is one token. -/
theorem word {w : List Char} (hne : w ≠ []) (hw : ∀ c ∈ w, c ∉ delimiters)
    (hblank : ∀ c ∈ w, Text.isBlank c = false) :
    (Forest.leaf (.token ⟨.operand, String.ofList w⟩) .nil).Spells
      (Fragment.ofTokens (readTokens w)) := by
  have hword : ∀ c ∈ w, isOperandChar c = true := fun c hc => by
    simp [isOperandChar, hblank c hc, Kind.ofChar_eq_operand_iff.mpr (hw c hc)]
  rw [readTokens_word hne hword]
  exact .leaf rfl .nil

theorem parenthesized (h : t.Spells (Fragment.ofTokens (readTokens cs))) :
    (Forest.group t .nil).Spells (Fragment.ofTokens (readTokens ('(' :: cs ++ [')']))) := by
  have htokens : readTokens ('(' :: cs ++ [')']) =
      Token.ofSign '(' :: (readTokens cs ++ [Token.ofSign ')']) := by
    rw [List.cons_append, readTokens_sign (by decide), readTokens_append_sign (by decide),
      readTokens_nil]
  rw [htokens]
  simpa [Fragment.ofTokens] using Spells.group (l := .token (Token.ofSign '('))
    (r := .token (Token.ofSign ')')) rfl rfl h .nil

theorem join (op : BinOp) (h : t.Spells (Fragment.ofTokens (readTokens cs)))
    (h' : u.Spells (Fragment.ofTokens (readTokens ds))) :
    (t ++ Forest.leaf (.token (Token.ofSign op.char)) u).Spells
      (Fragment.ofTokens (readTokens (cs ++ op.char :: ds))) := by
  have hparen : (Item.token (Token.ofSign op.char)).isParen = false := by
    cases op <;> rfl
  rw [readTokens_append_sign op.isSignChar_char]
  simpa [Fragment.ofTokens] using h.append (.leaf hparen h')

end Forest.Spells

end Abacus
