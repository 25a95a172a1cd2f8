import Abacus.Proofs.Grammar

/-!
# Sweeps and the stratified grammar

What a sweep does to a row of operands and signs, without any instruction: each operator of its
kind is fused with its neighbours into a tree, from left to right. The four sweeps of a row that
the stratified grammar reads leave the tree that it reads there.

## Main definitions

* `Piece`, `fuse`: rows of trees and signs, and one sweep of them
* `Tier.fuse`: the sweeps of all operators of a tier
* `Forest.Row`: the row on the top level of a forest, in which each group is its tree

## Main results

* `fuse_splice`: a sweep goes on after it has fused the first operator of its kind
* `fuse_append_sign`: a sweep for another operator works on both sides of a sign apart
* `Reads.exists_row`: what the grammar reads is what the sweeps leave
* `Reads.unique`: a text has one reading
-/

namespace Abacus

/-! ## Rows -/

/-- What stands in a row: an operator sign or the tree of an operand. -/
inductive Piece where
  | sign (op : BinOp)
  | value (e : Expr)
  deriving DecidableEq, Repr

open Piece

/-- Put one more piece on a row, whose last piece comes first. A tree is fused with the tree before
it if the sign between them is that of `op`. -/
def push (op : BinOp) (row : List Piece) (p : Piece) : List Piece :=
  match row, p with
  | sign o :: value a :: before, value b =>
    if o = op then value (.binary op a b) :: before else value b :: sign o :: value a :: before
  | row, p => p :: row

/-- **One sweep of a row**: every operator `op` is fused with its neighbours, from left to right. -/
def fuse (op : BinOp) (row : List Piece) : List Piece :=
  (row.foldl (push op) []).reverse

section Fuse

variable {op o : BinOp} {f g row : List Piece} {a b : Expr} {p : Piece}

/-- After a piece that is not the operator's sign, nothing is fused. -/
theorem push_of_head (h : row.head? ≠ some (sign op)) : push op row p = p :: row := by
  unfold push
  split
  · next o a before b => rw [if_neg (fun ho => h (by simp [ho]))]
  · rfl

theorem push_value_value : push op (sign op :: value a :: row) (value b) =
    value (.binary op a b) :: row := by
  simp [push]

/-- Where the operator does not occur, pieces are only put on. -/
theorem foldl_push_of_notMem (hf : sign op ∉ f) (h : row.head? ≠ some (sign op)) :
    f.foldl (push op) row = f.reverse ++ row := by
  induction f generalizing row with
  | nil => rfl
  | cons p f ih =>
    rw [List.foldl_cons, push_of_head h, ih (fun hm => hf (List.mem_cons_of_mem p hm))]
    · simp
    · simpa using fun hp : p = sign op => hf (hp ▸ List.mem_cons_self)

theorem foldl_push_nil (hf : sign op ∉ f) : f.foldl (push op) [] = f.reverse := by
  have hfold : f.foldl (push op) [] = f.reverse ++ [] := foldl_push_of_notMem hf (by simp)
  rwa [List.append_nil] at hfold

theorem fuse_of_notMem (hf : sign op ∉ f) : fuse op f = f := by
  rw [fuse, foldl_push_nil hf, List.reverse_reverse]

/-- **A sweep goes on after its first operator** as if the tree had been there from the start. -/
theorem fuse_splice (hf : sign op ∉ f) :
    fuse op (f ++ value a :: sign op :: value b :: g) =
      fuse op (f ++ value (.binary op a b) :: g) := by
  have hhead : f.reverse.head? ≠ some (sign op) := fun h =>
    hf (List.mem_reverse.mp (List.mem_of_mem_head? h))
  have hsign : push op (value a :: f.reverse) (sign op) = sign op :: value a :: f.reverse :=
    push_of_head (by simp)
  simp only [fuse, List.foldl_append, List.foldl_cons, foldl_push_nil hf, push_of_head hhead, hsign,
    push_value_value]

/-- Nothing is fused across the sign of another operator. -/
theorem foldl_push_append (ho : o ≠ op) (g row before : List Piece) :
    g.foldl (push op) (row ++ sign o :: before) = g.foldl (push op) row ++ sign o :: before := by
  induction g generalizing row with
  | nil => rfl
  | cons p g ih =>
    have hpush : push op (row ++ sign o :: before) p = push op row p ++ sign o :: before := by
      -- only a sign of the operator looks past itself, at a tree that is still in the row
      by_cases hrow : row.head? = some (sign op)
      · obtain ⟨row, rfl⟩ : ∃ row', row = sign op :: row' := by
          rcases row with _ | ⟨q, row⟩
          · simp at hrow
          · exact ⟨row, by simpa using hrow⟩
        rcases row with _ | ⟨(_ | a), row⟩ <;> cases p <;> simp [push]
      · rw [push_of_head hrow, push_of_head]
        · rfl
        · rcases row with _ | ⟨q, row⟩
          · simpa using ho
          · simpa using hrow
    rw [List.foldl_cons, List.foldl_cons, hpush, ih]

/-- **A sweep works on both sides of another operator's sign apart.** -/
theorem fuse_append_sign (ho : o ≠ op) (f g : List Piece) :
    fuse op (f ++ sign o :: g) = fuse op f ++ sign o :: fuse op g := by
  have hpush : push op (f.foldl (push op) []) (sign o) = sign o :: f.foldl (push op) [] := by
    simp [push]
  have hg := foldl_push_append ho g [] (f.foldl (push op) [])
  rw [List.nil_append] at hg
  simp [fuse, List.foldl_append, hpush, hg]

/-- A tree after all others is fused last. -/
theorem fuse_append_value (hf : fuse op f = [value a]) :
    fuse op (f ++ [sign op, value b]) = [value (.binary op a b)] := by
  have hrow : f.foldl (push op) [] = [value a] := by
    simpa [fuse] using congrArg List.reverse hf
  simp [fuse, List.foldl_append, hrow, push]

end Fuse

/-- The sweeps of all operators of a tier, the tightest first. -/
def Tier.fuse (t : Tier) (row : List Piece) : List Piece :=
  t.ops.foldl (fun row op => Abacus.fuse op row) row

theorem Tier.fuse_joined (op : BinOp) (row : List Piece) :
    (joined op).fuse row = Abacus.fuse op (op.tighter.fuse row) := by
  simp [Tier.fuse, Tier.ops_joined]

/-- The sweeps of a tier work on both sides of a looser operator's sign apart. -/
theorem Tier.fuse_append_sign {t : Tier} {o : BinOp} (ho : o ∉ t.ops) (f g : List Piece) :
    t.fuse (f ++ sign o :: g) = t.fuse f ++ sign o :: t.fuse g := by
  unfold Tier.fuse
  generalize t.ops = ops at ho
  induction ops generalizing f g with
  | nil => rfl
  | cons op ops ih =>
    rw [List.mem_cons, not_or] at ho
    rw [List.foldl_cons, List.foldl_cons, List.foldl_cons, Abacus.fuse_append_sign ho.1,
      ih _ _ ho.2]

/-! ## Rows of forests -/

/-- **The row on the top level of a forest**, in which the tree that the sweeps leave of a group
stands for it. -/
inductive Forest.Row : Forest → List Piece → Prop where
  | nil : Row nil []
  | operand {text : String} {t : Forest} {row : List Piece} (h : Row t row) :
    Row (leaf (.token ⟨.operand, text⟩) t) (value (.operand text) :: row)
  | sign {text : String} {t : Forest} {row : List Piece} (op : BinOp) (h : Row t row) :
    Row (leaf (.token ⟨op.sign, text⟩) t) (.sign op :: row)
  | group {t u : Forest} {inside row : List Piece} {e : Expr} (h : Row t inside)
    (he : Tier.sum.fuse inside = [value e]) (h' : Row u row) : Row (group t u) (value e :: row)

theorem BinOp.sign_ne_operand (op : BinOp) : op.sign ≠ .operand := by
  cases op <;> decide

theorem BinOp.sign_injective : Function.Injective BinOp.sign := by
  intro op op' h
  cases op <;> cases op' <;> first | rfl | cases h

namespace Forest.Row

variable {t u : Forest} {row row' : List Piece}

theorem append (h : t.Row row) (h' : u.Row row') : (t ++ u).Row (row ++ row') := by
  induction h with
  | nil => exact h'
  | operand _ ih => exact .operand ih
  | sign op _ ih => exact .sign op ih
  | group hin he _ _ ih => exact .group hin he ih

/-- A forest has at most one row. -/
theorem unique (h : t.Row row) (h' : t.Row row') : row = row' := by
  induction h generalizing row' with
  | nil =>
    cases h'
    rfl
  | operand _ ih =>
    generalize hk : Kind.operand = k at h'
    cases h' with
    | operand h' => rw [ih h']
    | sign op _ => exact absurd hk.symm op.sign_ne_operand
  | sign op _ ih =>
    generalize hk : op.sign = k at h'
    cases h' with
    | operand _ => exact absurd hk op.sign_ne_operand
    | sign op' h' => rw [ih h', BinOp.sign_injective hk]
  | group _ he _ ih ih' =>
    cases h' with
    | group hin he' h' =>
      rw [← ih hin, he] at he'
      cases he'
      rw [ih' h']

end Forest.Row

/-! ## Readings -/

namespace Reads

variable {ok ok' : String → Prop} {t : Tier} {cs : List Char} {e e' : Expr}

/-- **What the grammar reads is what the sweeps leave.** -/
theorem exists_row (h : Reads ok t cs e) (hcs : ∀ c ∈ cs, Text.isBlank c = false) :
    ∃ (u : Forest) (row : List Piece), u.Spells (Fragment.ofTokens (readTokens cs)) ∧ u.Row row ∧
      t.fuse row = [value e] := by
  induction h with
  | operand hne hw _ => exact ⟨_, _, .word hne hw hcs, .operand .nil, rfl⟩
  | group _ ih =>
    obtain ⟨u, row, hu, hrow, hfuse⟩ := ih fun c hc => hcs c (by simp [hc])
    exact ⟨_, _, hu.parenthesized, .group hrow hfuse .nil, rfl⟩
  | single op _ ih =>
    obtain ⟨u, row, hu, hrow, hfuse⟩ := ih hcs
    refine ⟨u, row, hu, hrow, ?_⟩
    rw [Tier.fuse_joined, hfuse, fuse_of_notMem (by simp)]
  | join op _ _ ih ih' =>
    obtain ⟨u, row, hu, hrow, hfuse⟩ := ih fun c hc => hcs c (by simp [hc])
    obtain ⟨u', row', hu', hrow', hfuse'⟩ := ih' fun c hc => hcs c (by simp [hc])
    have hsign : (Forest.leaf (.token (Token.ofSign op.char)) u').Row (.sign op :: row') := by
      rw [Token.ofSign, BinOp.ofChar_char]
      exact .sign op hrow'
    refine ⟨_, _, .join op hu hu', hrow.append hsign, ?_⟩
    -- the tighter sweeps leave the two sides apart, and the last one joins them
    rw [Tier.fuse_joined] at hfuse ⊢
    rw [Tier.fuse_append_sign op.notMem_tighter, hfuse']
    exact fuse_append_value hfuse

/-- **A text has one reading.** -/
theorem unique (h : Reads ok t cs e) (h' : Reads ok' t cs e')
    (hcs : ∀ c ∈ cs, Text.isBlank c = false) : e = e' := by
  obtain ⟨u, row, hu, hrow, hfuse⟩ := h.exists_row hcs
  obtain ⟨u', row', hu', hrow', hfuse'⟩ := h'.exists_row hcs
  obtain rfl := hu.unique hu'
  rw [← hrow.unique hrow', hfuse] at hfuse'
  cases hfuse'
  rfl

end Reads

end Abacus
