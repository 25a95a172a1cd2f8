import Abacus.Proofs.Lowering

/-!
# Invariants of a sweep

A sweep replaces one operator and its neighbours after another. What every replacement keeps, the
whole sweep keeps, and so do the four sweeps of a fragment. The induction over the sweep is done
here once; later modules give an invariant and show what one replacement does to it.

## Main definitions

* `BinOp.sign`: the kind of token that stands for an operation
* `Fragment.SweepInvariant`: what holds of the fragment and the session before and after each
  replacement, and what holds where a sweep stops

## Main results

* `Fragment.SweepInvariant.eliminate`: a sweep keeps its invariant and leaves no token of its kind
* `Fragment.SweepInvariant.lowerFlat`: what all four sweeps keep, down to the one item they leave
-/

namespace Abacus

/-- The kind of token that stands for an operation. -/
def BinOp.sign : BinOp → Kind
  | mul => .star
  | sdiv => .slash
  | sub => .minus
  | add => .plus

/-- What is neither a sign nor a parenthesis is an operand. -/
theorem Item.isOperand_of_forall_not {x : Item} (ho : ∀ op : BinOp, x.hasKind op.sign = false)
    (hp : x.isParen = false) : x.isOperand = true := by
  cases x with
  | temp t => rfl
  | token t =>
    have hmul := ho .mul
    have hdiv := ho .sdiv
    have hsub := ho .sub
    have hadd := ho .add
    obtain ⟨kind, text⟩ := t
    cases kind <;> simp_all [hasKind, kind?, isParen, isOperand, BinOp.sign, Kind.isParen,
      Kind.isOperator]

namespace Fragment

open Lowering (Ensures)

/-- Where a token lacks a neighbour, nothing was passed before it or nothing is left after it. -/
theorem edge_of_no_neighbours {before rest : List Item}
    (h : ∀ left before' right rest', before = left :: before' → rest = right :: rest' → False) :
    before.reverse = [] ∨ rest = [] := by
  rcases before with _ | ⟨left, before⟩
  · exact Or.inl rfl
  · rcases rest with _ | ⟨right, rest⟩
    · exact Or.inr rfl
    · exact (h left before right rest rfl rfl).elim

/-- `I` holds before and after each replacement of a sweep for tokens of kind `k`, and `E` holds
where the sweep stops at a fault. -/
structure SweepInvariant (k : Kind) (op : BinOp) (I : Fragment → Session → Prop)
    (E : Fault → Session → Prop) : Prop where
  /-- The first token of the kind lacks a neighbour if it is the first or the last item. -/
  edge : ∀ {f g : Fragment} {x : Item} {s : Session}, (∀ y ∈ f, y.hasKind k = false) →
    x.hasKind k = true → f = [] ∨ g = [] → I (f ++ x :: g) s →
    E (.rejected ⟨s.line, .missingOperand x.text⟩) s
  /-- The first token of the kind is combined with its neighbours. -/
  step : ∀ {f g : Fragment} {left x right : Item} {s : Session},
    (∀ y ∈ f, y.hasKind k = false) → left.hasKind k = false → x.hasKind k = true →
    I (f ++ left :: x :: right :: g) s →
    Ensures s (combine x.text op.mnemonic left right) (fun t s' => I (f ++ .temp t :: g) s') E

namespace SweepInvariant

variable {k : Kind} {op : BinOp} {I : Fragment → Session → Prop} {E : Fault → Session → Prop}

/-- The induction over a sweep, which has passed the items of `before`. -/
theorem sweepFrom (inv : SweepInvariant k op I E) (before rest : List Item) (s : Session)
    (hb : ∀ y ∈ before, y.hasKind k = false) (h : I (before.reverse ++ rest) s) :
    (∀ f' s', Fragment.sweepFrom k op.mnemonic before rest s = (⟨f', none⟩, s') →
      I f' s' ∧ ∀ y ∈ f', y.hasKind k = false) ∧
    ∀ f' fault s', Fragment.sweepFrom k op.mnemonic before rest s = (⟨f', some fault⟩, s') →
      E fault s' := by
  fun_induction Fragment.sweepFrom k op.mnemonic before rest s with
  | case1 before s =>
    simp only [Prod.mk.injEq, Swept.mk.injEq, and_imp]
    refine ⟨?_, by simp⟩
    rintro f' s' rfl - rfl
    exact ⟨by simpa using h, by simpa using hb⟩
  | case2 x s hx left before' right rest' t s' hc ih =>
    have hs : Ensures s (combine x.text op.mnemonic left right)
        (fun t s' => I (before'.reverse ++ .temp t :: rest') s') E :=
      inv.step (fun y hy => hb y (by simp_all)) (hb left (by simp)) hx (by simpa using h)
    refine ih ?_ (by simpa using hs.ok_of_eq hc)
    rintro y (_ | ⟨_, hy⟩)
    · rfl
    · exact hb y (List.mem_cons_of_mem left hy)
  | case3 x s hx left before' right rest' fault s' hc =>
    have hs : Ensures s (combine x.text op.mnemonic left right)
        (fun t s' => I (before'.reverse ++ .temp t :: rest') s') E :=
      inv.step (fun y hy => hb y (by simp_all)) (hb left (by simp)) hx (by simpa using h)
    refine ⟨by simp, ?_⟩
    rintro f' fault' s'' heq
    cases heq
    exact hs.fail_of_eq hc
  | case4 before x rest s hx hn =>
    refine ⟨by simp, ?_⟩
    rintro f' fault' s'' heq
    cases heq
    exact inv.edge (fun y hy => hb y (List.mem_reverse.mp hy)) hx (edge_of_no_neighbours hn) h
  | case5 before x rest s hx ih =>
    refine ih ?_ (by simpa using h)
    rintro y (_ | ⟨_, hy⟩)
    · exact Bool.eq_false_iff.mpr hx
    · exact hb y hy

/-- **A sweep keeps its invariant** and leaves no token of its kind. -/
theorem eliminate (inv : SweepInvariant k op I E) {f : Fragment} {s : Session} (h : I f s) :
    Ensures s (f.eliminate k op) (fun f' s' => I f' s' ∧ ∀ y ∈ f', y.hasKind k = false) E := by
  obtain ⟨hok, hfail⟩ := inv.sweepFrom [] f s (by simp) (by simpa using h)
  rcases hr : Fragment.sweepFrom k op.mnemonic [] f s with ⟨⟨f', fault?⟩, s'⟩
  cases fault? with
  | none =>
    have he : f.eliminate k op s = .ok f' s' := by simp [Fragment.eliminate, sweep, hr]
    exact Ensures.of_ok he (hok f' s' hr)
  | some fault =>
    have he : f.eliminate k op s = .error fault s' := by simp [Fragment.eliminate, sweep, hr]
    exact Ensures.of_error he (hfail f' fault s' hr)

/-- A property of items that every temporary has is kept along with the invariant. -/
theorem and_forall (inv : SweepInvariant k op I E) {P : Item → Prop} (hP : ∀ t, P (.temp t)) :
    SweepInvariant k op (fun f s => I f s ∧ ∀ y ∈ f, P y) E where
  edge hf hx hfg h := inv.edge hf hx hfg h.1
  step {f g left x right s} hf hl hx h := by
    refine (inv.step hf hl hx h.1).mono (fun t s' ht => ⟨ht, fun y hy => ?_⟩) fun _ _ he => he
    rcases List.mem_append.mp hy with hy | hy
    · exact h.2 y (by simp [hy])
    · rcases List.mem_cons.mp hy with rfl | hy
      · exact hP t
      · exact h.2 y (by simp [hy])

/-- **The four sweeps keep a common invariant.** They end at one item, which is no sign, or fail
where no sign and not one item is left. -/
theorem lowerFlat (inv : ∀ op, SweepInvariant op.sign op I E) {ok : Item → Session → Prop}
    {f : Fragment} {s : Session} (h : I f s)
    (nil : ∀ s', I [] s' → E (.rejected ⟨s'.line, .missingOperand none⟩) s')
    (many : ∀ x y g s', I (x :: y :: g) s' →
      (∀ z ∈ x :: y :: g, ∀ op : BinOp, z.hasKind op.sign = false) →
      E (.rejected ⟨s'.line, .missingOperator y⟩) s')
    (one : ∀ x s', I [x] s' → (∀ op : BinOp, x.hasKind op.sign = false) → ok x s') :
    Ensures s f.lowerFlat ok E := by
  -- Later sweeps add only temporaries, so what an earlier one removed stays away.
  have absent : ∀ (k : Kind) (t : Temp), (Item.temp t).hasKind k = false := fun k t => by simp
  unfold Fragment.lowerFlat
  refine (SweepInvariant.eliminate (inv .mul) h).bind fun f₁ s₁ h₁ => ?_
  refine (SweepInvariant.eliminate ((inv .sdiv).and_forall (absent .star)) h₁).bind
    fun f₂ s₂ h₂ => ?_
  refine (SweepInvariant.eliminate (((inv .sub).and_forall (absent .star)).and_forall
    (absent .slash)) h₂).bind fun f₃ s₃ h₃ => ?_
  refine (SweepInvariant.eliminate ((((inv .add).and_forall (absent .star)).and_forall
    (absent .slash)).and_forall (absent .minus)) h₃).bind fun f₄ s₄ h₄ => ?_
  obtain ⟨⟨⟨⟨hI, hstar⟩, hslash⟩, hminus⟩, hplus⟩ := h₄
  have hsign : ∀ x ∈ f₄, ∀ op : BinOp, x.hasKind op.sign = false := by
    intro x hx op
    cases op with
    | mul => exact hstar x hx
    | sdiv => exact hslash x hx
    | sub => exact hminus x hx
    | add => exact hplus x hx
  match f₄ with
  | [] => exact Ensures.of_error rfl (nil s₄ hI)
  | x :: y :: g => exact Ensures.of_error rfl (many x y g s₄ hI hsign)
  | [x] => exact Ensures.of_ok rfl (one x s₄ hI (hsign x (by simp)))

end SweepInvariant

end Fragment

end Abacus
