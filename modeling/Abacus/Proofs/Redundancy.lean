import Abacus.Proofs.Elimination
import Abacus.Proofs.Unmatched

/-!
# Redundant parentheses

A pair of parentheses around one operand means nothing. The operand may be an item or a group, and
the fragment around it may have any parentheses, also some without partners. When the outer pair is
closed there is one item between the two, and an item is what it leaves. From there on the closing
goes on as without the pair, and so it ends in the same way and in the same session.

## Main definitions

* `Fragment.OneOperand`: the parts of a fragment that are one operand

## Main results

* `Fragment.lowerFlat_of_isOperand`: sweeps do nothing where there are only operands
* `Fragment.OneOperand.closeGroups_enclose`: a pair around one operand is closed to what the operand
  is closed to
* `Fragment.lower_enclose`: a pair around one operand changes nothing
-/

namespace Abacus.Fragment

open Lowering (Ensures)

/-! ## Sweeps without operators -/

section Sweep

variable {k : Kind} {f : Fragment} {x : Item}

/-- A sweep passes everything in a rest that has no token of its kind. -/
theorem sweepFrom_of_forall_not {mnemonic : String} (hf : ∀ y ∈ f, y.hasKind k = false)
    (before : List Item) (s : Session) :
    sweepFrom k mnemonic before f s = (⟨before.reverse ++ f, none⟩, s) := by
  induction f generalizing before with
  | nil => rw [sweepFrom_nil, List.append_nil]
  | cons y f ih =>
    have hy : y.hasKind k = false := hf y (by simp)
    have hrest : ∀ z ∈ f, z.hasKind k = false := fun z hz => hf z (by simp [hz])
    rw [sweepFrom_cons_of_not hy, ih hrest, List.reverse_cons, List.append_assoc,
      List.singleton_append]

theorem eliminate_of_forall_not (hf : ∀ y ∈ f, y.hasKind k = false) (op : BinOp) :
    f.eliminate k op = pure f := by
  funext s
  simp only [eliminate, sweep, sweepFrom_of_forall_not hf, List.reverse_nil, List.nil_append]
  rfl

/-- **Sweeps do nothing where there are only operands.** -/
theorem lowerFlat_of_isOperand (hf : ∀ y ∈ f, y.isOperand = true) : f.lowerFlat = f.single := by
  have hsweep : ∀ op : BinOp, f.eliminate op.sign op = pure f := fun op =>
    eliminate_of_forall_not (fun y hy => not_hasKind_of_isOperand (hf y hy) op) op
  have hmul : f.eliminate .star .mul = pure f := hsweep .mul
  have hdiv : f.eliminate .slash .sdiv = pure f := hsweep .sdiv
  have hsub : f.eliminate .minus .sub = pure f := hsweep .sub
  have hadd : f.eliminate .plus .add = pure f := hsweep .add
  simp only [lowerFlat, hmul, hdiv, hsub, hadd, pure_bind]

theorem lower_singleton (hx : x.isOperand = true) : lower [x] = pure x := by
  have hflat : ∀ y ∈ [x], y.isParen = false := by
    intro y hy
    obtain rfl := List.mem_singleton.mp hy
    exact Item.not_isParen_of_isOperand hx
  rw [lower_of_flat hflat, lowerFlat_of_isOperand (by simpa using hx)]
  rfl

end Sweep

/-! ## Groups as wholes -/

namespace Balanced

variable {f : Fragment} {l r : Item}

/-- A balanced fragment is lowered to an operand. -/
theorem lower_isOperand (hb : f.Balanced) (s : Session) :
    Ensures s f.lower (fun x _ => x.isOperand = true) fun _ _ => True := by
  rw [← hb.closeGroups_bind_lower]
  refine (hb.closeGroups_not_isParen s).bind fun inner s₁ hinner => ?_
  rw [lower_of_flat hinner]
  exact lowerFlat_isOperand hinner s₁

/-- **A group is closed to what its inside is lowered to**, after what stands behind it. -/
theorem closeGroups_enclose (hb : f.Balanced) (hl : l.hasKind .leftParen = true)
    (hr : r.hasKind .rightParen = true) (back : Fragment) :
    closeGroups (l :: (f ++ r :: back)) = (do
      let rest ← closeGroups back
      let x ← f.lower
      return x :: rest) := by
  rw [hb.closeGroups_group hl hr]
  refine bind_congr fun rest => ?_
  rw [← hb.closeGroups_bind_lower, bind_assoc]

/-- A group is lowered as its inside is. -/
theorem lower_group (hb : f.Balanced) (hl : l.hasKind .leftParen = true)
    (hr : r.hasKind .rightParen = true) : lower (l :: (f ++ [r])) = f.lower := by
  have hclose : closeGroups (l :: (f ++ [r])) = (do
      let x ← f.lower
      return [x]) := by
    rw [hb.closeGroups_enclose hl hr]
    rfl
  refine (hb.group hl hr).closeGroups_bind_lower.symm.trans ?_
  show closeGroups (l :: (f ++ [r])) >>= lower = f.lower
  rw [hclose, bind_assoc]
  funext s
  refine ((hb.lower_isOperand s).bind_congr fun x s₁ hx => ?_).trans
    (congrFun (bind_pure f.lower) s)
  rw [pure_bind, lower_singleton hx]

end Balanced

/-! ## One operand between parentheses -/

/-- **The parts of a fragment that are one operand**: an item that is neither operator nor
parenthesis, or a group. -/
inductive OneOperand : Fragment → Prop where
  | item {x : Item} (hx : x.isOperand = true) : OneOperand [x]
  | group {l r : Item} {inside : Fragment} (hl : l.hasKind .leftParen = true)
    (hr : r.hasKind .rightParen = true) (hb : inside.Balanced) :
    OneOperand (l :: (inside ++ [r]))

namespace OneOperand

variable {g : Fragment} {l r : Item}

theorem balanced (hg : g.OneOperand) : g.Balanced := by
  cases hg with
  | item hx => exact .singleton (Item.not_isParen_of_isOperand hx)
  | group hl hr hb => exact hb.group hl hr

/-- One operand is closed to what it is lowered to, after what stands behind it. -/
theorem closeGroups_append (hg : g.OneOperand) (back : Fragment) :
    closeGroups (g ++ back) = (do
      let rest ← closeGroups back
      let x ← g.lower
      return x :: rest) := by
  cases hg with
  | @item x hx =>
    have hl := Item.not_leftParen_of_not_isParen (Item.not_isParen_of_isOperand hx)
    rw [List.singleton_append, closeGroups_cons_of_not hl, lower_singleton hx]
    rfl
  | @group l r inside hl hr hb =>
    rw [List.cons_append, List.append_assoc, List.singleton_append, hb.closeGroups_enclose hl hr,
      hb.lower_group hl hr]

/-- **A pair around one operand is closed to what the operand is closed to.** -/
theorem closeGroups_enclose (hg : g.OneOperand) (hl : l.hasKind .leftParen = true)
    (hr : r.hasKind .rightParen = true) (back : Fragment) :
    closeGroups (l :: (g ++ r :: back)) = closeGroups (g ++ back) := by
  rw [hg.balanced.closeGroups_enclose hl hr, hg.closeGroups_append]

end OneOperand

/-- **Redundant parentheses change nothing.** Where a part of a fragment is one operand, the
fragment and the one with another pair of parentheses around that part have the same end in every
session: the same item or the same fault, and the same session left behind. The rest of the fragment
is any, with its parentheses matched or not. -/
theorem lower_enclose (front g back : Fragment) (hg : g.OneOperand) (l r : Item)
    (hl : l.hasKind .leftParen = true) (hr : r.hasKind .rightParen = true) (s : Session) :
    lower (front ++ l :: (g ++ r :: back)) s = lower (front ++ (g ++ back)) s := by
  have hpart := congrFun (hg.closeGroups_enclose hl hr back) s
  have hwhole := closeGroups_append_congr hpart front
  exact Lowering.bind_run_congr hwhole

/-- A group that is enclosed once more, behind a closing without partner: the group is reduced, and
then the missing opening is reported. -/
theorem lower_enclose_stray :
    let l : Item := .token ⟨.leftParen, "("⟩
    let r : Item := .token ⟨.rightParen, ")"⟩
    let g : Fragment :=
      [l, .token ⟨.operand, "6"⟩, .token ⟨.minus, "-"⟩, .temp ⟨4⟩, .token ⟨.rightParen, "]"⟩]
    let back : Fragment := [.token ⟨.star, "*"⟩, .token ⟨.operand, "2"⟩]
    g.OneOperand ∧ lower ([r] ++ l :: (g ++ r :: back)) {} = lower ([r] ++ (g ++ back)) {} ∧
    ∃ s, lower ([r] ++ (g ++ back)) {} = .error (.rejected ⟨0, .missingParenthesis .left⟩) s ∧
      s.code = [.binary .sub ⟨1⟩ (.const 6) (.temp ⟨4⟩)] := by
  intro l r g back
  have hinside : Balanced [.token ⟨.operand, "6"⟩, .token ⟨.minus, "-"⟩, .temp ⟨4⟩] :=
    .of_not_isParen (by decide)
  have hg : g.OneOperand := .group rfl rfl hinside
  exact ⟨hg, lower_enclose [r] g back hg l r rfl rfl {}, _, rfl, rfl⟩

end Abacus.Fragment
