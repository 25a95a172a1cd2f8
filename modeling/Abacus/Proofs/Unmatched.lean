import Abacus.Proofs.Diagnosis
import Abacus.Proofs.SpliceLoop

/-!
# Faults of parentheses

Which fault a fragment ends in is told by its unmatched parentheses. The groups are reduced in the
order of their openings, from the last one to the first, and an opening without partner stops this.
So the groups behind the last opening without partner are reduced, or all groups where every opening
has a partner. If one of them fails, its fault is reported. If none does, the missing parenthesis is
reported. No other part of the fragment is looked at before.

## Main definitions

* `Fragment.Reduces`: all groups of a fragment are reduced
* `Fragment.FailsFirst`: the first group that fails
* `Fragment.Reached`: the part whose groups are reduced, and the side that is missing
* `Fault.OfOperands`: the faults of sweeps

## Main results

* `Fragment.lowerFlat_ofOperands`: sweeps never miss a parenthesis
* `Fragment.reduces_or_failsFirst`: where every opening has a partner, the groups are reduced or one
  fails
* `Fragment.lower_parentheses_exact`: when a parenthesis is missed, and which
-/

namespace Abacus

open Lowering (Ensures)

/-! ## The faults of sweeps -/

/-- **The faults of sweeps**: an operand is missing, it has no value, or an operator is missing
before it. -/
inductive Fault.OfOperands : Fault → Prop where
  | undefinedVariable (line : Int) (name : String) :
    OfOperands (.rejected ⟨line, .undefinedVariable name⟩)
  | missingOperand (line : Int) (operator? : Option String) :
    OfOperands (.rejected ⟨line, .missingOperand operator?⟩)
  | missingOperator (line : Int) (near : Item) :
    OfOperands (.rejected ⟨line, .missingOperator near⟩)
  | literalTooLong (digits : Nat) : OfOperands (.literalTooLong digits)

theorem Item.Unresolved.ofOperands {line : Int} {targets : List String} {x : Item} {fault : Fault}
    (h : x.Unresolved line targets fault) : fault.OfOperands := by
  obtain ⟨t, rfl, hread | ⟨-, -, rfl⟩⟩ := h
  · obtain ⟨-, -, rfl⟩ := Literal.read_eq_error_iff.mp hread
    exact .literalTooLong _
  · exact .undefinedVariable line t.text

namespace Fragment

/-- **Sweeps fail at operands only.** -/
theorem lowerFlat_ofOperands (f : Fragment) (s : Session) :
    Ensures s f.lowerFlat (fun _ _ => True) fun fault _ => fault.OfOperands := by
  have inv : ∀ op : BinOp, SweepInvariant op.sign op (fun _ _ => True)
      fun fault _ => fault.OfOperands := fun op =>
    { edge := fun _ _ _ _ => .missingOperand _ _
      step := fun {f g left x right s} _ _ _ _ => by
        have hs : s.WorksOn s.line [] := ⟨rfl, by simp⟩
        refine (combine_unresolved hs).mono (fun _ _ _ => trivial) fun fault _ hfault => ?_
        rcases hfault with ⟨-, rfl⟩ | ⟨y, -, -, hy⟩
        · exact .missingOperand _ _
        · exact hy.ofOperands }
  exact SweepInvariant.lowerFlat inv trivial (fun _ _ => .missingOperand _ _)
    (fun _ y _ _ _ _ => .missingOperator _ y) fun _ _ _ _ => trivial

/-! ## Groups in order -/

/-- **All groups of a fragment are reduced**, in the order of their openings from the last one to
the first. Of a group, those behind it come first, then those inside of it, and then what is left of
the group itself, which becomes one item. -/
inductive Reduces : Fragment → Session → Fragment → Session → Prop where
  | nil {s : Session} : Reduces [] s [] s
  | item {x : Item} {f f' : Fragment} {s s' : Session} (hx : x.hasKind .leftParen = false)
    (h : Reduces f s f' s') : Reduces (x :: f) s (x :: f') s'
  | group {l r x : Item} {inside inside' rest rest' : Fragment} {s s₁ s₂ s₃ : Session}
    (hl : l.hasKind .leftParen = true) (hr : r.hasKind .rightParen = true) (hb : inside.Balanced)
    (hrest : Reduces rest s rest' s₁) (hinside : Reduces inside s₁ inside' s₂)
    (hx : inside'.lower s₂ = .ok x s₃) : Reduces (l :: (inside ++ r :: rest)) s (x :: rest') s₃

/-- **The first group that fails**, in the same order: the groups behind it and those inside of it
are reduced, and what is left of it is not. -/
inductive FailsFirst : Fragment → Session → Fault → Session → Prop where
  | group {l r : Item} {inside inside' rest rest' : Fragment} {s s₁ s₂ s' : Session} {fault : Fault}
    (front : Fragment) (hl : l.hasKind .leftParen = true) (hr : r.hasKind .rightParen = true)
    (hb : inside.Balanced) (hrest : Reduces rest s rest' s₁)
    (hinside : Reduces inside s₁ inside' s₂)
    (hfault : inside'.lower s₂ = .error fault s') :
    FailsFirst (front ++ l :: (inside ++ r :: rest)) s fault s'

section Groups

variable {f f' g g' inside rest front back : Fragment} {l r : Item} {s s₁ s₂ s' : Session}
  {fault : Fault}

theorem Reduces.append (hf : Reduces f s₁ f' s₂) (hg : Reduces g s g' s₁) :
    Reduces (f ++ g) s (f' ++ g') s₂ := by
  induction hf with
  | nil => exact hg
  | item hx _ ih => exact .item hx (ih hg)
  | group hl hr hb _ hinside hx ih _ =>
    simpa using Reduces.group hl hr hb (ih hg) hinside hx

/-- A group that fails in front of reduced groups is the first to fail. -/
theorem FailsFirst.append (hf : FailsFirst f s₁ fault s') (hg : Reduces g s g' s₁) :
    FailsFirst (f ++ g) s fault s' := by
  obtain ⟨front, hl, hr, hb, hrest, hinside, hfault⟩ := hf
  simpa using FailsFirst.group front hl hr hb (hrest.append hg) hinside hfault

theorem FailsFirst.prepend (h : FailsFirst f s fault s') (front : Fragment) :
    FailsFirst (front ++ f) s fault s' := by
  obtain ⟨front', hl, hr, hb, hrest, hinside, hfault⟩ := h
  simpa using FailsFirst.group (front ++ front') hl hr hb hrest hinside hfault

/-- An opening in front that is not without partner has one. -/
theorem exists_partner (hl : l.hasKind .leftParen = true) (h : ¬ OpeningUnmatched (l :: f)) :
    ∃ inside r rest, f = inside ++ r :: rest ∧ r.hasKind .rightParen = true ∧
      Balanced inside := by
  by_contra hnone
  refine h ⟨[], l, f, rfl, hl, ?_⟩
  intro inside r rest hf hr hb
  exact hnone ⟨inside, r, rest, hf, hr, hb⟩

/-- Behind an opening without partner that is the last of its sort, everything matches. -/
theorem balanced_of_last (hnone : ∀ inside r rest, back = inside ++ r :: rest →
    r.hasKind .rightParen = true → ¬ Balanced inside) (hback : ¬ back.OpeningUnmatched) :
    back.Balanced := by
  cases hrows : readRows back with
  | none => exact absurd (openingUnmatched_iff.mpr hrows) hback
  | some ts =>
    cases spellsRows_of_readRows hrows with
    | last hspells => exact balanced_of_spells hspells
    | cons hspells hr _ => exact absurd (balanced_of_spells hspells) (hnone _ _ _ rfl hr)

/-- **Where every opening has a partner, all groups are reduced or one is the first to fail.** -/
theorem reduces_or_failsFirst (h : ¬ f.OpeningUnmatched) (s : Session) :
    (∃ f' s', f.Reduces s f' s') ∨ ∃ fault s', f.FailsFirst s fault s' := by
  -- by length, since the inside of a group and what stands behind it are both looked at
  induction hn : f.length using Nat.strongRecOn generalizing f s with
  | ind n ih =>
    subst hn
    rcases f with _ | ⟨x, f⟩
    · exact Or.inl ⟨[], s, .nil⟩
    · by_cases hx : x.hasKind .leftParen = true
      · obtain ⟨inside, r, rest, rfl, hr, hb⟩ := exists_partner hx h
        have hmatched : ¬ OpeningUnmatched rest := fun hrest =>
          h (by simpa using hrest.append (x :: (inside ++ [r])))
        have hlen : (x :: (inside ++ r :: rest)).length = inside.length + rest.length + 2 := by
          simp only [List.length_cons, List.length_append]
          omega
        rcases ih rest.length (by omega) hmatched s rfl with
          ⟨rest', s₁, hrest⟩ | ⟨fault, s', hfails⟩
        · rcases ih inside.length (by omega) (balanced_iff_matched.mp hb).1 s₁ rfl with
            ⟨inside', s₂, hinside⟩ | ⟨fault, s', hfails⟩
          · cases hlower : Fragment.lower inside' s₂ with
            | ok y s₃ => exact Or.inl ⟨_, _, .group hx hr hb hrest hinside hlower⟩
            | error fault s' =>
              exact Or.inr ⟨fault, s', .group [] hx hr hb hrest hinside hlower⟩
          · have hclosing : Reduces (r :: rest) s (r :: rest') s₁ :=
              .item (Item.not_leftParen_of_rightParen hr) hrest
            exact Or.inr ⟨fault, s', (hfails.append hclosing).prepend [x]⟩
        · exact Or.inr ⟨fault, s', by simpa using hfails.prepend (x :: (inside ++ [r]))⟩
      · have htail : ¬ OpeningUnmatched f := fun htail => h (htail.append [x])
        rcases ih f.length (by simp) htail s rfl with ⟨f', s', hf⟩ | ⟨fault, s', hfails⟩
        · exact Or.inl ⟨x :: f', s', .item (Bool.eq_false_iff.mpr hx) hf⟩
        · exact Or.inr ⟨fault, s', hfails.prepend [x]⟩

/-! ## Groups as they are closed -/

theorem Balanced.closeGroups_not_isParen (hb : f.Balanced) (s : Session) :
    Ensures s f.closeGroups (fun f' _ => ∀ x ∈ f', x.isParen = false) fun _ _ => True := by
  obtain ⟨t, ht⟩ := balanced_iff_exists_spells.mp hb
  have hlevel : closeGroups f = t.level := by
    simpa [closeGroups] using ht.closeGroups_append []
  rw [hlevel]
  exact ht.level_not_isParen s

/-- A group is closed after the groups behind it and inside of it. -/
theorem Balanced.closeGroups_group (hb : inside.Balanced) (hl : l.hasKind .leftParen = true)
    (hr : r.hasKind .rightParen = true) (rest : Fragment) :
    closeGroups (l :: (inside ++ r :: rest)) = (do
      let back ← closeGroups rest
      let inner ← closeGroups inside
      let x ← lower inner
      return x :: back) := by
  obtain ⟨t, ht⟩ := balanced_iff_exists_spells.mp hb
  have hlevel : closeGroups inside = t.level := by
    simpa [closeGroups] using ht.closeGroups_append []
  have hgroup := (Forest.Spells.group hl hr ht .nil).closeGroups_append rest
  simp only [Forest.level, List.cons_append, List.append_assoc, List.nil_append, bind_assoc,
    pure_bind] at hgroup
  rw [hgroup, hlevel]
  refine bind_congr fun back => funext fun s => ?_
  refine (ht.level_not_isParen s).bind_congr fun inner s₁ hinner => ?_
  rw [lower_of_flat hinner]

/-- Once its groups are closed, a balanced fragment is lowered as what is left of it. -/
theorem Balanced.closeGroups_bind_lower (hb : f.Balanced) : f.closeGroups >>= lower = f.lower := by
  funext s
  refine (hb.closeGroups_not_isParen s).bind_congr fun inner s₁ hinner => ?_
  rw [lower_of_flat hinner, any_rightParen_of_flat hinner]
  rfl

/-- Groups that are reduced are closed. -/
theorem Reduces.closeGroups_eq (h : Reduces f s f' s') : closeGroups f s = .ok f' s' := by
  induction h with
  | nil => rfl
  | item hx _ ih =>
    rw [closeGroups_cons_of_not hx, Lowering.bind_of_ok ih]
    rfl
  | group hl hr hb _ _ hx ih ih' =>
    rw [hb.closeGroups_group hl hr, Lowering.bind_of_ok ih, Lowering.bind_of_ok ih',
      Lowering.bind_of_ok hx]
    rfl

/-- The first group that fails stops the closing. -/
theorem FailsFirst.closeGroups_eq (h : FailsFirst f s fault s') :
    closeGroups f s = .error fault s' := by
  obtain ⟨front, hl, hr, hb, hrest, hinside, hfault⟩ := h
  apply closeGroups_append_of_error
  rw [hb.closeGroups_group hl hr, Lowering.bind_of_ok hrest.closeGroups_eq,
    Lowering.bind_of_ok hinside.closeGroups_eq, Lowering.bind_of_error hfault]

/-- Groups fail at operands only. -/
theorem FailsFirst.ofOperands (h : FailsFirst f s fault s') : fault.OfOperands := by
  obtain ⟨front, hl, hr, hb, hrest, hinside, hfault⟩ := h
  have hflat := (hb.closeGroups_not_isParen _).ok_of_eq hinside.closeGroups_eq
  rw [lower_of_flat hflat] at hfault
  exact (lowerFlat_ofOperands _ _).fail_of_eq hfault

/-- **A balanced fragment fails at operands only.** -/
theorem Balanced.lower_ofOperands (hb : f.Balanced) (h : f.lower s = .error fault s') :
    fault.OfOperands := by
  rcases reduces_or_failsFirst (balanced_iff_matched.mp hb).1 s with
    ⟨f', s₁, hreduces⟩ | ⟨fault₁, s₁, hfails⟩
  · have hclose := hreduces.closeGroups_eq
    have hflat := (hb.closeGroups_not_isParen s).ok_of_eq hclose
    have hlower : f.lower s = lowerFlat f' s₁ := by
      rw [← hb.closeGroups_bind_lower, Lowering.bind_of_ok hclose, lower_of_flat hflat]
    rw [hlower] at h
    exact (lowerFlat_ofOperands _ _).fail_of_eq h
  · have hlower : f.lower s = .error fault₁ s₁ := Lowering.bind_of_error hfails.closeGroups_eq
    rw [hlower] at h
    cases h
    exact hfails.ofOperands

end Groups

/-! ## What is reached -/

/-- **The part whose groups are reached, and the side that is missing.** Where some opening has no
partner, it is what stands behind the last one of them. Where only closings have none, it is the
whole fragment. -/
inductive Reached (f : Fragment) : Fragment → Side → Prop where
  | behind {front back : Fragment} {l : Item} (hf : f = front ++ l :: back)
    (hl : l.hasKind .leftParen = true)
    (hnone : ∀ inside r rest, back = inside ++ r :: rest → r.hasKind .rightParen = true →
      ¬ Balanced inside)
    (hback : ¬ back.OpeningUnmatched) : Reached f back .right
  | whole (hopening : ¬ f.OpeningUnmatched) (hclosing : f.ClosingUnmatched) : Reached f f .left

section Reached

variable {f part : Fragment} {side : Side} {s s' : Session} {fault : Fault}

theorem exists_reached (h : ¬ f.Balanced) : ∃ part side, f.Reached part side := by
  by_cases hopening : f.OpeningUnmatched
  · obtain ⟨front, l, back, hf, hl, hback⟩ := exists_last_opening hopening
    refine ⟨back, .right, .behind hf hl ?_ (balanced_iff_matched.mp hback).1⟩
    rintro inside r rest rfl hr
    exact hback.not_balanced_front hr
  · refine ⟨f, .left, .whole hopening ?_⟩
    by_contra hclosing
    exact h (balanced_iff_matched.mpr ⟨hopening, hclosing⟩)

theorem Reached.matched (h : f.Reached part side) : ¬ part.OpeningUnmatched := by
  cases h with
  | behind _ _ _ hback => exact hback
  | whole hopening _ => exact hopening

/-- **Once the groups that are reached are reduced, the missing parenthesis is reported.** -/
theorem Reached.lower_of_reduces (h : f.Reached part side) {part' : Fragment}
    (hreduces : part.Reduces s part' s') :
    f.lower s = .error (.rejected ⟨s.line, .missingParenthesis side⟩) s' := by
  have hclose := hreduces.closeGroups_eq
  have hline : s'.line = s.line := ((additive_closeGroups part).grows s).ok_of_eq hclose |>.line_eq
  cases h with
  | @behind front back l hf hl hnone hback =>
    subst hf
    have hb := balanced_of_last hnone hback
    have hflat := (hb.closeGroups_not_isParen s).ok_of_eq hclose
    have hsplit : splitAt? .rightParen part' = none :=
      splitAt?_eq_none_iff.mpr fun x hx => Item.not_rightParen_of_not_isParen (hflat x hx)
    have hstop : closeGroups (l :: part) s =
        .error (.rejected ⟨s.line, .missingParenthesis .right⟩) s' := by
      rw [closeGroups_cons_leftParen hl, Lowering.bind_of_ok hclose, hsplit, ← hline]
      rfl
    exact Lowering.bind_of_error (closeGroups_append_of_error hstop front)
  | whole hopening hclosing =>
    -- a row is open for every closing that is left, and the fragment is not one row
    have hany : List.any part' (·.hasKind .rightParen) = true := by
      by_contra hnone
      have hzero : closings part' = 0 := List.countP_eq_zero.mpr fun x hx hr =>
        hnone (List.any_eq_true.mpr ⟨x, hx, hr⟩)
      obtain ⟨-, ts, hts, hlen⟩ := (closeGroups_readRows f s).ok_of_eq hclose
      rw [hzero] at hlen
      obtain ⟨t, rfl⟩ := List.length_eq_one_iff.mp hlen
      have hspells : t.Spells f := forest?_eq_some_iff.mp (by simp [forest?, hts])
      exact (balanced_iff_matched.mp (balanced_of_spells hspells)).2 hclosing
    unfold lower
    rw [Lowering.bind_of_ok hclose, hany, ← hline]
    rfl

/-- **A group that is reached and fails is reported.** -/
theorem Reached.lower_of_failsFirst (h : f.Reached part side)
    (hfails : part.FailsFirst s fault s') : f.lower s = .error fault s' := by
  have hclose := hfails.closeGroups_eq
  cases h with
  | @behind front back l hf hl hnone hback =>
    subst hf
    have hstop : closeGroups (l :: part) s = .error fault s' := by
      rw [closeGroups_cons_leftParen hl, Lowering.bind_of_error hclose]
    exact Lowering.bind_of_error (closeGroups_append_of_error hstop front)
  | whole _ _ => exact Lowering.bind_of_error hclose

/-- **How a fragment ends that is not balanced.** -/
theorem Reached.lower_eq_error_iff (h : f.Reached part side) :
    f.lower s = .error fault s' ↔
      part.FailsFirst s fault s' ∨
      (∃ part', part.Reduces s part' s') ∧
        fault = .rejected ⟨s.line, .missingParenthesis side⟩ := by
  constructor
  · intro hlower
    rcases reduces_or_failsFirst h.matched s with ⟨part', s₁, hreduces⟩ | ⟨fault₁, s₁, hfails⟩
    · rw [h.lower_of_reduces hreduces] at hlower
      cases hlower
      exact Or.inr ⟨⟨part', hreduces⟩, rfl⟩
    · rw [h.lower_of_failsFirst hfails] at hlower
      cases hlower
      exact Or.inl hfails
  · rintro (hfails | ⟨⟨part', hreduces⟩, rfl⟩)
    · exact h.lower_of_failsFirst hfails
    · exact h.lower_of_reduces hreduces

/-- A fragment fails at operands or at a missing parenthesis. -/
theorem lower_fault (h : f.lower s = .error fault s') :
    fault.OfOperands ∨ ∃ side, fault = .rejected ⟨s.line, .missingParenthesis side⟩ := by
  by_cases hb : f.Balanced
  · exact Or.inl (hb.lower_ofOperands h)
  · obtain ⟨part, side, hreached⟩ := exists_reached hb
    rcases hreached.lower_eq_error_iff.mp h with hfails | ⟨-, rfl⟩
    · exact Or.inl hfails.ofOperands
    · exact Or.inr ⟨side, rfl⟩

end Reached

/-- **Faults of parentheses are exact.** A fragment in which nothing is without partner never misses
a parenthesis. Any other fragment fails. Of the groups that are reached, in the order of their
openings from the last one to the first, the first that fails is reported, for a fault that is not
about parentheses. If all are reduced, the missing side is reported, and nothing but these groups
has been worked on: the side is the right one if some opening has no partner, and else the left
one. -/
theorem lower_parentheses_exact (f : Fragment) (s : Session) :
    (f.Balanced ↔ ¬ f.OpeningUnmatched ∧ ¬ f.ClosingUnmatched) ∧
    (f.Balanced → ∀ line side s', f.lower s ≠
      .error (.rejected ⟨line, .missingParenthesis side⟩) s') ∧
    (¬ f.Balanced → ∃ part side, f.Reached part side ∧
      (side = .right ↔ f.OpeningUnmatched) ∧
      (∃ fault s', f.lower s = .error fault s') ∧
      (∀ fault s', part.FailsFirst s fault s' →
        ∀ line side, fault ≠ .rejected ⟨line, .missingParenthesis side⟩) ∧
      ∀ fault s', f.lower s = .error fault s' ↔
        part.FailsFirst s fault s' ∨
        (∃ part', part.Reduces s part' s') ∧
          fault = .rejected ⟨s.line, .missingParenthesis side⟩) := by
  have hofOperands : ∀ fault : Fault, fault.OfOperands →
      ∀ line side, fault ≠ .rejected ⟨line, .missingParenthesis side⟩ := by
    rintro fault h line side rfl
    cases h
  refine ⟨balanced_iff_matched, ?_, ?_⟩
  · intro hb line side s' h
    exact hofOperands _ (hb.lower_ofOperands h) line side rfl
  · intro hb
    obtain ⟨part, side, hreached⟩ := exists_reached hb
    refine ⟨part, side, hreached, ?_, ?_, fun fault s' h => hofOperands fault h.ofOperands,
      fun fault s' => hreached.lower_eq_error_iff⟩
    · cases hreached with
      | behind hf hl hnone _ => exact ⟨fun _ => ⟨_, _, _, hf, hl, hnone⟩, fun _ => rfl⟩
      | whole hopening _ => exact ⟨nofun, fun h => absurd h hopening⟩
    · rcases reduces_or_failsFirst hreached.matched s with ⟨part', s', h⟩ | ⟨fault, s', h⟩
      · exact ⟨_, _, hreached.lower_of_reduces h⟩
      · exact ⟨_, _, hreached.lower_of_failsFirst h⟩

/-- A closing and an opening without partners, and behind them a group that is reduced; and a group
alone that fails. -/
theorem lower_parentheses_exact_stray :
    let f : Fragment := [.token ⟨.rightParen, ")"⟩, .token ⟨.leftParen, "("⟩,
      .token ⟨.leftParen, "("⟩, .token ⟨.operand, "1"⟩, .token ⟨.plus, "+"⟩, .token ⟨.operand, "2"⟩,
      .token ⟨.rightParen, ")"⟩, .token ⟨.star, "*"⟩]
    let g : Fragment := [.token ⟨.leftParen, "("⟩, .token ⟨.operand, "1"⟩, .temp ⟨4⟩,
      .token ⟨.rightParen, ")"⟩]
    (¬ f.Balanced ∧ ∃ part side, f.Reached part side ∧ (side = .right ↔ f.OpeningUnmatched) ∧
      ∀ fault s', f.lower {} = .error fault s' ↔ part.FailsFirst {} fault s' ∨
        (∃ part', part.Reduces {} part' s') ∧ fault = .rejected ⟨0, .missingParenthesis side⟩) ∧
    g.Balanced ∧ ∀ line side s', g.lower {} ≠
      .error (.rejected ⟨line, .missingParenthesis side⟩) s' := by
  intro f g
  have hf : ¬ f.Balanced := fun h => absurd (h.closings_le 1) (by decide)
  have hg : g.Balanced := balanced_of_spells (forest?_eq_some_iff.mp rfl)
  obtain ⟨-, -, hunbalanced⟩ := lower_parentheses_exact f {}
  obtain ⟨part, side, hreached, hside, -, -, hfault⟩ := hunbalanced hf
  exact ⟨⟨hf, part, side, hreached, hside, hfault⟩, hg, (lower_parentheses_exact g {}).2.1 hg⟩

end Fragment

end Abacus
