import Abacus.Proofs.Forest

/-!
# Parentheses without partners

The partner of an opening parenthesis is the closing one behind a balanced part. What has no partner
is unmatched. A fragment in which the parentheses match has nothing unmatched, an opening in front
of a balanced rest is unmatched, and so is a closing behind a balanced front.

## Main definitions

* `Fragment.OpeningUnmatched`, `Fragment.ClosingUnmatched`: a parenthesis of either side without
  partner

## Main results

* `Fragment.Balanced.exists_closing`: every opening of a balanced fragment has a partner
* `Fragment.openingUnmatched_of_balanced`, `Fragment.closingUnmatched_of_balanced`: parentheses that
  have none
* `Fragment.exists_last_opening`: behind the last opening without partner, everything matches
* `Fragment.balanced_iff_matched`: a fragment is balanced when nothing in it is without partner
-/

namespace Abacus.Fragment

/-- **Some opening parenthesis has no partner.** -/
def OpeningUnmatched (f : Fragment) : Prop :=
  ∃ front l back, f = front ++ l :: back ∧ l.hasKind .leftParen = true ∧
    ∀ inside r rest, back = inside ++ r :: rest → r.hasKind .rightParen = true →
      ¬ Balanced inside

/-- **Some closing parenthesis has no partner.** -/
def ClosingUnmatched (f : Fragment) : Prop :=
  ∃ front r back, f = front ++ r :: back ∧ r.hasKind .rightParen = true ∧
    ∀ rest l inside, front = rest ++ l :: inside → l.hasKind .leftParen = true →
      ¬ Balanced inside

namespace Balanced

variable {f g : Fragment} {x l r : Item}

theorem nil : Balanced [] :=
  balanced_of_spells .nil

theorem singleton (hx : x.isParen = false) : Balanced [x] :=
  balanced_of_spells (.leaf hx .nil)

theorem append (hf : f.Balanced) (hg : g.Balanced) : Balanced (f ++ g) := by
  obtain ⟨t, ht⟩ := balanced_iff_exists_spells.mp hf
  obtain ⟨u, hu⟩ := balanced_iff_exists_spells.mp hg
  exact balanced_of_spells (ht.append hu)

/-- Where there are no parentheses, they match. -/
theorem of_not_isParen (hf : ∀ y ∈ f, y.isParen = false) : f.Balanced := by
  induction f with
  | nil => exact nil
  | cons y f ih =>
    have hfront : Balanced [y] := singleton (hf y (by simp))
    exact hfront.append (ih fun z hz => hf z (by simp [hz]))

theorem group (hl : l.hasKind .leftParen = true) (hr : r.hasKind .rightParen = true)
    (hf : f.Balanced) : Balanced (l :: f ++ [r]) := by
  obtain ⟨t, ht⟩ := balanced_iff_exists_spells.mp hf
  exact balanced_of_spells (.group hl hr ht .nil)

/-- What stands before a closing parenthesis of a balanced fragment is not balanced. -/
theorem not_balanced_front (hf : (f ++ r :: g).Balanced) (hr : r.hasKind .rightParen = true) :
    ¬ f.Balanced := by
  intro hfront
  have hle := hf.closings_le (f.length + 1)
  have htake : (f ++ r :: g).take (f.length + 1) = f ++ [r] := List.take_length_add_append 1
  have hl := Item.not_leftParen_of_rightParen hr
  rw [htake, closings_append, openings_append, closings_cons, openings_cons, hfront.closings_eq]
    at hle
  simp only [hr, hl, closings_nil, openings_nil, Bool.false_eq_true, if_false, if_true] at hle
  omega

/-- What stands behind an opening parenthesis of a balanced fragment is not balanced. -/
theorem not_balanced_back (hf : (f ++ l :: g).Balanced) (hl : l.hasKind .leftParen = true) :
    ¬ g.Balanced := by
  intro hback
  have hle := hf.closings_le f.length
  have heq := hf.closings_eq
  have hr := Item.not_rightParen_of_leftParen hl
  rw [List.take_left] at hle
  rw [closings_append, openings_append, closings_cons, openings_cons, hback.closings_eq] at heq
  simp only [hl, hr, Bool.false_eq_true, if_false, if_true] at heq
  omega

/-- **Every opening parenthesis of a balanced fragment has a partner.** -/
theorem exists_closing (hf : (f ++ l :: g).Balanced) (hl : l.hasKind .leftParen = true) :
    ∃ inside r rest, g = inside ++ r :: rest ∧ r.hasKind .rightParen = true ∧
      Balanced inside := by
  obtain ⟨t, ht⟩ := balanced_iff_exists_spells.mp hf
  clear hf
  generalize hwhole : f ++ l :: g = whole at ht
  induction ht generalizing f g with
  | nil => simp at hwhole
  | @leaf x t rest hx h ih =>
    rcases List.append_eq_cons_iff.mp hwhole with ⟨rfl, heq⟩ | ⟨f', rfl, heq⟩
    · cases heq
      rw [Item.not_leftParen_of_not_isParen hx] at hl
      cases hl
    · exact ih heq.symm
  | @group l' r t u inside rest hl' hr h h' ih ih' =>
    have hne : l ≠ r := fun heq => by
      rw [heq, Item.not_leftParen_of_rightParen hr] at hl
      cases hl
    rcases List.append_eq_cons_iff.mp hwhole with ⟨rfl, heq⟩ | ⟨f', rfl, heq⟩
    · cases heq
      exact ⟨inside, r, rest, rfl, hr, balanced_of_spells h⟩
    · rcases List.append_eq_append_iff.mp heq with ⟨c, -, hback⟩ | ⟨c, hc, hback⟩
      · rcases List.cons_eq_append_iff.mp hback with ⟨-, heq'⟩ | ⟨c', -, hrest⟩
        · exact absurd (List.cons.inj heq').1 hne
        · exact ih' hrest.symm
      · rcases List.cons_eq_append_iff.mp hback with ⟨-, heq'⟩ | ⟨c', rfl, rfl⟩
        · exact absurd (List.cons.inj heq').1.symm hne
        · obtain ⟨m, r', rest', rfl, hr', hm⟩ := ih hc.symm
          exact ⟨m, r', rest' ++ r :: rest, by simp, hr', hm⟩

end Balanced

/-- An opening parenthesis before a balanced rest has no partner. -/
theorem openingUnmatched_of_balanced {front back : Fragment} {l : Item}
    (hl : l.hasKind .leftParen = true) (hb : back.Balanced) :
    OpeningUnmatched (front ++ l :: back) := by
  refine ⟨front, l, back, rfl, hl, ?_⟩
  rintro inside r rest rfl hr
  exact hb.not_balanced_front hr

/-- A closing parenthesis behind a balanced front has no partner. -/
theorem closingUnmatched_of_balanced {front back : Fragment} {r : Item}
    (hr : r.hasKind .rightParen = true) (hf : front.Balanced) :
    ClosingUnmatched (front ++ r :: back) := by
  refine ⟨front, r, back, rfl, hr, ?_⟩
  rintro rest l inside rfl hl
  exact hf.not_balanced_back hl

/-- An opening without partner is not in front, where there are no parentheses. -/
theorem OpeningUnmatched.of_append {front f : Fragment} (h : OpeningUnmatched (front ++ f))
    (hfront : ∀ y ∈ front, y.isParen = false) : OpeningUnmatched f := by
  obtain ⟨p, l, back, heq, hl, hnone⟩ := h
  rcases List.append_eq_append_iff.mp heq with ⟨d, -, hd⟩ | ⟨d, hd, hback⟩
  · exact ⟨d, l, back, hd, hl, hnone⟩
  · rcases List.cons_eq_append_iff.mp hback with ⟨-, rfl⟩ | ⟨d', rfl, -⟩
    · exact ⟨[], l, back, rfl, hl, hnone⟩
    · have hparen := hfront l (by simp [hd])
      rw [Item.not_leftParen_of_not_isParen hparen] at hl
      cases hl

/-! ## Every fragment by its unmatched parentheses -/

section Rows

variable {f g : Fragment} {ts : List Forest}

/-- Where a fragment has rows, every end of it has. -/
theorem exists_readRows_of_append (h : readRows (f ++ g) = some ts) :
    ∃ us, readRows g = some us := by
  induction f generalizing ts with
  | nil => exact ⟨ts, h⟩
  | cons x f ih =>
    obtain ⟨us, hus, -⟩ := Option.bind_eq_some_iff.mp h
    exact ih hus

/-- Each row below the top one takes a closing parenthesis more than there are openings. -/
theorem SpellsRows.closings_eq (h : SpellsRows ts f) : closings f + 1 = openings f + ts.length := by
  induction h with
  | last h =>
    have hrow := (balanced_of_spells h).closings_eq
    simp [hrow]
  | cons h hr _ ih =>
    have hrow := (balanced_of_spells h).closings_eq
    have hl := Item.not_leftParen_of_rightParen hr
    simp [closings_cons, openings_cons, hr, hl, hrow]
    omega

/-- A fragment that has no rows has a last opening without partner, and everything behind that one
matches. -/
theorem exists_opening_of_readRows (h : readRows f = none) :
    ∃ front l back, f = front ++ l :: back ∧ l.hasKind .leftParen = true ∧ Balanced back := by
  induction f with
  | nil => cases h
  | cons x f ih =>
    cases hrows : readRows f with
    | none =>
      obtain ⟨front, l, back, rfl, hl, hback⟩ := ih hrows
      exact ⟨x :: front, l, back, rfl, hl, hback⟩
    | some ts =>
      have hitem : readItem x ts = none := by simpa [readRows, hrows] using h
      cases spellsRows_of_readRows hrows with
      | @last t _ hspells =>
        refine ⟨[], x, f, rfl, ?_, balanced_of_spells hspells⟩
        cases hl : x.hasKind .leftParen with
        | true => rfl
        | false => cases hr : x.hasKind .rightParen <;> simp [readItem, hl, hr] at hitem
      | cons _ _ hrest =>
        cases hrest <;> cases hl : x.hasKind .leftParen <;> cases hr : x.hasKind .rightParen <;>
          simp [readItem, hl, hr] at hitem

/-- **An opening is without partner exactly where a fragment has no rows.** -/
theorem openingUnmatched_iff : f.OpeningUnmatched ↔ readRows f = none := by
  constructor
  · rintro ⟨front, l, back, rfl, hl, hnone⟩
    cases hrows : readRows (front ++ l :: back) with
    | none => rfl
    | some ts =>
      exfalso
      obtain ⟨us, hus⟩ := exists_readRows_of_append hrows
      obtain ⟨vs, hvs, hitem⟩ := Option.bind_eq_some_iff.mp hus
      cases spellsRows_of_readRows hvs with
      | last => simp [readItem, hl, Item.not_rightParen_of_leftParen hl] at hitem
      | cons hspells hr _ => exact hnone _ _ _ rfl hr (balanced_of_spells hspells)
  · intro h
    obtain ⟨front, l, back, rfl, hl, hback⟩ := exists_opening_of_readRows h
    exact openingUnmatched_of_balanced hl hback

/-- **Behind the last opening without partner, everything matches.** -/
theorem exists_last_opening (h : f.OpeningUnmatched) :
    ∃ front l back, f = front ++ l :: back ∧ l.hasKind .leftParen = true ∧ Balanced back :=
  exists_opening_of_readRows (openingUnmatched_iff.mp h)

theorem OpeningUnmatched.append (h : g.OpeningUnmatched) (f : Fragment) :
    OpeningUnmatched (f ++ g) := by
  obtain ⟨front, l, back, rfl, hl, hnone⟩ := h
  exact ⟨f ++ front, l, back, by simp, hl, hnone⟩

/-- **A fragment is balanced exactly when no parenthesis in it is without partner.** -/
theorem balanced_iff_matched :
    f.Balanced ↔ ¬ f.OpeningUnmatched ∧ ¬ f.ClosingUnmatched := by
  constructor
  · intro hb
    refine ⟨?_, ?_⟩
    · rintro ⟨front, l, back, rfl, hl, hnone⟩
      obtain ⟨inside, r, rest, rfl, hr, hinside⟩ := hb.exists_closing hl
      exact hnone inside r rest rfl hr hinside
    · rintro ⟨front, r, back, rfl, hr, hnone⟩
      -- what stands before the closing opens more than it closes, so it has no rows
      cases hrows : readRows front with
      | none =>
        obtain ⟨rest, l, inside, rfl, hl, hinside⟩ := exists_opening_of_readRows hrows
        exact hnone rest l inside rfl hl hinside
      | some ts =>
        have hcount := (spellsRows_of_readRows hrows).closings_eq
        have hpos : 0 < ts.length := by
          cases spellsRows_of_readRows hrows <;> simp
        have hle := hb.closings_le (front.length + 1)
        have htake : (front ++ r :: back).take (front.length + 1) = front ++ [r] :=
          List.take_length_add_append 1
        have hl := Item.not_leftParen_of_rightParen hr
        simp only [htake, closings_append, openings_append, closings_cons, openings_cons, hr, hl,
          closings_nil, openings_nil, Bool.false_eq_true, if_false, if_true] at hle
        omega
  · rintro ⟨hopening, hclosing⟩
    cases hrows : readRows f with
    | none => exact absurd (openingUnmatched_iff.mpr hrows) hopening
    | some ts =>
      cases spellsRows_of_readRows hrows with
      | last hspells => exact balanced_of_spells hspells
      | cons hspells hr _ =>
        exact absurd (closingUnmatched_of_balanced hr (balanced_of_spells hspells)) hclosing

end Rows

end Abacus.Fragment
