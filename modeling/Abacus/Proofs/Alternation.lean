import Abacus.Proofs.Forest

/-!
# Which expressions are lowered

A flat fragment is lowered to one item exactly when operands that have a value and operator signs
take turns in it, beginning and ending with an operand. A sweep keeps this as it is, in both
directions, so it holds of the fragment at the start exactly when it holds of what is left. A
whole expression is lowered when its parentheses match and the turns are kept on every level.

## Main definitions

* `Item.Usable`, `Item.IsSign`: the two sorts of items
* `Fragment.Alternates`, `Forest.Alternates`: they take turns, on one level and on all levels

## Main results

* `Fragment.alternates_splice_iff`: what one step of a sweep does to the turns
* `Fragment.lowerFlat_alternates`, `Forest.level_alternates`: when a level is lowered
* `Fragment.exists_spells_of_lower`: what is lowered has matching parentheses
* `Fragment.value_alternates`: when an expression has a value
-/

namespace Abacus

open Lowering (Ensures)

/-! ## Taking turns -/

/-- An item that may stand beside an operator and has a value where `vars` are declared. -/
def Item.Usable (vars : List String) (x : Item) : Prop :=
  x.isOperand = true ∧ x.Resolves vars

/-- An operator sign. -/
def Item.IsSign (x : Item) : Prop :=
  ∃ op : BinOp, x.hasKind op.sign = true

namespace Item

variable {vars : List String} {x : Item}

theorem isSign_of_hasKind {op : BinOp} (h : x.hasKind op.sign = true) : x.IsSign := ⟨op, h⟩

@[simp] theorem usable_temp (vars : List String) (t : Temp) : (temp t).Usable vars :=
  ⟨rfl, trivial⟩

@[simp] theorem not_isSign_temp (t : Temp) : ¬ (temp t).IsSign := by
  simp [IsSign]

theorem IsSign.not_usable (h : x.IsSign) : ¬ x.Usable vars := by
  rintro ⟨hx, -⟩
  obtain ⟨op, hop⟩ := h
  cases x with
  | temp t => simp at hop
  | token t =>
    obtain ⟨kind, text⟩ := t
    cases op <;> cases kind <;>
      simp_all [hasKind, kind?, BinOp.sign, isOperand, Kind.isOperator]

end Item

/-- **Usable items and signs take turns**, up to a usable item at the end. The flag says whether a
usable item is due. -/
def Fragment.Alternates (vars : List String) : Bool → Fragment → Prop
  | true, [] => False
  | false, [] => True
  | true, x :: f => x.Usable vars ∧ Alternates vars false f
  | false, x :: f => x.IsSign ∧ Alternates vars true f

namespace Fragment

variable {vars : List String} {f g : Fragment} {l x r : Item}

/-- **One step of a sweep** takes a sign with two usable neighbours out of the turns and leaves a
usable item. -/
theorem alternates_splice_iff (hx : x.IsSign) (t : Temp) (due : Bool) :
    Alternates vars due (f ++ l :: x :: r :: g) ↔
      (l.Usable vars ∧ r.Usable vars) ∧ Alternates vars due (f ++ .temp t :: g) := by
  induction f generalizing due with
  | nil => cases due <;> simp [Alternates, hx, hx.not_usable, and_assoc]
  | cons y f ih => cases due <;> simp [Alternates, ih, and_left_comm]

/-- A sign at an edge has no turn. -/
theorem not_alternates_of_edge (hx : x.IsSign) (h : f = [] ∨ g = []) :
    ¬ Alternates vars true (f ++ x :: g) := by
  rcases h with rfl | rfl
  · simp [Alternates, hx.not_usable]
  · suffices hlast : ∀ due, ¬ Alternates vars due (f ++ [x]) from hlast true
    induction f with
    | nil => rintro (_ | _) <;> simp [Alternates, hx.not_usable]
    | cons y f ih => rintro (_ | _) <;> simp [Alternates, ih]

/-! ## Sweeps -/

theorem sourceNames_of_fetch {v : Value} {s s' : Session} (h : x.fetch s = .ok v s') :
    s'.scope.sourceNames = s.scope.sourceNames := by
  rcases Item.fetch_eq_ok_iff.mp h with
    ⟨t, rfl, rfl, rfl⟩ | ⟨t, n, rfl, -, rfl, rfl⟩ | ⟨t, rfl, -, -, rfl, rfl⟩ <;> simp

/-- **A combination succeeds exactly on usable neighbours**, and declares no variable. -/
theorem combine_usable {operator : String} {op : BinOp} {s : Session}
    (hs : s.scope.sourceNames = vars) :
    Ensures s (combine operator op.mnemonic l r)
      (fun _ s' => s'.scope.sourceNames = vars ∧ l.Usable vars ∧ r.Usable vars)
      fun _ _ => ¬ (l.Usable vars ∧ r.Usable vars) := by
  subst hs
  cases h : combine operator op.mnemonic l r s with
  | ok t s' =>
    obtain ⟨hl, hr, a, s₁, b, s₂, ha, hb, rfl, rfl⟩ := combine_eq_ok_iff.mp h
    have hn₁ := sourceNames_of_fetch ha
    have hn₂ := sourceNames_of_fetch hb
    have hra := Item.exists_fetch_iff.mp ⟨a, s₁, ha⟩
    have hrb := Item.exists_fetch_iff.mp ⟨b, s₂, hb⟩
    rw [hn₁] at hrb
    exact Ensures.of_ok h ⟨by simp [hn₂, hn₁], ⟨hl, hra⟩, hr, hrb⟩
  | error fault s' =>
    refine Ensures.of_error h ?_
    rintro ⟨⟨hl, hra⟩, hr, hrb⟩
    obtain ⟨a, s₁, ha⟩ := Item.exists_fetch_iff.mpr hra
    rw [← sourceNames_of_fetch ha] at hrb
    obtain ⟨b, s₂, hb⟩ := Item.exists_fetch_iff.mpr hrb
    have hok : combine operator op.mnemonic l r s = .ok _ _ :=
      combine_eq_ok_iff.mpr ⟨hl, hr, a, s₁, b, s₂, ha, hb, rfl, rfl⟩
    rw [h] at hok
    cases hok

/-- A sweep keeps whether the turns are kept, and fails only where they are not. -/
theorem sweepInvariant_alternates (op : BinOp) (start : Prop) :
    SweepInvariant op.sign op
      (fun f s => s.scope.sourceNames = vars ∧ (Alternates vars true f ↔ start))
      fun _ _ => ¬ start where
  edge {f g x s} _ hx hedge h := fun hstart =>
    not_alternates_of_edge (Item.isSign_of_hasKind hx) hedge (h.2.mpr hstart)
  step {f g l x r s} hf hl hx h := by
    have hsplice : ∀ t, Alternates vars true (f ++ l :: x :: r :: g) ↔
        (l.Usable vars ∧ r.Usable vars) ∧ Alternates vars true (f ++ .temp t :: g) :=
      fun t => alternates_splice_iff (Item.isSign_of_hasKind hx) t true
    -- the equivalence with the start serves both ends: a success keeps it, a fault refutes it
    refine (combine_usable h.1).mono (fun t s' ht => ⟨ht.1, ?_⟩) fun fault s' hnot hstart => ?_
    · rw [← h.2, hsplice t]
      simp [ht.2]
    · exact hnot ((hsplice ⟨0⟩).mp (h.2.mpr hstart)).1

/-- **A flat fragment is lowered to a usable item exactly when the turns are kept in it.** -/
theorem lowerFlat_alternates {s : Session} (hs : s.scope.sourceNames = vars) (f : Fragment) :
    Ensures s f.lowerFlat
      (fun x s' => s'.scope.sourceNames = vars ∧ ¬ x.IsSign ∧
        (x.Usable vars ↔ Alternates vars true f))
      fun _ _ => ¬ Alternates vars true f := by
  refine SweepInvariant.lowerFlat (fun op => sweepInvariant_alternates op _) ⟨hs, Iff.rfl⟩
    (fun s' h hf => h.2.mpr hf) (fun x y g s' h hsign hf => ?_) fun x s' h hsign => ?_
  · obtain ⟨-, ⟨op, hop⟩, -⟩ := h.2.mpr hf
    rw [hsign y (by simp) op] at hop
    cases hop
  · refine ⟨h.1, ?_, by simpa [Alternates] using h.2⟩
    rintro ⟨op, hop⟩
    rw [hsign op] at hop
    cases hop

end Fragment

/-! ## Levels -/

/-- **The turns are kept on every level.** A group takes the turn of a usable item. -/
def Forest.Alternates (vars : List String) : Bool → Forest → Prop
  | true, nil => False
  | false, nil => True
  | true, leaf x rest => x.Usable vars ∧ rest.Alternates vars false
  | false, leaf x rest => x.IsSign ∧ rest.Alternates vars true
  | true, group inside rest => inside.Alternates vars true ∧ rest.Alternates vars false
  | false, group _ _ => False

namespace Forest

variable {vars : List String}

/-- The turns on a level are those of its forest once the groups are lowered, and a group that is
not lowered does not keep them. -/
theorem level_alternates (t : Forest) {s : Session} (hs : s.scope.sourceNames = vars) :
    Ensures s t.level
      (fun f s' => s'.scope.sourceNames = vars ∧
        ∀ due, Fragment.Alternates vars due f ↔ t.Alternates vars due)
      fun _ _ => ∀ due, ¬ t.Alternates vars due := by
  induction t generalizing s with
  | nil => exact Ensures.of_ok rfl ⟨hs, fun due => by cases due <;> rfl⟩
  | leaf x rest ih =>
    have hback : Ensures s rest.level _ fun _ _ => ∀ due, ¬ (leaf x rest).Alternates vars due :=
      (ih hs).mono (fun _ _ h => h) fun _ _ h due => by cases due <;> simp [Alternates, h]
    refine hback.bind fun back s₁ h => Ensures.of_ok rfl ⟨h.1, fun due => ?_⟩
    cases due <;> simp [Alternates, Fragment.Alternates, h.2]
  | group inside rest ih ih' =>
    have hback : Ensures s rest.level _
        fun _ _ => ∀ due, ¬ (group inside rest).Alternates vars due :=
      (ih' hs).mono (fun _ _ h => h) fun _ _ h due => by cases due <;> simp [Alternates, h]
    refine hback.bind fun back s₁ h₁ => ?_
    have hinside : Ensures s₁ inside.level _
        fun _ _ => ∀ due, ¬ (group inside rest).Alternates vars due :=
      (ih h₁.1).mono (fun _ _ h => h) fun _ _ h due => by cases due <;> simp [Alternates, h]
    refine hinside.bind fun front s₂ h₂ => ?_
    have hflat : Ensures s₂ front.lowerFlat _
        fun _ _ => ∀ due, ¬ (group inside rest).Alternates vars due :=
      (Fragment.lowerFlat_alternates h₂.1 front).mono (fun _ _ h => h) fun _ _ h due => by
        cases due <;> simp_all [Alternates]
    refine hflat.bind fun x s₃ h₃ => Ensures.of_ok rfl ⟨h₃.1, fun due => ?_⟩
    obtain ⟨-, hsign, husable⟩ := h₃
    cases due <;> simp [Alternates, Fragment.Alternates, hsign, husable, h₁.2, h₂.2]

/-- **The structural compiler succeeds with a usable item exactly when the turns are kept.** -/
theorem compile_alternates (t : Forest) {s : Session} (hs : s.scope.sourceNames = vars) :
    Ensures s t.compile
      (fun x s' => s'.scope.sourceNames = vars ∧ ¬ x.IsSign ∧
        (x.Usable vars ↔ t.Alternates vars true))
      fun _ _ => ¬ t.Alternates vars true := by
  have hlevel : Ensures s t.level _ fun _ _ => ¬ t.Alternates vars true :=
    (t.level_alternates hs).mono (fun _ _ h => h) fun _ _ h => h true
  refine hlevel.bind fun f s₁ h => ?_
  rw [← h.2]
  exact Fragment.lowerFlat_alternates h.1 f

end Forest

/-! ## Whole expressions -/

namespace Fragment

/-- **Closing the groups of a fragment reads its rows**: no opening is left, and one row more is
open than there are closings left. -/
theorem closeGroups_readRows (f : Fragment) (s : Session) :
    Ensures s f.closeGroups
      (fun f' _ => openings f' = 0 ∧ ∃ ts, readRows f = some ts ∧ ts.length = closings f' + 1)
      fun _ _ => True := by
  induction f with
  | nil => exact Ensures.of_ok rfl ⟨rfl, [.nil], rfl, rfl⟩
  | cons x f ih =>
    by_cases hl : x.hasKind .leftParen = true
    · rw [closeGroups_cons_leftParen hl]
      refine ih.bind ?_
      rintro rest s₁ ⟨hopen, ts, hts, hlen⟩
      cases hsplit : splitAt? .rightParen rest with
      | none => exact Ensures.of_error rfl trivial
      | some parts =>
        obtain ⟨inside, after⟩ := parts
        obtain ⟨r, hr, rfl, hinside⟩ := eq_append_of_splitAt? hsplit
        have hflat : ∀ y ∈ inside, y.isParen = false := fun y hy => by
          have hleft := List.countP_eq_zero.mp hopen y (by simp [hy])
          rw [Item.isParen_eq, hinside y hy, Bool.eq_false_iff.mpr hleft, Bool.or_self]
        refine (lowerFlat_not_isParen hflat s₁).bind fun y s₂ hy => Ensures.of_ok rfl ?_
        have hyl := Item.not_leftParen_of_not_isParen hy
        have hyr := Item.not_rightParen_of_not_isParen hy
        have hnone : closings inside = 0 :=
          List.countP_eq_zero.mpr fun z hz => by simp [hinside z hz]
        simp only [openings_append, openings_cons, closings_append, closings_cons, hr, if_true,
          hnone] at hopen hlen
        obtain ⟨t, us, rfl⟩ := List.exists_cons_of_length_eq_add_one hlen
        have hlen : us.length = closings after + 1 := by
          rw [List.length_cons] at hlen
          omega
        obtain ⟨u, us, rfl⟩ := List.exists_cons_of_length_eq_add_one hlen
        refine ⟨by simp [openings_cons, hyl]; omega, .group t u :: us, ?_, ?_⟩
        · simp [readRows, hts, readItem_leftParen hl]
        · simpa [closings_cons, hyr] using hlen
    · rw [closeGroups_cons_of_not (Bool.eq_false_iff.mpr hl)]
      refine ih.bind ?_
      rintro rest s₁ ⟨hopen, ts, hts, hlen⟩
      refine Ensures.of_ok rfl ?_
      obtain ⟨t, us, rfl⟩ := List.exists_cons_of_length_eq_add_one hlen
      by_cases hr : x.hasKind .rightParen = true
      · refine ⟨by simp [openings_cons, hl, hopen], .nil :: t :: us, ?_, ?_⟩
        · simp [readRows, hts, readItem_rightParen hr]
        · simpa [closings_cons, hr] using hlen
      · have hp : x.isParen = false := by simp [Item.isParen_eq, hr, hl]
        refine ⟨by simp [openings_cons, hl, hopen], .leaf x t :: us, ?_, ?_⟩
        · simp [readRows, hts, readItem_leaf hp]
        · simpa [closings_cons, hr] using hlen

/-- **What is lowered has matching parentheses.** -/
theorem exists_spells_of_lower {f : Fragment} {x : Item} {s s' : Session}
    (h : f.lower s = .ok x s') : ∃ t : Forest, t.Spells f := by
  unfold lower at h
  obtain ⟨f', s₁, hclose, hrest⟩ := Lowering.bind_eq_ok_iff.mp h
  obtain ⟨-, ts, hts, hlen⟩ := (closeGroups_readRows f s).ok_of_eq hclose
  split at hrest
  · cases hrest
  · next hany =>
    have hnone : closings f' = 0 := List.countP_eq_zero.mpr fun y hy hyr =>
      hany (List.any_eq_true.mpr ⟨y, hy, hyr⟩)
    rw [hnone] at hlen
    obtain ⟨t, rfl⟩ := List.length_eq_one_iff.mp hlen
    exact ⟨t, forest?_eq_some_iff.mp (by simp [forest?, hts])⟩

end Fragment

/-- **An expression whose parentheses match has a value exactly when the turns are kept.** -/
theorem Forest.Spells.value_alternates {t : Forest} {f : Fragment} (ht : t.Spells f)
    {vars : List String} {s : Session} (hs : s.scope.sourceNames = vars) :
    Ensures s f.value (fun _ s' => s'.scope.sourceNames = vars ∧ t.Alternates vars true)
      fun _ _ => ¬ t.Alternates vars true := by
  unfold Fragment.value
  rw [ht.lower_eq_compile]
  have hparen : Ensures s t.compile (fun x _ => x.isParen = false) fun _ _ => True :=
    (ht.level_not_isParen s).bind fun f s₁ hf => Fragment.lowerFlat_not_isParen hf s₁
  have hboth : Ensures s t.compile _ fun _ _ => ¬ t.Alternates vars true :=
    ((t.compile_alternates hs).and hparen).mono (fun _ _ h => h) fun _ _ h => h.1
  refine hboth.bind ?_
  rintro x s₁ ⟨⟨hs₁, hsign, husable⟩, hx⟩
  have hoperand : x.isOperand = true := Item.isOperand_of_forall_not
    (fun op => Bool.eq_false_iff.mpr fun hop => hsign ⟨op, hop⟩) hx
  have hfetch : (∃ v s', x.fetch s₁ = .ok v s') ↔ t.Alternates vars true := by
    rw [Item.exists_fetch_iff, hs₁, ← husable, Item.Usable]
    simp [hoperand]
  cases hv : x.fetch s₁ with
  | ok v s' =>
    exact Ensures.of_ok hv ⟨(Fragment.sourceNames_of_fetch hv).trans hs₁, hfetch.mp ⟨v, s', hv⟩⟩
  | error fault s' =>
    refine Ensures.of_error hv fun halt => ?_
    obtain ⟨v, s'', hok⟩ := hfetch.mpr halt
    rw [hv] at hok
    cases hok

/-- **An expression has a value exactly when its parentheses match and the turns are kept.** -/
theorem Fragment.value_alternates (f : Fragment) {vars : List String} {s : Session}
    (hs : s.scope.sourceNames = vars) :
    Ensures s f.value
      (fun _ s' => s'.scope.sourceNames = vars ∧ ∃ t : Forest, t.Spells f ∧ t.Alternates vars true)
      fun _ _ => ¬ ∃ t : Forest, t.Spells f ∧ t.Alternates vars true := by
  by_cases hspells : ∃ t : Forest, t.Spells f
  · obtain ⟨t, ht⟩ := hspells
    refine (ht.value_alternates hs).mono (fun v s' h => ⟨h.1, t, ht, h.2⟩) fun fault s' hnot => ?_
    rintro ⟨u, hu, halt⟩
    rw [hu.unique ht] at halt
    exact hnot halt
  · cases hv : f.value s with
    | ok v s' =>
      obtain ⟨x, s₁, hx, -⟩ := Lowering.bind_eq_ok_iff.mp hv
      exact absurd (exists_spells_of_lower hx) hspells
    | error fault s' =>
      refine Ensures.of_error hv ?_
      rintro ⟨t, ht, -⟩
      exact hspells ⟨t, ht⟩

end Abacus
