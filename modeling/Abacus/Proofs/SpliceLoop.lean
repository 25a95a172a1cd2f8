import Abacus.Proofs.Forest
import Abacus.Proofs.Rescan

/-!
# The splice loop

Groups can also be closed by a loop that searches the whole fragment again for each of them: it
takes the last opening, the first closing after it, reduces what stands between by a call of its
own, and puts the result in the place of the group. The loop is stated here with the searches by
position, and it is the lowering: on every fragment it has the same outcome and leaves the same
session. On a balanced fragment both are the structural compiler. The calls of the loop never
nest, because what stands between the last opening and the first closing after it has no
parenthesis.

## Main definitions

* `Fragment.Target`, `Fragment.target`: what the loop finds in a fragment
* `Fragment.reduce`: the loop
* `Fragment.reduceCalls`, `Fragment.calls`: a run of the loop that tells every call it makes, with
  its depth

## Main results

* `Fragment.snd_reduceCalls`: without its calls, such a run is the loop
* `Fragment.of_mem_calls`, `Fragment.length_calls`: what is called, and how often
* `Fragment.reduce_eq_lower`: the loop is the lowering
* `Fragment.splice_loop_refines`: the loop is the structural compiler, and its calls do not nest
-/

namespace Abacus.Fragment

open Lowering (Ensures)

/-! ## What the loop finds -/

/-- What the loop finds in a fragment. -/
inductive Target where
  /-- There is no parenthesis. -/
  | flat
  /-- The parenthesis on this side of a pair is missing. -/
  | missing (side : Side)
  /-- A group, with what stands before and after it. -/
  | group (front inside after : Fragment)
  deriving DecidableEq, Repr

/-- **One search**: the last opening, and the first closing after it. -/
def target (f : Fragment) : Target :=
  if f.any Item.isParen then
    match f.lastIndex (·.hasKind .leftParen) with
    | none => .missing .left
    | some first =>
      match f.searchFrom (·.hasKind .rightParen) (first + 1 : Nat) with
      | .found last =>
        .group (f.take first) ((f.take last.toNat).drop (first + 1)) (f.drop (last.toNat + 1))
      | _ => .missing .right
  else .flat

section Target

variable {f front inside after back : Fragment} {l r : Item}

theorem target_of_flat (h : ∀ x ∈ f, x.isParen = false) : f.target = .flat := by
  have hany : f.any Item.isParen = false := List.any_eq_false.mpr fun x hx => by simp [h x hx]
  simp [target, hany]

/-- Without an opening, some closing has no partner. -/
theorem target_of_closing (h : ∀ x ∈ f, x.hasKind .leftParen = false)
    (hr : ∃ x ∈ f, x.hasKind .rightParen = true) : f.target = .missing .left := by
  obtain ⟨x, hx, hxr⟩ := hr
  have hany : f.any Item.isParen = true :=
    List.any_eq_true.mpr ⟨x, hx, by simp [Item.isParen_eq, hxr]⟩
  simp [target, hany, lastIndex_eq_none h]

/-- Without a closing after it, the last opening has no partner. -/
theorem target_of_opening (hl : l.hasKind .leftParen = true)
    (hback : ∀ x ∈ back, x.isParen = false) :
    target (front ++ l :: back) = .missing .right := by
  have hany : (front ++ l :: back).any Item.isParen = true :=
    List.any_eq_true.mpr ⟨l, by simp, by simp [Item.isParen_eq, hl]⟩
  have hlast : (front ++ l :: back).lastIndex (·.hasKind .leftParen) = some front.length :=
    lastIndex_append hl fun x hx => Item.not_leftParen_of_not_isParen (hback x hx)
  have hsearch : (front ++ l :: back).searchFrom (·.hasKind .rightParen)
      (front.length + 1 : Nat) = .absent := by
    simpa using searchFrom_eq_absent (f := front ++ [l]) (g := back)
      (p := fun x => x.hasKind .rightParen)
      fun x hx => Item.not_rightParen_of_not_isParen (hback x hx)
  simp only [target, hany, if_true, hlast, hsearch]

/-- The group between the last opening and the first closing after it. -/
theorem target_of_group (hl : l.hasKind .leftParen = true) (hr : r.hasKind .rightParen = true)
    (hinside : ∀ x ∈ inside, x.isParen = false)
    (hafter : ∀ x ∈ after, x.hasKind .leftParen = false) :
    target (front ++ l :: (inside ++ r :: after)) = .group front inside after := by
  have hany : (front ++ l :: (inside ++ r :: after)).any Item.isParen = true :=
    List.any_eq_true.mpr ⟨l, by simp, by simp [Item.isParen_eq, hl]⟩
  have hlast : (front ++ l :: (inside ++ r :: after)).lastIndex (·.hasKind .leftParen) =
      some front.length := by
    refine lastIndex_append hl fun x hx => ?_
    rcases List.mem_append.mp hx with hx | hx
    · exact Item.not_leftParen_of_not_isParen (hinside x hx)
    · rcases List.mem_cons.mp hx with rfl | hx
      · exact Item.not_leftParen_of_rightParen hr
      · exact hafter x hx
  have hsearch : (front ++ l :: (inside ++ r :: after)).searchFrom (·.hasKind .rightParen)
      (front.length + 1 : Nat) = .found ((front.length + 1 + inside.length : Nat) : Int) := by
    simpa using searchFrom_append (f := front ++ [l]) (h := after)
      (fun x hx => Item.not_rightParen_of_not_isParen (hinside x hx)) hr
  have htake : ((front ++ l :: inside) ++ r :: after).take (front.length + 1 + inside.length) =
      front ++ l :: inside := List.take_left' (by simp; omega)
  have hdrop : ((front ++ l :: inside ++ [r]) ++ after).drop
      (front.length + 1 + inside.length + 1) = after := List.drop_left' (by simp; omega)
  simp only [List.append_assoc, List.cons_append, List.nil_append] at htake hdrop
  simp only [target, hany, if_true, hlast, hsearch, Int.toNat_natCast, htake, hdrop]
  simp

/-- **The four forms of a fragment**, by what the loop finds in it. -/
theorem target_cases (f : Fragment) :
    (∀ x ∈ f, x.isParen = false) ∨
    ((∀ x ∈ f, x.hasKind .leftParen = false) ∧ ∃ x ∈ f, x.hasKind .rightParen = true) ∨
    (∃ front l back, f = front ++ l :: back ∧ l.hasKind .leftParen = true ∧
      ∀ x ∈ back, x.isParen = false) ∨
    ∃ front l inside r after, f = front ++ l :: (inside ++ r :: after) ∧
      l.hasKind .leftParen = true ∧ r.hasKind .rightParen = true ∧
      (∀ x ∈ inside, x.isParen = false) ∧ ∀ x ∈ after, x.hasKind .leftParen = false := by
  by_cases hopen : ∃ x ∈ f, x.hasKind .leftParen = true
  · obtain ⟨front, l, back, rfl, hl, hback⟩ := exists_last hopen
    refine Or.inr (Or.inr ?_)
    by_cases hclose : ∃ x ∈ back, x.hasKind .rightParen = true
    · obtain ⟨inside, r, after, rfl, hr, hinside⟩ := exists_first hclose
      refine Or.inr ⟨front, l, inside, r, after, rfl, hl, hr, fun x hx => ?_, fun x hx => ?_⟩
      · simp [Item.isParen_eq, hinside x hx, hback x (by simp [hx])]
      · exact hback x (by simp [hx])
    · refine Or.inl ⟨front, l, back, rfl, hl, fun x hx => ?_⟩
      have hr := Bool.eq_false_iff.mpr fun h => hclose ⟨x, hx, h⟩
      simp [Item.isParen_eq, hback x hx, hr]
  · have hopen' : ∀ x ∈ f, x.hasKind .leftParen = false := fun x hx =>
      Bool.eq_false_iff.mpr fun h => hopen ⟨x, hx, h⟩
    by_cases hclose : ∃ x ∈ f, x.hasKind .rightParen = true
    · exact Or.inr (Or.inl ⟨hopen', hclose⟩)
    · refine Or.inl fun x hx => ?_
      have hr := Bool.eq_false_iff.mpr fun h => hclose ⟨x, hx, h⟩
      simp [Item.isParen_eq, hopen' x hx, hr]

/-- A group that is found is a part of the fragment, and its inside holds no parenthesis. -/
theorem of_target_eq_group (h : f.target = .group front inside after) :
    (∃ l r, f = front ++ l :: (inside ++ r :: after) ∧ l.hasKind .leftParen = true ∧
      r.hasKind .rightParen = true) ∧
    (∀ x ∈ inside, x.isParen = false) ∧ ∀ x ∈ after, x.hasKind .leftParen = false := by
  rcases target_cases f with hflat | ⟨hopen, hclose⟩ | ⟨front', l, back, rfl, hl, hback⟩ |
    ⟨front', l, inside', r, after', rfl, hl, hr, hinside, hafter⟩
  · simp [target_of_flat hflat] at h
  · simp [target_of_closing hopen hclose] at h
  · simp [target_of_opening hl hback] at h
  · rw [target_of_group hl hr hinside hafter] at h
    cases h
    exact ⟨⟨l, r, rfl, hl, hr⟩, hinside, hafter⟩

/-- Where no parenthesis is found, there is none. -/
theorem of_target_eq_flat (h : f.target = .flat) : ∀ x ∈ f, x.isParen = false := by
  rcases target_cases f with hflat | ⟨hopen, hclose⟩ | ⟨front', l, back, rfl, hl, hback⟩ |
    ⟨front', l, inside', r, after', rfl, hl, hr, hinside, hafter⟩
  · exact hflat
  · simp [target_of_closing hopen hclose] at h
  · simp [target_of_opening hl hback] at h
  · simp [target_of_group hl hr hinside hafter] at h

theorem length_of_target_eq_group (h : f.target = .group front inside after) :
    f.length = front.length + inside.length + after.length + 2 := by
  obtain ⟨⟨l, r, rfl, -, -⟩, -, -⟩ := of_target_eq_group h
  simp
  omega

end Target

/-! ## The loop and its calls -/

/-- **The splice loop.** While there are parentheses, the group that is found is reduced by a call
and its result put in its place; what is left is swept. -/
def reduce (f : Fragment) : Lowering Item :=
  match _h : f.target with
  | .flat => f.lowerFlat
  | .missing side => Session.reject (.missingParenthesis side)
  | .group front inside after => do
    let x ← reduce inside
    reduce (front ++ x :: after)
termination_by f.length
decreasing_by
  · have hlen := length_of_target_eq_group _h
    omega
  · have hlen := length_of_target_eq_group _h
    simp only [List.length_append, List.length_cons]
    omega

/-- A call of the loop by itself: the number of calls it is made in, and its argument. -/
structure Call where
  depth : Nat
  fragment : Fragment
  deriving DecidableEq, Repr

/-- **The splice loop with its calls.** A run at depth `depth` ends as it does, and tells the calls
that it made, in order: the call for the group that is found, the calls made in it, and, once it has
returned, those of the rest of the run. -/
def reduceCalls (depth : Nat) (f : Fragment) (s : Session) :
    List Call × EStateM.Result Fault Session Item :=
  match _h : f.target with
  | .flat => ([], f.lowerFlat s)
  | .missing side => ([], Session.reject (.missingParenthesis side) s)
  | .group front inside after =>
    match reduceCalls (depth + 1) inside s with
    | (inner, .error fault s') => (⟨depth + 1, inside⟩ :: inner, .error fault s')
    | (inner, .ok x s') =>
      let (later, result) := reduceCalls depth (front ++ x :: after) s'
      (⟨depth + 1, inside⟩ :: inner ++ later, result)
termination_by f.length
decreasing_by
  · have hlen := length_of_target_eq_group _h
    omega
  · have hlen := length_of_target_eq_group _h
    simp only [List.length_append, List.length_cons]
    omega

/-- The calls that a run of the loop makes. -/
def calls (depth : Nat) (f : Fragment) (s : Session) : List Call :=
  (f.reduceCalls depth s).1

section Loop

variable {f g front inside after : Fragment} {l r : Item} {s s' : Session}

theorem reduce_of_target_eq_flat (h : f.target = .flat) : f.reduce = f.lowerFlat := by
  rw [reduce]
  split
  · rfl
  · next ht => simp [h] at ht
  · next ht => simp [h] at ht

theorem reduce_of_missing {side : Side} (h : f.target = .missing side) :
    f.reduce = Session.reject (.missingParenthesis side) := by
  rw [reduce]
  split
  · next ht => simp [h] at ht
  · next ht => rw [h] at ht; cases ht; rfl
  · next ht => simp [h] at ht

/-- One round of the loop. -/
theorem reduce_of_group (h : f.target = .group front inside after) :
    f.reduce = (do
      let x ← inside.reduce
      (front ++ x :: after).reduce) := by
  rw [reduce]
  split
  · next ht => simp [h] at ht
  · next ht => simp [h] at ht
  · next ht => rw [h] at ht; cases ht; rfl

/-- Where no group is found, no call is made. -/
theorem calls_eq_nil (h : ∀ front inside after, f.target ≠ .group front inside after)
    (depth : Nat) : f.calls depth s = [] := by
  rw [calls, reduceCalls]
  split
  · rfl
  · rfl
  · next ht => exact (h _ _ _ ht).elim

/-- **Without its calls, a run of the loop is the loop.** -/
theorem snd_reduceCalls (depth : Nat) (f : Fragment) (s : Session) :
    (f.reduceCalls depth s).2 = f.reduce s := by
  fun_induction reduceCalls depth f s with
  | case1 depth f s ht => rw [reduce_of_target_eq_flat ht]
  | case2 depth f s side ht => rw [reduce_of_missing ht]
  | case3 depth f s front inside after ht inner fault s' hinside ih =>
    have hcall : inside.reduce s = .error fault s' := by rw [← ih, hinside]
    rw [reduce_of_group ht, Lowering.bind_of_error hcall]
  | case4 depth f s front inside after ht inner x s' hinside later result hlater ih ih' =>
    have hcall : inside.reduce s = .ok x s' := by rw [← ih, hinside]
    rw [reduce_of_group ht, Lowering.bind_of_ok hcall, ← ih', hlater]

/-- One round of the loop makes one call, and nothing is called in it. -/
theorem calls_of_group (h : f.target = .group front inside after) (depth : Nat) :
    f.calls depth s = ⟨depth + 1, inside⟩ ::
      match inside.reduce s with
      | .ok x s' => (front ++ x :: after).calls depth s'
      | .error _ _ => [] := by
  obtain ⟨-, hinside, -⟩ := of_target_eq_group h
  have hinner : inside.calls (depth + 1) s = [] :=
    calls_eq_nil (by simp [target_of_flat hinside]) (depth + 1)
  have hend := snd_reduceCalls (depth + 1) inside s
  rw [calls, reduceCalls]
  split
  · next ht => simp [h] at ht
  · next ht => simp [h] at ht
  · next ht =>
    rw [h] at ht
    cases ht
    rw [calls] at hinner
    rw [← hend]
    rcases hrun : inside.reduceCalls (depth + 1) s with ⟨inner, result⟩
    obtain rfl : inner = [] := by rw [← hinner, hrun]
    cases result <;> rfl

/-- **No call is made on a fragment with parentheses**, and no call is made in another. -/
theorem of_mem_calls (f : Fragment) (depth : Nat) (s : Session) :
    ∀ c ∈ f.calls depth s, c.depth = depth + 1 ∧ ∀ x ∈ c.fragment, x.isParen = false := by
  fun_induction reduce f generalizing s with
  | case1 f ht => simp [calls_eq_nil (f := f) (by simp [ht])]
  | case2 f side ht => simp [calls_eq_nil (f := f) (by simp [ht])]
  | case3 f front inside after ht ih ih' =>
    obtain ⟨-, hinside, -⟩ := of_target_eq_group ht
    intro c hc
    rw [calls_of_group ht] at hc
    rcases List.mem_cons.mp hc with rfl | hc
    · exact ⟨rfl, hinside⟩
    · split at hc
      · next x s' _ => exact ih' x s' c hc
      · cases hc

/-- **A run that succeeds makes one call for each opening.** -/
theorem length_calls (f : Fragment) (depth : Nat) {s s' : Session} {x : Item}
    (h : f.reduce s = .ok x s') :
    (f.calls depth s).length = f.countP (·.hasKind .leftParen) := by
  have hnone : ∀ {g : Fragment}, (∀ y ∈ g, y.isParen = false) →
      g.countP (·.hasKind .leftParen) = 0 := by
    intro g hg
    exact List.countP_eq_zero.mpr fun y hy => by
      simp [Item.not_leftParen_of_not_isParen (hg y hy)]
  fun_induction reduce f generalizing s with
  | case1 f ht =>
    rw [calls_eq_nil (by simp [ht]), hnone (of_target_eq_flat ht), List.length_nil]
  | case2 f side ht => cases h
  | case3 f front inside after ht ih ih' =>
    obtain ⟨⟨l, r, rfl, hl, hr⟩, hinside, hafter⟩ := of_target_eq_group ht
    obtain ⟨y, s₁, hcall, hrest⟩ := Lowering.bind_eq_ok_iff.mp h
    have hy : y.hasKind .leftParen = false := by
      rw [reduce_of_target_eq_flat (target_of_flat hinside)] at hcall
      exact Item.not_leftParen_of_not_isParen ((lowerFlat_not_isParen hinside s).ok_of_eq hcall)
    have hr' := Item.not_leftParen_of_rightParen hr
    rw [calls_of_group ht, hcall, List.length_cons, ih' y hrest]
    simp only [List.countP_append, List.countP_cons, hnone hinside, hl, hy, hr', if_true,
      Bool.false_eq_true, if_false]
    omega

/-- Where nothing is opened, nothing is closed. -/
theorem closeGroups_of_no_opening (h : ∀ x ∈ f, x.hasKind .leftParen = false) :
    closeGroups f = pure f := by
  induction f with
  | nil => rfl
  | cons x f ih =>
    have hx := h x (by simp)
    rw [closeGroups_cons_of_not hx, ih fun y hy => h y (by simp [hy]), pure_bind]

/-- What stands in front is closed after the rest, and sees only what is left of it. -/
theorem closeGroups_append_congr (h : closeGroups f s = closeGroups g s') (front : Fragment) :
    closeGroups (front ++ f) s = closeGroups (front ++ g) s' := by
  induction front with
  | nil => exact h
  | cons x front ih =>
    by_cases hx : x.hasKind .leftParen = true
    · simp only [List.cons_append, closeGroups_cons_leftParen hx]
      exact Lowering.bind_run_congr ih
    · simp only [List.cons_append, closeGroups_cons_of_not (Bool.eq_false_iff.mpr hx)]
      exact Lowering.bind_run_congr ih

/-- A fault on the right stops the closing of what stands in front. -/
theorem closeGroups_append_of_error {fault : Fault} (h : closeGroups f s = .error fault s')
    (front : Fragment) : closeGroups (front ++ f) s = .error fault s' := by
  induction front with
  | nil => exact h
  | cons x front ih =>
    by_cases hx : x.hasKind .leftParen = true
    · rw [List.cons_append, closeGroups_cons_leftParen hx]
      exact Lowering.bind_of_error ih
    · rw [List.cons_append, closeGroups_cons_of_not (Bool.eq_false_iff.mpr hx)]
      exact Lowering.bind_of_error ih

/-- The last group of a fragment is closed by the sweeps of its inside. -/
theorem closeGroups_group (hl : l.hasKind .leftParen = true) (hr : r.hasKind .rightParen = true)
    (hinside : ∀ x ∈ inside, x.isParen = false)
    (hafter : ∀ x ∈ after, x.hasKind .leftParen = false) :
    closeGroups (l :: (inside ++ r :: after)) = (do
      let x ← inside.lowerFlat
      return x :: after) := by
  have hrest : ∀ x ∈ inside ++ r :: after, x.hasKind .leftParen = false := by
    intro x hx
    rcases List.mem_append.mp hx with hx | hx
    · exact Item.not_leftParen_of_not_isParen (hinside x hx)
    · rcases List.mem_cons.mp hx with rfl | hx
      · exact Item.not_leftParen_of_rightParen hr
      · exact hafter x hx
  have hsplit := splitAt?_append (g := after)
    (fun x hx => Item.not_rightParen_of_not_isParen (hinside x hx)) hr
  simp only [closeGroups_cons_leftParen hl, closeGroups_of_no_opening hrest, pure_bind, hsplit]

theorem lower_of_flat (h : ∀ x ∈ f, x.isParen = false) : f.lower = f.lowerFlat := by
  have hclose := closeGroups_of_no_opening fun x hx => Item.not_leftParen_of_not_isParen (h x hx)
  simp only [lower, hclose, pure_bind, any_rightParen_of_flat h, Bool.false_eq_true, if_false]

theorem lower_of_closing (h : ∀ x ∈ f, x.hasKind .leftParen = false)
    (hr : ∃ x ∈ f, x.hasKind .rightParen = true) :
    f.lower = Session.reject (.missingParenthesis .left) := by
  have hany : f.any (·.hasKind .rightParen) = true := List.any_eq_true.mpr hr
  simp only [lower, closeGroups_of_no_opening h, pure_bind, hany, if_true]

theorem lower_of_opening (hl : l.hasKind .leftParen = true) {back : Fragment}
    (hback : ∀ x ∈ back, x.isParen = false) :
    (front ++ l :: back).lower = Session.reject (.missingParenthesis .right) := by
  have hclose := closeGroups_of_no_opening fun x hx =>
    Item.not_leftParen_of_not_isParen (hback x hx)
  have hsplit : splitAt? .rightParen back = none :=
    splitAt?_eq_none_iff.mpr fun x hx => Item.not_rightParen_of_not_isParen (hback x hx)
  have hstop : ∀ s, closeGroups (l :: back) s =
      .error (.rejected ⟨s.line, .missingParenthesis .right⟩) s := by
    intro s
    simp [closeGroups_cons_leftParen hl, hclose, hsplit]
  funext s
  exact Lowering.bind_of_error (closeGroups_append_of_error (hstop s) front)

/-- One round of the loop, seen by the lowering. -/
theorem lower_of_group (hl : l.hasKind .leftParen = true) (hr : r.hasKind .rightParen = true)
    (hinside : ∀ x ∈ inside, x.isParen = false)
    (hafter : ∀ x ∈ after, x.hasKind .leftParen = false) :
    (front ++ l :: (inside ++ r :: after)).lower = (do
      let x ← inside.lower
      (front ++ x :: after).lower) := by
  have hgroup := closeGroups_group hl hr hinside hafter
  rw [lower_of_flat hinside]
  funext s
  cases hx : inside.lowerFlat s with
  | error fault s' =>
    have hstop : closeGroups (l :: (inside ++ r :: after)) s = .error fault s' := by
      rw [hgroup, Lowering.bind_of_error hx]
    rw [Lowering.bind_of_error hx]
    exact Lowering.bind_of_error (closeGroups_append_of_error hstop front)
  | ok x s' =>
    have hxp := (lowerFlat_not_isParen hinside s).ok_of_eq hx
    -- the result opens nothing, so closing it and what follows does nothing more
    have hrest : ∀ y ∈ x :: after, y.hasKind .leftParen = false := by
      rintro y (_ | ⟨_, hy⟩)
      · exact Item.not_leftParen_of_not_isParen hxp
      · exact hafter y hy
    have hclosed : closeGroups (l :: (inside ++ r :: after)) s = closeGroups (x :: after) s' := by
      rw [hgroup, Lowering.bind_of_ok hx, closeGroups_of_no_opening hrest]
    rw [Lowering.bind_of_ok hx]
    exact Lowering.bind_run_congr (closeGroups_append_congr hclosed front)

/-- **The loop is the lowering.** The induction is over the length of the fragment, which every
round of the loop makes shorter. -/
theorem reduce_eq_lower (f : Fragment) : f.reduce = f.lower := by
  induction hn : f.length using Nat.strongRecOn generalizing f with
  | ind n ih =>
    rcases target_cases f with hflat | ⟨hopen, hclose⟩ | ⟨front, l, back, rfl, hl, hback⟩ |
      ⟨front, l, inside, r, after, rfl, hl, hr, hinside, hafter⟩
    · rw [reduce_of_target_eq_flat (target_of_flat hflat), lower_of_flat hflat]
    · rw [reduce_of_missing (target_of_closing hopen hclose), lower_of_closing hopen hclose]
    · rw [reduce_of_missing (target_of_opening hl hback), lower_of_opening hl hback]
    · have ht : target (front ++ l :: (inside ++ r :: after)) = .group front inside after :=
        target_of_group hl hr hinside hafter
      have hlen := length_of_target_eq_group ht
      rw [reduce_of_group ht, lower_of_group hl hr hinside hafter,
        ih inside.length (by omega) inside rfl]
      refine bind_congr fun x => ih (front ++ x :: after).length ?_ _ rfl
      simp only [List.length_append, List.length_cons] at hlen hn ⊢
      omega

/-- **The loop refines structural recursion.** On a balanced fragment it has the outcome of the
structural compiler on the forest that the fragment spells, and leaves the same session; on every
fragment it is the lowering. A run that tells its calls ends as the loop does, and makes one call
for each opening if it succeeds. Each call that it makes is on a fragment without parentheses and at
depth one. -/
theorem splice_loop_refines (f : Fragment) :
    (f.Balanced → ∃ t : Forest, t.Spells f ∧ f.reduce = t.compile ∧ f.lower = t.compile) ∧
    f.reduce = f.lower ∧
    (∀ s, (f.reduceCalls 0 s).2 = f.reduce s) ∧
    (∀ s x s', f.reduce s = .ok x s' →
      (f.calls 0 s).length = f.countP (·.hasKind .leftParen)) ∧
    ∀ s, ∀ c ∈ f.calls 0 s, c.depth = 1 ∧ ∀ x ∈ c.fragment, x.isParen = false := by
  refine ⟨fun hb => ?_, reduce_eq_lower f, snd_reduceCalls 0 f, fun s x s' => length_calls f 0,
    of_mem_calls f 0⟩
  obtain ⟨t, ht⟩ := balanced_iff_exists_spells.mp hb
  exact ⟨t, ht, (reduce_eq_lower f).trans ht.lower_eq_compile, ht.lower_eq_compile⟩

/-- The refinement at two groups side by side in a third one, with a temporary between them. Where
the variable is declared, the run succeeds and makes three calls. -/
theorem splice_loop_refines_siblings :
    let f : Fragment := [.token ⟨.leftParen, "("⟩, .token ⟨.leftParen, "("⟩, .token ⟨.operand, "a"⟩,
      .token ⟨.rightParen, ")"⟩, .token ⟨.star, "*"⟩, .temp ⟨7⟩, .token ⟨.minus, "-"⟩,
      .token ⟨.leftParen, "["⟩, .token ⟨.operand, "2"⟩, .token ⟨.rightParen, ")"⟩,
      .token ⟨.rightParen, ")"⟩]
    let s : Session := { scope := ⟨["a"], by decide⟩ }
    f.Balanced ∧ (∃ t : Forest, t.Spells f ∧ f.reduce = t.compile ∧ f.lower = t.compile) ∧
    (∃ s', f.reduce s = .ok (.temp ⟨3⟩) s') ∧ (f.calls 0 s).length = 3 := by
  intro f s
  have hb : f.Balanced := balanced_of_spells (forest?_eq_some_iff.mp rfl)
  obtain ⟨hforest, hlower, -, hcalls, -⟩ := splice_loop_refines f
  obtain ⟨s', hrun⟩ : ∃ s', f.reduce s = .ok (.temp ⟨3⟩) s' := by
    rw [hlower]
    exact ⟨_, rfl⟩
  exact ⟨hb, hforest hb, ⟨s', hrun⟩, hcalls s _ s' hrun⟩

end Loop

end Abacus.Fragment
