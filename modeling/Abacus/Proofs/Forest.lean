import Abacus.Proofs.Sweep

/-!
# Fragments as forests

A fragment whose parentheses match is a forest: a row of items and groups, each group a forest of
its own. The structural compiler goes through the forest level by level. It compiles the groups of
a level from the rightmost to the leftmost, puts the result of each in its place, and sweeps the
flat level that is left.

## Main definitions

* `Forest`, `Forest.Spells`: forests, and the fragments that spell them
* `Fragment.Balanced`: no prefix closes more than it opens, and the whole closes what it opens
* `Fragment.forest?`: the forest that a fragment spells
* `Forest.level`, `Forest.compile`: the structural compiler

## Main results

* `Fragment.forest?_eq_some_iff`: reading a forest is the inverse of spelling one
* `Fragment.balanced_iff_exists_spells`: the balanced fragments are those that spell a forest
* `Forest.Spells.lower_eq_compile`: lowering in place is the structural compiler
-/

namespace Abacus

/-- A row of items and groups. -/
inductive Forest where
  /-- The empty row. -/
  | nil
  /-- A row that begins with an item. -/
  | leaf (x : Item) (rest : Forest)
  /-- A row that begins with a group. -/
  | group (inside rest : Forest)
  deriving DecidableEq, Repr

namespace Forest

/-- One row after another. -/
def append : Forest → Forest → Forest
  | nil, u => u
  | leaf x rest, u => leaf x (rest.append u)
  | group inside rest, u => group inside (rest.append u)

instance : Append Forest := ⟨append⟩

@[simp] theorem nil_append (t : Forest) : nil ++ t = t := rfl

@[simp] theorem leaf_append (x : Item) (t u : Forest) : leaf x t ++ u = leaf x (t ++ u) := rfl

@[simp] theorem group_append (i t u : Forest) : group i t ++ u = group i (t ++ u) := rfl

@[simp] theorem append_nil (t : Forest) : t ++ nil = t := by
  induction t with
  | nil => rfl
  | leaf x rest ih => rw [leaf_append, ih]
  | group inside rest _ ih => rw [group_append, ih]

theorem append_assoc (t u v : Forest) : t ++ u ++ v = t ++ (u ++ v) := by
  induction t with
  | nil => rfl
  | leaf x rest ih => simp only [leaf_append, ih]
  | group inside rest _ ih => simp only [group_append, ih]

/-- The fragments that spell a forest: a group stands between a pair of parentheses, whatever their
texts. -/
inductive Spells : Forest → Fragment → Prop where
  | nil : Spells nil []
  | leaf {x : Item} {t : Forest} {f : Fragment} (hx : x.isParen = false) (h : Spells t f) :
    Spells (leaf x t) (x :: f)
  | group {l r : Item} {t u : Forest} {f g : Fragment} (hl : l.hasKind .leftParen = true)
    (hr : r.hasKind .rightParen = true) (h : Spells t f) (h' : Spells u g) :
    Spells (group t u) (l :: f ++ r :: g)

theorem Spells.append {t u : Forest} {f g : Fragment} (ht : t.Spells f) (hu : u.Spells g) :
    (t ++ u).Spells (f ++ g) := by
  induction ht with
  | nil => exact hu
  | leaf hx _ ih => exact .leaf hx ih
  | group hl hr h _ _ ih =>
    simp only [group_append, List.cons_append, List.append_assoc]
    exact .group hl hr h ih

end Forest

/-! ## Parentheses of items -/

namespace Item

theorem isParen_eq (x : Item) :
    x.isParen = (x.hasKind .leftParen || x.hasKind .rightParen) := by
  cases x with
  | temp t => simp
  | token t =>
    obtain ⟨kind, text⟩ := t
    cases kind <;> rfl

theorem not_rightParen_of_leftParen {x : Item} (h : x.hasKind .leftParen = true) :
    x.hasKind .rightParen = false := by
  simp_all [hasKind]

theorem not_leftParen_of_rightParen {x : Item} (h : x.hasKind .rightParen = true) :
    x.hasKind .leftParen = false := by
  simp_all [hasKind]

theorem not_leftParen_of_not_isParen {x : Item} (h : x.isParen = false) :
    x.hasKind .leftParen = false := by
  simp_all [isParen_eq]

theorem not_rightParen_of_not_isParen {x : Item} (h : x.isParen = false) :
    x.hasKind .rightParen = false := by
  simp_all [isParen_eq]

theorem isOperand_of_isParen (x : Item) (h : x.isParen = true) : x.isOperand = false := by
  cases x with
  | temp t => simp at h
  | token t => simp_all [isOperand, isParen, kind?]

theorem not_isParen_of_isOperand {x : Item} (h : x.isOperand = true) : x.isParen = false := by
  cases hp : x.isParen with
  | false => rfl
  | true =>
    rw [isOperand_of_isParen x hp] at h
    cases h

end Item

/-! ## Reading a forest

The fragment is read from its end. The rows that are still open stand on a stack, the innermost on
top: a closing parenthesis opens a new row, and the opening one makes a group of it. -/

namespace Fragment

/-- Put one more item in front of the rows on the stack. -/
def readItem (x : Item) : List Forest → Option (List Forest)
  | [] => none
  | t :: ts =>
    if x.hasKind .rightParen then some (.nil :: t :: ts)
    else if x.hasKind .leftParen then
      match ts with
      | [] => none
      | u :: us => some (.group t u :: us)
    else some (.leaf x t :: ts)

/-- The rows that are open in front of a fragment. -/
def readRows : Fragment → Option (List Forest)
  | [] => some [.nil]
  | x :: f => (readRows f).bind (readItem x)

/-- **The forest that a fragment spells**, if its parentheses match. -/
def forest? (f : Fragment) : Option Forest :=
  match readRows f with
  | some [t] => some t
  | _ => none

section Read

variable {x : Item} {t u : Forest} {ts : List Forest} {f g : Fragment}

theorem readItem_rightParen (h : x.hasKind .rightParen = true) :
    readItem x (t :: ts) = some (.nil :: t :: ts) := by
  simp [readItem, h]

theorem readItem_leftParen (h : x.hasKind .leftParen = true) :
    readItem x (t :: u :: ts) = some (.group t u :: ts) := by
  simp [readItem, h, Item.not_rightParen_of_leftParen h]

theorem readItem_leaf (h : x.isParen = false) :
    readItem x (t :: ts) = some (.leaf x t :: ts) := by
  simp [readItem, Item.not_rightParen_of_not_isParen h, Item.not_leftParen_of_not_isParen h]

/-- What spells a forest is read in front of the innermost row. -/
theorem readRows_append (h : t.Spells f) (hg : readRows g = some (u :: ts)) :
    readRows (f ++ g) = some ((t ++ u) :: ts) := by
  induction h generalizing g u ts with
  | nil => exact hg
  | leaf hx _ ih => simp [readRows, ih hg, readItem_leaf hx]
  | group hl hr _ _ ih ih' =>
    rename_i l r t u' f₁ f₂ _ _
    have hclose : readRows (r :: (f₂ ++ g)) = some (.nil :: (u' ++ u) :: ts) := by
      simp [readRows, ih' hg, readItem_rightParen hr]
    have hinside := ih hclose
    simp [readRows, hinside, readItem_leftParen hl]

/-- The fragments that leave the rows `ts` open: the row on top comes first, and a closing
parenthesis stands before each row below. -/
inductive SpellsRows : List Forest → Fragment → Prop where
  | last {t : Forest} {f : Fragment} (h : t.Spells f) : SpellsRows [t] f
  | cons {t : Forest} {ts : List Forest} {f g : Fragment} {r : Item} (h : t.Spells f)
    (hr : r.hasKind .rightParen = true) (h' : SpellsRows ts g) : SpellsRows (t :: ts) (f ++ r :: g)

theorem SpellsRows.readItem {us : List Forest} (h : SpellsRows ts f)
    (hx : Fragment.readItem x ts = some us) : SpellsRows us (x :: f) := by
  by_cases hr : x.hasKind .rightParen = true
  · cases ts with
    | nil => simp [Fragment.readItem] at hx
    | cons t ts =>
      rw [readItem_rightParen hr] at hx
      cases hx
      exact .cons .nil hr h
  · by_cases hl : x.hasKind .leftParen = true
    · cases h with
      | last h => simp [Fragment.readItem, hr, hl] at hx
      | cons ht hr' h' =>
        cases h' with
        | last hu =>
          rw [readItem_leftParen hl] at hx
          cases hx
          exact .last (.group hl hr' ht hu)
        | cons hu hr'' h'' =>
          rw [readItem_leftParen hl] at hx
          cases hx
          have hgroup := Forest.Spells.group hl hr' ht hu
          simpa using SpellsRows.cons hgroup hr'' h''
    · have hp : x.isParen = false := by simp [Item.isParen_eq, hr, hl]
      cases h with
      | last h =>
        rw [readItem_leaf hp] at hx
        cases hx
        exact .last (.leaf hp h)
      | cons ht hr' h' =>
        rw [readItem_leaf hp] at hx
        cases hx
        exact .cons (.leaf hp ht) hr' h'

theorem spellsRows_of_readRows (h : readRows f = some ts) : SpellsRows ts f := by
  induction f generalizing ts with
  | nil =>
    cases h
    exact .last .nil
  | cons x f ih =>
    obtain ⟨us, hus, hx⟩ := Option.bind_eq_some_iff.mp h
    exact (ih hus).readItem hx

/-- **Reading is the inverse of spelling.** -/
theorem forest?_eq_some_iff : f.forest? = some t ↔ t.Spells f := by
  constructor
  · intro h
    unfold forest? at h
    split at h
    · next t' hrows =>
      cases h
      cases spellsRows_of_readRows hrows with
      | last h => exact h
      | cons _ _ h' => cases h'
    · cases h
  · intro h
    have hrows : readRows (f ++ []) = some [t ++ .nil] := readRows_append h rfl
    simp only [List.append_nil, Forest.append_nil] at hrows
    simp [forest?, hrows]

end Read

end Fragment

/-- A fragment spells at most one forest. -/
theorem Forest.Spells.unique {t u : Forest} {f : Fragment} (ht : t.Spells f) (hu : u.Spells f) :
    t = u :=
  Option.some.inj ((Fragment.forest?_eq_some_iff.mpr ht).symm.trans
    (Fragment.forest?_eq_some_iff.mpr hu))

/-! ## Balanced fragments -/

namespace Fragment

/-- The number of opening parentheses. -/
def openings (f : Fragment) : Nat :=
  f.countP (·.hasKind .leftParen)

/-- The number of closing parentheses. -/
def closings (f : Fragment) : Nat :=
  f.countP (·.hasKind .rightParen)

/-- **The parentheses match**: no prefix closes more than it opens, and the whole closes what it
opens. -/
structure Balanced (f : Fragment) : Prop where
  closings_le : ∀ n, closings (f.take n) ≤ openings (f.take n)
  closings_eq : closings f = openings f

section Counts

variable {x : Item} {f g : Fragment}

@[simp] theorem openings_nil : openings [] = 0 := rfl

@[simp] theorem closings_nil : closings [] = 0 := rfl

@[simp] theorem openings_append : openings (f ++ g) = openings f + openings g :=
  List.countP_append

@[simp] theorem closings_append : closings (f ++ g) = closings f + closings g :=
  List.countP_append

theorem openings_cons :
    openings (x :: f) = openings f + if x.hasKind .leftParen = true then 1 else 0 :=
  List.countP_cons

theorem closings_cons :
    closings (x :: f) = closings f + if x.hasKind .rightParen = true then 1 else 0 :=
  List.countP_cons

end Counts

/-- Where no suffix opens more than it closes, one row more is open than there are closing
parentheses without partner. -/
theorem exists_readRows {f : Fragment} (h : ∀ n, openings (f.drop n) ≤ closings (f.drop n)) :
    ∃ ts, readRows f = some ts ∧ ts.length + openings f = closings f + 1 := by
  induction f with
  | nil => exact ⟨[.nil], rfl, rfl⟩
  | cons x f ih =>
    obtain ⟨ts, hts, hlen⟩ := ih fun n => by simpa using h (n + 1)
    -- the counts of this suffix and the next one say how deep the stack is
    have hx := h 0
    have hf := h 1
    simp only [List.drop_zero, List.drop_succ_cons, openings_cons, closings_cons] at hx hf
    by_cases hr : x.hasKind .rightParen = true
    · have hl := Item.not_leftParen_of_rightParen hr
      match ts with
      | [] => simp at hlen; omega
      | t :: ts =>
        refine ⟨.nil :: t :: ts, by simp [readRows, hts, readItem_rightParen hr], ?_⟩
        simp [openings_cons, closings_cons, hr, hl] at hlen ⊢
        omega
    · by_cases hl : x.hasKind .leftParen = true
      · simp only [hr, hl, if_true] at hx
        match ts with
        | [] => simp at hlen; omega
        | [t] => simp at hlen hx; omega
        | t :: u :: ts =>
          refine ⟨.group t u :: ts, by simp [readRows, hts, readItem_leftParen hl], ?_⟩
          simp [openings_cons, closings_cons, hr, hl] at hlen ⊢
          omega
      · have hp : x.isParen = false := by simp [Item.isParen_eq, hr, hl]
        match ts with
        | [] => simp at hlen; omega
        | t :: ts =>
          refine ⟨.leaf x t :: ts, by simp [readRows, hts, readItem_leaf hp], ?_⟩
          simpa [openings_cons, closings_cons, hr, hl] using hlen

theorem balanced_of_spells {t : Forest} {f : Fragment} (h : t.Spells f) : f.Balanced := by
  induction h with
  | nil => exact ⟨fun n => by simp, rfl⟩
  | @leaf x t f hx _ ih =>
    have hl := Item.not_leftParen_of_not_isParen hx
    have hr := Item.not_rightParen_of_not_isParen hx
    refine ⟨fun n => ?_, by simpa [openings_cons, closings_cons, hl, hr] using ih.closings_eq⟩
    cases n with
    | zero => simp
    | succ n => simpa [openings_cons, closings_cons, hl, hr] using ih.closings_le n
  | @group l r t u f g hl hr _ _ ih ih' =>
    have hl' := Item.not_rightParen_of_leftParen hl
    have hr' := Item.not_leftParen_of_rightParen hr
    have hf := ih.closings_eq
    have hg := ih'.closings_eq
    refine ⟨fun n => ?_, by simp [openings_cons, closings_cons, *]; omega⟩
    cases n with
    | zero => simp
    | succ n =>
      have hn := ih.closings_le n
      simp only [List.cons_append, List.take_succ_cons, List.take_append]
      cases hm : n - f.length with
      | zero =>
        simp [openings_cons, closings_cons, hl, hl']
        omega
      | succ m =>
        have hm' := ih'.closings_le m
        simp [openings_cons, closings_cons, hl, hl', hr, hr']
        omega

/-- **The balanced fragments are those that spell a forest.** -/
theorem balanced_iff_exists_spells {f : Fragment} : f.Balanced ↔ ∃ t : Forest, t.Spells f := by
  constructor
  · intro hb
    have hsuffix : ∀ n, openings (f.drop n) ≤ closings (f.drop n) := by
      intro n
      have hle := hb.closings_le n
      have heq := hb.closings_eq
      rw [← List.take_append_drop n f, openings_append, closings_append] at heq
      omega
    obtain ⟨ts, hts, hlen⟩ := exists_readRows hsuffix
    have hone : ts.length = 1 := by
      have heq := hb.closings_eq
      omega
    obtain ⟨t, rfl⟩ := List.length_eq_one_iff.mp hone
    exact ⟨t, forest?_eq_some_iff.mp (by simp [forest?, hts])⟩
  · rintro ⟨t, ht⟩
    exact balanced_of_spells ht

/-! ## The structural compiler -/

open Lowering (Ensures)

/-- An item that opens no group stays in front of what is closed on its right. -/
theorem closeGroups_cons_of_not {x : Item} (hx : x.hasKind .leftParen = false) (f : Fragment) :
    closeGroups (x :: f) = (do
      let rest ← closeGroups f
      return x :: rest) := by
  simp [closeGroups, hx]

/-- An opening is closed by the first closing that is left on its right. -/
theorem closeGroups_cons_leftParen {x : Item} (hx : x.hasKind .leftParen = true) (f : Fragment) :
    closeGroups (x :: f) = (do
      let rest ← closeGroups f
      match splitAt? .rightParen rest with
      | none => Session.reject (.missingParenthesis .right)
      | some (inside, after) =>
        let y ← lowerFlat inside
        return y :: after) := by
  rw [closeGroups]
  exact bind_congr fun rest => if_pos hx

/-- A split is around the first token of its kind. -/
theorem eq_append_of_splitAt? {k : Kind} {f inside after : Fragment}
    (h : splitAt? k f = some (inside, after)) :
    ∃ x : Item, x.hasKind k = true ∧ f = inside ++ x :: after ∧
      ∀ y ∈ inside, y.hasKind k = false := by
  induction f generalizing inside with
  | nil => simp [splitAt?] at h
  | cons x f ih =>
    by_cases hx : x.hasKind k = true
    · simp only [splitAt?, hx, if_true, Option.some.injEq, Prod.mk.injEq] at h
      obtain ⟨rfl, rfl⟩ := h
      exact ⟨x, hx, rfl, by simp⟩
    · simp only [splitAt?, hx, Bool.false_eq_true, if_false, Option.map_eq_some_iff] at h
      obtain ⟨⟨front, back⟩, hsplit, heq⟩ := h
      cases heq
      obtain ⟨y, hy, rfl, hfront⟩ := ih hsplit
      exact ⟨y, hy, rfl, by simpa [hx] using hfront⟩

/-- The four sweeps of a fragment without parentheses end at an operand. -/
theorem lowerFlat_isOperand {f : Fragment} (hf : ∀ x ∈ f, x.isParen = false) (s : Session) :
    Ensures s f.lowerFlat (fun x _ => x.isOperand = true) fun _ _ => True := by
  have inv : ∀ op : BinOp, SweepInvariant op.sign op (fun _ _ => True) fun _ _ => True := fun op =>
    { edge := fun _ _ _ _ => trivial
      step := fun {f g left x right s} _ _ _ _ => by
        cases hc : combine x.text op.mnemonic left right s with
        | ok t s' => exact Ensures.of_ok hc trivial
        | error fault s' => exact Ensures.of_error hc trivial }
  refine SweepInvariant.lowerFlat
    (fun op => (inv op).and_forall (P := fun x => x.isParen = false) fun _ => rfl) ⟨trivial, hf⟩
    (fun _ _ => trivial) (fun _ _ _ _ _ _ => trivial) fun x s' hx hsign =>
      Item.isOperand_of_forall_not hsign (hx.2 x (by simp))

/-- The four sweeps bring no parenthesis into a fragment that has none. -/
theorem lowerFlat_not_isParen {f : Fragment} (hf : ∀ x ∈ f, x.isParen = false) (s : Session) :
    Ensures s f.lowerFlat (fun x _ => x.isParen = false) fun _ _ => True := by
  exact (lowerFlat_isOperand hf s).mono (fun _ _ hx => Item.not_isParen_of_isOperand hx)
    fun _ _ h => h

theorem any_rightParen_of_flat {f : Fragment} (hf : ∀ x ∈ f, x.isParen = false) :
    f.any (·.hasKind .rightParen) = false :=
  List.any_eq_false.mpr fun x hx => by simp [Item.not_rightParen_of_not_isParen (hf x hx)]

end Fragment

namespace Forest

open Lowering (Ensures)

/-- **One level of a forest, with its groups compiled.** The rest of the row comes first, so the
groups are compiled from right to left. -/
def level : Forest → Lowering Fragment
  | nil => return []
  | leaf x rest => do
    let back ← rest.level
    return x :: back
  | group inside rest => do
    let back ← rest.level
    let x ← (← inside.level).lowerFlat
    return x :: back

/-- **The structural compiler**: sweep the flat level that is left of a forest. -/
def compile (t : Forest) : Lowering Item := do
  (← t.level).lowerFlat

/-- A level holds no parenthesis. -/
theorem Spells.level_not_isParen {t : Forest} {f : Fragment} (h : t.Spells f) (s : Session) :
    Ensures s t.level (fun f _ => ∀ x ∈ f, x.isParen = false) fun _ _ => True := by
  induction h generalizing s with
  | nil => exact Ensures.of_ok rfl (by simp)
  | leaf hx _ ih =>
    refine (ih s).bind fun back s₁ hback => Ensures.of_ok rfl ?_
    simpa [hx] using hback
  | group _ _ _ _ ih ih' =>
    refine (ih' s).bind fun back s₁ hback => (ih s₁).bind fun front s₂ hfront => ?_
    refine (Fragment.lowerFlat_not_isParen hfront s₂).bind fun x s₃ hx => Ensures.of_ok rfl ?_
    simpa [hx] using hback

/-- **Closing the groups of a fragment compiles the levels of its forest**, after everything on its
right is closed. -/
theorem Spells.closeGroups_append {t : Forest} {f : Fragment} (h : t.Spells f) (g : Fragment) :
    Fragment.closeGroups (f ++ g) = (do
      let back ← Fragment.closeGroups g
      let front ← t.level
      return front ++ back) := by
  induction h generalizing g with
  | nil => simp [level]
  | leaf hx _ ih =>
    have hl := Item.not_leftParen_of_not_isParen hx
    simp [Fragment.closeGroups_cons_of_not hl, ih, level]
  | @group l r t u f f' hl hr h _ ih ih' =>
    have hl' := Item.not_leftParen_of_rightParen hr
    simp only [List.cons_append, List.append_assoc, Fragment.closeGroups_cons_leftParen hl, ih,
      Fragment.closeGroups_cons_of_not hl', ih', level, bind_assoc, pure_bind]
    refine bind_congr fun back => bind_congr fun rest => funext fun s => ?_
    refine (h.level_not_isParen s).bind_congr fun front s₁ hfront => ?_
    have hsplit := Fragment.splitAt?_append (g := rest ++ back)
      (fun x hx => Item.not_rightParen_of_not_isParen (hfront x hx)) hr
    simp only [hsplit]

/-- **Lowering in place is the structural compiler.** -/
theorem Spells.lower_eq_compile {t : Forest} {f : Fragment} (h : t.Spells f) :
    f.lower = t.compile := by
  have hclose : Fragment.closeGroups f = t.level := by
    simpa [Fragment.closeGroups] using h.closeGroups_append []
  funext s
  unfold Fragment.lower compile
  rw [hclose]
  refine (h.level_not_isParen s).bind_congr fun level s₁ hlevel => ?_
  simp [Fragment.any_rightParen_of_flat hlevel]

end Forest

end Abacus
