import Abacus.Instr
import Abacus.Token

/-!
# Fragments

An expression is lowered in place: a fragment is a list of items, each a token still to be
lowered or the temporary that holds what was lowered there.

## Main definitions

* `Item`, `Fragment`: items and lists of them
* `Item.isOperand`: the items that may stand beside an operator
* `Fragment.Search`, `Fragment.searchFrom`: the search for an item from any position
* `Fragment.lastIndex`: where the last item of a sort stands
* `Fragment.splitAt?`: what stands before and after the first token of a kind

## Main results

* `Fragment.splitAt?_eq_none_iff`, `Fragment.splitAt?_append`: when there is a split, and which
-/

namespace Abacus

/-- A token, or the temporary that stands for a lowered part. -/
inductive Item where
  | token (t : Token)
  | temp (t : Temp)
  deriving DecidableEq, Repr

namespace Item

/-- The kind of an item that is a token. -/
def kind? : Item → Option Kind
  | token t => some t.kind
  | temp _ => none

/-- An item as a message shows it. -/
def text : Item → String
  | token t => t.text
  | temp t => t.name

/-- Whether an item is a token of kind `k`. -/
def hasKind (k : Kind) (x : Item) : Bool :=
  x.kind? = some k

/-- Whether an item is a parenthesis. -/
def isParen (x : Item) : Bool :=
  x.kind?.any Kind.isParen

/-- Whether an item may stand beside an operator: everything but operators and parentheses. -/
def isOperand (x : Item) : Bool :=
  !x.kind?.any fun k => k.isOperator || k.isParen

@[simp] theorem hasKind_temp (k : Kind) (t : Temp) : (temp t).hasKind k = false := by
  simp [hasKind, kind?]

@[simp] theorem isParen_temp (t : Temp) : (temp t).isParen = false := rfl

@[simp] theorem isOperand_temp (t : Temp) : (temp t).isOperand = true := rfl

end Item

/-- A list of items. -/
abbrev Fragment := List Item

namespace Fragment

/-- The tokens of an expression as a fragment. -/
def ofTokens (ts : List Token) : Fragment :=
  ts.map .token

/-- The item at an integer position; a negative one counts from the end. -/
def at? (f : Fragment) (i : Int) : Option Item :=
  if 0 ≤ i then f[i.toNat]? else if i.natAbs ≤ f.length then f[f.length - i.natAbs]? else none

/-- How a search ends. -/
inductive Search where
  | found (position : Int)
  | absent
  /-- The search would begin at a position before all items. -/
  | outOfRange (start : Int)
  deriving DecidableEq, Repr

/-- **The first position of an item that `p` holds of**, in a search that begins at `start` and goes
on to the end. A search that begins at a negative position passes the end and goes on from the
front. -/
def searchFrom (f : Fragment) (p : Item → Bool) (start : Int) : Search :=
  if start < -f.length then .outOfRange start
  else
    let positions := (List.range (f.length - start).toNat).map (start + Int.ofNat ·)
    match positions.find? fun i => (f.at? i).any p with
    | some position => .found position
    | none => .absent

/-- The line that reports a search from a position out of range; positions are numbers of 64
bits. -/
def outOfRangeMessage (start : Int) : String :=
  if start < -9223372036854775808 then "cannot fit 'int' into an index-sized integer"
  else "list index out of range"

/-- The greatest position of an item that `p` holds of. -/
def lastIndex (f : Fragment) (p : Item → Bool) : Option Nat :=
  (f.reverse.findIdx? p).map (f.length - 1 - ·)

/-- The item at a position counted from the front; there is none at a negative one. -/
def item? (f : Fragment) (index : Int) : Option Item :=
  if index < 0 then none else f[index.toNat]?

/-- The parts before and after the first token of kind `k`. -/
def splitAt? (k : Kind) : Fragment → Option (Fragment × Fragment)
  | [] => none
  | x :: f =>
    if x.hasKind k then some ([], f) else (splitAt? k f).map fun (front, back) => (x :: front, back)

/-- There is no split exactly when there is no token of the kind. -/
theorem splitAt?_eq_none_iff {k : Kind} {f : Fragment} :
    splitAt? k f = none ↔ ∀ x ∈ f, x.hasKind k = false := by
  induction f with
  | nil => simp [splitAt?]
  | cons x f ih => cases hx : x.hasKind k <;> simp [splitAt?, hx, ih]

/-- A split takes the fragment apart at the first token of the kind. -/
theorem splitAt?_append {k : Kind} {f g : Fragment} {x : Item}
    (hf : ∀ y ∈ f, y.hasKind k = false) (hx : x.hasKind k = true) :
    splitAt? k (f ++ x :: g) = some (f, g) := by
  induction f with
  | nil => simp [splitAt?, hx]
  | cons y f ih =>
    have hy := hf y (by simp)
    simp [splitAt?, hy, ih fun z hz => hf z (by simp [hz])]

end Fragment

end Abacus
