import Abacus.Fragment
import Abacus.Literal
import Abacus.Session

/-!
# Lowering expressions

Parentheses are closed from the rightmost one on. What is left has no parenthesis and is swept
four times, once for each operator, from the tightest to the loosest: products, quotients,
differences, sums. A sweep replaces every operator and its two neighbours by the temporary that
holds the result, from left to right.

## Main definitions

* `Item.fetch`: the value of an item, loaded if it is a variable
* `Fragment.checkOperand`: an operator's neighbour must be an operand
* `Fragment.sweep`, `Fragment.eliminate`: one sweep, with and without telling how far it got
* `Fragment.lowerFlat`: the four sweeps of a fragment without parentheses
* `Fragment.closeGroups`: the parenthesised parts, lowered
* `Fragment.lower`: a whole expression

## Main results

* `Fragment.sweepFrom_cons_of_not`, `Fragment.sweepFrom_cons_of_neighbours`,
  `Fragment.sweepFrom_front`, `Fragment.sweepFrom_last`: one equation per branch of a sweep
-/

namespace Abacus

open Session

/-- **The value of an item.** A temporary is its own value, a literal is a constant, and a declared
variable is loaded into a new temporary. Only the text of a token counts, not its kind. -/
def Item.fetch : Item → Lowering Value
  | .temp t => return .temp t
  | .token t => do
    match Literal.read t.text with
    | .error fault => throw fault
    | .ok (some n) => return .const n
    | .ok none =>
      if t.text ∈ (← get).scope ∧ !Scope.isTemporary t.text then
        let result ← freshTemp
        emit (.load result ⟨t.text⟩)
        return .temp result
      else reject (.undefinedVariable t.text)

namespace Fragment

/-- The neighbour of an operator must be there and be an operand. -/
def checkOperand (operator? : Option String) (neighbour? : Option Item) : Lowering Unit :=
  if neighbour?.any Item.isOperand then return else reject (.missingOperand operator?)

/-- Combine the two neighbours of an operator: both are checked, then both are fetched, then the
result is computed into a new temporary. An unknown mnemonic fails after all that. -/
def combine (operator mnemonic : String) (left right : Item) : Lowering Temp := do
  checkOperand operator left
  checkOperand operator right
  let a ← left.fetch
  let b ← right.fetch
  let result ← freshTemp
  match BinOp.ofMnemonic? mnemonic with
  | none => throw .illFormed
  | some op => emit (.binary op result a b)
  return result

/-- The end of a sweep: the fragment as far as it was swept, and the fault that stopped it. -/
structure Swept where
  fragment : Fragment
  fault? : Option Fault
  deriving DecidableEq, Repr

/-- Sweep the items of `rest` from left to right; `before` holds those already passed, the last one
first, and no token of kind `k`. -/
def sweepFrom (k : Kind) (mnemonic : String) :
    (before rest : List Item) → Session → Swept × Session
  | before, [], s => (⟨before.reverse, none⟩, s)
  | before, x :: rest, s =>
    if x.hasKind k then
      match before, rest with
      | left :: before', right :: rest' =>
        match combine x.text mnemonic left right s with
        | .ok t s' => sweepFrom k mnemonic (.temp t :: before') rest' s'
        | .error fault s' => (⟨before.reverse ++ x :: rest, some fault⟩, s')
      | _, _ =>
        (⟨before.reverse ++ x :: rest, some (.rejected ⟨s.line, .missingOperand x.text⟩)⟩, s)
    else sweepFrom k mnemonic (x :: before) rest s

section Sweep

variable {k : Kind} {mnemonic : String} {before rest : List Item} {x : Item}

@[simp] theorem sweepFrom_nil (s : Session) :
    sweepFrom k mnemonic before [] s = (⟨before.reverse, none⟩, s) := by
  rw [sweepFrom]

/-- An item of another kind is passed. -/
theorem sweepFrom_cons_of_not (hx : x.hasKind k = false) (s : Session) :
    sweepFrom k mnemonic before (x :: rest) s = sweepFrom k mnemonic (x :: before) rest s := by
  cases before <;> cases rest <;> simp [sweepFrom, hx]

/-- A token of the kind with a neighbour on each side is combined with them. -/
theorem sweepFrom_cons_of_neighbours (hx : x.hasKind k = true) (left right : Item) (s : Session) :
    sweepFrom k mnemonic (left :: before) (x :: right :: rest) s =
      match combine x.text mnemonic left right s with
      | .ok t s' => sweepFrom k mnemonic (.temp t :: before) rest s'
      | .error fault s' =>
        (⟨(left :: before).reverse ++ x :: right :: rest, some fault⟩, s') := by
  simp [sweepFrom, hx]

/-- A token of the kind in front lacks its left neighbour. -/
theorem sweepFrom_front (hx : x.hasKind k = true) (s : Session) :
    sweepFrom k mnemonic [] (x :: rest) s =
      (⟨x :: rest, some (.rejected ⟨s.line, .missingOperand x.text⟩)⟩, s) := by
  cases rest <;> simp [sweepFrom, hx]

/-- A token of the kind at the end lacks its right neighbour. -/
theorem sweepFrom_last (hx : x.hasKind k = true) (s : Session) :
    sweepFrom k mnemonic before [x] s =
      (⟨before.reverse ++ [x], some (.rejected ⟨s.line, .missingOperand x.text⟩)⟩, s) := by
  cases before <;> simp [sweepFrom, hx]

end Sweep

/-- **One sweep**: every token of kind `k` and its two neighbours become the temporary that holds
the result of the operation named by `mnemonic`, the leftmost token first. -/
def sweep (f : Fragment) (k : Kind) (mnemonic : String) (s : Session) : Swept × Session :=
  sweepFrom k mnemonic [] f s

/-- A sweep as a step: the swept fragment, or the fault that stopped it. -/
def eliminate (f : Fragment) (k : Kind) (op : BinOp) : Lowering Fragment := fun s =>
  match f.sweep k op.mnemonic s with
  | (⟨f', none⟩, s') => .ok f' s'
  | (⟨_, some fault⟩, s') => .error fault s'

/-- What is left of a fragment after all sweeps must be one item. -/
def single : Fragment → Lowering Item
  | [] => reject (.missingOperand none)
  | [x] => return x
  | _ :: y :: _ => reject (.missingOperator y)

/-- Lower a fragment without parentheses to one item: `*` binds tightest, then `/`, then `-`, then
`+`. -/
def lowerFlat (f : Fragment) : Lowering Item := do
  let f ← f.eliminate .star .mul
  let f ← f.eliminate .slash .sdiv
  let f ← f.eliminate .minus .sub
  let f ← f.eliminate .plus .add
  f.single

/-- **Close the parenthesised parts, the rightmost opening first.** When an opening is met, all
openings to its right are closed, so its partner is the first closing on its right. -/
def closeGroups : Fragment → Lowering Fragment
  | [] => return []
  | x :: rest => do
    let rest ← closeGroups rest
    if x.hasKind .leftParen then
      match splitAt? .rightParen rest with
      | none => reject (.missingParenthesis .right)
      | some (inside, after) => return (← lowerFlat inside) :: after
    else return x :: rest

/-- **Lower an expression to one item**, which is not yet fetched. A closing without an opening is
found when all openings are closed. -/
def lower (f : Fragment) : Lowering Item := do
  let f ← closeGroups f
  if f.any (·.hasKind .rightParen) then reject (.missingParenthesis .left)
  else lowerFlat f

end Fragment

end Abacus
