import Mathlib.Data.List.Nodup
import Mathlib.Data.List.SplitBy
import Abacus.Proofs.Diagnosis
import Abacus.Proofs.Precedence
import Abacus.Proofs.SpliceLoop

/-!
# What a flat fragment comes to

A fragment without parentheses is swept four times, and every replacement puts a temporary where an
operator and its neighbours stood. How this ends can be told from the fragment as it was at the
start. The operators are met sweep by sweep and from left to right, and the first one that has a
defect there stops the sweeps. If none has a defect, the fragment is cut wherever two operands stand
side by side. A single segment is the result, and of several ones the second is too much. A segment
is held by its only item, or else by the temporary of the operator in it that was met last.

While the sweeps go on, the fragment is a row of blocks: each item stands for a part of the fragment
that it began as, and the parts are in place. The end of a part is as good an operand as the item,
so an operator has the same defect beside its neighbours then and now.

## Main definitions

* `Fragment.operators`: the operators in the order in which they are met
* `Fragment.defect?`: what is wrong with an operator where it stands
* `Fragment.segments`, `Fragment.holder`: the parts between adjacent operands, and what holds them
* `Fragment.Block`, `Fragment.Stage`: items with the parts that they stand for, and how far the
  sweeps have come

## Main results

* `Fragment.Stage.defect?_eq`: an operator has the same defect in the row of blocks
* `Fragment.Stage.splice`: what one replacement does
* `Fragment.eliminate_underway`, `Fragment.sweepAll_underway`: what one sweep does, and all sweeps
* `Fragment.Stage.segments_eq`: at the end the segments are the blocks
* `Fragment.lower_decided_at_start`: how a flat fragment ends
-/

namespace Abacus

open Lowering (Ensures)

/-! ## Operators -/

/-- The operations in the order of their sweeps. -/
def BinOp.passes : List BinOp := [mul, sdiv, sub, add]

/-- An operator of a fragment: its operation, its text and its position. -/
structure Operator where
  op : BinOp
  text : String
  index : Nat
  deriving DecidableEq, Repr

/-- The fault of an item that has no value in the session. -/
def Item.fault? (s : Session) (x : Item) : Option Fault :=
  match x.fetch s with
  | .ok _ _ => none
  | .error fault _ => some fault

/-- The operation of an instruction, with the temporary of its result. -/
def Instr.operation? : Instr → Option (BinOp × Temp)
  | binary op result _ _ => some (op, result)
  | _ => none

/-- The operations of a log, oldest first. -/
def operations (log : List Entry) : List (BinOp × Temp) :=
  log.filterMap (·.instr.operation?)

namespace Fragment

/-- An item and its position. -/
abbrev Place := Item × Nat

/-- The operators of one operation, from left to right. -/
def operatorsOf (op : BinOp) (places : List Place) : List Operator :=
  (places.filter (·.1.hasKind op.sign)).map fun p => ⟨op, p.1.text, p.2⟩

/-- **The operators of a fragment in the order in which they are met**: sweep by sweep, and from
left to right in each. -/
def operators (f : Fragment) : List Operator :=
  BinOp.passes.flatMap (operatorsOf · f.zipIdx)

/-- What is wrong with an operator between two neighbours. One of them is missing or no operand, or
else the left one has no value, or else the right one. -/
def flaw? (s : Session) (operator : String) (left? right? : Option Item) : Option Fault :=
  if left?.any Item.isOperand && right?.any Item.isOperand then
    (left?.bind (·.fault? s)).or (right?.bind (·.fault? s))
  else some (.rejected ⟨s.line, .missingOperand operator⟩)

/-- **What is wrong with an operator of a fragment**, where it stands there. -/
def defect? (s : Session) (f : Fragment) (o : Operator) : Option Fault :=
  flaw? s o.text (f.take o.index).getLast? (f.drop (o.index + 1)).head?

/-- Two places that may stand side by side: at least one holds no operand. -/
def joins (p q : Place) : Bool :=
  !(p.1.isOperand && q.1.isOperand)

/-- **The segments of a fragment**: it is cut wherever two operands stand side by side. -/
def segments (f : Fragment) : List (List Place) :=
  f.zipIdx.splitBy joins

/-- The operators with the temporaries of their results, where `log` was emitted for them. -/
def eliminated (f : Fragment) (log : List Entry) : List (Operator × Temp) :=
  f.operators.zip ((operations log).map (·.2))

/-- **What holds a segment**: its only item, or the temporary of the operator in it that was met
last. -/
def holder (done : List (Operator × Temp)) : List Place → Option Item
  | [p] => some p.1
  | part => ((done.filter fun e => part.any (·.2 = e.1.index)).getLast?).map fun e => .temp e.2

end Fragment

/-! ## Sessions in the middle of the sweeps -/

/-- The session `s'` comes from `s` by these operations, and by loads for them. -/
structure Session.Advances (s : Session) (done : List (BinOp × Temp)) (s' : Session) : Prop where
  line_eq : s'.line = s.line
  names_eq : s'.scope.sourceNames = s.scope.sourceNames
  log_eq : ∃ new, s'.log = s.log ++ new ∧ operations new = done

namespace Session.Advances

variable {s s' : Session} {done : List (BinOp × Temp)}

theorem refl (s : Session) : s.Advances [] s :=
  ⟨rfl, rfl, [], by simp, rfl⟩

theorem define (h : s.Advances done s') (mk : Temp → Instr) :
    s.Advances (done ++ (mk ⟨s'.nextTemp⟩).operation?.toList) (s'.define mk) where
  line_eq := h.line_eq
  names_eq := by simpa using h.names_eq
  log_eq := by
    obtain ⟨new, hlog, hnew⟩ := h.log_eq
    refine ⟨new ++ [⟨s'.line, mk ⟨s'.nextTemp⟩⟩], by simp [hlog], ?_⟩
    simp only [operations, List.filterMap_append] at hnew ⊢
    rw [hnew]
    cases hop : (mk ⟨s'.nextTemp⟩).operation? <;> simp [hop]

/-- What an item lacks, it lacks as well in the middle of the sweeps. -/
theorem fault?_eq (h : s.Advances done s') (x : Item) : x.fault? s' = x.fault? s := by
  unfold Item.fault?
  cases x with
  | temp t => rfl
  | token t =>
    cases hread : Literal.read t.text with
    | error fault => rw [Item.fetch_fault hread, Item.fetch_fault hread]
    | ok n? =>
      cases n? with
      | some n => rw [Item.fetch_literal hread, Item.fetch_literal hread]
      | none =>
        by_cases hv : t.text ∈ s.scope.sourceNames
        · rw [Item.fetch_variable hread hv, Item.fetch_variable hread (h.names_eq ▸ hv)]
        · have hv' : t.text ∉ s'.scope.sourceNames := h.names_eq ▸ hv
          rw [Item.fetch_undefined hread hv, Item.fetch_undefined hread hv', h.line_eq]

/-- Fetching an item performs no operation. -/
theorem fetch (h : s.Advances done s') (x : Item) :
    Ensures s' x.fetch (fun _ s'' => x.fault? s = none ∧ s.Advances done s'')
      fun fault s'' => x.fault? s = some fault ∧ s.Advances done s'' := by
  rw [← h.fault?_eq x]
  cases hf : x.fetch s' with
  | error fault s'' =>
    rw [Item.eq_of_fetch_eq_error hf] at hf
    exact Ensures.of_error hf ⟨by simp [Item.fault?, hf], h⟩
  | ok v s'' =>
    refine Ensures.of_ok hf ⟨by simp [Item.fault?, hf], ?_⟩
    rcases Item.fetch_eq_ok_iff.mp hf with ⟨t, -, -, rfl⟩ | ⟨t, n, -, -, -, rfl⟩ |
      ⟨t, -, -, -, -, rfl⟩
    · exact h
    · exact h
    · simpa [Instr.operation?] using h.define (.load · ⟨t.text⟩)

/-- **One replacement performs one operation, or finds what is wrong.** -/
theorem combine (h : s.Advances done s') (operator : String) (op : BinOp) (left right : Item) :
    Ensures s' (Fragment.combine operator op.mnemonic left right)
      (fun t s'' => Fragment.flaw? s operator left right = none ∧
        s.Advances (done ++ [(op, t)]) s'')
      fun fault s'' => Fragment.flaw? s operator left right = some fault ∧ s.Advances done s'' := by
  by_cases ho : left.isOperand = true ∧ right.isOperand = true
  · have hflaw : Fragment.flaw? s operator left right = (left.fault? s).or (right.fault? s) := by
      simp [Fragment.flaw?, ho.1, ho.2]
    rw [Fragment.combine_of_operands ho.1 ho.2, hflaw]
    -- the left neighbour is fetched first, so what it lacks hides what the right one lacks
    refine ((h.fetch left).mono (fun _ _ hok => hok) fun fault _ hfail => ?_).bind
      fun a s₁ ⟨hleft, h₁⟩ => ?_
    · exact ⟨by simp [hfail.1], hfail.2⟩
    refine ((h₁.fetch right).mono (fun _ _ hok => hok) fun fault _ hfail => ?_).bind
      fun b s₂ ⟨hright, h₂⟩ => ?_
    · exact ⟨by simp [hleft, hfail.1], hfail.2⟩
    · exact Ensures.of_ok (Session.defining_run ..) ⟨by simp [hleft, hright],
        h₂.define (.binary op · a b)⟩
  · refine Ensures.of_error (Fragment.combine_of_not ho) ⟨?_, h⟩
    simp only [Fragment.flaw?, Option.any_some, h.line_eq]
    rw [if_neg (by simpa using ho)]

end Session.Advances

namespace Fragment

/-! ## Blocks -/

section Blocks

variable {s : Session} {a a' b b' : Option Item} {x : Item}

/-- Neighbours that are as good as each other: both are operands or neither is, and they lack the
same value. -/
structure Alike (s : Session) (a b : Option Item) : Prop where
  any_eq : a.any Item.isOperand = b.any Item.isOperand
  bind_eq : a.bind (·.fault? s) = b.bind (·.fault? s)

theorem Alike.refl (a : Option Item) : Alike s a a := ⟨rfl, rfl⟩

theorem Alike.trans {c : Option Item} (h : Alike s a b) (h' : Alike s b c) : Alike s a c :=
  ⟨h.any_eq.trans h'.any_eq, h.bind_eq.trans h'.bind_eq⟩

/-- An operand with a value is as good as any temporary. -/
theorem Alike.temp (hx : x.isOperand = true) (hfault : x.fault? s = none) (t : Temp) :
    Alike s x (Item.temp t) :=
  ⟨by simp [hx], hfault⟩

theorem flaw?_congr (ha : Alike s a a') (hb : Alike s b b') (operator : String) :
    flaw? s operator a b = flaw? s operator a' b' := by
  simp only [flaw?, ha.any_eq, ha.bind_eq, hb.any_eq, hb.bind_eq]

theorem flaw?_eq_none_iff {operator : String} {left right : Item} :
    flaw? s operator left right = none ↔
      (left.isOperand = true ∧ left.fault? s = none) ∧
        right.isOperand = true ∧ right.fault? s = none := by
  cases hl : left.isOperand <;> cases hr : right.isOperand <;> simp [flaw?, hl, hr]

/-- **An item with the part of the fragment that it stands for.** The ends of the part are as good
operands as the item, no two operands are side by side in it, and a sign stands for itself. -/
structure Block (s : Session) where
  place : Place
  span : List Place
  ne_nil : span ≠ []
  alike_head : Alike s (span.head?.map (·.1)) place.1
  alike_last : Alike s (span.getLast?.map (·.1)) place.1
  joined : span.IsChain fun p q => joins p q = true
  eq_of_not_isOperand : place.1.isOperand = false → span = [place]

namespace Block

/-- A place on its own. -/
def single (s : Session) (p : Place) : Block s where
  place := p
  span := [p]
  ne_nil := List.cons_ne_nil _ _
  alike_head := .refl _
  alike_last := .refl _
  joined := .singleton p
  eq_of_not_isOperand _ := rfl

/-- **An operator with its neighbours**, after the temporary `t` has taken their place. -/
def join (l r : Block s) (p : Place) (t : Temp) (hp : p.1.isOperand = false)
    (h : flaw? s p.1.text l.place.1 r.place.1 = none) : Block s where
  place := (.temp t, p.2)
  span := l.span ++ p :: r.span
  ne_nil := by simp
  alike_head := by
    -- the part begins as that of the left neighbour, which has a value as the temporary has
    obtain ⟨⟨hl, hlfault⟩, -⟩ := flaw?_eq_none_iff.mp h
    have hhead : (l.span ++ p :: r.span).head? = l.span.head? :=
      List.head?_append_of_ne_nil _ l.ne_nil
    rw [hhead]
    exact l.alike_head.trans (.temp hl hlfault t)
  alike_last := by
    obtain ⟨-, hr, hrfault⟩ := flaw?_eq_none_iff.mp h
    have hlast : (l.span ++ p :: r.span).getLast? = r.span.getLast? := by
      rw [List.getLast?_append_of_ne_nil _ (by simp), List.getLast?_cons_of_ne_nil r.ne_nil]
    rw [hlast]
    exact r.alike_last.trans (.temp hr hrfault t)
  joined := by
    refine List.isChain_append.mpr ⟨l.joined, List.isChain_cons.mpr ⟨?_, r.joined⟩, ?_⟩
    · intro q _
      simp [joins, hp]
    · intro q _ p' hp'
      obtain rfl : p = p' := by simpa using hp'
      simp [joins, hp]
  eq_of_not_isOperand := nofun

variable {blocks : List (Block s)}

/-- The first item of a row of blocks is as good as the first place of their parts. -/
theorem alike_head_row : Alike s ((blocks.flatMap span).head?.map (·.1))
    (blocks.head?.map (·.place.1)) := by
  rcases blocks with _ | ⟨b, blocks⟩
  · exact .refl none
  · rw [List.flatMap_cons, List.head?_append_of_ne_nil _ b.ne_nil]
    exact b.alike_head

/-- The last item of a row of blocks is as good as the last place of their parts. -/
theorem alike_last_row : Alike s ((blocks.flatMap span).getLast?.map (·.1))
    (blocks.getLast?.map (·.place.1)) := by
  rcases List.eq_nil_or_concat blocks with rfl | ⟨front, b, rfl⟩
  · exact .refl none
  · simp only [List.concat_eq_append, List.flatMap_append, List.flatMap_cons, List.flatMap_nil,
      List.append_nil, List.getLast?_append_of_ne_nil _ b.ne_nil, List.getLast?_concat]
    exact b.alike_last

end Block

end Blocks

/-- What is around a position of a fragment. -/
theorem eq_of_zipIdx {f : Fragment} {front back : List Place} {p : Place}
    (h : f.zipIdx = front ++ p :: back) :
    f.take p.2 = front.map (·.1) ∧ f.drop (p.2 + 1) = back.map (·.1) := by
  have hf : f = front.map (·.1) ++ p.1 :: back.map (·.1) := by
    rw [← List.zipIdx_map_fst 0 f, h]
    simp
  have hindex : p.2 = front.length := by
    have hget : f.zipIdx[front.length]? = some p := by simp [h]
    rw [List.getElem?_zipIdx] at hget
    obtain ⟨x, -, rfl⟩ := Option.map_eq_some_iff.mp hget
    simp
  rw [hindex, hf]
  simp [List.drop_append]

/-! ## Operators and holders -/

section Operators

variable {op : BinOp} {p : Place} {ps : List Place}

@[simp] theorem operatorsOf_append (op : BinOp) (ps qs : List Place) :
    operatorsOf op (ps ++ qs) = operatorsOf op ps ++ operatorsOf op qs := by
  simp [operatorsOf]

theorem operatorsOf_cons_of_hasKind (h : p.1.hasKind op.sign = true) :
    operatorsOf op (p :: ps) = ⟨op, p.1.text, p.2⟩ :: operatorsOf op ps := by
  simp [operatorsOf, h]

theorem operatorsOf_cons_of_not (h : p.1.hasKind op.sign = false) :
    operatorsOf op (p :: ps) = operatorsOf op ps := by
  simp [operatorsOf, h]

theorem operatorsOf_eq_nil {s : Session} {blocks : List (Block s)}
    (h : ∀ b ∈ blocks, b.place.1.hasKind op.sign = false) :
    operatorsOf op (blocks.map Block.place) = [] := by
  simpa [operatorsOf] using h

/-- A sign is that of one operation. -/
theorem not_hasKind_of_ne {op' : BinOp} {x : Item} (h : x.hasKind op.sign = true) (hne : op' ≠ op) :
    x.hasKind op'.sign = false := by
  simp only [Item.hasKind, decide_eq_true_eq, decide_eq_false_iff_not] at h ⊢
  rw [h, Option.some.injEq, BinOp.sign_injective.eq_iff]
  exact hne.symm

/-- An operand is no sign. -/
theorem not_hasKind_of_isOperand {x : Item} (h : x.isOperand = true) (op : BinOp) :
    x.hasKind op.sign = false := by
  cases hx : x.hasKind op.sign with
  | false => rfl
  | true =>
    rw [Item.isOperand_of_hasKind_sign hx] at h
    cases h

end Operators

section Holders

variable {done : List (Operator × Temp)} {o : Operator} {t : Temp} {part : List Place}

/-- An operator elsewhere does not change what holds a part. -/
theorem holder_concat_of_notMem (h : ∀ p ∈ part, p.2 ≠ o.index) :
    holder (done ++ [(o, t)]) part = holder done part := by
  have hany : part.any (·.2 = o.index) = false := by
    simpa using fun x i hx => h (x, i) hx
  unfold holder
  split
  · rfl
  · simp [hany]

/-- An operator within a part holds it. -/
theorem holder_concat_of_mem {left right : List Place} {p : Place} (hl : left ≠ [])
    (hp : p.2 = o.index) :
    holder (done ++ [(o, t)]) (left ++ p :: right) = some (.temp t) := by
  obtain ⟨q, left, rfl⟩ := List.exists_cons_of_ne_nil hl
  unfold holder
  split
  · next heq => simp at heq
  · simp [hp]

end Holders

/-! ## The sweeps -/

/-- **How far the sweeps have come**: `ops` are the operations that are left, `blocks` is the
fragment by now, and `done` are the operators that have been eliminated. -/
structure Stage (s : Session) (f : Fragment) (ops : List BinOp) (blocks : List (Block s))
    (done : List (Operator × Temp)) (s' : Session) : Prop where
  advances : s.Advances (done.map fun e => (e.1.op, e.2)) s'
  operators_eq : f.operators =
    done.map (·.1) ++ ops.flatMap (operatorsOf · (blocks.map Block.place))
  sound : ∀ e ∈ done, f.defect? s e.1 = none
  flat : ∀ b ∈ blocks, b.place.1.isParen = false
  clear : ∀ op ∉ ops, ∀ b ∈ blocks, b.place.1.hasKind op.sign = false
  covers : blocks.flatMap Block.span = f.zipIdx
  held : ∀ b ∈ blocks, holder done b.span = some b.place.1

namespace Stage

variable {s s' s'' : Session} {f : Fragment} {op : BinOp} {ops : List BinOp}
  {front back : List (Block s)} {b l r : Block s} {done : List (Operator × Temp)}

/-- At the start every item stands for itself. -/
theorem start (s : Session) (hf : ∀ x ∈ f, x.isParen = false) :
    Stage s f BinOp.passes (f.zipIdx.map (Block.single s)) [] s where
  advances := .refl s
  operators_eq := by simp [operators, Block.single, Function.comp_def]
  sound := by simp
  flat := by
    intro b hb
    obtain ⟨p, hp, rfl⟩ := List.mem_map.mp hb
    exact hf _ (List.fst_mem_of_mem_zipIdx hp)
  clear := by
    intro op hop
    cases op <;> simp [BinOp.passes] at hop
  covers := by simp [List.flatMap_map, Block.single]
  held := by
    intro b hb
    obtain ⟨p, -, rfl⟩ := List.mem_map.mp hb
    rfl

/-- **An operator has the same defect as at the start**: what its neighbours stand for ends beside
it, in operands that are as good as they are. -/
theorem defect?_eq (h : Stage s f ops (front ++ b :: back) done s')
    (hb : b.place.1.isOperand = false) :
    f.defect? s ⟨op, b.place.1.text, b.place.2⟩ =
      flaw? s b.place.1.text (front.getLast?.map (·.place.1)) (back.head?.map (·.place.1)) := by
  have hcovers : f.zipIdx = front.flatMap Block.span ++ b.place :: back.flatMap Block.span := by
    rw [← h.covers, List.flatMap_append, List.flatMap_cons, b.eq_of_not_isOperand hb,
      List.singleton_append]
  obtain ⟨htake, hdrop⟩ := eq_of_zipIdx hcovers
  rw [defect?, htake, hdrop, List.getLast?_map, List.head?_map]
  exact flaw?_congr Block.alike_last_row Block.alike_head_row _

/-- No position is in two blocks. -/
theorem index_ne (h : Stage s f ops (front ++ b :: back) done s')
    (hb : b.place.1.isOperand = false) : ∀ c ∈ front ++ back, ∀ p ∈ c.span, p.2 ≠ b.place.2 := by
  have hnodup : (f.zipIdx.map (·.2)).Nodup := by
    rw [List.zipIdx_map_snd]
    exact List.nodup_range'
  rw [← h.covers, List.flatMap_append, List.flatMap_cons, b.eq_of_not_isOperand hb,
    List.singleton_append, List.map_append, List.map_cons, List.nodup_middle, List.nodup_cons,
    ← List.map_append, ← List.flatMap_append] at hnodup
  intro c hc p hp heq
  exact hnodup.1 (heq ▸ List.mem_map_of_mem (List.mem_flatMap.mpr ⟨c, hc, hp⟩))

/-- The operator that is met next, and the operators that are left when it is gone. -/
theorem operators_splice (hop : op ∉ ops) (hfront : ∀ c ∈ front, c.place.1.hasKind op.sign = false)
    (hb : b.place.1.hasKind op.sign = true) (hl : l.place.1.isOperand = true)
    (hr : r.place.1.isOperand = true) {j : Block s} (hj : j.place.1.isOperand = true) :
    (op :: ops).flatMap (operatorsOf · ((front ++ l :: b :: r :: back).map Block.place)) =
      ⟨op, b.place.1.text, b.place.2⟩ ::
        (op :: ops).flatMap (operatorsOf · ((front ++ j :: back).map Block.place)) := by
  -- the operators of the other operations are the same, since no neighbour is one
  have hlater : ops.flatMap (operatorsOf · ((front ++ l :: b :: r :: back).map Block.place)) =
      ops.flatMap (operatorsOf · ((front ++ j :: back).map Block.place)) := by
    refine List.flatMap_congr fun op' hop' => ?_
    have hb' : b.place.1.hasKind op'.sign = false :=
      not_hasKind_of_ne hb fun heq => hop (heq ▸ hop')
    simp only [List.map_append, List.map_cons, operatorsOf_append,
      operatorsOf_cons_of_not (not_hasKind_of_isOperand hl op'), operatorsOf_cons_of_not hb',
      operatorsOf_cons_of_not (not_hasKind_of_isOperand hr op'),
      operatorsOf_cons_of_not (not_hasKind_of_isOperand hj op')]
  rw [List.flatMap_cons, List.flatMap_cons, hlater]
  simp only [List.map_append, List.map_cons, operatorsOf_append, operatorsOf_eq_nil hfront,
    operatorsOf_cons_of_not (not_hasKind_of_isOperand hl op), operatorsOf_cons_of_hasKind hb,
    operatorsOf_cons_of_not (not_hasKind_of_isOperand hr op),
    operatorsOf_cons_of_not (not_hasKind_of_isOperand hj op), List.nil_append, List.cons_append]

/-- **One replacement**: the operator that is met next has no defect, and its block takes in those
of its neighbours. -/
theorem splice (h : Stage s f (op :: ops) (front ++ l :: b :: r :: back) done s') (hop : op ∉ ops)
    (hfront : ∀ c ∈ front, c.place.1.hasKind op.sign = false)
    (hb : b.place.1.hasKind op.sign = true)
    (hflaw : flaw? s b.place.1.text l.place.1 r.place.1 = none) {t : Temp}
    (hadvances : s.Advances ((done.map fun e => (e.1.op, e.2)) ++ [(op, t)]) s'') :
    Stage s f (op :: ops)
      (front ++ l.join r b.place t (Item.isOperand_of_hasKind_sign hb) hflaw :: back)
      (done ++ [(⟨op, b.place.1.text, b.place.2⟩, t)]) s'' := by
  have hsign := Item.isOperand_of_hasKind_sign hb
  obtain ⟨⟨hl, -⟩, hr, -⟩ := flaw?_eq_none_iff.mp hflaw
  have hmiddle : Stage s f (op :: ops) ((front ++ [l]) ++ b :: r :: back) done s' := by
    simpa using h
  have helsewhere := hmiddle.index_ne hsign
  have hblocks : ∀ {P : Block s → Prop}, P (l.join r b.place t hsign hflaw) →
      (∀ c ∈ front ++ back, P c) →
      ∀ c ∈ front ++ l.join r b.place t hsign hflaw :: back, P c := by
    intro P hnew hold c hc
    rcases List.mem_append.mp hc with hc | hc
    · exact hold c (List.mem_append_left _ hc)
    · rcases List.mem_cons.mp hc with rfl | hc
      · exact hnew
      · exact hold c (List.mem_append_right _ hc)
  have hold : ∀ c ∈ front ++ back, c ∈ front ++ l :: b :: r :: back := by
    intro c hc
    rcases List.mem_append.mp hc with hc | hc <;> simp [hc]
  constructor
  case advances => simpa using hadvances
  case operators_eq =>
    rw [h.operators_eq, operators_splice hop hfront hb hl hr
      (j := l.join r b.place t hsign hflaw) rfl]
    simp
  case sound =>
    intro e he
    rcases List.mem_append.mp he with he | he
    · exact h.sound e he
    · rw [List.mem_singleton.mp he, hmiddle.defect?_eq hsign]
      simpa using hflaw
  case flat => exact hblocks rfl fun c hc => h.flat c (hold c hc)
  case clear =>
    intro op' hop'
    exact hblocks (Item.hasKind_temp _ _) fun c hc => h.clear op' hop' c (hold c hc)
  case covers =>
    rw [← h.covers]
    simp [Block.join, b.eq_of_not_isOperand hsign]
  case held =>
    refine hblocks (holder_concat_of_mem l.ne_nil rfl) fun c hc => ?_
    have hc' : c ∈ (front ++ [l]) ++ r :: back := by
      rcases List.mem_append.mp hc with hc | hc <;> simp [hc]
    rw [holder_concat_of_notMem (helsewhere c hc')]
    exact h.held c (hold c hc)

/-- A sweep leaves nothing of its operation. -/
theorem next {blocks : List (Block s)} (h : Stage s f (op :: ops) blocks done s')
    (hclear : ∀ b ∈ blocks, b.place.1.hasKind op.sign = false) : Stage s f ops blocks done s' where
  advances := h.advances
  operators_eq := by
    rw [h.operators_eq, List.flatMap_cons, operatorsOf_eq_nil hclear, List.nil_append]
  sound := h.sound
  flat := h.flat
  clear := by
    intro op' hop' b hb
    by_cases heq : op' = op
    · rw [heq]
      exact hclear b hb
    · exact h.clear op' (by simp [heq, hop']) b hb
  covers := h.covers
  held := h.held

/-- **At the end the segments are the blocks**: only operands are left, and the blocks are what they
stand for. -/
theorem segments_eq {blocks : List (Block s)} (h : Stage s f [] blocks done s') :
    f.segments = blocks.map Block.span := by
  have hoperand : ∀ b ∈ blocks, b.place.1.isOperand = true := fun b hb =>
    Item.isOperand_of_forall_not (fun op => h.clear op (by simp) b hb) (h.flat b hb)
  rw [segments, ← h.covers, List.flatMap_def]
  refine List.splitBy_flatten ?_ ?_ ?_
  · intro hmem
    obtain ⟨b, -, hb⟩ := List.mem_map.mp hmem
    exact b.ne_nil hb
  · intro span hmem
    obtain ⟨b, -, rfl⟩ := List.mem_map.mp hmem
    exact b.joined
  · -- a block ends with an operand, and the next one begins with one
    refine (List.isChain_map _).mpr (List.Pairwise.isChain ?_)
    refine List.pairwise_of_forall_mem_list fun b hb c hc => ⟨b.ne_nil, c.ne_nil, ?_⟩
    have hlast := b.alike_last.any_eq
    have hhead := c.alike_head.any_eq
    rw [List.getLast?_eq_some_getLast b.ne_nil] at hlast
    rw [List.head?_eq_some_head c.ne_nil] at hhead
    simp_all [joins]

end Stage

/-- The sweeps have come to the fragment `g`, and these operations are left. -/
def Underway (s : Session) (f : Fragment) (ops : List BinOp) (g : Fragment) (s' : Session) : Prop :=
  ∃ blocks done, blocks.map (·.place.1) = g ∧ Stage s f ops blocks done s'

/-- The sweeps have stopped at the first operator that has a defect. -/
def Stopped (s : Session) (f : Fragment) (fault : Fault) (s' : Session) : Prop :=
  ∃ (done : List (Operator × Temp)) (o : Operator) (later : List Operator),
    f.operators = done.map (·.1) ++ o :: later ∧ (∀ e ∈ done, f.defect? s e.1 = none) ∧
      f.defect? s o = some fault ∧ s.Advances (done.map fun e => (e.1.op, e.2)) s'

section Sweeps

variable {s s' s'' : Session} {f : Fragment} {op : BinOp} {ops : List BinOp}

/-- Where the operator that is met next has a defect, the sweeps stop. -/
theorem Stage.stopped {front back : List (Block s)} {b : Block s} {done : List (Operator × Temp)}
    {fault : Fault} (h : Stage s f (op :: ops) (front ++ b :: back) done s')
    (hfront : ∀ c ∈ front, c.place.1.hasKind op.sign = false)
    (hb : b.place.1.hasKind op.sign = true)
    (hflaw : flaw? s b.place.1.text (front.getLast?.map (·.place.1)) (back.head?.map (·.place.1)) =
      some fault)
    (hadvances : s.Advances (done.map fun e => (e.1.op, e.2)) s'') : Stopped s f fault s'' := by
  refine ⟨done, ⟨op, b.place.1.text, b.place.2⟩, operatorsOf op (back.map Block.place) ++
    ops.flatMap (operatorsOf · ((front ++ b :: back).map Block.place)), ?_, h.sound, ?_, hadvances⟩
  · rw [h.operators_eq, List.flatMap_cons, List.map_append, List.map_cons, operatorsOf_append,
      operatorsOf_eq_nil hfront, operatorsOf_cons_of_hasKind hb]
    simp
  · rw [h.defect?_eq (Item.isOperand_of_hasKind_sign hb), hflaw]

/-- **What holds before and after each replacement.** -/
theorem sweepInvariant_underway (s : Session) (f : Fragment) (hop : op ∉ ops) :
    SweepInvariant op.sign op (Underway s f (op :: ops)) (Stopped s f) where
  edge {g g' x s'} hg hx hedge := by
    rintro ⟨blocks, done, hblocks, h⟩
    obtain ⟨front, rest, rfl, rfl, hrest⟩ := List.map_eq_append_iff.mp hblocks
    obtain ⟨b, back, rfl, rfl, rfl⟩ := List.map_eq_cons_iff.mp hrest
    have hfront : ∀ c ∈ front, c.place.1.hasKind op.sign = false := fun c hc =>
      hg _ (List.mem_map_of_mem hc)
    rw [h.advances.line_eq]
    refine h.stopped hfront hx ?_ h.advances
    rcases hedge with hnil | hnil <;> simp [flaw?, List.map_eq_nil_iff.mp hnil]
  step {g g' left x right s'} hg hl hx := by
    rintro ⟨blocks, done, hblocks, h⟩
    obtain ⟨front, rest, rfl, rfl, hrest⟩ := List.map_eq_append_iff.mp hblocks
    obtain ⟨l, rest₁, rfl, rfl, hrest₁⟩ := List.map_eq_cons_iff.mp hrest
    obtain ⟨b, rest₂, rfl, rfl, hrest₂⟩ := List.map_eq_cons_iff.mp hrest₁
    obtain ⟨r, back, rfl, rfl, rfl⟩ := List.map_eq_cons_iff.mp hrest₂
    have hfront : ∀ c ∈ front, c.place.1.hasKind op.sign = false := fun c hc =>
      hg _ (List.mem_map_of_mem hc)
    refine (h.advances.combine b.place.1.text op l.place.1 r.place.1).mono ?_ ?_
    · rintro t s'' ⟨hflaw, hadvances⟩
      exact ⟨_, _, by simp [Block.join], h.splice hop hfront hx hflaw hadvances⟩
    · rintro fault s'' ⟨hflaw, hadvances⟩
      have hmiddle : Stage s f (op :: ops) ((front ++ [l]) ++ b :: r :: back) done s' := by
        simpa using h
      refine hmiddle.stopped ?_ hx (by simpa using hflaw) hadvances
      intro c hc
      rcases List.mem_append.mp hc with hc | hc
      · exact hfront c hc
      · rwa [List.mem_singleton.mp hc]

/-- **One sweep** eliminates all operators of its operation, or stops. -/
theorem eliminate_underway (hop : op ∉ ops) {g : Fragment} (h : Underway s f (op :: ops) g s') :
    Ensures s' (g.eliminate op.sign op) (Underway s f ops) (Stopped s f) := by
  refine (sweepInvariant_underway s f hop).eliminate h |>.mono ?_ fun _ _ hstopped => hstopped
  rintro g' s'' ⟨⟨blocks, done, rfl, hstage⟩, hclear⟩
  exact ⟨blocks, done, rfl, hstage.next fun b hb => hclear _ (List.mem_map_of_mem hb)⟩

/-- The sweeps of all operations. -/
def sweepAll (f : Fragment) : Lowering Fragment := do
  let f ← f.eliminate .star .mul
  let f ← f.eliminate .slash .sdiv
  let f ← f.eliminate .minus .sub
  f.eliminate .plus .add

theorem lowerFlat_eq_sweepAll (f : Fragment) : f.lowerFlat = f.sweepAll >>= single := by
  simp only [lowerFlat, sweepAll, bind_assoc]

/-- **All sweeps** eliminate all operators, or stop. -/
theorem sweepAll_underway (s : Session) (hf : ∀ x ∈ f, x.isParen = false) :
    Ensures s f.sweepAll (Underway s f []) (Stopped s f) := by
  have hstart : Underway s f BinOp.passes f s := by
    refine ⟨_, _, ?_, Stage.start s hf⟩
    rw [List.map_map]
    exact List.zipIdx_map_fst 0 f
  refine (eliminate_underway (by decide) hstart).bind fun f₁ s₁ h₁ => ?_
  refine (eliminate_underway (by decide) h₁).bind fun f₂ s₂ h₂ => ?_
  refine (eliminate_underway (by decide) h₂).bind fun f₃ s₃ h₃ => ?_
  exact eliminate_underway (by decide) h₃

theorem Stopped.findSome? {fault : Fault} (h : Stopped s f fault s') :
    f.operators.findSome? (f.defect? s) = some fault := by
  obtain ⟨done, o, later, hops, hsound, ho, -⟩ := h
  refine List.findSome?_eq_some_iff.mpr ⟨_, o, later, hops, ho, fun p hp => ?_⟩
  obtain ⟨e, he, rfl⟩ := List.mem_map.mp hp
  exact hsound e he

/-- What was done before the sweeps stopped. -/
theorem Stopped.exists_log {fault : Fault} (h : Stopped s f fault s') :
    ∃ new, s'.log = s.log ++ new ∧ (operations new).map (·.1) =
      (f.operators.takeWhile fun o => (f.defect? s o).isNone).map (·.op) := by
  obtain ⟨done, o, later, hops, hsound, ho, hadvances⟩ := h
  obtain ⟨new, hlog, hnew⟩ := hadvances.log_eq
  refine ⟨new, hlog, ?_⟩
  have hgood : ∀ p ∈ done.map (·.1), (f.defect? s p).isNone = true := by
    intro p hp
    obtain ⟨e, he, rfl⟩ := List.mem_map.mp hp
    rw [hsound e he]
    rfl
  rw [hops, List.takeWhile_append_of_pos hgood, List.takeWhile_cons_of_neg (by simp [ho]), hnew]
  simp

theorem Stage.findSome? {blocks : List (Block s)} {done : List (Operator × Temp)}
    (h : Stage s f [] blocks done s') : f.operators.findSome? (f.defect? s) = none := by
  rw [List.findSome?_eq_none_iff, h.operators_eq]
  intro o ho
  obtain ⟨e, he, rfl⟩ : ∃ e ∈ done, e.1 = o := by simpa using ho
  exact h.sound e he

/-- What was done when nothing is left to do. -/
theorem Stage.exists_log {blocks : List (Block s)} {done : List (Operator × Temp)}
    (h : Stage s f [] blocks done s') :
    ∃ new, s'.log = s.log ++ new ∧ (operations new).map (·.1) = f.operators.map (·.op) ∧
      f.eliminated new = done := by
  have hops : f.operators = done.map (·.1) := by simpa using h.operators_eq
  obtain ⟨new, hlog, hnew⟩ := h.advances.log_eq
  refine ⟨new, hlog, ?_, ?_⟩
  · rw [hops, hnew, List.map_map, List.map_map]
    rfl
  · rw [eliminated, hops, hnew, List.map_map, List.zip_map']
    exact List.map_id done

end Sweeps

/-- **How a flat fragment ends is decided where it begins.** If an operator has a defect there, the
first one that does, in the order in which they are met, is reported, and those before it have been
eliminated. If none has, all of them are eliminated. An empty fragment then lacks an operand, the
holder of a single segment is the result, and of several segments the holder of the second is
reported. -/
theorem lower_decided_at_start (f : Fragment) (s : Session) (hf : ∀ x ∈ f, x.isParen = false) :
    ∃ s' new, s'.log = s.log ++ new ∧
      (∀ fault, f.operators.findSome? (f.defect? s) = some fault →
        f.lower s = .error fault s' ∧ (operations new).map (·.1) =
          (f.operators.takeWhile fun o => (f.defect? s o).isNone).map (·.op)) ∧
      (f.operators.findSome? (f.defect? s) = none →
        (operations new).map (·.1) = f.operators.map (·.op) ∧
        (f = [] → f.lower s = .error (.rejected ⟨s.line, .missingOperand none⟩) s') ∧
        (∀ part, f.segments = [part] →
          ∃ x, holder (f.eliminated new) part = some x ∧ f.lower s = .ok x s') ∧
        ∀ first second rest, f.segments = first :: second :: rest →
          ∃ x, holder (f.eliminated new) second = some x ∧
            f.lower s = .error (.rejected ⟨s.line, .missingOperator x⟩) s') := by
  rw [lower_of_flat hf, lowerFlat_eq_sweepAll]
  have hsweeps := sweepAll_underway s hf
  cases hrun : f.sweepAll s with
  | error fault s' =>
    have hstopped := hsweeps.fail_of_eq hrun
    obtain ⟨new, hlog, hops⟩ := hstopped.exists_log
    rw [hstopped.findSome?, Lowering.bind_of_error hrun]
    refine ⟨s', new, hlog, ?_, nofun⟩
    intro fault' heq
    cases heq
    exact ⟨rfl, hops⟩
  | ok g s' =>
    obtain ⟨blocks, done, rfl, hstage⟩ := hsweeps.ok_of_eq hrun
    obtain ⟨new, hlog, hops, hdone⟩ := hstage.exists_log
    rw [hstage.findSome?, Lowering.bind_of_ok hrun, ← hstage.advances.line_eq]
    refine ⟨s', new, hlog, nofun, fun _ => ⟨hops, ?_, ?_, ?_⟩⟩
    · intro hnil
      have hblocks : blocks.map Block.span = [] := by
        rw [← hstage.segments_eq, hnil]
        rfl
      rw [List.map_eq_nil_iff.mp hblocks]
      rfl
    · intro part hpart
      rw [hstage.segments_eq] at hpart
      obtain ⟨b, rfl, rfl⟩ := List.map_eq_singleton_iff.mp hpart
      rw [hdone]
      exact ⟨_, hstage.held b (by simp), rfl⟩
    · intro first second rest hsegments
      rw [hstage.segments_eq] at hsegments
      obtain ⟨a, blocks₁, rfl, -, hrest⟩ := List.map_eq_cons_iff.mp hsegments
      obtain ⟨b, blocks₂, rfl, rfl, -⟩ := List.map_eq_cons_iff.mp hrest
      rw [hdone]
      exact ⟨_, hstage.held b (by simp), rfl⟩

/-- Of two undefined variables the one beside the product is reported, although it stands last. Of
three segments the second is reported by the sum in it, which was computed after the product. -/
theorem lower_decided_at_start_segments :
    let n : String → Item := fun text => .token ⟨.operand, text⟩
    let c : Char → Item := fun sign => .token (.ofSign sign)
    let f : Fragment := [n "u", c '+', n "1", c '*', n "v"]
    let g : Fragment := [n "1", c '-', n "2", n "3", c '+', n "4", c '*', n "5", n "6"]
    let second : List Place := [(n "3", 3), (c '+', 4), (n "4", 5), (c '*', 6), (n "5", 7)]
    ((∀ x ∈ f, x.isParen = false) ∧
      ∃ s, f.lower {} = .error (.rejected ⟨0, .undefinedVariable "v"⟩) s) ∧
    (∀ x ∈ g, x.isParen = false) ∧ g.segments = [[(n "1", 0), (c '-', 1), (n "2", 2)], second,
      [(n "6", 8)]] ∧
    (∃ s, g.lower {} = .error (.rejected ⟨0, .missingOperator (.temp ⟨3⟩)⟩) s) ∧
    ∃ s new x, s.log = new ∧ holder (g.eliminated new) second = some x ∧
      g.lower {} = .error (.rejected ⟨0, .missingOperator x⟩) s := by
  intro n c f g second
  have hf : ∀ x ∈ f, x.isParen = false := by decide
  have hg : ∀ x ∈ g, x.isParen = false := by decide
  have hsegments : g.segments = [[(n "1", 0), (c '-', 1), (n "2", 2)], second, [(n "6", 8)]] := by
    decide +kernel
  obtain ⟨s, _, _, hdefect, -⟩ := lower_decided_at_start f {} hf
  obtain ⟨s', new, hlog, -, hnone⟩ := lower_decided_at_start g {} hg
  obtain ⟨-, -, -, hsecond⟩ := hnone (by decide +kernel)
  obtain ⟨x, hx, hrun⟩ := hsecond _ _ _ hsegments
  refine ⟨⟨hf, s, (hdefect _ (by decide +kernel)).1⟩, hg, hsegments, ⟨_, rfl⟩, s', new, x, ?_, hx,
    hrun⟩
  simpa using hlog

end Fragment

end Abacus
