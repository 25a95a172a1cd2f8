import Abacus.Proofs.Elimination

/-!
# The instructions of an operation

Which instructions an operation comes to depends on its operands and on the number of the next
temporary, and on nothing else of the session. A variable is loaded right before its operation, the
left operand before the right one. Operations in a row are nested to the left: the result of one is
the left operand of the next.

## Main definitions

* `Session.emitted`: a session after instructions that define a temporary each
* `Item.loading`, `Item.valueAt`: the load that an item needs, and the value that it has then
* `Fragment.operation`, `Fragment.nested`: the instructions of one operation, and of operations
  nested to the left

## Main results

* `Item.eq_of_fetch_eq_ok`, `Item.fetch_of_resolves`: what a fetch emits
* `Fragment.combine_of_usable`, `Fragment.exists_loads_of_combine`: how one combination ends
* `Fragment.nested_of_ne_nil`, `Fragment.operations_nested`: the result of nested operations, and
  how many they are
-/

namespace Abacus

/-! ## Numbered instructions -/

theorem operations_map_entry (line : Int) (code : List Instr) :
    operations (code.map (⟨line, ·⟩)) = code.filterMap Instr.operation? := by
  rw [operations, List.filterMap_map]
  rfl

namespace Session

/-- **The session after `code`**, where each instruction defines the next temporary. -/
def emitted (s : Session) (code : List Instr) : Session :=
  { s with
    nextTemp := s.nextTemp + code.length
    scope := (code.filterMap (·.result?)).foldl (fun scope t => scope.insert t.name) s.scope
    log := s.log ++ code.map (⟨s.line, ·⟩)
    trace := s.trace ++ code.map (.emission s.line) }

section Emitted

variable (s : Session) (code code' : List Instr)

@[simp] theorem emitted_nil : s.emitted [] = s := by
  simp [emitted]

theorem emitted_append : s.emitted (code ++ code') = (s.emitted code).emitted code' := by
  simp [emitted, Int.add_assoc]

@[simp] theorem line_emitted : (s.emitted code).line = s.line := rfl

@[simp] theorem nextTemp_emitted : (s.emitted code).nextTemp = s.nextTemp + code.length := rfl

@[simp] theorem log_emitted : (s.emitted code).log = s.log ++ code.map (⟨s.line, ·⟩) := rfl

/-- Instructions declare no source variable. -/
@[simp] theorem sourceNames_emitted :
    (s.emitted code).scope.sourceNames = s.scope.sourceNames := by
  show ((code.filterMap (·.result?)).foldl (fun scope t => scope.insert t.name)
    s.scope).sourceNames = _
  generalize code.filterMap (·.result?) = temps
  generalize s.scope = scope
  induction temps generalizing scope with
  | nil => rfl
  | cons t temps ih => rw [List.foldl_cons, ih, Scope.sourceNames_insert_name]

theorem define_eq_emitted {s : Session} {mk : Temp → Instr}
    (h : (mk ⟨s.nextTemp⟩).result? = some ⟨s.nextTemp⟩) :
    s.define mk = s.emitted [mk ⟨s.nextTemp⟩] := by
  simp [define, emitted, h]

theorem advances_emitted : s.Advances (operations (code.map (⟨s.line, ·⟩))) (s.emitted code) :=
  ⟨rfl, sourceNames_emitted s code, _, log_emitted s code, rfl⟩

end Emitted

end Session

/-- No instruction, or one load, which is numbered `n`. -/
def MayLoad (n : Int) (code : List Instr) : Prop :=
  code = [] ∨ ∃ slot, code = [.load ⟨n⟩ slot]

theorem MayLoad.operations_eq {n : Int} {code : List Instr} (h : MayLoad n code) :
    code.filterMap Instr.operation? = [] := by
  rcases h with rfl | ⟨slot, rfl⟩ <;> rfl

namespace Item

/-- The load that an item needs, numbered `n`. A variable is loaded, a literal and a temporary are
not. -/
def loading (n : Int) : Item → List Instr
  | temp _ => []
  | token t =>
    match Literal.read t.text with
    | .ok none => [.load ⟨n⟩ ⟨t.text⟩]
    | _ => []

/-- The value of an item whose load is numbered `n`, if it needs one. -/
def valueAt (n : Int) : Item → Value
  | temp t => .temp t
  | token t =>
    match Literal.read t.text with
    | .ok (some m) => .const m
    | _ => .temp ⟨n⟩

theorem mayLoad_loading (n : Int) (x : Item) : MayLoad n (x.loading n) := by
  unfold MayLoad
  cases x with
  | temp t => exact Or.inl rfl
  | token t =>
    cases hread : Literal.read t.text with
    | error fault => simp [loading, hread]
    | ok n? => cases n? <;> simp [loading, hread]

variable {x : Item} {s s' : Session}

/-- What a fetch that succeeds gives, and what it emits. -/
theorem eq_of_fetch_eq_ok {v : Value} (h : x.fetch s = .ok v s') :
    v = x.valueAt s.nextTemp ∧ s' = s.emitted (x.loading s.nextTemp) := by
  rcases fetch_eq_ok_iff.mp h with ⟨t, rfl, rfl, rfl⟩ | ⟨t, n, rfl, hread, rfl, rfl⟩ |
    ⟨t, rfl, hread, -, rfl, rfl⟩
  · simp [valueAt, loading]
  · simp [valueAt, loading, hread]
  · simp only [valueAt, loading, hread, true_and]
    exact Session.define_eq_emitted rfl

theorem fetch_of_resolves (h : x.Resolves s.scope.sourceNames) :
    x.fetch s = .ok (x.valueAt s.nextTemp) (s.emitted (x.loading s.nextTemp)) := by
  obtain ⟨v, s', hfetch⟩ := exists_fetch_iff.mpr h
  obtain ⟨rfl, rfl⟩ := eq_of_fetch_eq_ok hfetch
  exact hfetch

/-- The items without a fault are those that have a value. -/
theorem fault?_eq_none_iff : x.fault? s = none ↔ x.Resolves s.scope.sourceNames := by
  rw [← exists_fetch_iff, fault?]
  cases x.fetch s <;> simp

end Item

namespace Fragment

/-- **One operation**, with temporaries numbered from `n` on. Its operands are loaded right before
it, the left one first. -/
def operation (op : BinOp) (n : Int) (left right : Item) : List Instr :=
  let m := n + (left.loading n).length
  let r := m + (right.loading m).length
  left.loading n ++ right.loading m ++ [.binary op ⟨r⟩ (left.valueAt n) (right.valueAt m)]

/-- **Operations nested to the left**, with temporaries numbered from `n` on: their instructions,
and the item that holds the result. -/
def nested (op : BinOp) : (n : Int) → (x : Item) → (operands : List Item) → List Instr × Item
  | _, x, [] => ([], x)
  | n, x, y :: operands =>
    let code := operation op n x y
    let later := nested op (n + code.length) (.temp ⟨n + code.length - 1⟩) operands
    (code ++ later.1, later.2)

section Operations

variable {op : BinOp} {operator : String} {left right : Item} {s s' : Session}

/-- **Two operands with values are combined by one operation**, and its temporary is the last
one. -/
theorem combine_of_usable (hl : left.Usable s.scope.sourceNames)
    (hr : right.Usable s.scope.sourceNames) :
    combine operator op.mnemonic left right s =
      .ok ⟨s.nextTemp + (operation op s.nextTemp left right).length - 1⟩
        (s.emitted (operation op s.nextTemp left right)) := by
  have hleft := Item.fetch_of_resolves hl.2
  have hright := Item.fetch_of_resolves (s := s.emitted (left.loading s.nextTemp)) (x := right)
    (by simpa using hr.2)
  refine combine_eq_ok_iff.mpr ⟨hl.1, hr.1, _, _, _, _, hleft, hright, ?_, ?_⟩
  · simp only [operation, List.length_append, List.length_singleton, Session.nextTemp_emitted,
      Temp.mk.injEq]
    omega
  · rw [Session.define_eq_emitted rfl, ← Session.emitted_append, ← Session.emitted_append]
    simp [operation, Int.add_assoc]

/-- A combination that fails has emitted the load of its left neighbour at most. -/
theorem exists_loads_of_combine {fault : Fault}
    (h : combine operator op.mnemonic left right s = .error fault s') :
    ∃ loads, s' = s.emitted loads ∧ MayLoad s.nextTemp loads := by
  by_cases ho : left.isOperand = true ∧ right.isOperand = true
  · rw [combine_of_operands ho.1 ho.2] at h
    cases hleft : left.fetch s with
    | error fault₁ s₁ =>
      rw [Lowering.bind_of_error hleft] at h
      cases h
      exact ⟨[], by simp [Item.eq_of_fetch_eq_error hleft], Or.inl rfl⟩
    | ok a s₁ =>
      rw [Lowering.bind_of_ok hleft] at h
      obtain ⟨-, rfl⟩ := Item.eq_of_fetch_eq_ok hleft
      cases hright : right.fetch (s.emitted (left.loading s.nextTemp)) with
      | error fault₂ s₂ =>
        rw [Lowering.bind_of_error hright] at h
        cases h
        exact ⟨_, Item.eq_of_fetch_eq_error hright, Item.mayLoad_loading ..⟩
      | ok b s₂ =>
        rw [Lowering.bind_of_ok hright, Session.defining_run] at h
        cases h
  · rw [combine_of_not ho] at h
    cases h
    exact ⟨[], by simp, Or.inl rfl⟩

/-- An operator without a flaw stands between two operands that have values. -/
theorem exists_of_flaw?_eq_none {operator : String} {left? right? : Option Item}
    (h : flaw? s operator left? right? = none) :
    ∃ left right, left? = some left ∧ right? = some right ∧
      left.Usable s.scope.sourceNames ∧ right.Usable s.scope.sourceNames := by
  rcases left? with _ | left
  · simp [flaw?] at h
  · rcases right? with _ | right
    · simp [flaw?] at h
    · obtain ⟨⟨hl, hl'⟩, hr, hr'⟩ := flaw?_eq_none_iff.mp h
      exact ⟨left, right, rfl, rfl, ⟨hl, Item.fault?_eq_none_iff.mp hl'⟩, hr,
        Item.fault?_eq_none_iff.mp hr'⟩

/-- Instructions do not change what is wrong with an operator. -/
theorem flaw?_emitted (s : Session) (code : List Instr) (operator : String)
    (left? right? : Option Item) :
    flaw? (s.emitted code) operator left? right? = flaw? s operator left? right? := by
  simp only [flaw?, (s.advances_emitted code).fault?_eq, Session.line_emitted]

/-- The result of nested operations is the temporary of the last one. -/
theorem nested_of_ne_nil (op : BinOp) (n : Int) (x : Item) {operands : List Item}
    (h : operands ≠ []) :
    0 < (nested op n x operands).1.length ∧
      (nested op n x operands).2 = .temp ⟨n + (nested op n x operands).1.length - 1⟩ := by
  induction operands generalizing n x with
  | nil => exact absurd rfl h
  | cons y operands ih =>
    have hpos : 0 < (operation op n x y).length := List.length_pos_of_ne_nil (by simp [operation])
    simp only [nested, List.length_append]
    refine ⟨by omega, ?_⟩
    rcases eq_or_ne operands [] with rfl | hne
    · simp [nested]
    · rw [(ih _ _ hne).2, Int.natCast_add, Int.add_assoc]

/-- One operation for each operand but the first. -/
theorem operations_nested (op : BinOp) (n : Int) (x : Item) (operands : List Item) :
    ((nested op n x operands).1.filterMap Instr.operation?).map (·.1) =
      List.replicate operands.length op := by
  have hloading : ∀ m (y : Item), (y.loading m).filterMap Instr.operation? = [] := fun m y =>
    (y.mayLoad_loading m).operations_eq
  induction operands generalizing n x with
  | nil => rfl
  | cons y operands ih =>
    simp [nested, operation, hloading, Instr.operation?, ih, List.replicate_succ]

end Operations

end Fragment

end Abacus
