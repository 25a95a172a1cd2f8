import Mathlib.Data.Int.CharZero
import Abacus.Proofs.Acceptance
import Abacus.Proofs.Increment
import Abacus.Proofs.SingleAssignment

/-!
# Ledgers

Nothing is lost and nothing is doubled when an expression is lowered. A ledger says what the tokens
and the temporaries of a fragment are worth and what the instructions cost, such that every step
pays for the instructions it emits with the items it takes away. What the fragment is worth and what
the log has cost are then the same in sum before and after each step, and so over a whole line. Each
number that is kept this way is one ledger: the operations of a sort, the loads of a variable, the
uses of a temporary.

## Main definitions

* `Ledger`: worths and costs in balance
* `Ledger.operations`, `Ledger.loads`, `Ledger.stores`, `Ledger.prints`, `Ledger.uses`: what is
  counted
* `Line.expression`: the tokens of a line's expression
* `Accounted`: lines and instructions of the same numbers

## Main results

* `Ledger.lowerFlat_balance`, `Ledger.closeGroups_balance`, `Ledger.value_balance`: the sweeps, the
  groups and whole expressions keep the sum
* `Ledger.total_of_compileLine`: what a line costs
* `compile_accounts`: the instructions of a source are accounted for, and each value is used once
-/

namespace Abacus

open Lowering (Ensures)

/-- What a value is worth, for temporaries of given worths. -/
def Value.worth (worths : Temp → Int) : Value → Int
  | .const _ => 0
  | .temp t => worths t

/-- **A ledger**: what tokens and temporaries are worth and what instructions cost. A load takes an
operand and leaves its result, an operation takes a sign and two values and leaves its result.
Stores and prints take a value and are charged to the line. -/
structure Ledger where
  token : Token → Int
  temp : Temp → Int
  cost : Instr → Int
  stored : Slot → Int
  printed : Int
  paren : ∀ t, t.kind.isParen = true → token t = 0
  literal : ∀ t n, (Item.token t).isOperand = true → Literal.read t.text = .ok (some n) →
    token t = 0
  load : ∀ t r, (Item.token t).isOperand = true → Literal.read t.text = .ok none →
    token t = cost (.load r ⟨t.text⟩) + temp r
  binary : ∀ (op : BinOp) t r a b, t.kind = op.sign →
    token t + a.worth temp + b.worth temp = cost (.binary op r a b) + temp r
  alloca : ∀ slot, cost (.alloca slot) = 0
  store : ∀ v slot, cost (.store v slot) = v.worth temp + stored slot
  print : ∀ r v, cost (.print r v) = v.worth temp + printed

namespace Ledger

variable (L : Ledger)

/-- What an item is worth. -/
def worth : Item → Int
  | .token t => L.token t
  | .temp t => L.temp t

/-- What a fragment is worth. -/
def stock (f : Fragment) : Int :=
  (f.map L.worth).sum

/-- What instructions cost. -/
def total (code : List Instr) : Int :=
  (code.map L.cost).sum

@[simp] theorem worth_token (t : Token) : L.worth (.token t) = L.token t := rfl

@[simp] theorem worth_temp (t : Temp) : L.worth (.temp t) = L.temp t := rfl

@[simp] theorem stock_nil : L.stock [] = 0 := rfl

@[simp] theorem stock_cons (x : Item) (f : Fragment) :
    L.stock (x :: f) = L.worth x + L.stock f := by
  simp [stock]

@[simp] theorem stock_append (f g : Fragment) : L.stock (f ++ g) = L.stock f + L.stock g := by
  simp [stock]

@[simp] theorem total_append (code code' : List Instr) :
    L.total (code ++ code') = L.total code + L.total code' := by
  simp [total]

@[simp] theorem total_singleton (instr : Instr) : L.total [instr] = L.cost instr := by
  simp [total]

theorem worth_of_isParen {x : Item} (h : x.isParen = true) : L.worth x = 0 := by
  cases x with
  | token t => exact L.paren t h
  | temp t => simp at h

/-! ## Expressions -/

section Balance

variable {s : Session}

theorem fetch_balance {x : Item} (hx : x.isOperand = true) :
    Ensures s x.fetch
      (fun v s' => L.total s'.code + v.worth L.temp = L.total s.code + L.worth x)
      fun _ _ => True := by
  cases hf : x.fetch s with
  | error fault s' => exact Ensures.of_error hf trivial
  | ok v s' =>
    refine Ensures.of_ok hf ?_
    rcases Item.fetch_eq_ok_iff.mp hf with ⟨t, rfl, rfl, rfl⟩ | ⟨t, n, rfl, hread, rfl, rfl⟩ |
      ⟨t, rfl, hread, -, rfl, rfl⟩
    · rfl
    · simp [Value.worth, L.literal t n hx hread]
    · have hload := L.load t ⟨s.nextTemp⟩ hx hread
      simp only [Session.define_code, total_append, total_singleton, Value.worth, worth_token]
      omega

theorem combine_balance {op : BinOp} {left x right : Item} (hx : x.hasKind op.sign = true) :
    Ensures s (Fragment.combine x.text op.mnemonic left right)
      (fun t s' => L.total s'.code + L.temp t =
        L.total s.code + (L.worth left + L.worth x + L.worth right))
      fun _ _ => True := by
  by_cases ho : left.isOperand = true ∧ right.isOperand = true
  · rw [Fragment.combine_of_operands ho.1 ho.2]
    refine (L.fetch_balance ho.1).bind fun a s₁ ha => ?_
    refine (L.fetch_balance ho.2).bind fun b s₂ hb => ?_
    refine Ensures.of_ok (Session.defining_run ..) ?_
    cases x with
    | temp t => simp at hx
    | token t =>
      have hkind : t.kind = op.sign := by simpa [Item.hasKind, Item.kind?] using hx
      have hbinary := L.binary op t ⟨s₂.nextTemp⟩ a b hkind
      simp only [Session.define_code, total_append, total_singleton, worth_token] at ha hb ⊢
      omega
  · exact Ensures.of_error (Fragment.combine_of_not ho) trivial

/-- A replacement keeps the sum. -/
theorem sweepInvariant_balance (op : BinOp) (sum : Int) :
    Fragment.SweepInvariant op.sign op (fun f s' => L.total s'.code + L.stock f = sum)
      fun _ _ => True where
  edge _ _ _ _ := trivial
  step {f g left x right s} _ _ hx h := by
    refine (L.combine_balance hx).mono (fun t s' ht => ?_) fun _ _ _ => trivial
    simp only [stock_append, stock_cons, worth_temp] at h ⊢
    omega

/-- **The four sweeps keep the sum**, and what they leave is an operand. -/
theorem lowerFlat_balance {f : Fragment} (hf : ∀ x ∈ f, x.isParen = false) :
    Ensures s f.lowerFlat
      (fun x s' => x.isOperand = true ∧ L.total s'.code + L.worth x = L.total s.code + L.stock f)
      fun _ _ => True := by
  refine Fragment.SweepInvariant.lowerFlat
    (fun op => (L.sweepInvariant_balance op (L.total s.code + L.stock f)).and_forall
      (P := fun x => x.isParen = false) fun _ => rfl)
    ⟨rfl, hf⟩ (fun _ _ => trivial) (fun _ _ _ _ _ _ => trivial) ?_
  rintro x s' ⟨hsum, hparen⟩ hsign
  exact ⟨Item.isOperand_of_forall_not hsign (hparen x (by simp)), by simpa using hsum⟩

/-- **Closing the groups keeps the sum.** -/
theorem closeGroups_balance (f : Fragment) :
    Ensures s f.closeGroups
      (fun f' s' => (∀ x ∈ f', x.hasKind .leftParen = false) ∧
        L.total s'.code + L.stock f' = L.total s.code + L.stock f)
      fun _ _ => True := by
  induction f with
  | nil => exact Ensures.of_ok rfl ⟨by simp, rfl⟩
  | cons x f ih =>
    by_cases hx : x.hasKind .leftParen = true
    · have hworth : L.worth x = 0 := L.worth_of_isParen (by simp [Item.isParen_eq, hx])
      rw [Fragment.closeGroups_cons_leftParen hx]
      refine ih.bind fun rest s₁ ⟨hopen, hsum⟩ => ?_
      cases hsplit : Fragment.splitAt? .rightParen rest with
      | none => exact Ensures.of_error rfl trivial
      | some parts =>
        obtain ⟨c, hc, rfl, hinside⟩ := Fragment.eq_append_of_splitAt? hsplit
        have hworth' : L.worth c = 0 := L.worth_of_isParen (by simp [Item.isParen_eq, hc])
        have hflat : ∀ y ∈ parts.1, y.isParen = false := fun y hy => by
          simp [Item.isParen_eq, hinside y hy, hopen y (by simp [hy])]
        refine (L.lowerFlat_balance hflat).bind fun y s₂ ⟨hy, hgroup⟩ => Ensures.of_ok rfl ⟨?_, ?_⟩
        · intro z hz
          rcases List.mem_cons.mp hz with rfl | hz
          · by_contra hleft
            simp [Item.isOperand, Item.hasKind, Kind.isParen] at hy hleft
            simp [hleft] at hy
          · exact hopen z (by simp [hz])
        · simp only [stock_append, stock_cons] at hsum ⊢
          omega
    · rw [Fragment.closeGroups_cons_of_not (Bool.eq_false_iff.mpr hx)]
      refine ih.bind fun rest s₁ ⟨hopen, hsum⟩ => Ensures.of_ok rfl ⟨?_, ?_⟩
      · intro y hy
        rcases List.mem_cons.mp hy with rfl | hy
        · exact Bool.eq_false_iff.mpr hx
        · exact hopen y hy
      · simp only [stock_cons]
        omega

/-- **A whole expression** costs what its tokens are worth, less what its value is worth. -/
theorem value_balance (f : Fragment) :
    Ensures s f.value
      (fun v s' => L.total s'.code + v.worth L.temp = L.total s.code + L.stock f)
      fun _ _ => True := by
  have hlower : Ensures s f.lower
      (fun x s' => x.isOperand = true ∧ L.total s'.code + L.worth x = L.total s.code + L.stock f)
      fun _ _ => True := by
    refine (L.closeGroups_balance f).bind fun f' s₁ ⟨hopen, hsum⟩ => ?_
    split
    · exact Ensures.of_error rfl trivial
    · next hclose =>
      have hflat : ∀ y ∈ f', y.isParen = false := fun y hy => by
        simp only [List.any_eq_true, not_exists, not_and, Bool.not_eq_true] at hclose
        simp [Item.isParen_eq, hclose y hy, hopen y hy]
      refine (L.lowerFlat_balance hflat).mono (fun x s₂ ⟨hx, hflat⟩ => ⟨hx, ?_⟩)
        fun _ _ _ => trivial
      rw [hflat, hsum]
  refine hlower.bind fun x s₁ ⟨hx, hsum⟩ => ?_
  refine (L.fetch_balance hx).mono (fun v s₂ hv => ?_) fun _ _ _ => trivial
  rw [hv, hsum]

end Balance

end Ledger

/-! ## Lines -/

/-- The tokens of the expression of a line: those after its first equals sign, if it has one. -/
def Line.expression (cs : List Char) : List Token :=
  readTokens (if '=' ∈ cs then (cs.dropWhile (· ≠ '=')).tail else cs)

theorem Line.expression_of_no_equals {cs : List Char} (h : '=' ∉ cs) :
    expression cs = readTokens cs := by
  rw [expression, if_neg h]

theorem Line.expression_of_equals {l r : List Char} (hl : '=' ∉ l) :
    expression (l ++ '=' :: r) = readTokens r := by
  have hstop : ∀ c ∈ l, decide (c ≠ '=') = true := fun c hc => by
    simpa using fun h : c = '=' => hl (h ▸ hc)
  rw [expression, if_pos (by simp), List.dropWhile_append_of_pos hstop]
  simp

namespace Ledger

variable (L : Ledger)

/-- What a line is charged with: its expression, and its store or its print. -/
def dues (cs : List Char) : Int :=
  L.stock (Fragment.ofTokens (Line.expression cs)) +
    (Line.target? cs).elim L.printed fun x => L.stored ⟨x⟩

theorem dues_of_no_equals {cs : List Char} (h : '=' ∉ cs) :
    L.dues cs = L.stock (Fragment.ofTokens (readTokens cs)) + L.printed := by
  rw [dues, Line.expression_of_no_equals h, Line.target?_of_no_equals h, Option.elim_none]

theorem dues_of_equals {l r : List Char} (hl : '=' ∉ l) :
    L.dues (l ++ '=' :: r) =
      L.stock (Fragment.ofTokens (readTokens r)) + L.stored ⟨String.ofList l⟩ := by
  rw [dues, Line.expression_of_equals hl, Line.target?_of_equals hl, Option.elim_some]

/-- **A line costs what it is charged with.** -/
theorem total_of_compileLine {text : String} {s s' : Session}
    (h : compileLine text s = .ok () s') :
    L.total s'.code = L.total s.code + L.dues (Text.dropBlanks text.toList) := by
  obtain ⟨stmt, hparse, h⟩ := exists_parse_of_compileLine h
  cases stmt with
  | assign x ts =>
    obtain ⟨hname, r, hcut, -, -, rfl⟩ := Statement.parse_eq_assign_iff.mp hparse
    have hx : '=' ∉ x.toList := equals_notMem_of_isName hname
    rw [Statement.lower_assign] at h
    obtain ⟨slot, s₁, hslot, h⟩ := Lowering.bind_eq_ok_iff.mp h
    obtain ⟨v, s₂, hv, h⟩ := Lowering.bind_eq_ok_iff.mp h
    have hvalue := (L.value_balance _).ok_of_eq hv
    cases h
    have hreserve : slot = ⟨x⟩ ∧ L.total s₁.code = L.total s.code := by
      by_cases hmem : x ∈ s.scope
      · rw [Session.declareSlot_of_mem (s := { s with line := s.line + 1 }) hmem] at hslot
        cases hslot
        exact ⟨rfl, rfl⟩
      · rw [Session.declareSlot_of_notMem (s := { s with line := s.line + 1 }) hmem] at hslot
        cases hslot
        exact ⟨rfl, by simp [L.alloca, Session.code]⟩
    obtain ⟨rfl, hreserve⟩ := hreserve
    show L.total (s₂.append (.store v ⟨x⟩)).code = _
    rw [hcut, L.dues_of_equals hx, String.ofList_toList, Session.append_code, total_append,
      total_singleton, L.store]
    omega
  | print ts =>
    obtain ⟨hequals, rfl⟩ := Statement.parse_eq_print_iff.mp hparse
    rw [Statement.lower_print] at h
    obtain ⟨v, s₁, hv, h⟩ := Lowering.bind_eq_ok_iff.mp h
    have hvalue := (L.value_balance _).ok_of_eq hv
    cases h
    rw [L.dues_of_no_equals hequals, Session.define_code, total_append, total_singleton, L.print]
    show _ = L.total (Session.code { s with line := s.line + 1 }) + _
    omega

end Ledger

/-! ## What is counted -/

namespace Instr

/-- An operation of the sort `op`. -/
def computes (op : BinOp) : Instr → Bool
  | binary op' _ _ _ => op' = op
  | _ => false

/-- A load of a variable. -/
def loads (name : String) : Instr → Bool
  | load _ slot => slot.name = name
  | _ => false

/-- A store to a variable. -/
def stores (name : String) : Instr → Bool
  | store _ slot => slot.name = name
  | _ => false

/-- A print. -/
def prints : Instr → Bool
  | print _ _ => true
  | _ => false

/-- A value or a slot that stands alone. -/
def isBare : Instr → Bool
  | bareValue _ | bareSlot _ => true
  | _ => false

/-- The result of a load or of an operation. -/
def computed? : Instr → Option Temp
  | load result _ | binary _ result _ _ => some result
  | _ => none

theorem result?_of_computed? {instr : Instr} {t : Temp} (h : instr.computed? = some t) :
    instr.result? = some t := by
  cases instr <;> simp_all [computed?, result?]

end Instr

namespace Ledger

/-- Operations of one sort: each takes its sign. -/
def operations (op : BinOp) : Ledger where
  token t := if t.kind = op.sign then 1 else 0
  temp _ := 0
  cost instr := if instr.computes op then 1 else 0
  stored _ := 0
  printed := 0
  paren t h := if_neg fun hk => by
    rw [hk] at h
    cases op <;> cases h
  literal t n h _ := if_neg fun hk => by
    cases op <;> simp [Item.isOperand, Item.kind?, hk, BinOp.sign, Kind.isOperator] at h
  load t r h _ := by
    rw [if_neg fun hk => by
      cases op <;> simp [Item.isOperand, Item.kind?, hk, BinOp.sign, Kind.isOperator] at h]
    simp [Instr.computes]
  binary op' t r a b hk := by
    by_cases hop : op' = op
    · cases a <;> cases b <;> simp [hk, hop, Value.worth, Instr.computes]
    · have hsign : op'.sign ≠ op.sign := fun h =>
        hop (by cases op <;> cases op' <;> simp_all [BinOp.sign])
      cases a <;> cases b <;> simp [hk, hsign, hop, Value.worth, Instr.computes]
  alloca _ := rfl
  store v _ := by cases v <;> rfl
  print _ v := by cases v <;> rfl

/-- Loads of one variable: each takes an operand that is its name. -/
def loads (x : String) (hx : isName x = true) : Ledger where
  token t := if (Item.token t).isOperand ∧ t.text = x then 1 else 0
  temp _ := 0
  cost instr := if instr.loads x then 1 else 0
  stored _ := 0
  printed := 0
  paren t h := if_neg fun hk => by simp [Item.isOperand, Item.kind?, h] at hk
  literal t n _ hread := if_neg fun hk => by
    have hdigits := (Literal.read_eq_some_iff.mp hread).1
    rw [hk.2, isDigits_of_isName hx] at hdigits
    cases hdigits
  load t r h _ := by simp [h, Instr.loads]
  binary op t r a b hk := by
    have hnot : (Item.token t).isOperand = false := by
      cases op <;> simp [Item.isOperand, Item.kind?, hk, BinOp.sign, Kind.isOperator]
    cases a <;> cases b <;> simp [hnot, Value.worth, Instr.loads]
  alloca _ := rfl
  store v _ := by cases v <;> rfl
  print _ v := by cases v <;> rfl

/-- Stores to one variable, charged to the line. -/
def stores (x : String) : Ledger where
  token _ := 0
  temp _ := 0
  cost instr := if instr.stores x then 1 else 0
  stored slot := if slot.name = x then 1 else 0
  printed := 0
  paren _ _ := rfl
  literal _ _ _ _ := rfl
  load _ _ _ _ := rfl
  binary _ _ _ a b _ := by cases a <;> cases b <;> rfl
  alloca _ := rfl
  store v slot := by cases v <;> simp [Instr.stores, Value.worth]
  print _ v := by cases v <;> rfl

/-- Prints, charged to the line. -/
def prints : Ledger where
  token _ := 0
  temp _ := 0
  cost instr := if instr.prints then 1 else 0
  stored _ := 0
  printed := 1
  paren _ _ := rfl
  literal _ _ _ _ := rfl
  load _ _ _ _ := rfl
  binary _ _ _ a b _ := by cases a <;> cases b <;> rfl
  alloca _ := rfl
  store v _ := by cases v <;> rfl
  print _ v := by cases v <;> rfl

/-- Values and slots that stand alone: nothing in a line asks for one. -/
def bare : Ledger where
  token _ := 0
  temp _ := 0
  cost instr := if instr.isBare then 1 else 0
  stored _ := 0
  printed := 0
  paren _ _ := rfl
  literal _ _ _ _ := rfl
  load _ _ _ _ := rfl
  binary _ _ _ a b _ := by cases a <;> cases b <;> rfl
  alloca _ := rfl
  store v _ := by cases v <;> rfl
  print _ v := by cases v <;> rfl

/-- Uses of one temporary, less its definition: an item that stands for it is worth one use. -/
def uses (t : Temp) : Ledger where
  token _ := 0
  temp t' := if t' = t then 1 else 0
  cost instr := instr.temps.count t - if instr.computed? = some t then 1 else 0
  stored _ := 0
  printed := 0
  paren _ _ := rfl
  literal _ _ _ _ := rfl
  load _ r _ _ := by simp [Instr.temps, Instr.computed?]
  binary op _ r a b _ := by
    cases a <;> cases b <;>
      simp [Instr.temps, Value.temps, Value.worth, Instr.computed?, List.count_cons, add_comm]
  alloca _ := rfl
  store v _ := by
    cases v <;> simp [Instr.temps, Value.temps, Value.worth, Instr.computed?, List.count_cons]
  print _ v := by
    cases v <;> simp [Instr.temps, Value.temps, Value.worth, Instr.computed?, List.count_cons]

end Ledger

section Count

variable {α : Type}

/-- A sum of ones is a count. -/
theorem sum_map_ite_one (l : List α) (p : α → Prop) [DecidablePred p] :
    (l.map fun a => if p a then (1 : Int) else 0).sum = l.countP p := by
  induction l with
  | nil => rfl
  | cons a l ih => by_cases ha : p a <;> simp [ha, ih, add_comm]

theorem Ledger.total_uses (t : Temp) (code : List Instr) :
    (Ledger.uses t).total code =
      (code.flatMap Instr.temps).count t - code.countP (·.computed? = some t) := by
  induction code with
  | nil => rfl
  | cons instr code ih =>
    have hcons : (Ledger.uses t).total (instr :: code) =
        (Ledger.uses t).cost instr + (Ledger.uses t).total code := by simp [Ledger.total]
    rw [hcons, ih, List.flatMap_cons, List.count_append, List.countP_cons]
    by_cases hi : instr.computed? = some t <;> simp [Ledger.uses, hi] <;> omega

end Count

/-- **Lines and instructions of the same numbers.** -/
structure Accounted (lines : List (List Char)) (code : List Instr) : Prop where
  /-- There is an operation for each sign. -/
  operations : ∀ op : BinOp,
    code.countP (·.computes op) = (lines.flatMap readTokens).countP (·.kind = op.sign)
  /-- There is a load of a variable for each time that an expression names it. -/
  loads : ∀ x, isName x = true →
    code.countP (·.loads x) = (lines.flatMap Line.expression).count ⟨.operand, x⟩
  /-- There is a store to a variable for each line that assigns to it. -/
  stores : ∀ x, code.countP (·.stores x) = (Line.targets lines).count x
  /-- There is a print for each line without an equals sign. -/
  prints : code.countP (·.prints) = lines.countP fun cs => '=' ∉ cs
  /-- Temporaries are used as often as loads and operations define them. -/
  uses : ∀ t, (code.flatMap Instr.temps).count t = code.countP (·.computed? = some t)

namespace Accounted

theorem nil : Accounted [] [] :=
  ⟨fun _ => rfl, fun _ _ => rfl, fun _ => rfl, rfl, fun _ => rfl⟩

theorem append {lines lines' : List (List Char)} {code code' : List Instr}
    (h : Accounted lines code) (h' : Accounted lines' code') :
    Accounted (lines ++ lines') (code ++ code') where
  operations op := by simp [h.operations, h'.operations]
  loads x hx := by simp [h.loads x hx, h'.loads x hx]
  stores x := by simp [Line.targets, h.stores, h'.stores]
  prints := by simp [h.prints, h'.prints]
  uses t := by simp [h.uses, h'.uses]

end Accounted

/-! ## Lines are accounted for -/

namespace Ledger

variable {code : List Instr}

/-- Instructions that cost one or nothing are counted. -/
theorem total_eq_countP {L : Ledger} {p : Instr → Bool} (h : ∀ i, L.cost i = if p i then 1 else 0) :
    L.total code = code.countP p := by
  rw [total, List.map_congr_left fun i _ => h i, sum_map_ite_one]
  simp

/-- Tokens that are worth one or nothing are counted. -/
theorem stock_eq_countP {L : Ledger} {p : Token → Bool} (h : ∀ t, L.token t = if p t then 1 else 0)
    (ts : List Token) : L.stock (Fragment.ofTokens ts) = ts.countP p := by
  simp only [stock, Fragment.ofTokens, List.map_map, Function.comp_def, worth_token, h,
    sum_map_ite_one]
  simp

/-- Where tokens are worth nothing, so is an expression. -/
theorem stock_eq_zero {L : Ledger} (h : ∀ t, L.token t = 0) (ts : List Token) :
    L.stock (Fragment.ofTokens ts) = 0 := by
  rw [stock_eq_countP (p := fun _ => false) (by simpa using h)]
  simp

/-- An expression is worth the operands that are spelled like the variable. -/
theorem stock_loads {x : String} (hx : isName x = true) {cs : List Char} (h : '=' ∉ cs) :
    (loads x hx).stock (Fragment.ofTokens (readTokens cs)) =
      (readTokens cs).count ⟨.operand, x⟩ := by
  have hcount : (loads x hx).stock (Fragment.ofTokens (readTokens cs)) =
      (readTokens cs).countP fun t => (Item.token t).isOperand && t.text = x :=
    stock_eq_countP (by simp [loads]) _
  rw [hcount, List.count]
  congr 1
  refine List.countP_congr fun t ht => ?_
  -- equals signs may stand beside an operator, but an expression has none
  have hequals : t.kind ≠ .equals := fun hk => h (exists_equals_iff.mp ⟨t, ht, hk⟩)
  obtain ⟨kind, text⟩ := t
  cases kind <;> simp_all [Item.isOperand, Item.kind?, Kind.isOperator, Kind.isParen]

end Ledger

namespace Accounted

variable {new : List Instr}

/-- A line without an equals sign, if every ledger charges it with what was added. -/
theorem of_print {cs : List Char} (hequals : '=' ∉ cs)
    (hdues : ∀ L : Ledger, L.total new = L.dues cs) : Accounted [cs] new where
  operations op := by
    have h := hdues (.operations op)
    rw [Ledger.dues_of_no_equals _ hequals,
      Ledger.total_eq_countP (p := Instr.computes op) fun _ => rfl,
      Ledger.stock_eq_countP (p := (·.kind = op.sign)) (by simp [Ledger.operations])] at h
    simpa [Ledger.operations] using h
  loads x hx := by
    have h := hdues (.loads x hx)
    rw [Ledger.dues_of_no_equals _ hequals,
      Ledger.total_eq_countP (p := Instr.loads x) fun _ => rfl,
      Ledger.stock_loads hx hequals] at h
    simpa [Ledger.loads, Line.expression_of_no_equals hequals] using h
  stores x := by
    have h := hdues (.stores x)
    rw [Ledger.dues_of_no_equals _ hequals,
      Ledger.total_eq_countP (p := Instr.stores x) fun _ => rfl,
      Ledger.stock_eq_zero fun _ => rfl] at h
    simpa [Ledger.stores, Line.targets, Line.target?_of_no_equals hequals] using h
  prints := by
    have h := hdues .prints
    rw [Ledger.dues_of_no_equals _ hequals, Ledger.total_eq_countP (p := Instr.prints) fun _ => rfl,
      Ledger.stock_eq_zero fun _ => rfl] at h
    simpa [Ledger.prints, hequals] using h
  uses t := by
    have h := hdues (.uses t)
    rw [Ledger.dues_of_no_equals _ hequals, Ledger.total_uses,
      Ledger.stock_eq_zero fun _ => rfl] at h
    simp only [Ledger.uses] at h
    omega

/-- An assignment, if every ledger charges it with what was added. -/
theorem of_assign {x : String} {r : List Char} (hx : isName x = true) (hequals : '=' ∉ r)
    (hdues : ∀ L : Ledger, L.total new = L.dues (x.toList ++ '=' :: r)) :
    Accounted [x.toList ++ '=' :: r] new := by
  obtain ⟨hne, hop⟩ := isOperandChar_of_isName hx
  have hl : '=' ∉ x.toList := equals_notMem_of_isName hx
  refine ⟨fun op => ?_, fun y hy => ?_, fun y => ?_, ?_, fun t => ?_⟩
  · have htokens : readTokens (x.toList ++ '=' :: r) =
        ⟨.operand, x⟩ :: Token.ofSign '=' :: readTokens r := by
      rw [readTokens_append_sign (by decide), readTokens_word hne hop]
      simp
    have h := hdues (.operations op)
    rw [Ledger.dues_of_equals _ hl, Ledger.total_eq_countP (p := Instr.computes op) fun _ => rfl,
      Ledger.stock_eq_countP (p := (·.kind = op.sign)) (by simp [Ledger.operations])] at h
    have hskip : (readTokens (x.toList ++ '=' :: r)).countP (·.kind = op.sign) =
        (readTokens r).countP (·.kind = op.sign) := by
      rw [htokens]
      cases op <;> simp [Token.ofSign, Kind.ofChar, BinOp.sign]
    simpa [Ledger.operations, hskip] using h
  · have h := hdues (.loads y hy)
    rw [Ledger.dues_of_equals _ hl, Ledger.total_eq_countP (p := Instr.loads y) fun _ => rfl,
      Ledger.stock_loads hy hequals] at h
    simpa [Ledger.loads, Line.expression_of_equals hl] using h
  · have h := hdues (.stores y)
    rw [Ledger.dues_of_equals _ hl, Ledger.total_eq_countP (p := Instr.stores y) fun _ => rfl,
      Ledger.stock_eq_zero fun _ => rfl] at h
    have htargets : Line.targets [x.toList ++ '=' :: r] = [x] := by
      simp [Line.target?_of_equals hl, Line.targets]
    rw [htargets, List.count_singleton]
    simp only [Ledger.stores, String.ofList_toList, beq_iff_eq, zero_add] at h ⊢
    split at h <;> simp_all
  · have h := hdues .prints
    rw [Ledger.dues_of_equals _ hl, Ledger.total_eq_countP (p := Instr.prints) fun _ => rfl,
      Ledger.stock_eq_zero fun _ => rfl] at h
    simpa [Ledger.prints] using h
  · have h := hdues (.uses t)
    rw [Ledger.dues_of_equals _ hl, Ledger.total_uses, Ledger.stock_eq_zero fun _ => rfl] at h
    simp only [Ledger.uses] at h
    omega

/-- **A line accounts for the instructions it adds.** -/
theorem of_compileLine {text : String} {s s' : Session} (h : compileLine text s = .ok () s')
    (hnew : s'.code = s.code ++ new) : Accounted [Text.dropBlanks text.toList] new := by
  have hdues : ∀ L : Ledger, L.total new = L.dues (Text.dropBlanks text.toList) := by
    intro L
    have htotal := L.total_of_compileLine h
    rw [hnew, L.total_append] at htotal
    omega
  obtain ⟨stmt, hparse, -⟩ := exists_parse_of_compileLine h
  cases stmt with
  | print ts => exact of_print (Statement.parse_eq_print_iff.mp hparse).1 hdues
  | assign x ts =>
    obtain ⟨hx, r, hcut, -, hr, -⟩ := Statement.parse_eq_assign_iff.mp hparse
    rw [hcut] at hdues ⊢
    exact of_assign hx hr hdues

/-- **Lines account for the instructions they add.** -/
theorem of_compileLines {lines : List String} {s s' : Session}
    (h : compileLines lines s = .ok () s') (hnew : s'.code = s.code ++ new) :
    Accounted (lines.map fun line => Text.dropBlanks line.toList) new := by
  induction lines generalizing s new with
  | nil =>
    cases h
    obtain rfl : new = [] := by simpa using hnew
    exact .nil
  | cons text rest ih =>
    obtain ⟨_, s₁, hline, hrest⟩ := Lowering.bind_eq_ok_iff.mp h
    obtain ⟨first, hfirst, -⟩ := ((compileLine_grows text s).ok_of_eq hline).log_eq
    obtain ⟨-, later, hlater, -⟩ := compileLines_grows hrest
    have hcode₁ : s₁.code = s.code ++ first.map (·.instr) := by
      simp only at hfirst
      simp [Session.code, hfirst]
    have hcode : s'.code = s₁.code ++ later.map (·.instr) := by simp [Session.code, hlater]
    obtain rfl : first.map (·.instr) ++ later.map (·.instr) = new := by
      rw [hcode, hcode₁, List.append_assoc] at hnew
      exact List.append_cancel_left hnew
    exact (of_compileLine hline hcode₁).append (ih hrest hcode)

end Accounted

/-! ## Values are used once -/

/-- **Every loaded or computed value is used once**: by a later entry for the same line, as one of
its operands, and by no other entry. -/
def UsedOnce (log : List Entry) : Prop :=
  ∀ before e after t, log = before ++ e :: after → e.instr.computed? = some t →
    ∃ between user rest, after = between ++ user :: rest ∧ user.line = e.line ∧
      user.instr.temps.count t = 1 ∧ ∀ e' ∈ before ++ e :: (between ++ rest), t ∉ e'.instr.temps

section Used

variable {s : Session} {before after : List Entry} {e : Entry} {t : Temp}

/-- What uses the result of an entry comes after it. -/
theorem InStep.mem_after_of_uses (hin : InStep s) (hlog : s.log = before ++ e :: after)
    (ht : e.instr.result? = some t) {user : Entry} (huser : user ∈ s.log)
    (huse : t ∈ user.instr.temps) : user ∈ after := by
  have hcode : s.code = before.map (·.instr) ++ e.instr :: after.map (·.instr) := by
    simp [Session.code, hlog]
  obtain ⟨front, back, hcut⟩ := List.append_of_mem huser
  have hcode' : s.code = front.map (·.instr) ++ user.instr :: back.map (·.instr) := by
    simp [Session.code, hcut]
  obtain ⟨i, hi, hit⟩ := (hin.ordered _ _ _ hcode').temps t huse
  have hbefore : i ∉ before.map (·.instr) := fun hmem =>
    hin.result?_ne hcode ht i (List.mem_append_left _ hmem) hit
  rw [hlog, List.append_eq_append_iff] at hcut
  rcases hcut with ⟨_ | ⟨_, c⟩, rfl, hcut⟩ | ⟨c, rfl, -⟩
  · exact absurd (by simpa using hi) hbefore
  · cases hcut
    simp
  · exact absurd (by simpa using Or.inl (List.mem_map.mp hi)) hbefore

/-- A result is computed by one instruction. -/
theorem InStep.countP_computed? (hin : InStep s) (hlog : s.log = before ++ e :: after)
    (ht : e.instr.computed? = some t) : s.code.countP (·.computed? = some t) = 1 := by
  have hcode : s.code = before.map (·.instr) ++ e.instr :: after.map (·.instr) := by
    simp [Session.code, hlog]
  have hunique := hin.result?_ne hcode (Instr.result?_of_computed? ht)
  have hnone : ∀ code : List Instr, (∀ i ∈ code, i.result? ≠ some t) →
      code.countP (·.computed? = some t) = 0 := by
    intro code hcode
    refine List.countP_eq_zero.mpr fun i hi hit => hcode i hi ?_
    exact Instr.result?_of_computed? (by simpa using hit)
  rw [hcode, List.countP_append, List.countP_cons_of_pos (by simpa using ht),
    hnone _ fun i hi => hunique i (List.mem_append_left _ hi),
    hnone _ fun i hi => hunique i (List.mem_append_right _ hi)]

/-- Where a temporary is used once, an entry that uses it uses it once, and no other does. -/
theorem notMem_temps_of_count {front back : List Entry}
    (h : (((front ++ e :: back).map (·.instr)).flatMap Instr.temps).count t = 1)
    (huse : t ∈ e.instr.temps) :
    e.instr.temps.count t = 1 ∧ ∀ e' ∈ front ++ back, t ∉ e'.instr.temps := by
  simp only [List.map_append, List.map_cons, List.flatMap_append, List.flatMap_cons,
    List.count_append] at h
  have hpos := List.count_pos_iff.mpr huse
  refine ⟨by omega, fun e' he' hmem => ?_⟩
  have huses : 0 < (((front ++ back).map (·.instr)).flatMap Instr.temps).count t :=
    List.count_pos_iff.mpr (List.mem_flatMap.mpr ⟨e'.instr, List.mem_map_of_mem he', hmem⟩)
  simp only [List.map_append, List.flatMap_append, List.count_append] at huses
  omega

/-- Values are used once if they are used as often as they are defined, in the whole log and among
the entries for each line. -/
theorem InStep.usedOnce (hin : InStep s)
    (hall : ∀ t, (s.code.flatMap Instr.temps).count t = s.code.countP (·.computed? = some t))
    (hline : ∀ e ∈ s.log, ∀ t,
      (((s.log.filter (·.line = e.line)).map (·.instr)).flatMap Instr.temps).count t =
        ((s.log.filter (·.line = e.line)).map (·.instr)).countP (·.computed? = some t)) :
    UsedOnce s.log := by
  intro before e after t hlog ht
  have hdefined : 0 < ((s.log.filter (·.line = e.line)).map (·.instr)).countP
      (·.computed? = some t) := by
    refine List.countP_pos_iff.mpr ⟨e.instr, ?_, by simpa using ht⟩
    exact List.mem_map.mpr ⟨e, by simp [hlog], rfl⟩
  rw [← hline e (by simp [hlog]), List.count_pos_iff, List.mem_flatMap] at hdefined
  obtain ⟨instr, hinstr, huse⟩ := hdefined
  obtain ⟨user, huser, rfl⟩ := List.mem_map.mp hinstr
  obtain ⟨huser, hsame⟩ := List.mem_filter.mp huser
  have hlater := hin.mem_after_of_uses hlog (Instr.result?_of_computed? ht) huser huse
  obtain ⟨between, rest, rfl⟩ := List.append_of_mem hlater
  have hone : (s.code.flatMap Instr.temps).count t = 1 := by
    rw [hall, hin.countP_computed? hlog ht]
  have hsplit : s.code = ((before ++ e :: between) ++ user :: rest).map (·.instr) := by
    simp [Session.code, hlog]
  rw [hsplit] at hone
  obtain ⟨hcount, hothers⟩ := notMem_temps_of_count hone huse
  exact ⟨between, user, rest, rfl, by simpa using hsame, hcount, by simpa using hothers⟩

/-- The result of a print is never used, since nothing computes it. -/
theorem InStep.notMem_temps_of_print (hin : InStep s)
    (hall : ∀ t, (s.code.flatMap Instr.temps).count t = s.code.countP (·.computed? = some t))
    {r : Temp} {v : Value} (hprint : .print r v ∈ s.code) :
    ∀ instr ∈ s.code, r ∉ instr.temps := by
  intro instr hinstr hmem
  have hpos := List.count_pos_iff.mpr (List.mem_flatMap.mpr ⟨instr, hinstr, hmem⟩)
  rw [hall, List.countP_pos_iff] at hpos
  obtain ⟨i, hi, hcomputed⟩ := hpos
  have hcomputed : i.computed? = some r := by simpa using hcomputed
  obtain ⟨before, after, hcode⟩ := List.append_of_mem hprint
  have hunique := hin.result?_ne hcode rfl
  rw [hcode, List.mem_append, List.mem_cons] at hi
  rcases hi with hi | rfl | hi
  · exact hunique i (by simp [hi]) (Instr.result?_of_computed? hcomputed)
  · cases hcomputed
  · exact hunique i (by simp [hi]) (Instr.result?_of_computed? hcomputed)

end Used

/-- **A variable that is assigned to has one slot**, and no other has. -/
theorem InStep.count_alloca_eq {s : Session} (hin : InStep s) {lines : List (List Char)}
    (hdeclares : s.Declares (Line.targets lines)) (hstores : ∀ x, s.code.countP (·.stores x) =
      (Line.targets lines).count x) (x : String) :
    s.code.count (.alloca ⟨x⟩) = if x ∈ Line.targets lines then 1 else 0 := by
  split
  · next hx =>
    have hpos := List.count_pos_iff.mpr hx
    rw [← hstores, List.countP_pos_iff] at hpos
    obtain ⟨instr, hinstr, hstore⟩ := hpos
    obtain ⟨before, after, hcode⟩ := List.append_of_mem hinstr
    have hslot : instr.slot? = some ⟨x⟩ := by
      cases instr <;> simp_all [Instr.stores, Instr.slot?]
      simp [← hstore]
    have hmem := (hin.ordered _ _ _ hcode).slot ⟨x⟩ hslot
    exact hin.count_alloca (by simp [hcode, hmem])
  · next hx =>
    refine List.count_eq_zero.mpr fun hmem => hx ?_
    exact ((hdeclares x).mp (hin.mem_sourceNames hmem)).2

/-- **Nothing is lost and nothing is doubled.** The instructions of a source are as many as its
lines ask for, in the whole and line by line, every variable that is assigned to has one slot, and
every value that is loaded or computed is used once, while results of prints are not used. -/
theorem compile_accounts {source : String} {s : Session} (h : compile source = .ok () s) :
    Accounted (strippedLines source) s.code ∧
    (∀ (i : Nat) cs, (strippedLines source)[i]? = some cs →
      Accounted [cs] ((s.log.filter (·.line = (i : Int) + 1)).map (·.instr))) ∧
    (∀ x, s.code.count (.alloca ⟨x⟩) =
      if x ∈ Line.targets (strippedLines source) then 1 else 0) ∧
    UsedOnce s.log ∧
    ∀ r v, .print r v ∈ s.code → ∀ instr ∈ s.code, r ∉ instr.temps := by
  have hin : InStep s := compileLines_inStep .fresh h
  have hall : Accounted (strippedLines source) s.code := Accounted.of_compileLines h rfl
  have hlines : ∀ (i : Nat) cs, (strippedLines source)[i]? = some cs →
      Accounted [cs] ((s.log.filter (·.line = (i : Int) + 1)).map (·.instr)) := by
    intro i cs hi
    obtain ⟨text, htext, rfl⟩ : ∃ text, (Text.lines source)[i]? = some text ∧
        Text.dropBlanks text.toList = cs := by
      simpa [strippedLines] using hi
    obtain ⟨s₁, s₂, hline, hlog⟩ := exists_compileLine_of_getElem? h htext
    exact Accounted.of_compileLine hline (by simp [Session.code, hlog])
  have hdeclares := compileLines_declares Session.declares_fresh h
  refine ⟨hall, hlines, hin.count_alloca_eq hdeclares hall.stores, ?_, ?_⟩
  · refine hin.usedOnce hall.uses fun e he => ?_
    obtain ⟨hlast, new, hnew, hnumber⟩ := compileLines_grows h
    obtain ⟨hlow, hhigh⟩ := hnumber e (by simpa [hnew] using he)
    have hlt : (e.line - 1).toNat < (strippedLines source).length := by
      simp only [strippedLines, List.length_map]
      simp at hlow hlast
      omega
    have hcast : ((e.line - 1).toNat : Int) + 1 = e.line := by
      simp at hlow
      omega
    have haccounted := hlines _ _ (List.getElem?_eq_getElem hlt)
    rw [hcast] at haccounted
    exact haccounted.uses
  · intro r v hprint
    exact hin.notMem_temps_of_print hall.uses hprint

/-- A product that is stored, and a variable that is named twice. -/
theorem compile_accounts_twice :
    ∃ s, compile "x = 2 * (3)\nx - x" = .ok () s ∧ s.code.countP (·.computes .mul) = 1 ∧
      s.code.countP (·.loads "x") = 2 ∧ UsedOnce s.log := by
  obtain ⟨s, hs⟩ : ∃ s, compile "x = 2 * (3)\nx - x" = .ok () s := by decide +kernel
  obtain ⟨hall, -, -, hused, -⟩ := compile_accounts hs
  refine ⟨s, hs, ?_, ?_, hused⟩
  · rw [hall.operations .mul]
    decide +kernel
  · rw [hall.loads "x" (by decide)]
    decide +kernel

end Abacus
