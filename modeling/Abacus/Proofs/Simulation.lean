import Abacus.Proofs.Meaning
import Abacus.Proofs.Precedence

/-!
# The code of an expression computes its value

While an expression is lowered, each item of a fragment stands for a tree: a token for an operand,
a temporary for what was fused into it. The code emitted so far either leaves the value of every
such tree in its temporary, or it has stopped at an operation without result, and then one of the
trees has no value. Every step of the lowering keeps this, so at its end the code has computed the
value of the expression or stopped because there is none.

## Main definitions

* `Session.outcome`: what the code of a session comes to
* `Session.Extends`: one session after another, with more temporaries defined
* `Tracks`, `Simulates`: the machine holds the contents of the variables, or has stopped
* `Value.Denotes`, `Item.Denotes`: values and items that stand for trees

## Main results

* `Value.Denotes.extend`: what a value stands for stays the same
* `Fragment.combine_simulates`: one step of a sweep
* `Fragment.eliminate_simulates`, `Forest.Row.level_simulates`: a sweep, and a level
* `Forest.Spells.value_simulates`: the code of an expression computes its value
-/

namespace Abacus

open Lowering (Ensures)
open Piece

/-- What the code of a session comes to on a new machine. -/
def Session.outcome (garbage : String → Word) (s : Session) : Except Stop Machine :=
  Machine.run garbage s.log {}

/-! ## Sessions with more temporaries -/

/-- A session that comes from `s` by instructions which define new temporaries. -/
inductive Session.Extends (s : Session) : Session → Prop where
  | refl : Extends s s
  | define {s' : Session} (h : Extends s s') (mk : Temp → Instr)
    (hr : ∀ t, (mk t).result? = some t) : Extends s (s'.define mk)

namespace Session.Extends

variable {s s' s'' : Session}

theorem trans (h : s.Extends s') (h' : s'.Extends s'') : s.Extends s'' := by
  induction h' with
  | refl => exact h
  | define _ mk hr ih => exact .define ih mk hr

theorem line_eq (h : s.Extends s') : s'.line = s.line := by
  induction h with
  | refl => rfl
  | define _ _ _ ih => exact ih

theorem sourceNames_eq (h : s.Extends s') :
    s'.scope.sourceNames = s.scope.sourceNames := by
  induction h with
  | refl => rfl
  | define _ _ _ ih => simpa using ih

end Session.Extends

/-! ## Machines and sessions -/

/-- The machine `m` that has executed the code of `s` holds what direct evaluation has come to. -/
structure Tracks (garbage : String → Word) (st : State) (s : Session) (m : Machine) : Prop where
  names : ∀ x ∈ s.scope.sourceNames, isName x = true
  slots_of_mem : ∀ x ∈ s.scope.sourceNames, m.slots x = some (st.contents x)
  slots_of_notMem : ∀ x ∉ s.scope.sourceNames, m.slots x = none ∧ st.contents x = garbage x
  output_eq : m.output = st.output

/-- **The code of `s` holds what direct evaluation has come to**, or has stopped in the current line
at an operation without result. It stops only if `undef` holds. -/
def Simulates (garbage : String → Word) (st : State) (s : Session) (undef : Prop) : Prop :=
  (∃ m, s.outcome garbage = .ok m ∧ Tracks garbage st s m) ∨
  undef ∧ s.outcome garbage = .error ⟨s.line, .undefined, st.output⟩

section Denote

variable {garbage : String → Word} {st : State} {s s' : Session} {U U' : Prop}

theorem Simulates.mono (h : Simulates garbage st s U) (hU : U → U') :
    Simulates garbage st s U' :=
  h.imp_right fun hu => ⟨hU hu.1, hu.2⟩

/-- The machine is known from the outcome. -/
theorem Simulates.tracks {m : Machine} (h : Simulates garbage st s U)
    (hm : s.outcome garbage = .ok m) : Tracks garbage st s m := by
  rcases h with ⟨m', hm', ht⟩ | ⟨-, he⟩
  · rw [hm] at hm'
    cases hm'
    exact ht
  · rw [hm] at he
    cases he

/-- What code with one more instruction comes to. -/
theorem Session.outcome_append_eq_ok_iff {instr : Instr} {m' : Machine} :
    (s.append instr).outcome garbage = .ok m' ↔
      ∃ m, s.outcome garbage = .ok m ∧ instr.exec garbage m = .ok m' :=
  Machine.run_concat_eq_ok_iff

/-- What code with one more definition comes to. -/
theorem Session.outcome_define_eq_ok_iff {mk : Temp → Instr} {m' : Machine} :
    (s.define mk).outcome garbage = .ok m' ↔
      ∃ m, s.outcome garbage = .ok m ∧ (mk ⟨s.nextTemp⟩).exec garbage m = .ok m' :=
  Machine.run_concat_eq_ok_iff

/-- **One more definition.** On a machine that tracks direct evaluation it defines its temporary, or
stops where it may. -/
theorem Simulates.define (h : Simulates garbage st s U) (hU : U → U') {mk : Temp → Instr}
    (hexec : ∀ m, s.outcome garbage = .ok m → Tracks garbage st s m →
      (∃ v, (mk ⟨s.nextTemp⟩).exec garbage m = .ok (m.define ⟨s.nextTemp⟩ v)) ∨
      U' ∧ (mk ⟨s.nextTemp⟩).exec garbage m = .error .undefined) :
    Simulates garbage st (s.define mk) U' := by
  rcases h with ⟨m, hm, ht⟩ | ⟨hu, he⟩
  · have hrun : (s.define mk).outcome garbage =
        Machine.step garbage m ⟨s.line, mk ⟨s.nextTemp⟩⟩ := Machine.run_concat_of_ok hm
    rcases hexec m hm ht with ⟨v, hv⟩ | ⟨hu', hstop⟩
    · refine Or.inl ⟨m.define ⟨s.nextTemp⟩ v, ?_, ?_⟩
      · simp [hrun, Machine.step, hv]
      · exact ⟨by simpa using ht.names, by simpa using ht.slots_of_mem,
          by simpa using ht.slots_of_notMem, ht.output_eq⟩
    · exact Or.inr ⟨hu', by simp [hrun, Machine.step, hstop, ht.output_eq]⟩
  · exact Or.inr ⟨hU hu, Machine.run_of_error he (List.prefix_append _ _)⟩

/-! ## What values and items stand for -/

/-- **A value stands for a tree**: unless the code has stopped, it is the value of the tree. -/
def Value.Denotes (garbage : String → Word) (contents : String → Word) (s : Session) (v : Value)
    (e : Expr) : Prop :=
  (∀ t, v = .temp t → t.id < s.nextTemp) ∧
  ∀ m, s.outcome garbage = .ok m → ∃ w, m.word? v = some w ∧ e.eval contents = some w

/-- What a value stands for stays the same, since temporaries are defined only once. -/
theorem Value.Denotes.extend {contents : String → Word} {v : Value} {e : Expr}
    (h : v.Denotes garbage contents s e) (hext : s.Extends s') :
    v.Denotes garbage contents s' e := by
  induction hext with
  | refl => exact h
  | @define s' _ mk hr ih =>
    obtain ⟨hlt, hword⟩ := ih
    refine ⟨fun t ht => ?_, fun m' hm' => ?_⟩
    · have ht := hlt t ht
      rw [Session.define_nextTemp]
      omega
    obtain ⟨m, hm, hexec⟩ := Session.outcome_define_eq_ok_iff.mp hm'
    obtain ⟨w, hw, he⟩ := hword m hm
    refine ⟨w, ?_, he⟩
    cases v with
    | const n => exact hw
    | temp t =>
      have hne : (mk ⟨s'.nextTemp⟩).result? ≠ some t := by
        rw [hr]
        rintro ht
        cases ht
        exact Int.lt_irrefl _ (hlt _ rfl)
      exact (Instr.exec_temps hexec hne).trans hw

/-- **An item stands for a piece of a row**: an operator token for its sign, an operand token for
its text, a temporary for a tree. -/
def Item.Denotes (garbage : String → Word) (contents : String → Word) (s : Session) :
    Item → Piece → Prop
  | token t, sign op => t.kind = op.sign
  | token t, value e => t.kind = .operand ∧ e = .operand t.text
  | temp _, sign _ => False
  | temp t, value e => (Value.temp t).Denotes garbage contents s e

theorem Item.Denotes.extend {contents : String → Word} {x : Item} {p : Piece}
    (h : x.Denotes garbage contents s p) (hext : s.Extends s') :
    x.Denotes garbage contents s' p := by
  cases x with
  | token t => cases p <;> exact h
  | temp t =>
    cases p with
    | sign op => exact h
    | value e => exact Value.Denotes.extend h hext

/-- What stands for a tree is an operand. -/
theorem Item.Denotes.isOperand {contents : String → Word} {x : Item} {e : Expr}
    (h : x.Denotes garbage contents s (value e)) : x.isOperand = true := by
  cases x with
  | token t =>
    obtain ⟨kind, text⟩ := t
    obtain ⟨rfl, -⟩ := h
    rfl
  | temp t => rfl

/-- What is an operand stands for a tree. -/
theorem Item.Denotes.exists_value {contents : String → Word} {x : Item} {p : Piece}
    (h : x.Denotes garbage contents s p) (hx : x.isOperand = true) : ∃ e, p = value e := by
  cases p with
  | value e => exact ⟨e, rfl⟩
  | sign op =>
    cases x with
    | temp t => exact h.elim
    | token t =>
      obtain ⟨kind, text⟩ := t
      obtain rfl : kind = op.sign := h
      cases op <;> cases hx

/-- An item stands for a sign exactly if it is a token of that kind. -/
theorem Item.Denotes.hasKind_iff {contents : String → Word} {x : Item} {p : Piece} {op : BinOp}
    (h : x.Denotes garbage contents s p) : x.hasKind op.sign = true ↔ p = sign op := by
  cases x with
  | temp t =>
    cases p with
    | sign o => exact h.elim
    | value e => simp
  | token t =>
    have hkind : (token t).hasKind op.sign = true ↔ t.kind = op.sign := by simp [hasKind, kind?]
    rw [hkind]
    cases p with
    | sign o =>
      have ho : t.kind = o.sign := h
      rw [ho, sign.injEq]
      exact BinOp.sign_injective.eq_iff
    | value e =>
      obtain ⟨hoperand, -⟩ := h
      simp [hoperand, op.sign_ne_operand.symm]

/-! ## Fetching and combining -/

/-- **A fetch leaves the value of the tree.** -/
theorem Item.fetch_simulates {x : Item} {e : Expr}
    (hx : x.Denotes garbage st.contents s (value e)) (hs : Simulates garbage st s U) :
    Ensures s x.fetch
      (fun v s' => s.Extends s' ∧ v.Denotes garbage st.contents s' e ∧ Simulates garbage st s' U)
      fun _ _ => True := by
  cases hv : x.fetch s with
  | error fault s' => exact Ensures.of_error hv trivial
  | ok v s' =>
    refine Ensures.of_ok hv ?_
    rcases fetch_eq_ok_iff.mp hv with ⟨t, rfl, rfl, rfl⟩ | ⟨t, n, rfl, hn, rfl, rfl⟩ |
      ⟨t, rfl, -, hmem, rfl, rfl⟩
    · exact ⟨.refl, hx, hs⟩
    · obtain ⟨-, rfl⟩ := hx
      obtain ⟨hdigits, -, -, rfl⟩ := Literal.read_eq_some_iff.mp hn
      refine ⟨.refl, ⟨nofun, fun m hm => ⟨_, rfl, ?_⟩⟩, hs⟩
      simp [Expr.eval, hdigits]
    · obtain ⟨-, rfl⟩ := hx
      have hload : ∀ m, Tracks garbage st s m → Instr.exec garbage m
          (.load ⟨s.nextTemp⟩ ⟨t.text⟩) = .ok (m.define ⟨s.nextTemp⟩ (st.contents t.text)) := by
        intro m ht
        simp [Instr.exec, ht.slots_of_mem _ hmem]
      refine ⟨.define .refl _ fun _ => rfl, ⟨fun t' ht' => ?_, fun m' hm' => ?_⟩,
        hs.define id fun m _ ht => Or.inl ⟨_, hload m ht⟩⟩
      · cases ht'
        exact Int.lt_succ _
      · obtain ⟨m, hm, hexec⟩ := Session.outcome_define_eq_ok_iff.mp hm'
        have ht := hs.tracks hm
        rw [hload m ht] at hexec
        cases hexec
        have hname := isDigits_of_isName (ht.names _ hmem)
        exact ⟨st.contents t.text, by simp [Machine.word?], by simp [Expr.eval, hname]⟩

/-- **A combination leaves the value of the fused tree**, or stops where that has none. -/
theorem Fragment.combine_simulates {operator : String} {op : BinOp} {l r : Item} {a b : Expr}
    (hl : l.Denotes garbage st.contents s (.value a))
    (hr : r.Denotes garbage st.contents s (.value b))
    (hs : Simulates garbage st s U) (hU : U → U')
    (hundef : (Expr.binary op a b).eval st.contents = none → U') :
    Ensures s (combine operator op.mnemonic l r)
      (fun t s' => s.Extends s' ∧
        (Value.temp t).Denotes garbage st.contents s' (.binary op a b) ∧
        Simulates garbage st s' U')
      fun _ _ => True := by
  rw [combine_of_operands hl.isOperand hr.isOperand]
  refine (Item.fetch_simulates hl hs).bind ?_
  rintro v s₁ ⟨hext₁, hv, hs₁⟩
  refine (Item.fetch_simulates (hr.extend hext₁) hs₁).bind ?_
  rintro w s₂ ⟨hext₂, hw, hs₂⟩
  have hv := hv.extend hext₂
  have hexec : ∀ m, s₂.outcome garbage = .ok m →
      Instr.exec garbage m (.binary op ⟨s₂.nextTemp⟩ v w) =
        ((Expr.binary op a b).eval st.contents).elim (.error .undefined)
          fun z => .ok (m.define ⟨s₂.nextTemp⟩ z) := by
    intro m hm
    obtain ⟨x, hx, hax⟩ := hv.2 m hm
    obtain ⟨y, hy, hby⟩ := hw.2 m hm
    cases hz : op.apply x y <;> simp [Instr.exec, Expr.eval, hx, hy, hax, hby, hz]
  have hdefine : Simulates garbage st (s₂.define (.binary op · v w)) U' := by
    refine hs₂.define hU fun m hm _ => ?_
    cases hz : (Expr.binary op a b).eval st.contents with
    | some z => exact Or.inl ⟨z, by simp [hexec m hm, hz]⟩
    | none => exact Or.inr ⟨hundef hz, by simp [hexec m hm, hz]⟩
  refine Ensures.of_ok rfl ⟨.define (hext₁.trans hext₂) _ fun _ => rfl, ⟨fun t ht => ?_,
    fun m' hm' => ?_⟩, hdefine⟩
  · cases ht
    exact Int.lt_succ _
  · obtain ⟨m, hm, hm'⟩ := Session.outcome_define_eq_ok_iff.mp hm'
    rw [hexec m hm] at hm'
    cases hz : (Expr.binary op a b).eval st.contents with
    | none => simp [hz] at hm'
    | some z =>
      rw [hz] at hm'
      cases hm'
      exact ⟨z, by simp [Machine.word?], rfl⟩

/-! ## Sweeps and levels -/

/-- Some tree in a row has no value. -/
def Undefined (contents : String → Word) (row : List Piece) : Prop :=
  ∃ e, value e ∈ row ∧ e.eval contents = none

theorem Undefined.cons {contents : String → Word} {row : List Piece} (p : Piece)
    (h : Undefined contents row) : Undefined contents (p :: row) := by
  obtain ⟨e, he, hnone⟩ := h
  exact ⟨e, List.mem_cons_of_mem p he, hnone⟩

/-- A fused tree has no value if one of its parts has none. -/
theorem Undefined.splice {contents : String → Word} {f g : List Piece} {a b : Expr} {op : BinOp}
    (h : Undefined contents (f ++ value a :: sign op :: value b :: g)) :
    Undefined contents (f ++ value (.binary op a b) :: g) := by
  obtain ⟨e, he, hnone⟩ := h
  have hfused : (e = a ∨ e = b) → (Expr.binary op a b).eval contents = none := by
    rintro (rfl | rfl)
    · simp [Expr.eval, hnone]
    · cases ha : a.eval contents <;> simp [Expr.eval, hnone, ha]
  simp only [List.mem_append, List.mem_cons, value.injEq, reduceCtorEq, false_or] at he
  rcases he with he | rfl | rfl | he
  · exact ⟨e, by simp [he], hnone⟩
  · exact ⟨_, by simp, hfused (Or.inl rfl)⟩
  · exact ⟨_, by simp, hfused (Or.inr rfl)⟩
  · exact ⟨e, by simp [he], hnone⟩

/-- A fragment stands for a row, item by item. -/
def Fragment.Denotes (garbage : String → Word) (contents : String → Word) (s : Session)
    (f : Fragment) (row : List Piece) : Prop :=
  List.Forall₂ (Item.Denotes garbage contents s) f row

theorem Fragment.Denotes.extend {contents : String → Word} {f : Fragment} {row : List Piece}
    (h : f.Denotes garbage contents s row) (hext : s.Extends s') :
    f.Denotes garbage contents s' row :=
  List.Forall₂.imp (fun _ _ hx => Item.Denotes.extend hx hext) h

namespace Fragment

variable {contents : String → Word} {f g : Fragment} {row : List Piece}

/-- The parts of a fragment stand for the parts of its row. -/
theorem Denotes.split (h : Denotes garbage contents s (f ++ g) row) :
    ∃ row₁ row₂, row = row₁ ++ row₂ ∧ f.Denotes garbage contents s row₁ ∧
      g.Denotes garbage contents s row₂ := by
  refine ⟨row.take f.length, row.drop f.length, (List.take_append_drop _ _).symm, ?_, ?_⟩
  · simpa [Denotes] using List.forall₂_take f.length h
  · simpa [Denotes] using List.forall₂_drop f.length h

theorem Denotes.append {row' : List Piece} (h : f.Denotes garbage contents s row)
    (h' : g.Denotes garbage contents s row') : Denotes garbage contents s (f ++ g) (row ++ row') :=
  List.rel_append h h'

/-- An operator is in the row if it is in the fragment. -/
theorem Denotes.sign_mem_iff {op : BinOp} (h : f.Denotes garbage contents s row) :
    sign op ∈ row ↔ ∃ y ∈ f, y.hasKind op.sign = true := by
  induction h with
  | nil => simp
  | cons hx _ ih =>
    have hfirst : Item.hasKind op.sign _ = true ↔ sign op = _ := hx.hasKind_iff.trans eq_comm
    simp [ih, hfirst]

theorem Denotes.sign_notMem {op : BinOp} (h : f.Denotes garbage contents s row)
    (hf : ∀ y ∈ f, y.hasKind op.sign = false) : sign op ∉ row := by
  intro hmem
  obtain ⟨y, hy, hyk⟩ := h.sign_mem_iff.mp hmem
  rw [hf y hy] at hyk
  cases hyk

/-- What a sweep keeps: the items stand for a row that fuses to the same as the one at the start. -/
theorem sweepInvariant_simulates (op : BinOp) (s₀ : Session) (row₀ : List Piece) :
    SweepInvariant op.sign op
      (fun f s => s₀.Extends s ∧ ∃ row, fuse op row = fuse op row₀ ∧
        f.Denotes garbage st.contents s row ∧
        Simulates garbage st s (U ∨ Undefined st.contents row))
      fun _ _ => True where
  edge _ _ _ _ := trivial
  step {f g left x right s} hf _ hx h := by
    obtain ⟨hext, row, hfuse, hden, hs⟩ := h
    obtain ⟨row₁, back, rfl, h₁, hback⟩ := hden.split
    obtain ⟨p, back', hp, hback', rfl⟩ := List.forall₂_cons_left_iff.mp hback
    obtain ⟨q, back'', hq, hback'', rfl⟩ := List.forall₂_cons_left_iff.mp hback'
    obtain ⟨r, row₂, hr, h₂, rfl⟩ := List.forall₂_cons_left_iff.mp hback''
    obtain rfl : q = sign op := hq.hasKind_iff.mp hx
    by_cases hop : left.isOperand = true ∧ right.isOperand = true
    · obtain ⟨a, rfl⟩ := hp.exists_value hop.1
      obtain ⟨b, rfl⟩ := hr.exists_value hop.2
      have hcombine : Ensures s (combine x.text op.mnemonic left right) _ _ :=
        combine_simulates hp hr hs (Or.imp_right Undefined.splice) fun hnone =>
          Or.inr ⟨_, by simp, hnone⟩
      refine hcombine.mono ?_ fun _ _ _ => trivial
      rintro t s' ⟨hext', ht, hs'⟩
      refine ⟨hext.trans hext', _, ?_, ?_, hs'⟩
      · rw [← fuse_splice (h₁.sign_notMem hf), hfuse]
      · exact (h₁.extend hext').append (.cons ht (Denotes.extend h₂ hext'))
    · exact Ensures.of_error (combine_of_not hop) trivial

/-- **A sweep leaves items that stand for the fused row.** -/
theorem eliminate_simulates (op : BinOp) (hf : f.Denotes garbage st.contents s row)
    (hs : Simulates garbage st s (U ∨ Undefined st.contents row)) :
    Ensures s (f.eliminate op.sign op)
      (fun f' s' => s.Extends s' ∧ f'.Denotes garbage st.contents s' (fuse op row) ∧
        Simulates garbage st s' (U ∨ Undefined st.contents (fuse op row)))
      fun _ _ => True := by
  refine ((sweepInvariant_simulates op s row).eliminate ⟨.refl, row, rfl, hf, hs⟩).mono
    (fun f' s' h => ?_) fun _ _ _ => trivial
  obtain ⟨⟨hext, row', hfuse, hden, hs'⟩, hnone⟩ := h
  rw [fuse_of_notMem (hden.sign_notMem hnone)] at hfuse
  subst hfuse
  exact ⟨hext, hden, hs'⟩

/-- **The four sweeps leave an item that stands for the tree of the row.** -/
theorem lowerFlat_simulates {e : Expr} (hf : f.Denotes garbage st.contents s row)
    (hrow : Tier.sum.fuse row = [.value e])
    (hs : Simulates garbage st s (U ∨ Undefined st.contents row)) :
    Ensures s f.lowerFlat
      (fun x s' => s.Extends s' ∧ x.Denotes garbage st.contents s' (.value e) ∧
        Simulates garbage st s' (U ∨ e.eval st.contents = none))
      fun _ _ => True := by
  unfold lowerFlat
  refine (eliminate_simulates .mul hf hs).bind ?_
  rintro f₁ s₁ ⟨hext₁, hf₁, hs₁⟩
  refine (eliminate_simulates .sdiv hf₁ hs₁).bind ?_
  rintro f₂ s₂ ⟨hext₂, hf₂, hs₂⟩
  refine (eliminate_simulates .sub hf₂ hs₂).bind ?_
  rintro f₃ s₃ ⟨hext₃, hf₃, hs₃⟩
  refine (eliminate_simulates .add hf₃ hs₃).bind ?_
  rintro f₄ s₄ ⟨hext₄, hf₄, hs₄⟩
  have hfused : fuse .add (fuse .sub (fuse .sdiv (fuse .mul row))) = [.value e] := hrow
  rw [hfused] at hf₄ hs₄
  obtain ⟨x, _, hx, hnil, rfl⟩ := List.forall₂_cons_right_iff.mp hf₄
  obtain rfl := List.forall₂_nil_right_iff.mp hnil
  refine Ensures.of_ok rfl ⟨hext₁.trans (hext₂.trans (hext₃.trans hext₄)), hx, hs₄.mono ?_⟩
  refine Or.imp_right ?_
  rintro ⟨e', he', hnone⟩
  obtain rfl : e' = e := by simpa using he'
  exact hnone

end Fragment

/-- **A level of a forest stands for its row** once the groups are lowered. -/
theorem Forest.Row.level_simulates {t : Forest} {row : List Piece} (h : t.Row row)
    (hs : Simulates garbage st s U) :
    Ensures s t.level
      (fun f s' => s.Extends s' ∧ f.Denotes garbage st.contents s' row ∧
        Simulates garbage st s' (U ∨ Undefined st.contents row))
      fun _ _ => True := by
  induction h generalizing s U with
  | nil => exact Ensures.of_ok rfl ⟨.refl, .nil, hs.mono Or.inl⟩
  | operand _ ih =>
    refine (ih hs).bind ?_
    rintro back s₁ ⟨hext, hback, hs₁⟩
    refine Ensures.of_ok rfl ?_
    exact ⟨hext, .cons ⟨rfl, rfl⟩ hback, hs₁.mono (Or.imp_right (Undefined.cons _))⟩
  | @sign text _ _ op _ ih =>
    refine (ih hs).bind ?_
    rintro back s₁ ⟨hext, hback, hs₁⟩
    refine Ensures.of_ok rfl ?_
    have hsign : Item.Denotes garbage st.contents s₁ (.token ⟨op.sign, text⟩) (.sign op) := rfl
    exact ⟨hext, .cons hsign hback, hs₁.mono (Or.imp_right (Undefined.cons _))⟩
  | @group _ _ _ _ e _ he _ ih ih' =>
    -- what is undefined on the right stays so while the group is lowered
    refine (ih' hs).bind ?_
    rintro back s₁ ⟨hext₁, hback, hs₁⟩
    refine (ih hs₁).bind ?_
    rintro front s₂ ⟨hext₂, hfront, hs₂⟩
    refine (Fragment.lowerFlat_simulates hfront he hs₂).bind ?_
    rintro x s₃ ⟨hext₃, hx, hs₃⟩
    have hback' := Fragment.Denotes.extend hback (hext₂.trans hext₃)
    refine Ensures.of_ok rfl ⟨hext₁.trans (hext₂.trans hext₃), .cons hx hback', hs₃.mono ?_⟩
    rintro ((hu | hundef) | hnone)
    · exact Or.inl hu
    · exact Or.inr (hundef.cons _)
    · exact Or.inr ⟨e, by simp, hnone⟩

/-- **The code of an expression computes its value**, or stops in the current line if there is
none. -/
theorem Forest.Spells.value_simulates {t : Forest} {f : Fragment} {row : List Piece} {e : Expr}
    (ht : t.Spells f) (h : t.Row row) (hrow : Tier.sum.fuse row = [.value e]) {m : Machine}
    (hm : s.outcome garbage = .ok m) (htracks : Tracks garbage st s m) :
    Ensures s f.value
      (fun v s' => s.Extends s' ∧
        match e.eval st.contents with
        | some w => ∃ m', s'.outcome garbage = .ok m' ∧ Tracks garbage st s' m' ∧
          m'.word? v = some w
        | none => s'.outcome garbage = .error ⟨s'.line, .undefined, st.output⟩)
      fun _ _ => True := by
  unfold Fragment.value
  rw [ht.lower_eq_compile]
  -- the code has not stopped so far, so a stop is due to the expression
  have hs : Simulates garbage st s False := Or.inl ⟨m, hm, htracks⟩
  have hcompile : Ensures s t.compile
      (fun x s₂ => s.Extends s₂ ∧ x.Denotes garbage st.contents s₂ (.value e) ∧
        Simulates garbage st s₂ (False ∨ e.eval st.contents = none)) fun _ _ => True := by
    refine (h.level_simulates hs).bind ?_
    rintro level s₁ ⟨hext₁, hlevel, hs₁⟩
    refine (Fragment.lowerFlat_simulates hlevel hrow hs₁).mono ?_ fun _ _ h => h
    rintro x s₂ ⟨hext₂, hx, hs₂⟩
    exact ⟨hext₁.trans hext₂, hx, hs₂⟩
  refine hcompile.bind ?_
  rintro x s₂ ⟨hext₂, hx, hs₂⟩
  refine (Item.fetch_simulates hx hs₂).mono ?_ fun _ _ h => h
  rintro v s₃ ⟨hext₃, hv, hs₃⟩
  refine ⟨hext₂.trans hext₃, ?_⟩
  rcases hs₃ with ⟨m', hm', ht'⟩ | ⟨hnone | hnone, hstop⟩
  · obtain ⟨w, hw, he⟩ := hv.2 m' hm'
    rw [he]
    exact ⟨m', hm', ht', hw⟩
  · exact hnone.elim
  · rw [hnone]
    exact hstop

end Denote

end Abacus
