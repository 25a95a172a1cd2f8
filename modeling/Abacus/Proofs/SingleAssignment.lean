import Mathlib.Data.List.Nodup
import Abacus.Proofs.Forest
import Abacus.Proofs.Lexing

/-!
# Single assignment

In every session that statements have worked on, the log and the declared names are kept in step:
the names are those that the instructions define, in order, temporaries are numbered from one
without a gap, nothing is used before it is defined, and no two instructions have the same name on
their left-hand side. A statement that fails keeps all this, whatever it did before it failed.

## Main definitions

* `Instr.defined?`, `Instr.leftHand?`: the name that an instruction declares, and how it is written
* `Instr.temps`, `Instr.slot?`: the temporaries and the slot that an instruction uses
* `SingleAssignment`: the invariant of a session
* `Session.attempt`, `Session.afterAll`: a session after a statement, and after several of them

## Main results

* `decimal_injective`: the decimal text of an integer determines it
* `Temp.name_injective`, `isName_repr`: names of temporaries differ from each other and from the
  names of variables
* `singleAssignment_afterAll`: the invariant holds after any statements, failing ones included
-/

namespace Abacus

/-! ## Names -/

theorem eq_of_repr_eq {m n : Nat} (h : m.repr = n.repr) : m = n := by
  have hdigits : Nat.toDigits 10 m = Nat.toDigits 10 n := by
    rw [← Nat.toList_repr, ← Nat.toList_repr, h]
  rw [← Nat.ofDigitChars_ten_toDigits (n := m), hdigits, Nat.ofDigitChars_ten_toDigits]

/-- The text of a natural number has no sign. -/
theorem repr_ne_minus_append (m n : Nat) : m.repr ≠ "-" ++ n.repr := by
  intro h
  have hmem : '-' ∈ Nat.toDigits 10 m := by
    rw [← Nat.toList_repr, h]
    simp
  exact absurd (Nat.isDigit_of_mem_toDigits (by decide) (by decide) hmem) (by decide)

/-- The decimal text of an integer determines it. The library's own lemma comes only with the whole
of Mathlib. -/
theorem decimal_injective : Function.Injective Int.repr := by
  intro m n h
  cases m with
  | ofNat m =>
    cases n with
    | ofNat n => rw [eq_of_repr_eq h]
    | negSucc n => exact absurd h (repr_ne_minus_append m (n + 1))
  | negSucc m =>
    cases n with
    | ofNat n => exact absurd h.symm (repr_ne_minus_append n (m + 1))
    | negSucc n =>
      have hsucc : m + 1 = n + 1 := eq_of_repr_eq ((String.append_right_inj "-").mp h)
      rw [Nat.succ.inj hsucc]

theorem Temp.name_injective : Function.Injective Temp.name := by
  rintro ⟨m⟩ ⟨n⟩ h
  have hrepr : m.repr = n.repr := (String.append_right_inj "%").mp h
  rw [decimal_injective hrepr]

/-- A number is no name. -/
theorem isName_repr (n : Nat) : isName n.repr = false := by
  have hdigits := Nat.toList_repr (n := n)
  cases hcs : Nat.toDigits 10 n with
  | nil => exact absurd hcs Nat.toDigits_ne_nil
  | cons c cs =>
    have hc : c.isDigit = true :=
      Nat.isDigit_of_mem_toDigits (b := 10) (n := n) (by omega) (by omega) (by simp [hcs])
    simp [isName, hdigits, hcs, isNameStart_of_isDigit hc]

/-! ## What an instruction defines and uses -/

/-- The temporaries in a value. -/
def Value.temps : Value → List Temp
  | const _ => []
  | temp t => [t]

namespace Instr

/-- The name that an instruction declares: that of its slot, or that of its result. -/
def defined? : Instr → Option String
  | alloca slot => some slot.name
  | instr => instr.result?.map Temp.name

/-- The name on the left-hand side of an instruction's text. -/
def leftHand? : Instr → Option String
  | alloca slot => some slot.text
  | instr => instr.result?.map Temp.name

/-- The temporaries that an instruction uses. -/
def temps : Instr → List Temp
  | store value _ | print _ value | bareValue value => value.temps
  | binary _ _ left right => left.temps ++ right.temps
  | alloca _ | load _ _ | bareSlot _ => []

/-- The slot that an instruction reads or writes. -/
def slot? : Instr → Option Slot
  | store _ slot | load _ slot => some slot
  | _ => none

/-- An instruction with a left-hand side is written as a definition of it. -/
theorem text_of_leftHand? {instr : Instr} {name : String} (h : instr.leftHand? = some name) :
    ∃ rest, instr.text = name ++ " = " ++ rest := by
  cases instr with
  | alloca slot =>
    cases h
    exact ⟨"alloca i32", by simp [text, String.append_assoc]⟩
  | load result slot =>
    cases h
    have hsplit : " = load i32* " = " = " ++ "load i32* " := by decide
    exact ⟨"load i32* " ++ slot.text, by simp only [text, hsplit, String.append_assoc]⟩
  | binary op result left right =>
    cases h
    exact ⟨op.mnemonic ++ " i32 " ++ left.text ++ ", " ++ right.text, by
      simp only [text, String.append_assoc]⟩
  | print result value =>
    cases h
    have hsplit : " = call i32 (i8*, ...)* @printf(i8* getelementptr ([4 x i8]* @print.str, " =
        " = " ++ "call i32 (i8*, ...)* @printf(i8* getelementptr ([4 x i8]* @print.str, " := by
      decide
    exact ⟨_, by simp only [text, hsplit, String.append_assoc]; rfl⟩
  | store value slot => cases h
  | bareValue value => cases h
  | bareSlot slot => cases h

theorem defined?_of_result? {instr : Instr} {t : Temp} (h : instr.result? = some t) :
    instr.defined? = some t.name := by
  cases instr <;> simp_all [result?, defined?]

/-- An instruction that declares a name reserves the slot of that name or defines a temporary of
that name. -/
theorem of_defined? {instr : Instr} {name : String} (h : instr.defined? = some name) :
    instr = alloca ⟨name⟩ ∨ ∃ t, instr.result? = some t ∧ name = t.name := by
  cases instr <;> simp_all [result?, defined?, eq_comm]

theorem of_leftHand? {instr : Instr} {name : String} (h : instr.leftHand? = some name) :
    (∃ slot, instr = alloca slot ∧ name = slot.text) ∨
      ∃ t, instr.result? = some t ∧ name = t.name := by
  cases instr <;> simp_all [result?, leftHand?, eq_comm]

end Instr

/-! ## The invariant -/

/-- What an instruction uses is defined before it. -/
structure UsesDefined (before : List Instr) (instr : Instr) : Prop where
  temps : ∀ t ∈ instr.temps, ∃ i ∈ before, i.result? = some t
  slot : ∀ slot, instr.slot? = some slot → .alloca slot ∈ before

/-- Every instruction uses only what is defined before it. -/
def Ordered (code : List Instr) : Prop :=
  ∀ before instr after, code = before ++ instr :: after → UsesDefined before instr

theorem Ordered.snoc {code : List Instr} {instr : Instr} (h : Ordered code)
    (hu : UsesDefined code instr) : Ordered (code ++ [instr]) := by
  intro before i after heq
  rcases List.eq_nil_or_concat after with rfl | ⟨after', z, rfl⟩
  · obtain ⟨rfl, hi⟩ := List.append_inj' heq rfl
    cases hi
    exact hu
  · rw [List.concat_eq_append, ← List.cons_append, ← List.append_assoc] at heq
    obtain ⟨hcode, -⟩ := List.append_inj' heq rfl
    exact h before i after' hcode

/-- **Single assignment.** -/
structure SingleAssignment (s : Session) : Prop where
  /-- The declared names are those that the instructions define, in the same order. -/
  names_eq : s.scope.names = s.code.filterMap Instr.defined?
  /-- The results are numbered from one without a gap, and the next temporary comes after them. -/
  results_eq : ∃ n : Nat, s.nextTemp = n + 1 ∧
    s.code.filterMap Instr.result? = (List.range n).map fun i => ⟨(i + 1 : Nat)⟩
  /-- A temporary is used only after the instruction that defines it. -/
  temps_defined : ∀ before instr after, s.code = before ++ instr :: after →
    ∀ t ∈ instr.temps, ∃ i ∈ before, i.result? = some t
  /-- A slot is reserved once, before it is used. -/
  slots_reserved : ∀ before instr after, s.code = before ++ instr :: after →
    ∀ slot, instr.slot? = some slot → .alloca slot ∈ before ∧ s.code.count (.alloca slot) = 1
  /-- No two left-hand sides are the same. -/
  leftHands_nodup : (s.code.filterMap Instr.leftHand?).Nodup
  /-- The left-hand sides are what the texts of the instructions begin with. -/
  leftHands_text : ∀ instr ∈ s.code, ∀ name, instr.leftHand? = some name →
    ∃ rest, instr.text = name ++ " = " ++ rest

/-- What every step keeps. The rest of `SingleAssignment` follows from it, because no name is
declared twice and the reserved slots belong to names. -/
structure InStep (s : Session) : Prop where
  names_eq : s.scope.names = s.code.filterMap Instr.defined?
  results_eq : ∃ n : Nat, s.nextTemp = n + 1 ∧
    s.code.filterMap Instr.result? = (List.range n).map fun i => ⟨(i + 1 : Nat)⟩
  ordered : Ordered s.code
  named : ∀ slot, .alloca slot ∈ s.code → isName slot.name = true

namespace InStep

variable {s : Session}

theorem fresh : InStep {} where
  names_eq := rfl
  results_eq := ⟨0, rfl, rfl⟩
  ordered := fun before instr after h => by simp [Session.code] at h
  named := fun slot h => by simp [Session.code] at h

theorem setLine (h : InStep s) (line : Int) : InStep { s with line := line } :=
  ⟨h.names_eq, h.results_eq, h.ordered, h.named⟩

/-- A declared source variable has a slot. -/
theorem alloca_mem (h : InStep s) {name : String} (hn : name ∈ s.scope.sourceNames) :
    .alloca ⟨name⟩ ∈ s.code := by
  obtain ⟨hmem, hsource⟩ := Scope.mem_sourceNames.mp hn
  rw [Scope.mem_def, h.names_eq] at hmem
  obtain ⟨instr, hinstr, hdef⟩ := List.mem_filterMap.mp hmem
  rcases Instr.of_defined? hdef with rfl | ⟨t, -, rfl⟩
  · exact hinstr
  · simp at hsource

/-- What has a slot is a declared source variable. -/
theorem mem_sourceNames (h : InStep s) {name : String} (hslot : .alloca ⟨name⟩ ∈ s.code) :
    name ∈ s.scope.sourceNames := by
  refine Scope.mem_sourceNames.mpr ⟨?_, isTemporary_of_isName (h.named _ hslot)⟩
  rw [Scope.mem_def, h.names_eq]
  exact List.mem_filterMap.mpr ⟨_, hslot, rfl⟩

/-- A result has one of the numbers before that of the next temporary. -/
theorem exists_of_result? (h : InStep s) {instr : Instr} {t : Temp} (hinstr : instr ∈ s.code)
    (ht : instr.result? = some t) : ∃ i : Nat, t = ⟨(i + 1 : Nat)⟩ ∧ t.id < s.nextTemp := by
  obtain ⟨n, hn, hresults⟩ := h.results_eq
  have hmem : t ∈ s.code.filterMap Instr.result? := List.mem_filterMap.mpr ⟨instr, hinstr, ht⟩
  rw [hresults, List.mem_map] at hmem
  obtain ⟨i, hi, rfl⟩ := hmem
  rw [List.mem_range] at hi
  exact ⟨i, rfl, by simp only [hn]; omega⟩

/-- No two instructions have the same result. -/
theorem result?_ne (h : InStep s) {before after : List Instr} {instr : Instr} {t : Temp}
    (hcode : s.code = before ++ instr :: after) (ht : instr.result? = some t) :
    ∀ i ∈ before ++ after, i.result? ≠ some t := by
  obtain ⟨n, -, hresults⟩ := h.results_eq
  have hnodup : (s.code.filterMap Instr.result?).Nodup := by
    rw [hresults]
    refine List.Nodup.map (fun i j hij => ?_) List.nodup_range
    have hij' : ((i + 1 : Nat) : Int) = (j + 1 : Nat) := congrArg Temp.id hij
    omega
  rw [hcode, List.filterMap_append, List.filterMap_cons_some ht, List.nodup_middle,
    List.nodup_cons, ← List.filterMap_append] at hnodup
  intro i hi hit
  exact hnodup.1 (List.mem_filterMap.mpr ⟨i, hi, hit⟩)

/-- The name of the next temporary is new. -/
theorem nextTemp_notMem (h : InStep s) : Temp.name ⟨s.nextTemp⟩ ∉ s.scope := by
  intro hmem
  rw [Scope.mem_def, h.names_eq] at hmem
  obtain ⟨instr, hinstr, hdef⟩ := List.mem_filterMap.mp hmem
  rcases Instr.of_defined? hdef with rfl | ⟨t, ht, hname⟩
  · have hname := isTemporary_of_isName (h.named _ hinstr)
    simp at hname
  · obtain ⟨i, -, hlt⟩ := h.exists_of_result? hinstr ht
    have hid : s.nextTemp = t.id := congrArg Temp.id (Temp.name_injective hname)
    omega

/-- **One more instruction.** It declares the name that is new in the scope, it defines the next
temporary or none, and it uses only what is defined. -/
theorem snoc {s' : Session} (h : InStep s) {instr : Instr} (hcode : s'.code = s.code ++ [instr])
    (hnames : s'.scope.names = s.scope.names ++ instr.defined?.toList)
    (hresult : instr.result? = none ∧ s'.nextTemp = s.nextTemp ∨
      instr.result? = some ⟨s.nextTemp⟩ ∧ s'.nextTemp = s.nextTemp + 1)
    (hu : UsesDefined s.code instr)
    (hslot : ∀ slot, instr = .alloca slot → isName slot.name = true) : InStep s' where
  names_eq := by
    rw [hnames, hcode, List.filterMap_append, h.names_eq]
    cases hdef : instr.defined? <;> simp [hdef]
  results_eq := by
    obtain ⟨n, hn, hresults⟩ := h.results_eq
    rcases hresult with ⟨hnone, hnext⟩ | ⟨hsome, hnext⟩
    · refine ⟨n, hnext.trans hn, ?_⟩
      simp [hcode, List.filterMap_append, hresults, hnone]
    · refine ⟨n + 1, by simp [hnext, hn], ?_⟩
      rw [hcode, List.filterMap_append, hresults, List.range_succ, List.map_append]
      simp [hsome, hn]
  ordered := by
    rw [hcode]
    exact h.ordered.snoc hu
  named := by
    intro slot hmem
    rw [hcode, List.mem_append, List.mem_singleton] at hmem
    rcases hmem with hmem | heq
    · exact h.named slot hmem
    · exact hslot slot heq.symm

/-- An instruction that defines the next temporary. -/
theorem define (h : InStep s) {mk : Temp → Instr} (hr : ∀ t, (mk t).result? = some t)
    (hu : UsesDefined s.code (mk ⟨s.nextTemp⟩)) : InStep (s.define mk) := by
  refine h.snoc (Session.define_code ..) ?_ (Or.inr ⟨hr _, rfl⟩) hu ?_
  · rw [Session.define_scope, Scope.names_insert_of_notMem h.nextTemp_notMem,
      Instr.defined?_of_result? (hr _), Option.toList_some]
  · intro slot heq
    have hres := hr ⟨s.nextTemp⟩
    rw [heq] at hres
    cases hres

/-- A store into a reserved slot. -/
theorem store (h : InStep s) {v : Value} {slot : Slot}
    (hu : UsesDefined s.code (.store v slot)) : InStep (s.append (.store v slot)) :=
  h.snoc (Session.append_code ..) (List.append_nil _).symm (Or.inl ⟨rfl, rfl⟩) hu nofun

/-- The reservation of a slot for a new name. -/
theorem reserve (h : InStep s) {name : String} (hn : isName name = true) (hnew : name ∉ s.scope) :
    InStep ({ s with scope := s.scope.insert name }.append (.alloca ⟨name⟩)) := by
  refine h.snoc (Session.append_code ..) ?_ (Or.inl ⟨rfl, rfl⟩) ⟨nofun, nofun⟩ ?_
  · exact Scope.names_insert_of_notMem hnew
  · intro slot heq
    cases heq
    exact hn

/-- The text of a slot is not the name of a temporary. -/
theorem slot_text_ne_name (h : InStep s) {slot : Slot} {instr : Instr} {t : Temp}
    (hslot : .alloca slot ∈ s.code) (hinstr : instr ∈ s.code) (ht : instr.result? = some t) :
    slot.text ≠ t.name := by
  intro heq
  obtain ⟨i, rfl, -⟩ := h.exists_of_result? hinstr ht
  have hname : slot.name = (i + 1).repr := (String.append_right_inj "%").mp heq
  have hslotName := h.named slot hslot
  rw [hname, isName_repr] at hslotName
  cases hslotName

theorem leftHands_nodup (h : InStep s) : (s.code.filterMap Instr.leftHand?).Nodup := by
  have hnames : (s.code.filterMap Instr.defined?).Nodup := h.names_eq ▸ s.scope.nodup
  rw [List.Nodup, List.pairwise_filterMap] at hnames ⊢
  refine hnames.imp_of_mem ?_
  intro a b ha hb hab x hx y hy
  rcases Instr.of_leftHand? hx with ⟨slot, rfl, rfl⟩ | ⟨t, ht, rfl⟩ <;>
    rcases Instr.of_leftHand? hy with ⟨slot', rfl, rfl⟩ | ⟨t', ht', rfl⟩
  · intro heq
    exact hab _ rfl _ rfl ((String.append_right_inj "%").mp heq)
  · exact h.slot_text_ne_name ha hb ht'
  · exact (h.slot_text_ne_name hb ha ht).symm
  · exact hab _ (Instr.defined?_of_result? ht) _ (Instr.defined?_of_result? ht')

theorem count_alloca (h : InStep s) {slot : Slot} (hslot : .alloca slot ∈ s.code) :
    s.code.count (.alloca slot) = 1 := by
  have hnames : (s.code.filterMap Instr.defined?).Nodup := h.names_eq ▸ s.scope.nodup
  -- every reservation of the slot declares its name, and no name is declared twice
  have hle : s.code.count (.alloca slot) ≤
      (s.code.filterMap Instr.defined?).count slot.name := by
    rw [List.count_filterMap, List.count]
    refine List.countP_mono_left fun instr _ hinstr => ?_
    rw [eq_of_beq hinstr]
    exact beq_self_eq_true _
  have hone := List.nodup_iff_count_le_one.mp hnames slot.name
  have hpos := List.count_pos_iff.mpr hslot
  omega

theorem singleAssignment (h : InStep s) : SingleAssignment s where
  names_eq := h.names_eq
  results_eq := h.results_eq
  temps_defined before instr after heq := (h.ordered before instr after heq).temps
  slots_reserved before instr after heq slot hslot := by
    have hmem := (h.ordered before instr after heq).slot slot hslot
    exact ⟨hmem, h.count_alloca (by simp [heq, hmem])⟩
  leftHands_nodup := h.leftHands_nodup
  leftHands_text _ _ _ := Instr.text_of_leftHand?

end InStep

/-! ## What the steps of a lowering keep -/

open Lowering (Ensures)

/-- The session `s'` is in step and holds all that `s` held. -/
structure Kept (s s' : Session) : Prop where
  inStep : InStep s'
  log_le : s.log <+: s'.log

/-- A temporary that some instruction of the session defines. -/
def Temp.Live (s : Session) (t : Temp) : Prop :=
  ∃ i ∈ s.code, i.result? = some t

/-- The temporaries of a value are defined. -/
def Value.Live (s : Session) (v : Value) : Prop :=
  ∀ t ∈ v.temps, t.Live s

/-- The temporaries of a fragment are defined. -/
def Fragment.Live (s : Session) (f : Fragment) : Prop :=
  ∀ t, .temp t ∈ f → t.Live s

section Keep

variable {s s₁ s₂ : Session}

theorem Kept.refl (h : InStep s) : Kept s s := ⟨h, List.prefix_refl _⟩

theorem Kept.trans (h : Kept s s₁) (h' : Kept s₁ s₂) : Kept s s₂ :=
  ⟨h'.inStep, h.log_le.trans h'.log_le⟩

theorem Kept.code_le (h : Kept s s₁) : s.code <+: s₁.code :=
  h.log_le.map _

/-- What a step keeps of its own session, it keeps of an earlier one. -/
theorem Kept.after {α : Type} {x : Lowering α} {ok : α → Session → Prop} (h : Kept s s₁)
    (hx : Ensures s₁ x (fun a s₂ => Kept s₁ s₂ ∧ ok a s₂) fun _ s₂ => Kept s₁ s₂) :
    Ensures s₁ x (fun a s₂ => Kept s₁ s₂ ∧ Kept s s₂ ∧ ok a s₂) fun _ s₂ => Kept s s₂ :=
  hx.mono (fun _ _ hok => ⟨hok.1, h.trans hok.1, hok.2⟩) fun _ _ hfail => h.trans hfail

theorem Temp.Live.mono {t : Temp} (h : t.Live s) (hk : Kept s s₁) : t.Live s₁ := by
  obtain ⟨i, hi, ht⟩ := h
  exact ⟨i, hk.code_le.subset hi, ht⟩

theorem Value.Live.mono {v : Value} (h : v.Live s) (hk : Kept s s₁) : v.Live s₁ :=
  fun t ht => (h t ht).mono hk

theorem Fragment.Live.mono {f : Fragment} (h : Fragment.Live s f) (hk : Kept s s₁) :
    Fragment.Live s₁ f :=
  fun t ht => (h t ht).mono hk

/-- A defining instruction keeps the session, and its temporary is defined from then on. -/
theorem Kept.define (h : InStep s) (mk : Temp → Instr) (hr : ∀ t, (mk t).result? = some t)
    (hu : UsesDefined s.code (mk ⟨s.nextTemp⟩)) :
    Kept s (s.define mk) ∧ Temp.Live (s.define mk) ⟨s.nextTemp⟩ := by
  refine ⟨⟨h.define hr hu, by simp⟩, mk ⟨s.nextTemp⟩, by simp, hr _⟩

theorem Item.fetch_keeps (h : InStep s) {x : Item} (hx : Fragment.Live s [x]) :
    Ensures s x.fetch (fun v s' => Kept s s' ∧ v.Live s') fun _ s' => Kept s s' := by
  cases hf : x.fetch s with
  | error fault s' =>
    rw [eq_of_fetch_eq_error hf] at hf
    exact Ensures.of_error hf (Kept.refl h)
  | ok v s' =>
    refine Ensures.of_ok hf ?_
    rcases fetch_eq_ok_iff.mp hf with ⟨t, rfl, rfl, rfl⟩ | ⟨t, n, rfl, -, rfl, rfl⟩ |
      ⟨t, rfl, -, hv, rfl, rfl⟩
    · refine ⟨Kept.refl h, ?_⟩
      intro t' ht'
      rw [List.mem_singleton.mp ht']
      exact hx t (by simp)
    · exact ⟨Kept.refl h, nofun⟩
    · have hu : UsesDefined s.code (.load ⟨s.nextTemp⟩ ⟨t.text⟩) := by
        refine ⟨nofun, ?_⟩
        intro slot hs
        cases hs
        exact h.alloca_mem hv
      obtain ⟨hk, hl⟩ := Kept.define h (.load · ⟨t.text⟩) (fun _ => rfl) hu
      refine ⟨hk, ?_⟩
      intro t' ht'
      rw [List.mem_singleton.mp ht']
      exact hl

theorem Fragment.combine_keeps (h : InStep s) {operator : String} {op : BinOp}
    {left right : Item} (hl : Fragment.Live s [left]) (hr : Fragment.Live s [right]) :
    Ensures s (combine operator op.mnemonic left right) (fun t s' => Kept s s' ∧ t.Live s')
      fun _ s' => Kept s s' := by
  by_cases ho : left.isOperand = true ∧ right.isOperand = true
  · rw [combine_of_operands ho.1 ho.2]
    refine (Item.fetch_keeps h hl).bind ?_
    rintro a s₁ ⟨hk₁, ha⟩
    refine (hk₁.after (Item.fetch_keeps hk₁.inStep (hr.mono hk₁))).bind ?_
    rintro b s₂ ⟨hk₁₂, hk₂, hb⟩
    have hu : UsesDefined s₂.code (.binary op ⟨s₂.nextTemp⟩ a b) := by
      refine ⟨?_, nofun⟩
      intro t ht
      rcases List.mem_append.mp ht with ht | ht
      · exact ha.mono hk₁₂ t ht
      · exact hb t ht
    obtain ⟨hk, hlive⟩ := Kept.define hk₂.inStep (.binary op · a b) (fun _ => rfl) hu
    exact Ensures.of_ok (Session.defining_run ..) ⟨hk₂.trans hk, hlive⟩
  · exact Ensures.of_error (combine_of_not ho) (Kept.refl h)

theorem Fragment.lowerFlat_keeps (h : InStep s) {f : Fragment} (hf : Fragment.Live s f) :
    Ensures s f.lowerFlat (fun x s' => Kept s s' ∧ Fragment.Live s' [x]) fun _ s' => Kept s s' := by
  have inv : ∀ op : BinOp, SweepInvariant op.sign op
      (fun f s' => Kept s s' ∧ Fragment.Live s' f) fun _ s' => Kept s s' := by
    intro op
    refine ⟨fun _ _ _ h' => h'.1, ?_⟩
    rintro f g left x right s' - - - ⟨hk, hlive⟩
    have hl : Fragment.Live s' [left] := fun t ht => hlive t (by simp_all)
    have hr : Fragment.Live s' [right] := fun t ht => hlive t (by simp_all)
    refine (hk.after (combine_keeps hk.inStep hl hr)).mono ?_ fun _ _ he => he
    rintro t s'' ⟨hk', hk'', ht⟩
    refine ⟨hk'', ?_⟩
    intro t' ht'
    rcases List.mem_append.mp ht' with ht' | ht'
    · exact (hlive t' (by simp [ht'])).mono hk'
    · rcases List.mem_cons.mp ht' with heq | ht'
      · cases heq
        exact ht
      · exact (hlive t' (by simp [ht'])).mono hk'
  exact SweepInvariant.lowerFlat inv ⟨Kept.refl h, hf⟩ (fun _ h' => h'.1)
    (fun _ _ _ _ h' _ => h'.1) fun x s' h' _ => h'

/-- The two parts of a fragment around a closing parenthesis. -/
theorem Fragment.Live.of_splitAt? {f inside after : Fragment} {k : Kind}
    (hf : Fragment.Live s f) (h : splitAt? k f = some (inside, after)) :
    Fragment.Live s inside ∧ Fragment.Live s after := by
  obtain ⟨x, -, rfl, -⟩ := eq_append_of_splitAt? h
  exact ⟨fun t ht => hf t (by simp [ht]), fun t ht => hf t (by simp [ht])⟩

theorem Fragment.closeGroups_keeps (h : InStep s) {f : Fragment} (hf : Fragment.Live s f) :
    Ensures s f.closeGroups (fun f' s' => Kept s s' ∧ Fragment.Live s' f')
      fun _ s' => Kept s s' := by
  induction f with
  | nil => exact Ensures.of_ok rfl ⟨Kept.refl h, hf⟩
  | cons x f ih =>
    have hclose := ih fun t ht => hf t (by simp [ht])
    by_cases hx : x.hasKind .leftParen = true
    · rw [closeGroups_cons_leftParen hx]
      refine hclose.bind ?_
      rintro rest s₁ ⟨hk₁, hrest⟩
      cases hsplit : splitAt? .rightParen rest with
      | none => exact Ensures.of_error rfl hk₁
      | some parts =>
        obtain ⟨hinside, hafter⟩ := hrest.of_splitAt? hsplit
        refine (hk₁.after (lowerFlat_keeps hk₁.inStep hinside)).bind ?_
        rintro y s₂ ⟨hk₁₂, hk₂, hy⟩
        refine Ensures.of_ok rfl ⟨hk₂, ?_⟩
        intro t ht
        rcases List.mem_cons.mp ht with rfl | ht
        · exact hy t (by simp)
        · exact (hafter t ht).mono hk₁₂
    · rw [closeGroups_cons_of_not (Bool.eq_false_iff.mpr hx)]
      refine hclose.bind ?_
      rintro rest s₁ ⟨hk₁, hrest⟩
      refine Ensures.of_ok rfl ⟨hk₁, ?_⟩
      intro t ht
      rcases List.mem_cons.mp ht with rfl | ht
      · exact (hf t (by simp)).mono hk₁
      · exact hrest t ht

/-- **Lowering an expression keeps the session in step**, wherever it ends. -/
theorem Fragment.lower_keeps (h : InStep s) {f : Fragment} (hf : Fragment.Live s f) :
    Ensures s f.lower (fun x s' => Kept s s' ∧ Fragment.Live s' [x]) fun _ s' => Kept s s' := by
  refine (closeGroups_keeps h hf).bind ?_
  rintro f' s₁ ⟨hk₁, hf'⟩
  split
  · exact Ensures.of_error rfl hk₁
  · exact (hk₁.after (lowerFlat_keeps hk₁.inStep hf')).mono (fun _ _ hx => hx.2) fun _ _ he => he

theorem Fragment.value_keeps (h : InStep s) (tokens : List Token) :
    Ensures s (Fragment.ofTokens tokens).value (fun v s' => Kept s s' ∧ v.Live s')
      fun _ s' => Kept s s' := by
  have hlive : Fragment.Live s (Fragment.ofTokens tokens) := fun t ht => by
    simp [Fragment.ofTokens] at ht
  refine (Fragment.lower_keeps h hlive).bind ?_
  rintro x s₁ ⟨hk₁, hx⟩
  exact (hk₁.after (Item.fetch_keeps hk₁.inStep hx)).mono (fun _ _ hv => hv.2) fun _ _ he => he

theorem Session.declareSlot_keeps (h : InStep s) {name : String} (hn : isName name = true) :
    Ensures s (Session.declareSlot name)
      (fun slot s' => Kept s s' ∧ .alloca slot ∈ s'.code) fun _ s' => Kept s s' := by
  by_cases hmem : name ∈ s.scope
  · refine Ensures.of_ok (Session.declareSlot_of_mem hmem) ⟨Kept.refl h, ?_⟩
    exact h.alloca_mem (Scope.mem_sourceNames.mpr ⟨hmem, isTemporary_of_isName hn⟩)
  · refine Ensures.of_ok (Session.declareSlot_of_notMem hmem) ⟨⟨h.reserve hn hmem, ?_⟩, by simp⟩
    exact List.prefix_append _ _

/-- **A statement keeps the session in step**, wherever it ends. -/
theorem Statement.lower_keeps (h : InStep s) {stmt : Statement}
    (hn : ∀ target value, stmt = .assign target value → isName target = true) :
    Ensures s stmt.lower (fun _ s' => Kept s s') fun _ s' => Kept s s' := by
  cases stmt with
  | assign target tokens =>
    rw [lower_assign]
    refine (Session.declareSlot_keeps h (hn target tokens rfl)).bind ?_
    rintro slot s₁ ⟨hk₁, hslot⟩
    refine (hk₁.after (Fragment.value_keeps hk₁.inStep tokens)).bind ?_
    rintro v s₂ ⟨hk₁₂, hk₂, hv⟩
    refine Ensures.of_ok (Session.emit_eq_append ..) ?_
    have hu : UsesDefined s₂.code (.store v slot) := by
      refine ⟨hv, ?_⟩
      intro slot' hs
      cases hs
      exact hk₁₂.code_le.subset hslot
    exact hk₂.trans ⟨hk₂.inStep.store hu, List.prefix_append _ _⟩
  | print tokens =>
    rw [lower_print]
    refine (Fragment.value_keeps h tokens).bind ?_
    rintro v s₁ ⟨hk₁, hv⟩
    have hu : UsesDefined s₁.code (.print ⟨s₁.nextTemp⟩ v) := ⟨hv, nofun⟩
    obtain ⟨hk, -⟩ := Kept.define hk₁.inStep (.print · v) (fun _ => rfl) hu
    exact Ensures.of_ok rfl (hk₁.trans hk)

/-- A statement that was read has a name as its target. -/
theorem Statement.lower_keeps_of_parse (h : InStep s) {stmt : Statement} {text : String}
    {line : Int} (hparse : Statement.parse text line = .ok stmt) :
    Ensures s stmt.lower (fun _ s' => Kept s s') fun _ s' => Kept s s' := by
  refine Statement.lower_keeps h ?_
  rintro target value rfl
  exact (Statement.parse_eq_assign_iff.mp hparse).1

end Keep

/-! ## Runs -/

section Line

variable {s s' : Session}

theorem compileLine_keeps {text : String} (hin : InStep s) (h : compileLine text s = .ok () s') :
    InStep s' ∧ s.log <+: s'.log := by
  obtain ⟨stmt, hparse, hlower⟩ := exists_parse_of_compileLine h
  have hkept := (Statement.lower_keeps_of_parse (hin.setLine (s.line + 1)) hparse).ok_of_eq hlower
  exact ⟨hkept.inStep, hkept.log_le⟩

theorem compileLines_inStep {lines : List String} (hin : InStep s)
    (h : compileLines lines s = .ok () s') : InStep s' := by
  induction lines generalizing s with
  | nil =>
    cases h
    exact hin
  | cons text rest ih =>
    obtain ⟨_, s₁, hline, hrest⟩ := Lowering.bind_eq_ok_iff.mp h
    exact ih (compileLine_keeps hin hline).1 hrest

end Line

/-- **A session after a statement** on a line with a given number, whether the statement succeeds
or fails. -/
def Session.attempt (s : Session) (line : Int) (text : String) : Session :=
  match (do (← readStatement text).lower : Lowering Unit) { s with line := line } with
  | .ok _ s' => s'
  | .error _ s' => s'

/-- A fresh session after statements, each with the number of its line. -/
def Session.afterAll (statements : List (Int × String)) : Session :=
  statements.foldl (fun s stmt => s.attempt stmt.1 stmt.2) {}

theorem InStep.attempt {s : Session} (h : InStep s) (line : Int) (text : String) :
    InStep (s.attempt line text) := by
  have hs : InStep { s with line := line } := h.setLine line
  have hrun : Ensures { s with line := line } (do (← readStatement text).lower : Lowering Unit)
      (fun _ s' => InStep s') fun _ s' => InStep s' := by
    cases hp : Statement.parse text line with
    | error d =>
      exact Ensures.of_error (Lowering.bind_of_error (by rw [readStatement_run, hp])) hs
    | ok stmt =>
      have hread : readStatement text { s with line := line } =
          .ok stmt { s with line := line } := by
        rw [readStatement_run, hp]
      exact Ensures.bind_of_ok hread ((Statement.lower_keeps_of_parse hs hp).mono
        (fun _ _ hk => hk.inStep) fun _ _ hk => hk.inStep)
  unfold Session.attempt
  split
  · next hr => exact hrun.ok_of_eq hr
  · next hr => exact hrun.fail_of_eq hr

/-- Statements one after the other keep a session in step. -/
theorem InStep.attemptAll {s : Session} (h : InStep s) (statements : List (Int × String)) :
    InStep (statements.foldl (fun s stmt => s.attempt stmt.1 stmt.2) s) := by
  induction statements generalizing s with
  | nil => exact h
  | cons stmt rest ih => exact ih (h.attempt stmt.1 stmt.2)

/-- **Single assignment holds after any statements**, whichever of them fail. -/
theorem singleAssignment_afterAll (statements : List (Int × String)) :
    SingleAssignment (Session.afterAll statements) :=
  (InStep.fresh.attemptAll statements).singleAssignment

end Abacus
