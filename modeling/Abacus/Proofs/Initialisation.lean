import Abacus.Proofs.Ledger

/-!
# Slots read before they are written

The slot of a variable is reserved before the expression that it is assigned is lowered, so being
declared does not yet mean having a value. Between lines it does: every line that reserves a slot
also stores into it. A load that no store precedes can therefore only be found among the
instructions of the line that reserves the slot, which is the first to assign to the variable, and
the expression of that line names the variable.

## Main definitions

* `StoredIn`: a variable that some entry stores to
* `Line.FirstAssigns`: the first line that assigns to a variable
* `ReadsItself`: a load in the first line that assigns to the variable
* `Initialised`: what holds between lines

## Main results

* `Initialised.compileLine`, `Initialised.compileLines`: a line keeps this, and so do all lines
* `compile_loads_stored`: every load comes after a store, or in the first line that assigns to the
  variable
-/

namespace Abacus

/-- Some entry stores to a variable. -/
def StoredIn (x : String) (log : List Entry) : Prop :=
  ∃ e ∈ log, e.instr.stores x = true

theorem StoredIn.mono {x : String} {log log' : List Entry} (h : StoredIn x log)
    (hlog : log ⊆ log') : StoredIn x log' := by
  obtain ⟨e, he, hstore⟩ := h
  exact ⟨e, hlog he, hstore⟩

/-! ## First assignments -/

namespace Line

variable {lines : List (List Char)} {k : Nat} {x : String}

/-- The line behind `k` others is the first that assigns to a variable. -/
structure FirstAssigns (lines : List (List Char)) (k : Nat) (x : String) : Prop where
  target : lines[k]?.bind target? = some x
  first : x ∉ targets (lines.take k)

theorem targets_append (lines lines' : List (List Char)) :
    targets (lines ++ lines') = targets lines ++ targets lines' :=
  List.filterMap_append

theorem FirstAssigns.lt_length (h : FirstAssigns lines k x) : k < lines.length := by
  obtain ⟨cs, hcs, -⟩ := Option.bind_eq_some_iff.mp h.target
  exact (List.getElem?_eq_some_iff.mp hcs).1

/-- Lines behind it do not matter. -/
theorem FirstAssigns.append (h : FirstAssigns lines k x) (lines' : List (List Char)) :
    FirstAssigns (lines ++ lines') k x := by
  have hlt := h.lt_length
  refine ⟨?_, ?_⟩
  · rw [List.getElem?_append_left hlt]
    exact h.target
  · rw [List.take_append_of_le_length hlt.le]
    exact h.first

/-- A line is the first to assign to its target if no line before it does. -/
theorem FirstAssigns.last {cs : List Char} (hcs : target? cs = some x) (hx : x ∉ targets lines) :
    FirstAssigns (lines ++ [cs]) lines.length x :=
  ⟨by simpa using hcs, by simpa using hx⟩

end Line

/-- **A load of `x` behind the entries of `before` that belongs to the first line that assigns to
`x`.** The slot is reserved for that line too, and the expression of the line names the variable. -/
structure ReadsItself (lines : List (List Char)) (before : List Entry) (e : Entry) (k : Nat)
    (x : String) : Prop where
  line_eq : e.line = k + 1
  first : Line.FirstAssigns lines k x
  reserved : ⟨k + 1, .alloca ⟨x⟩⟩ ∈ before
  named : ∀ cs, lines[k]? = some cs → ⟨.operand, x⟩ ∈ Line.expression cs

theorem ReadsItself.append {lines : List (List Char)} {before : List Entry} {e : Entry} {k : Nat}
    {x : String} (h : ReadsItself lines before e k x) (lines' : List (List Char)) :
    ReadsItself (lines ++ lines') before e k x where
  line_eq := h.line_eq
  first := h.first.append lines'
  reserved := h.reserved
  named := by
    intro cs hcs
    rw [List.getElem?_append_left h.first.lt_length] at hcs
    exact h.named cs hcs

/-! ## Between lines -/

/-- **What holds when the lines `lines` have been compiled**: every declared variable has a value,
and every load comes after a store or is of a variable in its own first assignment. -/
structure Initialised (lines : List (List Char)) (s : Session) : Prop where
  inStep : InStep s
  declares : s.Declares (Line.targets lines)
  line_eq : s.line = lines.length
  stored : ∀ x ∈ s.scope.sourceNames, StoredIn x s.log
  loads : ∀ before e after x, s.log = before ++ e :: after → e.instr.loads x = true →
    StoredIn x before ∨ ∃ k, ReadsItself lines before e k x

namespace Initialised

variable {lines : List (List Char)} {s s' : Session} {text x : String} {new : List Entry}

theorem fresh : Initialised [] {} where
  inStep := .fresh
  declares := Session.declares_fresh
  line_eq := rfl
  stored := by simp [Scope.sourceNames]
  loads := by simp

/-- A variable that a line has declared is what the line assigns to. -/
theorem target?_of_notMem (h : Initialised lines s) (hline : compileLine text s = .ok () s')
    (hx' : x ∈ s'.scope.sourceNames) (hx : x ∉ s.scope.sourceNames) :
    Line.target? (Text.dropBlanks text.toList) = some x ∧ x ∉ Line.targets lines := by
  have hdeclares := ((compileLine_accepts text h.declares rfl rfl).ok_of_eq hline).1
  obtain ⟨hname, hmem⟩ := (hdeclares x).mp hx'
  have hnew : x ∉ Line.targets lines := fun hold => hx ((h.declares x).mpr ⟨hname, hold⟩)
  rw [List.mem_append, Option.mem_toList] at hmem
  exact ⟨hmem.resolve_left hnew, hnew⟩

theorem accounted (hline : compileLine text s = .ok () s') (hlog : s'.log = s.log ++ new) :
    Accounted [Text.dropBlanks text.toList] (new.map (·.instr)) :=
  Accounted.of_compileLine hline (by simp [Session.code, hlog])

/-- A line stores into the slot of its target. -/
theorem storedIn_of_target? (hline : compileLine text s = .ok () s') (hlog : s'.log = s.log ++ new)
    (hx : Line.target? (Text.dropBlanks text.toList) = some x) : StoredIn x new := by
  have hcount := (accounted hline hlog).stores x
  have hpos : 0 < (new.map (·.instr)).countP (·.stores x) := by
    simp [hcount, Line.targets, hx]
  obtain ⟨instr, hinstr, hstore⟩ := List.countP_pos_iff.mp hpos
  obtain ⟨e, he, rfl⟩ := List.mem_map.mp hinstr
  exact ⟨e, he, hstore⟩

/-- A line that loads a variable names it in its expression. -/
theorem mem_expression_of_loads (hline : compileLine text s = .ok () s')
    (hlog : s'.log = s.log ++ new) (hx : isName x = true) {e : Entry} (he : e ∈ new)
    (hload : e.instr.loads x = true) :
    ⟨.operand, x⟩ ∈ Line.expression (Text.dropBlanks text.toList) := by
  have hcount := (accounted hline hlog).loads x hx
  have hpos : 0 < (new.map (·.instr)).countP (·.loads x) :=
    List.countP_pos_iff.mpr ⟨e.instr, List.mem_map_of_mem he, hload⟩
  rw [hcount, List.count_pos_iff] at hpos
  simpa using hpos

/-- **A load of a line comes after a store, or in the first assignment to its variable.** -/
theorem loads_of_compileLine (h : Initialised lines s) (hline : compileLine text s = .ok () s')
    (hin : InStep s') (hlog : s'.log = s.log ++ new) (hnew : ∀ e ∈ new, e.line = s.line + 1)
    {front after : List Entry} {e : Entry} (hcut : new = front ++ e :: after)
    (hload : e.instr.loads x = true) :
    StoredIn x (s.log ++ front) ∨
      ReadsItself (lines ++ [Text.dropBlanks text.toList]) (s.log ++ front) e lines.length x := by
  -- a variable that was declared before the line has a value
  by_cases hx : x ∈ s.scope.sourceNames
  · exact Or.inl ((h.stored x hx).mono (List.subset_append_left ..))
  · have hslot : e.instr.slot? = some ⟨x⟩ := by
      cases hinstr : e.instr <;> simp_all [Instr.loads, Instr.slot?]
      simp [← hload]
    have hcode : s'.code = (s.log ++ front).map (·.instr) ++ e.instr :: after.map (·.instr) := by
      simp [Session.code, hlog, hcut]
    obtain ⟨r, hr, hreserve⟩ := List.mem_map.mp ((hin.ordered _ _ _ hcode).slot ⟨x⟩ hslot)
    have hmem : .alloca ⟨x⟩ ∈ s'.code := by
      rw [hcode]
      exact List.mem_append_left _ (List.mem_map.mpr ⟨r, hr, hreserve⟩)
    have hfront : r ∈ front := by
      refine (List.mem_append.mp hr).resolve_left fun hold => hx ?_
      exact h.inStep.mem_sourceNames (List.mem_map.mpr ⟨r, hold, hreserve⟩)
    obtain ⟨htarget, hfirst⟩ := h.target?_of_notMem hline (hin.mem_sourceNames hmem) hx
    refine Or.inr ⟨?_, .last htarget hfirst, List.mem_append_right _ ?_, ?_⟩
    · rw [hnew e (by simp [hcut]), h.line_eq]
    · have hrline : r.line = lines.length + 1 := by rw [hnew r (by simp [hcut, hfront]), h.line_eq]
      obtain ⟨line, instr⟩ := r
      cases hrline
      cases hreserve
      exact hfront
    · intro cs hcs
      obtain rfl : Text.dropBlanks text.toList = cs := by simpa using hcs
      exact mem_expression_of_loads hline hlog (hin.named _ hmem) (by simp [hcut]) hload

/-- **A line leaves every declared variable with a value.** -/
protected theorem compileLine (h : Initialised lines s) (hline : compileLine text s = .ok () s') :
    Initialised (lines ++ [Text.dropBlanks text.toList]) s' := by
  obtain ⟨hnext, new, hlog, -, hnew⟩ := (compileLine_grows text s).ok_of_eq hline
  simp only at hnext hlog hnew
  have hin := (compileLine_keeps h.inStep hline).1
  have hdeclares := ((compileLine_accepts text h.declares rfl rfl).ok_of_eq hline).1
  refine ⟨hin, ?_, by simp [hnext, h.line_eq], ?_, ?_⟩
  · rw [Line.targets_append, Line.targets_cons]
    simpa [Line.targets] using hdeclares
  · intro x hx'
    by_cases hx : x ∈ s.scope.sourceNames
    · exact (h.stored x hx).mono (by simp [hlog])
    · have htarget := (h.target?_of_notMem hline hx' hx).1
      exact (storedIn_of_target? hline hlog htarget).mono (by simp [hlog])
  · intro before e after x hcut hload
    rw [hlog, List.append_eq_append_iff] at hcut
    rcases hcut with ⟨front, rfl, hcut⟩ | ⟨_ | ⟨_, later⟩, hcut, hcut'⟩
    · have hload' := h.loads_of_compileLine hline hin hlog hnew hcut hload
      exact hload'.imp_right fun hself => ⟨_, hself⟩
    · have hfirst : new = [] ++ e :: after := hcut'.symm
      have hfront := h.loads_of_compileLine hline hin hlog hnew hfirst hload
      rw [hcut, List.append_nil, List.append_nil] at hfront
      exact hfront.imp_right fun hself => ⟨_, hself⟩
    · cases hcut'
      refine (h.loads before e later x hcut hload).imp_right ?_
      rintro ⟨k, hself⟩
      exact ⟨k, hself.append _⟩

/-- Lines one after the other leave every declared variable with a value. -/
protected theorem compileLines {texts : List String} (h : Initialised lines s)
    (hlines : compileLines texts s = .ok () s') :
    Initialised (lines ++ texts.map fun text => Text.dropBlanks text.toList) s' := by
  induction texts generalizing lines s with
  | nil =>
    cases hlines
    simpa using h
  | cons text rest ih =>
    obtain ⟨_, s₁, hline, hrest⟩ := Lowering.bind_eq_ok_iff.mp hlines
    simpa using ih (h.compileLine hline) hrest

end Initialised

/-- **Only a first assignment reads a slot without a value.** Every load of a source comes after a
store to its slot, or it belongs to the first line that assigns to the variable, behind the
reservation of the slot. So if no such line names its own variable in its expression, every load
comes after a store. -/
theorem compile_loads_stored {source : String} {s : Session} (h : compile source = .ok () s) :
    (∀ before (e : Entry) after x, s.log = before ++ e :: after → e.instr.loads x = true →
      StoredIn x before ∨ ∃ k : Nat, e.line = k + 1 ∧
        Line.FirstAssigns (strippedLines source) k x ∧ ⟨k + 1, .alloca ⟨x⟩⟩ ∈ before) ∧
    ((∀ k x cs, Line.FirstAssigns (strippedLines source) k x →
        (strippedLines source)[k]? = some cs → ⟨.operand, x⟩ ∉ Line.expression cs) →
      ∀ before e after x, s.log = before ++ e :: after → e.instr.loads x = true →
        StoredIn x before) := by
  have hloads : ∀ before e after x, s.log = before ++ e :: after → e.instr.loads x = true →
      StoredIn x before ∨ ∃ k, ReadsItself (strippedLines source) before e k x :=
    (Initialised.fresh.compileLines h).loads
  refine ⟨?_, ?_⟩
  · intro before e after x hcut hload
    refine (hloads before e after x hcut hload).imp_right ?_
    rintro ⟨k, hself⟩
    exact ⟨k, hself.line_eq, hself.first, hself.reserved⟩
  · intro hnamed before e after x hcut hload
    refine (hloads before e after x hcut hload).resolve_right ?_
    rintro ⟨k, hself⟩
    obtain ⟨cs, hcs, -⟩ := Option.bind_eq_some_iff.mp hself.first.target
    exact hnamed k x cs hself.first hcs (hself.named cs hcs)

/-- A variable that is assigned to itself is read before it has a value, and one that is assigned a
number is not. -/
theorem compile_loads_stored_self :
    (∃ s before after, ∃ e : Entry, compile "x = x" = .ok () s ∧ s.log = before ++ e :: after ∧
      e.instr.loads "x" = true ∧ ¬ StoredIn "x" before ∧
      ∃ k : Nat, e.line = k + 1 ∧ Line.FirstAssigns (strippedLines "x = x") k "x") ∧
    ∃ s, compile "x = 1\nx" = .ok () s ∧ ∀ before (e : Entry) after, s.log = before ++ e :: after →
      e.instr.loads "x" = true → StoredIn "x" before := by
  constructor
  · obtain ⟨s, hs, hlog⟩ : ∃ s, compile "x = x" = .ok () s ∧ s.log =
        [⟨1, .alloca ⟨"x"⟩⟩] ++ ⟨1, .load ⟨1⟩ ⟨"x"⟩⟩ :: [⟨1, .store (.temp ⟨1⟩) ⟨"x"⟩⟩] := by
      decide +kernel
    have hnot : ¬ StoredIn "x" [⟨1, .alloca ⟨"x"⟩⟩] := by simp [StoredIn, Instr.stores]
    obtain ⟨k, hk, hfirst, -⟩ :=
      ((compile_loads_stored hs).1 _ _ _ "x" hlog (by decide)).resolve_left hnot
    exact ⟨s, _, _, _, hs, hlog, by decide, hnot, k, hk, hfirst⟩
  · obtain ⟨s, hs⟩ : ∃ s, compile "x = 1\nx" = .ok () s := by decide +kernel
    refine ⟨s, hs, fun before e after hcut hload => ?_⟩
    refine (compile_loads_stored hs).2 ?_ before e after "x" hcut hload
    have hlines : strippedLines "x = 1\nx" = [['x', '=', '1'], ['x']] := by decide +kernel
    rw [hlines]
    rintro (_ | _ | k) x cs ⟨htarget, -⟩ hcs
    · cases hcs
      obtain rfl : "x" = x := Option.some.inj htarget
      decide +kernel
    · cases htarget
    · cases hcs

end Abacus
