import Abacus.Proofs.Diagnosis
import Abacus.Proofs.Joining
import Abacus.Proofs.SingleAssignment

/-!
# Programs continued

A program is compiled from the front. More lines behind it leave what it has compiled as it stands:
the log and the declared names go on where they ended, and a line that fails is the end, whatever
would follow. The line of a diagnostic tells how much of the program has been compiled.

## Main results

* `compileLines_append_of_error`: a fault is final
* `compileLine_line_of_rejected`: a diagnostic names the line it was met on
* `compile_continues`: what a program does, it does in front of any other lines
-/

namespace Abacus

open Text (BreakFree unlines)

/-- A truthful diagnostic names its line. -/
theorem Fault.Truthful.line_eq {cs : List Char} {line : Int} {targets : List String}
    {log : List Entry} {d : Diagnostic} (h : Truthful cs line targets log (.rejected d)) :
    d.line = line := by
  cases h <;> rfl

section Line

variable {s s' : Session} {front back : List String}

/-- A fault is final: no line behind it is looked at. -/
theorem compileLines_append_of_error {fault : Fault} (h : compileLines front s = .error fault s') :
    compileLines (front ++ back) s = .error fault s' := by
  rw [compileLines_append]
  exact Lowering.bind_of_error h

/-- The declared names go on where they ended, together with the log. -/
theorem InStep.names_le (h : InStep s) (h' : InStep s') (hlog : s.log <+: s'.log) :
    s.scope.names <+: s'.scope.names := by
  rw [h.names_eq, h'.names_eq]
  exact (hlog.map _).filterMap _

/-- **A diagnostic names the line it was met on**, the one after those that are compiled. -/
theorem compileLine_line_of_rejected {text : String} {s₁ : Session} {d : Diagnostic}
    (hfront : compileLines front {} = .ok () s₁)
    (h : compileLine text s₁ = .error (.rejected d) s') : d.line = front.length + 1 := by
  have hnumber : s₁.line = front.length := by simpa using (compileLines_grows hfront).1
  have hdeclares := compileLines_declares Session.declares_fresh hfront
  rw [List.nil_append] at hdeclares
  have htruthful := (compileLine_truthful rfl hdeclares (isName_of_mem_targets hfront)).fail_of_eq h
  rw [htruthful.line_eq, hnumber]

end Line

/-- Compiling lines that were joined is compiling the lines. -/
theorem compile_unlines {ls : List String} (h : ∀ l ∈ ls, BreakFree l.toList) :
    compile (unlines ls) = compileLines ls {} := by
  rw [compile, Text.lines_unlines h]

/-- **A program is compiled from the front.** Where it compiles, other lines behind it only add to
its log and to its names, and the last line has the number of all lines. Where it fails, it fails in
the same way before any other lines. Where a source is rejected at some line, the lines before it
compile on their own, and together with it they are rejected in the same way. -/
theorem compile_continues (front back : List String) (hfront : ∀ l ∈ front, BreakFree l.toList)
    (hback : ∀ l ∈ back, BreakFree l.toList) :
    (∀ s s', compile (unlines front) = .ok () s → compile (unlines (front ++ back)) = .ok () s' →
      s.log <+: s'.log ∧ s.scope.names <+: s'.scope.names ∧
        s'.line = front.length + back.length) ∧
    (∀ fault s, compile (unlines front) = .error fault s →
      compile (unlines (front ++ back)) = .error fault s) ∧
    ∀ source k cause s, compile source = .error (.rejected ⟨k, cause⟩) s →
      ∃ n : Nat, k = n + 1 ∧ n < (Text.lines source).length ∧
        (∃ s₁, compile (unlines ((Text.lines source).take n)) = .ok () s₁) ∧
        compile (unlines ((Text.lines source).take (n + 1))) = .error (.rejected ⟨k, cause⟩) s := by
  have hall : ∀ l ∈ front ++ back, BreakFree l.toList := fun l hl =>
    (List.mem_append.mp hl).elim (hfront l) (hback l)
  rw [compile_unlines hfront, compile_unlines hall]
  refine ⟨?_, fun fault s h => compileLines_append_of_error h, ?_⟩
  · intro s s' h h'
    -- the longer program passes through the session in which the shorter one ends
    obtain ⟨s₁, h₁, hrest⟩ := compileLines_of_append h'
    obtain rfl : s₁ = s := by
      rw [h] at h₁
      cases h₁
      rfl
    obtain ⟨-, new, hlog, -⟩ := compileLines_grows hrest
    have hfront : s₁.log <+: s'.log := ⟨new, hlog.symm⟩
    refine ⟨hfront, ?_, ?_⟩
    · exact (compileLines_inStep .fresh h).names_le (compileLines_inStep .fresh h') hfront
    · simpa using (compileLines_grows h').1
  · intro source k cause s h
    obtain ⟨first, text, rest, s₁, hcut, hcompiled, hline⟩ := compileLines_eq_error_iff.mp h
    have htake : (Text.lines source).take first.length = first := by simp [hcut]
    have htake' : (Text.lines source).take (first.length + 1) = first ++ [text] := by
      simp [hcut, List.take_append, List.take_of_length_le]
    have hfree : ∀ n, ∀ l ∈ (Text.lines source).take n, BreakFree l.toList := fun n l hl =>
      Text.breakFree_of_mem_lines (List.mem_of_mem_take hl)
    refine ⟨first.length, compileLine_line_of_rejected hcompiled hline, by simp [hcut], ?_, ?_⟩
    · rw [compile_unlines (hfree _), htake]
      exact ⟨s₁, hcompiled⟩
    · rw [compile_unlines (hfree _), htake']
      exact compileLines_eq_error_iff.mpr ⟨first, text, [], s₁, rfl, hcompiled, hline⟩

/-- A second line uses the variable of the first, and a third one is rejected. -/
theorem compile_continues_assignment :
    (∃ s s', compile (unlines ["x = 1"]) = .ok () s ∧
      compile (unlines (["x = 1"] ++ ["x + 2"])) = .ok () s' ∧ s.log <+: s'.log ∧ s'.line = 2) ∧
    ∃ s, compile "x = 1\nx + 2\ny" = .error (.rejected ⟨3, .undefinedVariable "y"⟩) s ∧
      ∃ s₁, compile (unlines ((Text.lines "x = 1\nx + 2\ny").take 2)) = .ok () s₁ := by
  obtain ⟨hok, -, hfail⟩ := compile_continues ["x = 1"] ["x + 2"] (by decide) (by decide)
  obtain ⟨s, hs⟩ : ∃ s, compile (unlines ["x = 1"]) = .ok () s := by decide +kernel
  obtain ⟨s', hs'⟩ : ∃ s, compile (unlines (["x = 1"] ++ ["x + 2"])) = .ok () s := by
    decide +kernel
  obtain ⟨t, ht⟩ : ∃ s, compile "x = 1\nx + 2\ny" =
      .error (.rejected ⟨3, .undefinedVariable "y"⟩) s := by
    decide +kernel
  obtain ⟨hlog, -, hline⟩ := hok s s' hs hs'
  obtain ⟨n, hn, -, hcompiled, -⟩ := hfail _ _ _ t ht
  obtain rfl : n = 2 := by omega
  exact ⟨⟨s, s', hs, hs', hlog, by simpa using hline⟩, t, ht, hcompiled⟩

end Abacus
