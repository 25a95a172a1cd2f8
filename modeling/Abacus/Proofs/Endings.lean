import Abacus.Proofs.Effects
import Abacus.Proofs.Joining

/-!
# Lines whatever ends them

A source is the same as its lines: lines that can be told apart are cut where they were joined, with
any endings, and every source is such lines joined. The ending of the last line may be absent if
that line is not empty. When a file is read, its pairs of breaks become line feeds, and then its
carriage returns do. The lines and what they compile to stay the same.

## Main definitions

* `replacePairs`, `translated`: the breaks of a source as they are when it is read from a file

## Main results

* `lines_joinedOpen`: the last ending may be absent
* `exists_ended`: every source is joined from its lines
* `decodeSource_toUTF8`: what a file is read as
* `lines_inverse_joined`: cutting and joining are inverse, also where a source is read from a file
-/

namespace Abacus

namespace Text

section Ended

variable {es front : List EndedLine} {last : EndedLine}

theorem joinedOpen_concat (front : List EndedLine) (last : EndedLine) :
    joinedOpen (front ++ [last]) = joined front ++ last.line := by
  simp [joinedOpen]

theorem Separate.of_append (h : Separate (front ++ es)) : Separate front :=
  ⟨fun e he => h.free e (List.mem_append_left es he), h.apart.left_of_append⟩

/-- A line that is not empty can be told apart from those in front of it. -/
theorem Separate.concat (h : Separate front) (hfree : BreakFree last.line.toList)
    (hne : last.line ≠ "") : Separate (front ++ [last]) := by
  refine ⟨?_, h.apart.append (.singleton last) ?_⟩
  · intro e he
    rcases List.mem_append.mp he with he | he
    · exact h.free e he
    · rwa [List.mem_singleton.mp he]
  · rintro e - e' he' ⟨-, hempty, -⟩
    cases he'
    exact hne hempty

/-- **Lines are cut where they were joined, also without the last ending**, if the last line is not
empty. -/
theorem lines_joinedOpen (h : Separate es) (hlast : es.getLast? = some last)
    (hne : last.line ≠ "") : lines (joinedOpen es) = es.map (·.line) := by
  obtain ⟨front, rfl⟩ := List.getLast?_eq_some_iff.mp hlast
  rw [joinedOpen_concat, lines_joined_append h.of_append (h.free last (by simp)) hne]
  simp

/-- **Every source is joined from its lines**, with the last ending or without it. -/
theorem exists_ended (source : String) :
    ∃ es, Separate es ∧ lines source = es.map (·.line) ∧
      (source = joined es ∨
        ∃ last, es.getLast? = some last ∧ last.line ≠ "" ∧ source = joinedOpen es) := by
  obtain ⟨es, rest, hes, hrest, hsource⟩ := exists_joined source.toList
  have hjoined : source = joined es ++ String.ofList rest := by
    apply String.toList_injective
    simp [hsource]
  by_cases hne : String.ofList rest = ""
  · rw [hne, String.append_empty] at hjoined
    exact ⟨es, hes, hjoined ▸ lines_joined hes, Or.inl hjoined⟩
  · have hfree : BreakFree (String.ofList rest).toList := by rwa [String.toList_ofList]
    let last : EndedLine := ⟨String.ofList rest, .lineFeed⟩
    refine ⟨es ++ [last], hes.concat hfree hne, ?_, Or.inr ⟨last, by simp, hne, ?_⟩⟩
    · rw [hjoined, lines_joined_append hes hfree hne, List.map_append]
      rfl
    · rw [hjoined, joinedOpen_concat]

end Ended

/-! ## Sources read from files -/

/-- Every pair of a carriage return and a line feed as one line feed. -/
def replacePairs : List Char → List Char
  | [] => []
  | '\r' :: '\n' :: cs => '\n' :: replacePairs cs
  | c :: cs => c :: replacePairs cs

/-- **A source as it is read from a file**: every pair, and then every carriage return that is left,
becomes a line feed. -/
def translated (source : String) : String :=
  String.ofList ((replacePairs source.toList).map fun c => if c = '\r' then '\n' else c)

/-- Breaks are unified pairs first. -/
theorem unifyBreaks_eq (cs : List Char) :
    unifyBreaks cs = (replacePairs cs).map fun c => if c = '\r' then '\n' else c := by
  fun_induction unifyBreaks cs with
  | case1 => rfl
  | case2 cs ih => rw [replacePairs, List.map_cons, ih, if_neg (by decide)]
  | case3 c cs hpair ih =>
    rw [replacePairs, List.map_cons, ih]
    exact hpair

theorem ofList_unifyBreaks (source : String) :
    String.ofList (unifyBreaks source.toList) = translated source := by
  rw [translated, unifyBreaks_eq]

end Text

/-- A file that holds a text is read as that text, translated. -/
theorem decodeSource_toUTF8 (text : String) :
    decodeSource text.toUTF8 = .ok (Text.translated text) := by
  have hdecode : String.fromUTF8? text.toUTF8 = some text := dif_pos text.isValidUTF8
  rw [decodeSource, hdecode, ← Text.ofList_unifyBreaks]

namespace Text

/-- **Cutting a source and joining its lines are inverse.** Lines that can be told apart are cut
where they were joined, with any endings, and also without the last one if the last line is not
empty. Every source is joined from its lines in this way, and no line has a break in it. A source
that is read from a file is translated, has the same lines and compiles in the same way. -/
theorem lines_inverse_joined :
    (∀ es : List EndedLine, Separate es →
      lines (joined es) = es.map (·.line) ∧
      ∀ last, es.getLast? = some last → last.line ≠ "" →
        lines (joinedOpen es) = es.map (·.line)) ∧
    (∀ source : String,
      (∃ es, Separate es ∧ lines source = es.map (·.line) ∧
        (source = joined es ∨
          ∃ last, es.getLast? = some last ∧ last.line ≠ "" ∧ source = joinedOpen es)) ∧
      ∀ l ∈ lines source, BreakFree l.toList) ∧
    ∀ text : String, decodeSource text.toUTF8 = .ok (translated text) ∧
      lines (translated text) = lines text ∧ compile (translated text) = compile text := by
  refine ⟨fun es hes => ⟨lines_joined hes, fun last hlast hne => lines_joinedOpen hes hlast hne⟩,
    fun source => ⟨exists_ended source, fun l hl => breakFree_of_mem_lines hl⟩, fun text => ?_⟩
  refine ⟨decodeSource_toUTF8 text, ?_, ?_⟩
  · rw [← ofList_unifyBreaks, lines_unifyBreaks]
  · rw [← ofList_unifyBreaks, compile_unifyBreaks]

/-- Lines with five different endings and three empty lines, one of which stands behind a carriage
return. -/
theorem lines_inverse_joined_mixed :
    let es : List EndedLine := [⟨"x = 1", .pair⟩, ⟨"", .carriageReturn⟩, ⟨"", .pair⟩,
      ⟨"y\t", .lineSeparator⟩, ⟨"", .nextLine⟩, ⟨"x", .lineFeed⟩]
    Separate es ∧ joined es = "x = 1\r\n\r\r\ny\t\u2028\u0085x\n" ∧
      lines (joined es) = ["x = 1", "", "", "y\t", "", "x"] ∧
      lines (joinedOpen es) = ["x = 1", "", "", "y\t", "", "x"] := by
  intro es
  have hes : Separate es := ⟨by decide, by decide⟩
  obtain ⟨hclosed, hopen⟩ := lines_inverse_joined.1 es hes
  exact ⟨hes, by decide, hclosed, hopen ⟨"x", .lineFeed⟩ rfl (by decide)⟩

end Text

end Abacus
