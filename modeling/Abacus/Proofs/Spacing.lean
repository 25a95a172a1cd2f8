import Abacus.Proofs.Joining
import Abacus.Proofs.Lexing
import Abacus.Proofs.Lowering

/-!
# Blanks within lines

A blank that breaks no line means nothing, wherever it stands: inside a name or a number, beside a
sign, or on a line with nothing else. It goes into one of the pieces that the source is cut into,
and is dropped from there before the line is read. Two places are different. Between a carriage
return and its line feed it would make two breaks of one, and behind the last break it would make a
line where there is none.

## Main definitions

* `Text.WithinPair`, `Text.AtOpenEnd`: the two places

## Main results

* `Text.pieces_insert`: a character that breaks no line goes into one of the pieces
* `Text.getLast?_pieces_eq_nil_iff`: the last piece is empty at an open end only
* `compile_eq_of_strippedLines`: a source is compiled as its lines without blanks are
* `compile_insert_blank`: a blank within a line changes nothing
-/

namespace Abacus

namespace Text

/-- The place between a carriage return and the line feed that directly follows it. -/
def WithinPair (front back : List Char) : Prop :=
  front.getLast? = some '\r' ∧ back.head? = some '\n'

/-- The end of a text that is empty or ends in a line break. -/
def AtOpenEnd (front back : List Char) : Prop :=
  back = [] ∧ ∀ last ∈ front.getLast?, isBreak last = true

section Pieces

variable {c x : Char} {cs f front back : List Char}

theorem WithinPair.cons (x : Char) (h : WithinPair front back) : WithinPair (x :: front) back := by
  refine ⟨?_, h.2⟩
  simp [List.getLast?_cons, h.1]

/-- A break in front is the carriage return of a pair only together with what it has behind it. -/
theorem pieces_cons_break_append (hx : isBreak x = true)
    (hnot : ∀ ds, x = '\r' → f = '\n' :: ds → False) (hback : ¬ WithinPair (x :: f) back) :
    pieces (x :: (f ++ back)) = [] :: pieces (f ++ back) := by
  apply pieces_cons_break hx
  rintro ⟨rfl, hhead⟩
  rcases f with _ | ⟨y, f⟩
  · exact hback ⟨rfl, hhead⟩
  · obtain rfl : y = '\n' := by simpa using hhead
    exact hnot f rfl rfl

/-- **A character that breaks no line goes into one of the pieces**, unless it stands between a
carriage return and its line feed. -/
theorem pieces_insert (hc : isBreak c = false) (hpair : ¬ WithinPair front back) :
    ∃ before l r after, pieces (front ++ back) = before ++ (l ++ r) :: after ∧
      pieces (front ++ c :: back) = before ++ (l ++ c :: r) :: after := by
  -- the induction follows the cutting of the front, which passes a pair of breaks at once
  induction front using pieces.induct with
  | case1 =>
    obtain ⟨first, rest, hpieces⟩ := List.exists_cons_of_ne_nil (pieces_ne_nil back)
    refine ⟨[], [], first, rest, hpieces, ?_⟩
    simp [pieces_cons_of_not hc, hpieces]
  | case2 f ih =>
    have hpair' : ¬ WithinPair f back := fun h => hpair ((h.cons '\n').cons '\r')
    obtain ⟨before, l, r, after, hold, hnew⟩ := ih hpair'
    exact ⟨[] :: before, l, r, after, by simp [pieces, hold], by simp [pieces, hnew]⟩
  | case3 x f hnot hx ih =>
    have hpair' : ¬ WithinPair f back := fun h => hpair (h.cons x)
    obtain ⟨before, l, r, after, hold, hnew⟩ := ih hpair'
    have hinserted : ¬ WithinPair (x :: f) (c :: back) := by
      rintro ⟨-, hhead⟩
      obtain rfl : c = '\n' := by simpa using hhead
      cases hc
    refine ⟨[] :: before, l, r, after, ?_, ?_⟩
    · rw [List.cons_append, pieces_cons_break_append hx hnot hpair, hold]
      rfl
    · rw [List.cons_append, pieces_cons_break_append hx hnot hinserted, hnew]
      rfl
  | case4 x f hnot hx ih =>
    have hpair' : ¬ WithinPair f back := fun h => hpair (h.cons x)
    obtain ⟨before, l, r, after, hold, hnew⟩ := ih hpair'
    have hx : isBreak x = false := Bool.eq_false_iff.mpr hx
    simp only [List.cons_append, pieces_cons_of_not hx, hold, hnew]
    rcases before with _ | ⟨first, before⟩
    · exact ⟨[], x :: l, r, after, rfl, rfl⟩
    · exact ⟨(x :: first) :: before, l, r, after, rfl, rfl⟩

/-- Only the empty text has nothing but an empty piece. -/
theorem pieces_eq_singleton_nil_iff : pieces cs = [[]] ↔ cs = [] := by
  constructor
  · intro h
    fun_cases pieces cs with
    | case1 => rfl
    | case2 cs => simp [pieces, pieces_ne_nil] at h
    | case3 x cs hpair hx => simp [pieces, hx, pieces_ne_nil] at h
    | case4 x cs hpair hx =>
      rw [pieces_cons_of_not (Bool.eq_false_iff.mpr hx)] at h
      obtain ⟨first, rest, hpieces⟩ := List.exists_cons_of_ne_nil (pieces_ne_nil cs)
      simp [hpieces] at h
  · rintro rfl
    exact pieces_nil

/-- **The last piece is empty behind a break** and in the empty text, and nowhere else. -/
theorem getLast?_pieces_eq_nil_iff :
    (pieces cs).getLast? = some [] ↔ ∀ last ∈ cs.getLast?, isBreak last = true := by
  have hcons : ∀ (p cs : List Char), (p :: pieces cs).getLast? = (pieces cs).getLast? := by
    intro p cs
    obtain ⟨first, rest, hpieces⟩ := List.exists_cons_of_ne_nil (pieces_ne_nil cs)
    rw [hpieces, List.getLast?_cons_cons]
  fun_induction pieces cs with
  | case1 => simp
  | case2 cs ih =>
    rw [hcons]
    refine ih.trans ?_
    rcases cs with _ | ⟨y, cs⟩
    · simp [isBreak]
    · simp
  | case3 x cs hpair hx ih =>
    rw [hcons]
    refine ih.trans ?_
    rcases cs with _ | ⟨y, cs⟩
    · simp [hx]
    · simp
  | case4 x cs hpair hx ih =>
    obtain ⟨first, rest, hpieces⟩ := List.exists_cons_of_ne_nil (pieces_ne_nil cs)
    rcases cs with _ | ⟨y, cs⟩
    · simp [hx]
    · rw [List.getLast?_cons_cons]
      refine Iff.trans ?_ ih
      rw [hpieces, List.modifyHead_cons]
      rcases rest with _ | ⟨second, rest⟩
      · have hfirst : first ≠ [] := by
          rintro rfl
          cases pieces_eq_singleton_nil_iff.mp hpieces
        simp [hfirst]
      · simp

/-- A character that breaks no line opens no new line, unless it stands at an open end. -/
theorem getLast?_pieces_insert (hc : isBreak c = false) (hend : ¬ AtOpenEnd front back) :
    (pieces (front ++ c :: back)).getLast? = some [] ↔
      (pieces (front ++ back)).getLast? = some [] := by
  rw [getLast?_pieces_eq_nil_iff, getLast?_pieces_eq_nil_iff]
  rcases List.eq_nil_or_concat back with rfl | ⟨back, last, rfl⟩
  · have hfront : ¬ ∀ last ∈ front.getLast?, isBreak last = true := fun h => hend ⟨rfl, h⟩
    simpa [hc] using hfront
  · simp [List.getLast?_append, List.getLast?_cons]

end Pieces

end Text

/-! ## Lines without their blanks -/

theorem strippedLines_eq (source : String) :
    strippedLines source =
      if (Text.pieces source.toList).getLast? = some [] then
        ((Text.pieces source.toList).map Text.dropBlanks).dropLast
      else (Text.pieces source.toList).map Text.dropBlanks := by
  simp only [strippedLines, Text.lines]
  split <;> simp [List.map_dropLast, Function.comp_def]

/-- A statement is read from a line without its blanks. -/
theorem Statement.parse_eq_of_dropBlanks {text text' : String} (line : Int)
    (h : Text.dropBlanks text.toList = Text.dropBlanks text'.toList) :
    parse text line = parse text' line := by
  simp only [parse, tokens, h]

theorem compileLine_eq_of_dropBlanks {text text' : String}
    (h : Text.dropBlanks text.toList = Text.dropBlanks text'.toList) :
    compileLine text = compileLine text' := by
  simp only [compileLine, readStatement, Statement.parse_eq_of_dropBlanks _ h]

/-- **A source is compiled as its lines without blanks are.** -/
theorem compile_eq_of_strippedLines {source source' : String}
    (h : strippedLines source = strippedLines source') : compile source = compile source' := by
  have hlines : ∀ ls ls' : List String,
      ls.map (Text.dropBlanks ·.toList) = ls'.map (Text.dropBlanks ·.toList) →
      compileLines ls = compileLines ls' := by
    intro ls
    induction ls with
    | nil =>
      intro ls' hmap
      rw [List.map_eq_nil_iff.mp hmap.symm]
    | cons text rest ih =>
      intro ls' hmap
      obtain ⟨text', rest', rfl, htext, hrest⟩ := List.map_eq_cons_iff.mp hmap.symm
      simp only [compileLines, compileLine_eq_of_dropBlanks htext, ih rest' hrest.symm]
  simp only [compile, hlines _ _ h]

/-- **A blank within a line changes nothing.** Where a blank that breaks no line is put into a
source, at any place but between a carriage return and its line feed and behind the last break, the
source compiles to the same session or fails in the same way. -/
theorem compile_insert_blank (front back : List Char) (c : Char) (hblank : Text.isBlank c = true)
    (hbreak : Text.isBreak c = false) (hpair : ¬ Text.WithinPair front back)
    (hend : ¬ Text.AtOpenEnd front back) :
    compile (String.ofList (front ++ c :: back)) = compile (String.ofList (front ++ back)) := by
  apply compile_eq_of_strippedLines
  obtain ⟨before, l, r, after, hold, hnew⟩ := Text.pieces_insert hbreak hpair
  have hlast := Text.getLast?_pieces_insert hbreak hend
  have hmap : (Text.pieces (front ++ c :: back)).map Text.dropBlanks =
      (Text.pieces (front ++ back)).map Text.dropBlanks := by
    simp [hold, hnew, Text.dropBlanks, hblank]
  simp only [strippedLines_eq, String.toList_ofList, hlast, hmap]

/-- A no-break space within a number, after a pair of breaks. -/
theorem compile_insert_blank_number :
    compile (String.ofList ("x = 4\r\n1".toList ++ '\u00a0' :: "2 / x".toList)) =
      compile (String.ofList ("x = 4\r\n1".toList ++ "2 / x".toList)) ∧
    ∃ s, compile (String.ofList ("x = 4\r\n1".toList ++ "2 / x".toList)) = .ok () s ∧
      s.line = 2 := by
  refine ⟨?_, by decide +kernel⟩
  apply compile_insert_blank
  · decide
  · decide
  · simp [Text.WithinPair]
  · simp [Text.AtOpenEnd]

end Abacus
