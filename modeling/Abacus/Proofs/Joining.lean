import Mathlib.Data.List.Chain
import Abacus.Text.Line

/-!
# Lines joined and cut again

Cutting a source at its breaks undoes the joining of lines that have no break in them, whatever each
of them is ended by, and every source is cut into such lines. Only one thing can go wrong: a
carriage return and a line feed that end two lines, the second of them empty, are cut as one ending.
It makes no difference to the lines whether carriage returns have been turned into line feeds
before.

## Main definitions

* `BreakFree`: the texts without a line break
* `LineEnd`, `EndedLine`, `joined`: the endings of lines, and lines joined with their endings
* `Separate`: lines and endings that can be told apart
* `unlines`: lines joined, each ended by a line feed

## Main results

* `pieces_append`: a text without a break goes in front of the first piece
* `lines_joined`, `lines_joined_append`: lines are cut where they were joined, the last one ended or
  not
* `exists_joined`: every source is lines joined, and a rest without a break
* `breakFree_of_mem_lines`: no line has a break in it
* `lines_unifyBreaks`: unifying the breaks of a source does not change its lines
-/

namespace Abacus.Text

/-- A text without a line break. -/
def BreakFree (cs : List Char) : Prop :=
  ∀ c ∈ cs, isBreak c = false

instance (cs : List Char) : Decidable (BreakFree cs) :=
  decidable_of_iff (cs.all (!isBreak ·) = true) (by simp [BreakFree])

/-- Lines joined, each ended by a line feed. -/
def unlines (lines : List String) : String :=
  String.join (lines.map (· ++ "\n"))

section Pieces

variable {c : Char} {cs l : List Char}

@[simp] theorem pieces_nil : pieces [] = [[]] := by
  rw [pieces]

@[simp] theorem pieces_lineFeed (cs : List Char) : pieces ('\n' :: cs) = [] :: pieces cs := by
  rw [pieces]
  · rfl
  · simp

/-- A character that is no break belongs to the first piece. -/
theorem pieces_cons_of_not (hc : isBreak c = false) :
    pieces (c :: cs) = (pieces cs).modifyHead (c :: ·) := by
  rw [pieces]
  · simp [hc]
  · rintro ds rfl
    cases hc

/-- A break ends an empty piece, unless it is the carriage return of a pair. -/
theorem pieces_cons_break (hc : isBreak c = true)
    (hpair : ¬ (c = '\r' ∧ cs.head? = some '\n')) : pieces (c :: cs) = [] :: pieces cs := by
  rw [pieces]
  · simp [hc]
  · rintro ds rfl rfl
    exact hpair ⟨rfl, rfl⟩

/-- **A text without a break goes in front of the first piece.** -/
theorem pieces_append (hl : BreakFree l) (cs : List Char) :
    pieces (l ++ cs) = (pieces cs).modifyHead (l ++ ·) := by
  induction l with
  | nil =>
    rw [List.nil_append]
    cases pieces cs <;> rfl
  | cons c l ih =>
    have hc : isBreak c = false := hl c (by simp)
    have htail : BreakFree l := fun d hd => hl d (by simp [hd])
    rw [List.cons_append, pieces_cons_of_not hc, ih htail]
    cases pieces cs <;> rfl

theorem breakFree_of_mem_pieces (h : l ∈ pieces cs) : BreakFree l := by
  fun_induction pieces cs generalizing l with
  | case1 =>
    obtain rfl := List.mem_singleton.mp h
    simp [BreakFree]
  | case2 cs ih =>
    rcases List.mem_cons.mp h with rfl | h
    · simp [BreakFree]
    · exact ih h
  | case3 c cs _ hc ih =>
    rcases List.mem_cons.mp h with rfl | h
    · simp [BreakFree]
    · exact ih h
  | case4 c cs _ hc ih =>
    obtain ⟨first, rest, hpieces⟩ := List.exists_cons_of_ne_nil (pieces_ne_nil cs)
    rw [hpieces, List.modifyHead_cons] at h
    rcases List.mem_cons.mp h with rfl | h
    · intro d hd
      rcases List.mem_cons.mp hd with rfl | hd
      · exact Bool.eq_false_iff.mpr hc
      · exact ih (by simp [hpieces]) d hd
    · exact ih (by simp [hpieces, h])

/-- A carriage return breaks a text where a line feed would, with or without a line feed behind
it. -/
theorem pieces_unifyBreaks (cs : List Char) : pieces (unifyBreaks cs) = pieces cs := by
  fun_induction unifyBreaks cs with
  | case1 => rfl
  | case2 cs ih => rw [pieces_lineFeed, pieces, ih]
  | case3 c cs hpair ih =>
    by_cases hr : c = '\r'
    · subst hr
      rw [if_pos rfl, pieces_lineFeed, pieces, ih]
      · rfl
      · exact hpair
    · rw [if_neg hr]
      cases hc : isBreak c with
      | false => rw [pieces_cons_of_not hc, pieces_cons_of_not hc, ih]
      | true =>
        rw [pieces, pieces]
        · simp [hc, ih]
        · exact hpair
        · rintro ds rfl
          exact absurd rfl hr

end Pieces

/-! ## Lines with their endings -/

/-- What ends a line. -/
inductive LineEnd where
  /-- A carriage return and a line feed. -/
  | pair
  | lineFeed
  | carriageReturn
  | lineSeparator
  | paragraphSeparator
  | nextLine
  deriving DecidableEq, Repr

/-- The characters of an ending. -/
def LineEnd.chars : LineEnd → List Char
  | pair => ['\r', '\n']
  | lineFeed => ['\n']
  | carriageReturn => ['\r']
  | lineSeparator => ['\u2028']
  | paragraphSeparator => ['\u2029']
  | nextLine => ['\u0085']

/-- A line and what ends it. -/
structure EndedLine where
  line : String
  ending : LineEnd
  deriving DecidableEq, Repr

/-- A line followed by its ending. -/
def EndedLine.chars (e : EndedLine) : List Char :=
  e.line.toList ++ e.ending.chars

/-- **Lines joined**, each followed by its ending. -/
def joined (es : List EndedLine) : String :=
  String.ofList (es.flatMap EndedLine.chars)

/-- Lines joined without the ending of the last one. -/
def joinedOpen (es : List EndedLine) : String :=
  joined es.dropLast ++ (es.getLast?.map (·.line)).getD ""

/-- **Lines that can be told apart**: there is no break in any of them, and no carriage return that
ends a line is directly followed by an empty line that a line feed ends. -/
structure Separate (es : List EndedLine) : Prop where
  free : ∀ e ∈ es, BreakFree e.line.toList
  apart : es.IsChain fun e e' =>
    ¬ (e.ending = .carriageReturn ∧ e'.line = "" ∧ e'.ending = .lineFeed)

section Joined

variable {e : EndedLine} {es : List EndedLine} {rest : List Char}

@[simp] theorem toList_joined (es : List EndedLine) :
    (joined es).toList = es.flatMap EndedLine.chars :=
  String.toList_ofList

theorem Separate.nil : Separate [] :=
  ⟨by simp, .nil⟩

theorem Separate.tail (h : Separate (e :: es)) : Separate es :=
  ⟨fun e' he' => h.free e' (List.mem_cons_of_mem e he'), h.apart.tail⟩

theorem Separate.cons (h : Separate es) (hfree : BreakFree e.line.toList)
    (hapart : ∀ e' ∈ es.head?,
      ¬ (e.ending = .carriageReturn ∧ e'.line = "" ∧ e'.ending = .lineFeed)) :
    Separate (e :: es) :=
  ⟨List.forall_mem_cons.mpr ⟨hfree, h.free⟩, List.isChain_cons.mpr ⟨hapart, h.apart⟩⟩

/-- An ending cuts a text, unless it is the carriage return of a pair. -/
theorem pieces_lineEnd {ending : LineEnd}
    (h : ¬ (ending = .carriageReturn ∧ rest.head? = some '\n')) :
    pieces (ending.chars ++ rest) = [] :: pieces rest := by
  cases ending with
  | pair => exact pieces.eq_2 rest
  | carriageReturn =>
    refine pieces_cons_break rfl ?_
    rintro ⟨-, hhead⟩
    exact h ⟨rfl, hhead⟩
  | _ => exact pieces_cons_break rfl (by rintro ⟨⟨⟩, -⟩)

theorem BreakFree.head?_ne (h : BreakFree rest) : rest.head? ≠ some '\n' := by
  intro hhead
  cases h '\n' (List.mem_of_head? hhead)

/-- A line feed in front of joined lines is the ending of an empty line. -/
theorem head?_joined (hfree : ∀ e ∈ es, BreakFree e.line.toList) (hrest : BreakFree rest)
    (h : (es.flatMap EndedLine.chars ++ rest).head? = some '\n') :
    ∃ e ∈ es.head?, e.line = "" ∧ e.ending = .lineFeed := by
  rcases es with _ | ⟨e, es⟩
  · exact absurd h hrest.head?_ne
  · rw [List.flatMap_cons, EndedLine.chars, List.append_assoc, List.append_assoc] at h
    have hline := hfree e (by simp)
    cases hchars : e.line.toList with
    | nil =>
      refine ⟨e, rfl, String.toList_eq_nil_iff.mp hchars, ?_⟩
      rw [hchars, List.nil_append] at h
      cases hending : e.ending <;> simp [hending, LineEnd.chars] at h ⊢
    | cons c cs =>
      rw [hchars] at h hline
      exact absurd h hline.head?_ne

/-- **Joined lines are cut where they were joined**, and what stands behind them is the last
piece. -/
theorem pieces_joined_append (h : Separate es) (hrest : BreakFree rest) :
    pieces (es.flatMap EndedLine.chars ++ rest) = es.map (·.line.toList) ++ [rest] := by
  induction es with
  | nil =>
    have hpiece := pieces_append hrest []
    simpa using hpiece
  | cons e es ih =>
    have hnot : ¬ (e.ending = .carriageReturn ∧
        (es.flatMap EndedLine.chars ++ rest).head? = some '\n') := by
      rintro ⟨hcr, hhead⟩
      obtain ⟨e', he', hline, hending⟩ := head?_joined h.tail.free hrest hhead
      exact (List.isChain_cons.mp h.apart).1 e' he' ⟨hcr, hline, hending⟩
    rw [List.flatMap_cons, EndedLine.chars, List.append_assoc, List.append_assoc,
      pieces_append (h.free e (by simp)), pieces_lineEnd hnot, ih h.tail]
    simp

/-- A break by itself is an ending. -/
theorem exists_lineEnd {c : Char} (h : isBreak c = true) :
    ∃ ending : LineEnd, ending.chars = [c] := by
  simp only [isBreak, Bool.or_eq_true, decide_eq_true_eq] at h
  rcases h with (((rfl | rfl) | rfl) | rfl) | rfl
  · exact ⟨.lineFeed, rfl⟩
  · exact ⟨.carriageReturn, rfl⟩
  · exact ⟨.nextLine, rfl⟩
  · exact ⟨.lineSeparator, rfl⟩
  · exact ⟨.paragraphSeparator, rfl⟩

/-- **Every text is lines joined**, and a rest that has no break. -/
theorem exists_joined (cs : List Char) :
    ∃ es rest, Separate es ∧ BreakFree rest ∧ cs = es.flatMap EndedLine.chars ++ rest := by
  -- the induction follows the cutting, which takes a pair of breaks at once
  induction cs using pieces.induct with
  | case1 => exact ⟨[], [], .nil, by simp [BreakFree], rfl⟩
  | case2 cs ih =>
    obtain ⟨es, rest, hes, hrest, rfl⟩ := ih
    refine ⟨⟨"", .pair⟩ :: es, rest, hes.cons (by simp [BreakFree]) ?_, hrest, rfl⟩
    rintro e' - ⟨⟨⟩, -⟩
  | case3 c cs hpair hc ih =>
    obtain ⟨es, rest, hes, hrest, rfl⟩ := ih
    obtain ⟨ending, hending⟩ := exists_lineEnd hc
    refine ⟨⟨"", ending⟩ :: es, rest, hes.cons (by simp [BreakFree]) ?_, hrest, ?_⟩
    · -- an empty line that a line feed ends would make a pair
      rintro e' he' ⟨rfl, hline, hfeed⟩
      obtain ⟨es', rfl⟩ := List.head?_eq_some_iff.mp he'
      refine hpair (es'.flatMap EndedLine.chars ++ rest) (List.cons.inj hending).1.symm ?_
      simp [EndedLine.chars, hline, hfeed, LineEnd.chars]
    · simp [EndedLine.chars, hending]
  | case4 c cs hpair hc ih =>
    have hc : isBreak c = false := Bool.eq_false_iff.mpr hc
    obtain ⟨es, rest, hes, hrest, rfl⟩ := ih
    rcases es with _ | ⟨e, es⟩
    · exact ⟨[], c :: rest, .nil, List.forall_mem_cons.mpr ⟨hc, hrest⟩, rfl⟩
    · have hfree : BreakFree (c :: e.line.toList) :=
        List.forall_mem_cons.mpr ⟨hc, hes.free e (by simp)⟩
      refine ⟨⟨String.ofList (c :: e.line.toList), e.ending⟩ :: es, rest, ?_, hrest, ?_⟩
      · exact hes.tail.cons (by simpa using hfree) (List.isChain_cons.mp hes.apart).1
      · simp [EndedLine.chars]

end Joined

/-! ## Lines -/

section Lines

variable {es : List EndedLine}

/-- **Ended lines are cut where they were joined.** -/
theorem lines_joined (h : Separate es) : lines (joined es) = es.map (·.line) := by
  have hpieces : pieces (es.flatMap EndedLine.chars ++ []) = es.map (·.line.toList) ++ [[]] :=
    pieces_joined_append h (by simp [BreakFree])
  rw [List.append_nil] at hpieces
  simp [lines, hpieces]

/-- A last line without ending is cut off too. -/
theorem lines_joined_append (h : Separate es) {last : String} (hlast : BreakFree last.toList)
    (hne : last ≠ "") : lines (joined es ++ last) = es.map (·.line) ++ [last] := by
  have hpieces := pieces_joined_append h hlast
  simp [lines, hpieces, hne]

/-- **Lines without breaks are cut where they were joined.** -/
theorem lines_unlines {ls : List String} (h : ∀ l ∈ ls, BreakFree l.toList) :
    lines (unlines ls) = ls := by
  let ended : String → EndedLine := fun l => ⟨l, .lineFeed⟩
  have hjoined : unlines ls = joined (ls.map ended) := by
    apply String.toList_injective
    simp [unlines, String.toList_join, List.flatMap_map, EndedLine.chars, LineEnd.chars, ended]
  have hseparate : Separate (ls.map ended) := by
    refine ⟨by simpa [ended] using h, (List.isChain_map ended).mpr ?_⟩
    exact List.isChain_iff_getElem.mpr fun i hi hboth => nomatch hboth.1
  rw [hjoined, lines_joined hseparate, List.map_map]
  exact List.map_id ls

end Lines

/-- **No line has a break in it.** -/
theorem breakFree_of_mem_lines {source l : String} (h : l ∈ lines source) : BreakFree l.toList := by
  obtain ⟨cs, hcs, rfl⟩ := List.mem_map.mp h
  have hpiece : cs ∈ pieces source.toList := by
    split at hcs
    · exact List.dropLast_subset _ hcs
    · exact hcs
  rw [String.toList_ofList]
  exact breakFree_of_mem_pieces hpiece

/-- **Unifying the breaks of a source does not change its lines.** -/
theorem lines_unifyBreaks (source : String) :
    lines (String.ofList (unifyBreaks source.toList)) = lines source := by
  simp only [lines, String.toList_ofList, pieces_unifyBreaks]

end Abacus.Text
