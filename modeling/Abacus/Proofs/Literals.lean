import Mathlib.Logic.Relation
import Abacus.Proofs.Respelling
import Abacus.Proofs.SingleAssignment
import Abacus.Proofs.Spacing

/-!
# Literals are exact

A literal of a source stands for its value and for nothing else. Another spelling of it in the text
of the source is another spelling of one token on one line, whatever blanks it has in it, so the
source compiles to the same session. A literal that is fetched is a constant or undefined, whatever
has been compiled before.

## Main definitions

* `Text.RespellsOne`: a source with one literal spelled differently

## Main results

* `Text.exists_lines_cut`: a line between two breaks is a line of the source
* `Text.RespellsOne.lines_respells`: another spelling leaves all other tokens as they are
* `compile_respells`: a source compiles to the same session with other spellings
* `Item.fetch_digits`: what a digit text is fetched as
* `literals_exact`: literals are exact and their spelling does not matter
-/

namespace Abacus

/-! ## Literals in a line -/

/-- The digits of a literal are characters of operands. -/
theorem isOperandChar_of_isDigits {d : List Char} (h : Literal.isDigits d = true) :
    d ≠ [] ∧ ∀ c ∈ d, isOperandChar c = true := by
  simp only [Literal.isDigits, Bool.and_eq_true, Bool.not_eq_true', List.isEmpty_eq_false_iff,
    List.all_eq_true] at h
  exact ⟨h.1, fun c hc => isOperandChar_of_isNameStart (by simp [h.2 c hc])⟩

/-- Digits between signs are a token by themselves. -/
theorem readTokens_digits {l d r : List Char} (hl : ∀ c ∈ l.getLast?, isSignChar c = true)
    (hr : ∀ c ∈ r.head?, isSignChar c = true) (hd : Literal.isDigits d = true) :
    readTokens (l ++ d ++ r) = readTokens l ++ ⟨.operand, String.ofList d⟩ :: readTokens r := by
  obtain ⟨hne, hop⟩ := isOperandChar_of_isDigits hd
  have hright : readTokens (d ++ r) = ⟨.operand, String.ofList d⟩ :: readTokens r := by
    cases r with
    | nil => rw [List.append_nil, readTokens_word hne hop, readTokens_nil]
    | cons c r =>
      have hc : isSignChar c = true := hr c rfl
      rw [readTokens_append_sign hc, readTokens_word hne hop, readTokens_sign hc]
      rfl
  rcases List.eq_nil_or_concat l with rfl | ⟨l, c, rfl⟩
  · rw [List.nil_append, hright, readTokens_nil]
    rfl
  · have hc : isSignChar c = true := hl c (by simp)
    rw [List.concat_eq_append, List.append_assoc, List.append_assoc, List.singleton_append,
      readTokens_append_sign hc, readTokens_append_sign hc, hright, readTokens_nil]
    simp

/-! ## Literals in a source -/

namespace Text

/-- **A source with one literal spelled differently.** The literal `d` stands on the line
`l ++ d ++ r`, which is all that there is between two breaks or ends of the source. It is a whole
operand: blanks apart, it has a sign on either side of it, or nothing. It may have blanks in it, as
every operand may. -/
inductive RespellsOne : List Char → List Char → Prop where
  | intro {earlier l d d' r later : List Char}
    (hearlier : ∀ c ∈ earlier.getLast?, isBreak c = true)
    (hlater : ∀ c ∈ later.head?, isBreak c = true) (hline : BreakFree (l ++ d ++ r))
    (hl : ∀ c ∈ (dropBlanks l).getLast?, isSignChar c = true)
    (hr : ∀ c ∈ (dropBlanks r).head?, isSignChar c = true)
    (h : Literal.Respells (dropBlanks d) d') :
    RespellsOne (earlier ++ (l ++ d ++ r) ++ later) (earlier ++ (l ++ d' ++ r) ++ later)

variable {earlier later cs : List Char}

/-- A text behind a break is cut by itself. -/
theorem pieces_append_of_break (hearlier : ∀ c ∈ earlier.getLast?, isBreak c = true)
    (hcs : cs.head? ≠ some '\n') :
    pieces (earlier ++ cs) = (pieces earlier).dropLast ++ pieces cs := by
  have htail : ∀ {x f}, (∀ c ∈ (x :: f).getLast?, isBreak c = true) →
      ∀ c ∈ f.getLast?, isBreak c = true := by
    intro x f h c hc
    refine h c ?_
    rw [Option.mem_def] at hc ⊢
    rw [List.getLast?_cons, hc]
    rfl
  induction earlier using pieces.induct with
  | case1 => simp
  | case2 f ih =>
    rw [List.cons_append, List.cons_append, pieces, pieces, ih (htail (htail hearlier)),
      List.dropLast_cons_of_ne_nil (pieces_ne_nil f)]
    rfl
  | case3 x f hnot hx ih =>
    have hpair : ¬ WithinPair (x :: f) cs := fun h => hcs h.2
    have hself : pieces (x :: (f ++ [])) = [] :: pieces (f ++ []) := by
      refine pieces_cons_break_append hx hnot ?_
      rintro ⟨-, ⟨⟩⟩
    rw [List.append_nil] at hself
    rw [List.cons_append, pieces_cons_break_append hx hnot hpair, hself,
      ih (htail hearlier), List.dropLast_cons_of_ne_nil (pieces_ne_nil f)]
    rfl
  | case4 x f hnot hx ih =>
    have hx : isBreak x = false := Bool.eq_false_iff.mpr hx
    rw [List.cons_append, pieces_cons_of_not hx, pieces_cons_of_not hx, ih (htail hearlier)]
    obtain ⟨first, rest, hpieces⟩ := List.exists_cons_of_ne_nil (pieces_ne_nil f)
    rcases rest with _ | ⟨second, rest⟩
    · have hlast := getLast?_pieces_eq_nil_iff.mpr (htail hearlier)
      rw [hpieces] at hlast
      cases hlast
      obtain rfl := pieces_eq_singleton_nil_iff.mp hpieces
      exact absurd (hearlier x rfl) (by simp [hx])
    · rw [hpieces]
      rfl

/-- What stands before a break is one piece. -/
theorem pieces_append_break (hcs : BreakFree cs) (hlater : ∀ c ∈ later.head?, isBreak c = true) :
    pieces (cs ++ later) = cs :: (pieces later).tail := by
  rw [pieces_append hcs]
  fun_cases pieces later with
  | case1 => simp
  | case2 later => simp
  | case3 c later hpair hc => simp
  | case4 c later hpair hc => exact absurd (hlater c rfl) hc

/-- **A line between two breaks** is one of the lines of a source, and the others do not depend on
it. -/
theorem exists_lines_cut (hearlier : ∀ c ∈ earlier.getLast?, isBreak c = true)
    (hlater : ∀ c ∈ later.head?, isBreak c = true) :
    ∃ front back, ∀ line, BreakFree line → line ≠ [] →
      lines (String.ofList (earlier ++ line ++ later)) = front ++ String.ofList line :: back := by
  refine ⟨(pieces earlier).dropLast.map String.ofList,
    (if (pieces later).tail.getLast? = some [] then (pieces later).tail.dropLast
      else (pieces later).tail).map String.ofList, fun line hline hne => ?_⟩
  have hhead : (line ++ later).head? ≠ some '\n' := by
    rw [List.head?_append_of_ne_nil line hne]
    exact hline.head?_ne
  rw [lines, String.toList_ofList, List.append_assoc, pieces_append_of_break hearlier hhead,
    pieces_append_break hline hlater]
  generalize (pieces later).tail = rest
  rcases List.eq_nil_or_concat rest with rfl | ⟨rest, last, rfl⟩
  · simp [hne]
  · have hconcat : ∀ front : List (List Char),
        front ++ line :: (rest ++ [last]) = (front ++ line :: rest) ++ [last] := by simp
    rw [List.concat_eq_append, hconcat, List.getLast?_concat, List.getLast?_concat,
      List.dropLast_concat, List.dropLast_concat]
    split <;> simp

/-- **A source with one literal spelled differently has the same tokens** up to that literal. -/
theorem RespellsOne.lines_respells {source source' : List Char} (h : RespellsOne source source') :
    List.Forall₂ Line.Respells (lines (String.ofList source)) (lines (String.ofList source')) := by
  obtain @⟨earlier, l, d, d', r, later, hearlier, hlater, hline, hl, hr, h⟩ := h
  obtain ⟨front, back, hcut⟩ := exists_lines_cut hearlier hlater
  obtain ⟨hne', hop⟩ := isOperandChar_of_isDigits h.digits'
  have hblank : ∀ c ∈ d', isBlank c = false := by
    intro c hc
    have hc := hop c hc
    simp only [isOperandChar, Bool.and_eq_true, Bool.not_eq_true'] at hc
    exact hc.1
  have hne : d ≠ [] := by
    rintro rfl
    exact (isOperandChar_of_isDigits h.digits).1 rfl
  have hline' : BreakFree (l ++ d' ++ r) := by
    obtain ⟨hleft, hright⟩ := List.forall_mem_append.mp hline
    refine List.forall_mem_append.mpr ⟨List.forall_mem_append.mpr ⟨?_, ?_⟩, hright⟩
    · exact (List.forall_mem_append.mp hleft).1
    · intro c hc
      cases hbreak : isBreak c with
      | false => rfl
      | true => exact (isBlank_of_isBreak hbreak).symm.trans (hblank c hc)
  have htokens : Line.Respells (String.ofList (l ++ d ++ r)) (String.ofList (l ++ d' ++ r)) := by
    simp only [Line.Respells, tokens_eq, String.toList_ofList, dropBlanks_append,
      dropBlanks_eq_self hblank, readTokens_digits hl hr h.digits,
      readTokens_digits hl hr h.digits']
    refine List.rel_append (Token.forall₂_respells_refl _)
      (.cons (.literal ?_) (Token.forall₂_respells_refl _))
    simpa only [String.toList_ofList] using h
  rw [hcut _ hline (by simp [hne]), hcut _ hline' (by simp [hne'])]
  exact List.rel_append (Line.forall₂_respells_refl front)
    (.cons htokens (Line.forall₂_respells_refl back))

end Text

/-- The constants of a source that compiles are in range. -/
theorem compile_orderly {source : String} {s : Session} (h : compile source = .ok () s) :
    s.Orderly := by
  have hself := compileLines_follows (Line.forall₂_respells_refl (Text.lines source))
  exact (hself .fresh h).1

/-- **A source compiles to the same session with other spellings of its literals.** -/
theorem compile_respells {source source' : List Char} {s : Session}
    (hsource : Relation.ReflTransGen Text.RespellsOne source source')
    (h : compile (String.ofList source) = .ok () s) :
    compile (String.ofList source') = .ok () s := by
  induction hsource with
  | refl => exact h
  | tail _ hstep ih =>
    obtain ⟨-, _, hrun, -⟩ := compileLines_follows hstep.lines_respells .fresh ih
    exact hrun

/-! ## Fetching a literal -/

/-- **A digit text is a constant or undefined**, where the variables have names. -/
theorem Item.fetch_digits {s : Session} (hs : ∀ name ∈ s.scope.sourceNames, isName name = true)
    (k : Kind) {d : String} (hd : Literal.isDigits d.toList = true)
    (hlength : d.toList.length ≤ 4300) :
    (token ⟨k, d⟩).fetch s =
      if Nat.ofDigitChars 10 d.toList 0 ≤ 2147483647 then
        .ok (.const (Nat.ofDigitChars 10 d.toList 0)) s
      else .error (.rejected ⟨s.line, .undefinedVariable d⟩) s := by
  rw [← Literal.value_eq_ofDigitChars]
  split
  · next hrange => exact fetch_literal (Literal.read_eq_some_iff.mpr ⟨hd, hlength, hrange, rfl⟩)
  · next hrange =>
    have hread : Literal.read d = .ok none := by
      cases hread : Literal.read d with
      | error fault =>
        obtain ⟨-, hlong, -⟩ := Literal.read_eq_error_iff.mp hread
        omega
      | ok n? =>
        cases n? with
        | none => rfl
        | some n =>
          obtain ⟨-, -, hle, -⟩ := Literal.read_eq_some_iff.mp hread
          exact absurd hle hrange
    exact fetch_undefined hread (Literal.notMem_of_isDigits hs hd)

/-- Whatever statements come before, the variables have names. -/
theorem InStep.isName_of_mem {s : Session} (h : InStep s) :
    ∀ name ∈ s.scope.sourceNames, isName name = true :=
  fun _ hmem => h.named _ (h.alloca_mem hmem)

/-- **Literals are exact, and their spelling does not matter.**

Every constant in the instructions of a source that compiles is a 32-bit literal. Whichever literals
of the source are spelled with other digits of the same value, few enough to be read, the source
compiles to the same session, and so to the same module. After any statements, whichever of them
fail, a digit text is fetched as the constant of its value, which is also fetched from the text that
the constant is written as; a text of too great a value is undefined, and never a variable. In both
cases the session stays as it is. -/
theorem literals_exact :
    (∀ (source : String) (s : Session), compile source = .ok () s →
      (∀ instr ∈ s.code, ∀ n ∈ instr.constants, 0 ≤ n ∧ n ≤ 2147483647) ∧
      ∀ source' : String,
        Relation.ReflTransGen Text.RespellsOne source.toList source'.toList →
        compile source' = .ok () s) ∧
    ∀ (statements : List (Int × String)) (k : Kind) (d : String),
      Literal.isDigits d.toList = true → d.toList.length ≤ 4300 →
      let s := Session.afterAll statements
      let v := Nat.ofDigitChars 10 d.toList 0
      (v ≤ 2147483647 → (Item.token ⟨k, d⟩).fetch s = .ok (.const v) s ∧
        (Item.token ⟨k, (Value.const v).text⟩).fetch s = .ok (.const v) s) ∧
      (2147483647 < v →
        (Item.token ⟨k, d⟩).fetch s = .error (.rejected ⟨s.line, .undefinedVariable d⟩) s) := by
  refine ⟨fun source s h => ⟨(compile_orderly h).inRange, fun source' hsource => ?_⟩, ?_⟩
  · have hrespelled := compile_respells hsource (by rwa [String.ofList_toList])
    rwa [String.ofList_toList] at hrespelled
  · intro statements k d hd hlength s v
    have hfetch := Item.fetch_digits (InStep.fresh.attemptAll statements).isName_of_mem k hd hlength
    refine ⟨fun hrange => ⟨hfetch.trans (if_pos hrange), ?_⟩, fun hrange => ?_⟩
    · exact Item.fetch_literal (Literal.read_toString hrange)
    · exact hfetch.trans (if_neg (Nat.not_le.mpr hrange))

/-- Two literals of a source in other spellings, one of them with a blank in it, and the greatest
literal and the one above it after a statement that fails. -/
theorem literals_exact_zeros :
    (∃ s, compile "x = 1\r\ny = 7 - (2 1)" = .ok () s ∧
      compile "x = 1\r\ny = 007 - (021)" = .ok () s ∧
      ∀ instr ∈ s.code, ∀ n ∈ instr.constants, 0 ≤ n ∧ n ≤ 2147483647) ∧
    let s := Session.afterAll [(1, "x = 5"), (2, "y = z")]
    (Item.token ⟨.operand, "02147483647"⟩).fetch s = .ok (.const 2147483647) s ∧
    (Item.token ⟨.operand, (Value.const 2147483647).text⟩).fetch s = .ok (.const 2147483647) s ∧
    (Item.token ⟨.operand, "2147483648"⟩).fetch s =
      .error (.rejected ⟨2, .undefinedVariable "2147483648"⟩) s := by
  obtain ⟨hsources, hfetch⟩ := literals_exact
  refine ⟨?_, ?_⟩
  · obtain ⟨s, hs⟩ : ∃ s, compile "x = 1\r\ny = 7 - (2 1)" = .ok () s := by decide +kernel
    obtain ⟨hrange, hrespelled⟩ := hsources _ s hs
    have hseven : Text.RespellsOne
        ("x = 1\r\n".toList ++ ("y = ".toList ++ "7".toList ++ " - (2 1)".toList) ++ [])
        ("x = 1\r\n".toList ++ ("y = ".toList ++ "007".toList ++ " - (2 1)".toList) ++ []) :=
      .intro (by rintro _ ⟨⟩; decide) nofun (by decide) (by rintro _ ⟨⟩; decide)
        (by rintro _ ⟨⟩; decide) ⟨by decide, by decide, by decide, by decide⟩
    have hblank : Text.RespellsOne
        ("x = 1\r\n".toList ++ ("y = 007 - (".toList ++ "2 1".toList ++ ")".toList) ++ [])
        ("x = 1\r\n".toList ++ ("y = 007 - (".toList ++ "021".toList ++ ")".toList) ++ []) :=
      .intro (by rintro _ ⟨⟩; decide) nofun (by decide) (by rintro _ ⟨⟩; decide)
        (by rintro _ ⟨⟩; decide) ⟨by decide, by decide, by decide, by decide⟩
    exact ⟨s, hs, hrespelled _ (.tail (.single hseven) hblank), hrange⟩
  · intro s
    obtain ⟨hgreatest, -⟩ := hfetch [(1, "x = 5"), (2, "y = z")] .operand "02147483647" (by decide)
      (by decide)
    obtain ⟨-, habove⟩ := hfetch [(1, "x = 5"), (2, "y = z")] .operand "2147483648" (by decide)
      (by decide)
    obtain ⟨hconst, hwritten⟩ := hgreatest (by decide)
    have hline : (Session.afterAll [(1, "x = 5"), (2, "y = z")]).line = 2 := by decide +kernel
    rw [hline] at habove
    exact ⟨hconst, hwritten, habove (by decide)⟩

end Abacus
