import Abacus.Proofs.Gluing

/-!
# Where lexemes stand

The place of a lexeme is carried along while a text is read: each character moves it on, and a line
feed moves it to the front of the next line. So what a place says about the text before it can be
told from that text as a whole. The offset counts its characters, the line counts its line feeds,
and the column counts the characters since the last one.

The text itself is laid out as blanks and lexemes by turns, each lexeme at its place. The lexemes do
not overlap, they leave out nothing but blanks, and what stands between two operands that follow
each other is not empty.

## Main definitions

* `Lexeme.stop`, `Lexeme.Covers`: the part of a text that a lexeme takes up
* `Laid`: a text laid out as blanks and lexemes

## Main results

* `Position.offset_after`, `Position.line_after`, `Position.column_after_of_notMem`,
  `Position.column_after_lineFeed`: what a place says about the text before it
* `laid_scan`: the lexemes of a text lay it out
* `Laid.exists_around`, `Laid.ordered`, `Laid.isBlank_iff`, `Laid.separated`: what a layout says
  about offsets
* `lex_positions_exact`: the positions of the lexemes of a text
-/

namespace Abacus

/-! ## Places -/

namespace Position

variable {cs ds : List Char}

@[simp] theorem offset_after (p : Position) (cs : List Char) :
    (p.after cs).offset = p.offset + cs.length := by
  induction cs generalizing p with
  | nil => rfl
  | cons c cs ih =>
    rw [after_cons, ih, offset_next, List.length_cons]
    omega

/-- The line counts the line feeds. -/
theorem line_after (p : Position) (cs : List Char) :
    (p.after cs).line = p.line + cs.count '\n' := by
  induction cs generalizing p with
  | nil => rfl
  | cons c cs ih =>
    have hnext : (p.next c).line = p.line + if c = '\n' then 1 else 0 := by
      unfold next
      split <;> rfl
    rw [after_cons, ih, hnext, List.count_cons]
    simp only [beq_iff_eq]
    omega

/-- On a line, the column counts the characters. -/
theorem column_after_of_notMem (p : Position) (h : '\n' ∉ cs) :
    (p.after cs).column = p.column + cs.length := by
  induction cs generalizing p with
  | nil => rfl
  | cons c cs ih =>
    obtain ⟨hc, hcs⟩ : '\n' ≠ c ∧ '\n' ∉ cs := by simpa using h
    have hnext : (p.next c).column = p.column + 1 := by simp [next, Ne.symm hc]
    rw [after_cons, ih (p.next c) hcs, hnext, List.length_cons]
    omega

/-- The column counts the characters from the last line feed on. -/
theorem column_after_lineFeed (p : Position) (h : '\n' ∉ ds) :
    (p.after (cs ++ '\n' :: ds)).column = ds.length + 1 := by
  have hnext : ((p.after cs).next '\n').column = 1 := by simp [next]
  rw [after_append, after_cons, column_after_of_notMem _ h, hnext]
  omega

end Position

/-! ## Layouts -/

namespace Lexeme

/-- The offset after the last character of a lexeme. -/
def stop (l : Lexeme) : Nat :=
  l.start.offset + l.token.text.toList.length

/-- The offset `i` is that of a character of the lexeme. -/
def Covers (l : Lexeme) (i : Nat) : Prop :=
  l.start.offset ≤ i ∧ i < l.stop

end Lexeme

/-- **A text that starts at `p`, laid out as blanks and lexemes by turns.** Each lexeme starts where
the blanks before it end, and the characters of an operand go on as far as they can. -/
inductive Laid : Position → List Char → List Lexeme → Prop where
  | blanks {p : Position} {gap : List Char} (hgap : ∀ c ∈ gap, Text.isBlank c = true) :
    Laid p gap []
  | lexeme {p : Position} {gap rest : List Char} {t : Token} {ls : List Lexeme}
    (hgap : ∀ c ∈ gap, Text.isBlank c = true) (ht : t.Proper)
    (hstop : t.kind = .operand → ∀ c ∈ rest.head?, isOperandChar c = false)
    (hrest : Laid ((p.after gap).after t.text.toList) rest ls) :
    Laid p (gap ++ (t.text.toList ++ rest)) (⟨t, p.after gap⟩ :: ls)

namespace Laid

variable {p : Position} {c : Char} {cs : List Char} {ls : List Lexeme}

/-- A blank in front is one more blank of the first gap. -/
theorem cons_blank (hc : Text.isBlank c = true) (h : Laid (p.next c) cs ls) :
    Laid p (c :: cs) ls := by
  cases h with
  | blanks hgap => exact .blanks (List.forall_mem_cons.mpr ⟨hc, hgap⟩)
  | @lexeme _ gap rest t _ hgap ht hstop hrest =>
    have hgap' : ∀ d ∈ c :: gap, Text.isBlank d = true := List.forall_mem_cons.mpr ⟨hc, hgap⟩
    exact .lexeme hgap' ht hstop hrest

/-- A lexeme in front of a text that is laid out. -/
theorem cons_lexeme {t : Token} {word rest : List Char} (hword : t.text.toList = word)
    (ht : t.Proper) (hstop : t.kind = .operand → ∀ c ∈ rest.head?, isOperandChar c = false)
    (hrest : Laid (p.after word) rest ls) : Laid p (word ++ rest) (⟨t, p⟩ :: ls) := by
  subst hword
  have hgap : ∀ c ∈ ([] : List Char), Text.isBlank c = true := by simp
  exact .lexeme hgap ht hstop hrest

end Laid

/-- **The lexemes of a text lay it out.** -/
theorem laid_scan (p : Position) (cs : List Char) : Laid p cs (scan p cs) := by
  induction cs using readTokens_induction generalizing p with
  | nil =>
    rw [scan_nil]
    exact .blanks (by simp)
  | blank c cs hc ih =>
    rw [scan_blank hc]
    exact (ih (p.next c)).cons_blank hc
  | sign c cs hc ih =>
    rw [scan_sign hc]
    have hword : (Token.ofSign c).text.toList = [c] := Token.text_ofSign c
    refine .cons_lexeme hword (.sign hc) ?_ (ih (p.next c))
    intro hk
    exact absurd hk (Token.kind_ofSign_ne hc)
  | operand c cs hc ih =>
    rw [scan_operand hc]
    have hrun : ∀ d ∈ c :: cs.takeWhile isOperandChar, isOperandChar d = true :=
      List.forall_mem_cons.mpr ⟨hc, fun d hd => List.mem_takeWhile_imp hd⟩
    have hcut : c :: cs = c :: cs.takeWhile isOperandChar ++ cs.dropWhile isOperandChar := by
      rw [List.cons_append, List.takeWhile_append_dropWhile]
    rw [hcut]
    refine .cons_lexeme String.toList_ofList (.operand (by simp) hrun) ?_ (ih _)
    intro _ d hd
    simpa [Option.mem_def.mp hd] using List.head?_dropWhile_not isOperandChar cs

namespace Laid

variable {p : Position} {cs : List Char} {l : Lexeme} {ls : List Lexeme}

/-- **What is around a lexeme**: it stands in the text at its place. -/
theorem exists_around (h : Laid p cs ls) (hl : l ∈ ls) :
    l.token.Proper ∧ ∃ before after, cs = before ++ (l.token.text.toList ++ after) ∧
      l.start = p.after before := by
  induction h with
  | blanks => simp at hl
  | @lexeme p gap rest t ls _ ht _ _ ih =>
    rcases List.mem_cons.mp hl with rfl | hl
    · exact ⟨ht, gap, rest, rfl, rfl⟩
    · obtain ⟨hproper, before, after, rfl, hstart⟩ := ih hl
      refine ⟨hproper, gap ++ (t.text.toList ++ before), after, by simp, ?_⟩
      rw [hstart, Position.after_append, Position.after_append]

/-- No lexeme starts before the text. -/
theorem offset_le (h : Laid p cs ls) (hl : l ∈ ls) : p.offset ≤ l.start.offset := by
  obtain ⟨-, before, after, -, hstart⟩ := h.exists_around hl
  rw [hstart, Position.offset_after]
  omega

/-- **The lexemes are in order and do not overlap.** -/
theorem ordered (h : Laid p cs ls) : ls.Pairwise fun l m => l.stop ≤ m.start.offset := by
  induction h with
  | blanks => exact .nil
  | @lexeme p gap rest t ls _ _ _ hrest ih =>
    refine List.pairwise_cons.mpr ⟨fun m hm => ?_, ih⟩
    have hle := hrest.offset_le hm
    simpa [Lexeme.stop] using hle

/-- **The lexemes leave out the blanks, and nothing else.** -/
theorem isBlank_iff (h : Laid p cs ls) {i : Nat} {c : Char} (hi : cs[i]? = some c) :
    Text.isBlank c = true ↔ ∀ l ∈ ls, ¬ l.Covers (p.offset + i) := by
  induction h generalizing i with
  | blanks hgap => simp [hgap c (List.mem_of_getElem? hi)]
  | @lexeme p gap rest t ls hgap ht _ hrest ih =>
    rw [List.forall_mem_cons]
    have hlater : ∀ m ∈ ls, p.offset + gap.length + t.text.toList.length ≤ m.start.offset := by
      intro m hm
      simpa using hrest.offset_le hm
    rw [List.getElem?_append] at hi
    split at hi
    · next hlt =>
      have hblank : Text.isBlank c = true := hgap c (List.mem_of_getElem? hi)
      refine iff_of_true hblank ⟨?_, fun m hm => ?_⟩
      · simp only [Lexeme.Covers, Position.offset_after]
        omega
      · have hm := hlater m hm
        simp only [Lexeme.Covers]
        omega
    · next hge =>
      rw [List.getElem?_append] at hi
      split at hi
      · next hlt =>
        have hnot : ¬ Text.isBlank c = true := by
          rw [ht.not_isBlank c (List.mem_of_getElem? hi)]
          exact Bool.false_ne_true
        refine iff_of_false hnot fun hall => hall.1 ?_
        simp only [Lexeme.Covers, Lexeme.stop, Position.offset_after]
        omega
      · next hge' =>
        have hfirst : ¬ Lexeme.Covers ⟨t, p.after gap⟩ (p.offset + i) := by
          simp only [Lexeme.Covers, Lexeme.stop, Position.offset_after]
          omega
        have hoffset : ((p.after gap).after t.text.toList).offset +
            (i - gap.length - t.text.toList.length) = p.offset + i := by
          simp only [Position.offset_after]
          omega
        rw [ih hi, hoffset, and_iff_right hfirst]

/-- **Something stands between two operands**: a blank, for without one they would have been read as
one operand. -/
theorem separated (h : Laid p cs ls) :
    ls.IsChain fun l m => l.token.kind = .operand → m.token.kind = .operand →
      ∃ i c, l.stop ≤ p.offset + i ∧ p.offset + i < m.start.offset ∧ cs[i]? = some c ∧
        Text.isBlank c = true := by
  induction h with
  | blanks => exact .nil
  | @lexeme p gap rest t ls _ _ hstop hrest ih =>
    refine List.isChain_cons.mpr ⟨?_, ?_⟩
    · intro m hm hk hk'
      cases hrest with
      | blanks => simp at hm
      | @lexeme _ gap' rest' u ls' hgap' hu _ _ =>
        obtain rfl : ⟨u, _⟩ = m := by simpa using hm
        rcases gap' with _ | ⟨c, gap'⟩
        · -- the characters of the first operand would go on with those of the second
          obtain ⟨hne, hword⟩ := hu.isOperandChar hk'
          obtain ⟨d, word, hd⟩ := List.exists_cons_of_ne_nil hne
          have hgoes : isOperandChar d = true := hword d (by simp [hd])
          rw [hstop hk d (by simp [hd])] at hgoes
          cases hgoes
        · refine ⟨gap.length + t.text.toList.length, c, ?_, ?_, ?_, hgap' c (by simp)⟩
          · simp only [Lexeme.stop, Position.offset_after]
            omega
          · simp only [Position.offset_after, List.length_cons]
            omega
          · simp
    · refine ih.imp fun l m hlm hk hk' => ?_
      obtain ⟨i, c, hle, hlt, hi, hc⟩ := hlm hk hk'
      simp only [Position.offset_after] at hle hlt
      refine ⟨gap.length + t.text.toList.length + i, c, by omega, by omega, ?_, hc⟩
      rw [← List.append_assoc, List.getElem?_append_right (by simp)]
      simpa using hi

end Laid

/-! ## The lexemes of a text -/

theorem Token.Proper.ne_nil {t : Token} (h : t.Proper) : t.text.toList ≠ [] := by
  cases h with
  | operand hne => simpa using hne
  | sign => simp

section Lex

variable {text : String} {l : Lexeme}

/-- What is around a lexeme of a text, and where it starts. -/
theorem exists_around_of_mem_lex (hl : l ∈ lex text) :
    l.token.text.toList ≠ [] ∧ ∃ before after,
      text.toList = before ++ (l.token.text.toList ++ after) ∧
      before = text.toList.take l.start.offset ∧ l.start = Position.after {} before := by
  obtain ⟨hproper, before, after, htext, hstart⟩ := (laid_scan {} text.toList).exists_around hl
  refine ⟨hproper.ne_nil, before, after, htext, ?_, hstart⟩
  simp [htext, hstart]

/-- A lexeme is the part of the text from its start to its stop. -/
theorem extract_of_mem_lex (hl : l ∈ lex text) :
    text.toList.extract l.start.offset l.stop = l.token.text.toList := by
  obtain ⟨-, before, after, htext, -, hstart⟩ := exists_around_of_mem_lex hl
  have hoffset : l.start.offset = before.length := by simp [hstart]
  rw [List.extract_eq_take_drop, htext, Lexeme.stop, hoffset]
  simp

/-- The line of a lexeme counts the line feeds before it. -/
theorem line_of_mem_lex (hl : l ∈ lex text) :
    l.start.line = 1 + (text.toList.take l.start.offset).count '\n' := by
  obtain ⟨-, before, after, -, hbefore, hstart⟩ := exists_around_of_mem_lex hl
  rw [← hbefore, hstart, Position.line_after]

/-- The column of a lexeme on the first line. -/
theorem column_of_no_lineFeed (hl : l ∈ lex text)
    (h : '\n' ∉ text.toList.take l.start.offset) : l.start.column = l.start.offset + 1 := by
  obtain ⟨-, before, after, -, hbefore, hstart⟩ := exists_around_of_mem_lex hl
  rw [← hbefore] at h
  rw [hstart, Position.column_after_of_notMem _ h, Position.offset_after]
  show 1 + before.length = 0 + before.length + 1
  omega

/-- The column of a lexeme after the last line feed before it. -/
theorem column_of_last_lineFeed (hl : l ∈ lex text) {j : Nat} (hj : j < l.start.offset)
    (hfeed : text.toList[j]? = some '\n')
    (hlast : ∀ i, j < i → i < l.start.offset → text.toList[i]? ≠ some '\n') :
    l.start.column = l.start.offset - j := by
  obtain ⟨-, before, after, htext, -, hstart⟩ := exists_around_of_mem_lex hl
  have hoffset : l.start.offset = before.length := by simp [hstart]
  have hget : ∀ i < before.length, text.toList[i]? = before[i]? := fun i hi => by
    rw [htext, List.getElem?_append_left hi]
  rw [hoffset] at hj hlast ⊢
  rw [hget j hj] at hfeed
  have hcut : before = before.take j ++ '\n' :: before.drop (j + 1) := by
    obtain ⟨hlt, heq⟩ := List.getElem?_eq_some_iff.mp hfeed
    rw [← heq, ← List.drop_eq_getElem_cons hlt, List.take_append_drop]
  have hnot : '\n' ∉ before.drop (j + 1) := by
    intro hmem
    obtain ⟨i, hi⟩ := List.mem_iff_getElem?.mp hmem
    rw [List.getElem?_drop] at hi
    have hlt : j + 1 + i < before.length := (List.getElem?_eq_some_iff.mp hi).1
    exact hlast (j + 1 + i) (by omega) hlt ((hget _ hlt).trans hi)
  calc l.start.column
      = (Position.after {} (before.take j ++ '\n' :: before.drop (j + 1))).column := by
        rw [hstart, ← hcut]
    _ = (before.drop (j + 1)).length + 1 := Position.column_after_lineFeed _ hnot
    _ = before.length - j := by
        rw [List.length_drop]
        omega

end Lex

/-- **The positions of the lexemes of a text.** By the rules for tokens the text is read as its
lexemes and in no other way. A lexeme is the part of the text from its start to its stop; the parts
are not empty, in order and apart from each other, and the characters outside of them are the blank
ones. Between two operands that follow each other there is a blank. The line of a lexeme is one more
than the number of line feeds before it. Its column is one more than its offset if there is no line
feed before it, and otherwise the distance from the last one. -/
theorem lex_positions_exact (text : String) :
    (∀ outcome, lexicalRules.Reads {} text.toList outcome ↔ outcome = .ok (lex text)) ∧
    (∀ l ∈ lex text, l.start.offset < l.stop ∧
      text.toList.extract l.start.offset l.stop = l.token.text.toList) ∧
    ((lex text).Pairwise fun l m => l.stop ≤ m.start.offset) ∧
    (∀ i c, text.toList[i]? = some c →
      (Text.isBlank c = true ↔ ∀ l ∈ lex text, ¬ l.Covers i)) ∧
    ((lex text).IsChain fun l m => l.token.kind = .operand → m.token.kind = .operand →
      ∃ i c, l.stop ≤ i ∧ i < m.start.offset ∧ text.toList[i]? = some c ∧ Text.isBlank c = true) ∧
    (∀ l ∈ lex text, l.start.line = 1 + (text.toList.take l.start.offset).count '\n') ∧
    ∀ l ∈ lex text,
      ('\n' ∉ text.toList.take l.start.offset → l.start.column = l.start.offset + 1) ∧
      ∀ j < l.start.offset, text.toList[j]? = some '\n' →
        (∀ i, j < i → i < l.start.offset → text.toList[i]? ≠ some '\n') →
        l.start.column = l.start.offset - j := by
  have hlaid : Laid {} text.toList (lex text) := laid_scan {} text.toList
  refine ⟨fun outcome => reads_iff, fun l hl => ⟨?_, extract_of_mem_lex hl⟩, hlaid.ordered, ?_, ?_,
    fun l hl => line_of_mem_lex hl, fun l hl => ⟨column_of_no_lineFeed hl, ?_⟩⟩
  · have hpos := List.length_pos_of_ne_nil (exists_around_of_mem_lex hl).1
    simp only [Lexeme.stop]
    omega
  · intro i c hi
    simpa using hlaid.isBlank_iff hi
  · simpa using hlaid.separated
  · intro j hj hfeed hlast
    exact column_of_last_lineFeed hl hj hfeed hlast

/-- A line separator stands between two operands on the first line, and two line feeds before the
sign. -/
theorem lex_positions_exact_lines :
    let text := "ab \u2028c\n\n\t= 1"
    let first : Lexeme := ⟨⟨.operand, "ab"⟩, ⟨0, 1, 1⟩⟩
    let second : Lexeme := ⟨⟨.operand, "c"⟩, ⟨4, 1, 5⟩⟩
    let sign : Lexeme := ⟨⟨.equals, "="⟩, ⟨8, 3, 2⟩⟩
    lex text = [first, second, sign, ⟨⟨.operand, "1"⟩, ⟨10, 3, 4⟩⟩] ∧
    (text.toList[3]? = some '\u2028' ∧ ∀ l ∈ lex text, ¬ l.Covers 3) ∧
    (∃ i c, first.stop ≤ i ∧ i < second.start.offset ∧ text.toList[i]? = some c ∧
      Text.isBlank c = true) ∧
    text.toList.extract sign.start.offset sign.stop = sign.token.text.toList ∧
    sign.start.line = 1 + (text.toList.take 8).count '\n' ∧
    text.toList[6]? = some '\n' ∧ text.toList[7]? ≠ some '\n' ∧ sign.start.column = 8 - 6 := by
  intro text first second sign
  have hlex : lex text = [first, second, sign, ⟨⟨.operand, "1"⟩, ⟨10, 3, 4⟩⟩] := by decide +kernel
  have hsign : sign ∈ lex text := by simp [hlex]
  have hseparator : text.toList[3]? = some '\u2028' := by decide
  have hfeed : text.toList[6]? = some '\n' := by decide
  have hlast : text.toList[7]? ≠ some '\n' := by decide
  obtain ⟨-, hslice, -, hblank, happart, hline, hcolumn⟩ := lex_positions_exact text
  rw [hlex] at happart
  refine ⟨hlex, ⟨hseparator, (hblank 3 _ hseparator).mp (by decide)⟩, ?_, (hslice sign hsign).2,
    hline sign hsign, hfeed, hlast, ?_⟩
  · exact (List.isChain_cons_cons.mp happart).1 rfl rfl
  · refine (hcolumn sign hsign).2 6 (by decide) hfeed fun i hi hi' => ?_
    have hi' : i < 8 := hi'
    obtain rfl : i = 7 := by omega
    exact hlast

end Abacus
