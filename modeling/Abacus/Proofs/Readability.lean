import Mathlib.Data.List.Induction
import Abacus.Module
import Abacus.Proofs.Ledger

/-!
# Modules are read in one way

The text of a module determines its name and its instructions. An instruction is read off its words,
the parts between single spaces: names of variables, numbers and mnemonics have no space in them.
The instructions of a module are read off its lines from the last one upwards, since only the name
may have line feeds in it, and the line above the first instruction does not begin like an
instruction. So the name may be any text at all, also one that looks like the rest of a module.

## Main definitions

* `Instr.Legible`: the instructions that lowering emits, with slots that belong to names
* `Instr.words`: the parts of an instruction's text between spaces
* `Module.opening`, `Module.body`: the text around the name and the text of the instructions

## Main results

* `Instr.text_injective`: legible instructions with the same text are the same
* `Module.eq_of_append`: what is in front of the instructions and they themselves can be told from
  the text
* `compileLines_legible`: compiled instructions are legible
* `module_text_eq_iff`: two compiled modules have the same text only if they are the same
-/

namespace Abacus

/-! ## Characters of an instruction -/

/-- No blank in a text. -/
def Unbroken (cs : List Char) : Prop :=
  ∀ c ∈ cs, Text.isBlank c = false

instance (cs : List Char) : Decidable (Unbroken cs) :=
  decidable_of_iff (cs.all (!Text.isBlank ·) = true) (by simp [Unbroken])

namespace Unbroken

variable {cs ds : List Char}

theorem append (h : Unbroken cs) (h' : Unbroken ds) : Unbroken (cs ++ ds) := by
  intro c hc
  rcases List.mem_append.mp hc with hc | hc
  · exact h c hc
  · exact h' c hc

theorem notMem (h : Unbroken cs) {c : Char} (hc : Text.isBlank c = true) : c ∉ cs := by
  intro hmem
  rw [h c hmem] at hc
  cases hc

theorem of_isName {name : String} (h : isName name = true) : Unbroken name.toList := by
  intro c hc
  have hop := (isOperandChar_of_isName h).2 c hc
  simp only [isOperandChar, Bool.and_eq_true, Bool.not_eq_true'] at hop
  exact hop.1

theorem nat_repr (n : Nat) : Unbroken n.repr.toList := by
  intro c hc
  rw [Nat.toList_repr] at hc
  have hdigit : c.isDigit = true :=
    Nat.isDigit_of_mem_toDigits (b := 10) (n := n) (by omega) (by omega) hc
  have hop : isOperandChar c = true := isOperandChar_of_isNameStart (by simp [hdigit])
  simp only [isOperandChar, Bool.and_eq_true, Bool.not_eq_true'] at hop
  exact hop.1

theorem int_toString (n : Int) : Unbroken (toString n).toList := by
  rw [Int.toString_eq_repr, Int.repr_eq_if]
  split
  · exact nat_repr _
  · rw [String.toList_append]
    exact append (by decide +kernel) (nat_repr _)

theorem temp_name (t : Temp) : Unbroken t.name.toList := by
  rw [Temp.name, String.toList_append]
  exact append (by decide +kernel) (int_toString _)

theorem value_text (v : Value) : Unbroken v.text.toList := by
  cases v with
  | const n => exact int_toString n
  | temp t => exact temp_name t

theorem slot_text {slot : Slot} (h : isName slot.name = true) : Unbroken slot.text.toList := by
  rw [Slot.text, String.toList_append]
  exact append (by decide +kernel) (of_isName h)

end Unbroken

/-- A number does not begin with a percent sign. -/
theorem toString_ne_name (n : Int) (t : Temp) : toString n ≠ t.name := by
  intro h
  have hhead : (toString n).toList.head? = some '%' := by
    rw [h, Temp.name, String.toList_append]
    rfl
  rw [Int.toString_eq_repr, Int.repr_eq_if] at hhead
  split at hhead
  · rw [Nat.toList_repr] at hhead
    have hdigit : Char.isDigit '%' = true :=
      Nat.isDigit_of_mem_toDigits (b := 10) (n := n.toNat) (by omega) (by omega)
        (List.mem_of_mem_head? hhead)
    exact absurd hdigit (by decide)
  · rw [String.toList_append] at hhead
    exact absurd hhead (by simp)

theorem Value.text_injective : Function.Injective Value.text := by
  intro v w h
  cases v with
  | const m =>
    cases w with
    | const n =>
      have hrepr : m.repr = n.repr := h
      rw [decimal_injective hrepr]
    | temp t => exact absurd h (toString_ne_name m t)
  | temp t =>
    cases w with
    | const n => exact absurd h.symm (toString_ne_name n t)
    | temp u => rw [Temp.name_injective h]

theorem Slot.text_injective : Function.Injective Slot.text := by
  rintro ⟨x⟩ ⟨y⟩ h
  obtain rfl : x = y := (String.append_right_inj "%").mp h
  rfl

theorem BinOp.mnemonic_injective : Function.Injective BinOp.mnemonic := by
  intro op op' h
  have hsome : some op = some op' := by
    rw [← ofMnemonic?_mnemonic op, h, ofMnemonic?_mnemonic]
  cases hsome
  rfl

/-! ## The words of an instruction -/

namespace Instr

/-- The instructions that lowering emits, with slots that belong to names. -/
def Legible : Instr → Prop
  | alloca slot | store _ slot | load _ slot => isName slot.name = true
  | binary .. | print .. => True
  | bareValue _ | bareSlot _ => False

/-- The words of a call of the printing function. -/
def callWords : List String :=
  ["=", "call", "i32", "(i8*,", "...)*", "@printf(i8*", "getelementptr", "([4", "x", "i8]*",
    "@print.str,", "i32", "0,", "i32", "0),", "i32"]

/-- The parts of an instruction's text between spaces. -/
def words : Instr → List String
  | alloca slot => [slot.text, "=", "alloca", "i32"]
  | store value slot => ["store", "i32", value.text ++ ",", "i32*", slot.text]
  | load result slot => [result.name, "=", "load", "i32*", slot.text]
  | binary op result left right =>
    [result.name, "=", op.mnemonic, "i32", left.text ++ ",", right.text]
  | print result value => result.name :: (callWords ++ [value.text ++ ")"])
  | bareValue value => [value.text]
  | bareSlot slot => [slot.text]

theorem text_toList (instr : Instr) :
    instr.text.toList = [' '].intercalate (instr.words.map String.toList) := by
  cases instr <;> simp [text, words, callWords, List.intercalate, String.toList_append]

theorem unbroken_words {instr : Instr} (h : instr.Legible) :
    ∀ w ∈ instr.words, Unbroken w.toList := by
  have hcomma : ∀ v : Value, Unbroken (v.text ++ ",").toList := fun v => by
    rw [String.toList_append]
    exact (Unbroken.value_text v).append (by decide +kernel)
  have hclose : ∀ v : Value, Unbroken (v.text ++ ")").toList := fun v => by
    rw [String.toList_append]
    exact (Unbroken.value_text v).append (by decide +kernel)
  have hcall : ∀ w ∈ callWords, Unbroken w.toList := by decide +kernel
  cases instr with
  | alloca slot =>
    have hrest : ∀ w ∈ ["=", "alloca", "i32"], Unbroken w.toList := by decide +kernel
    exact List.forall_mem_cons.mpr ⟨.slot_text h, hrest⟩
  | store value slot =>
    have hfront : ∀ w ∈ ["store", "i32"], Unbroken w.toList := by decide +kernel
    have hstar : Unbroken "i32*".toList := by decide +kernel
    simp only [words, List.forall_mem_cons] at hfront ⊢
    exact ⟨hfront.1, hfront.2.1, hcomma value, hstar, .slot_text h, by simp⟩
  | load result slot =>
    have hrest : ∀ w ∈ ["=", "load", "i32*"], Unbroken w.toList := by decide +kernel
    simp only [words, List.forall_mem_cons] at hrest ⊢
    exact ⟨.temp_name result, hrest.1, hrest.2.1, hrest.2.2.1, .slot_text h, by simp⟩
  | binary op result left right =>
    have hop : Unbroken op.mnemonic.toList := by cases op <;> decide +kernel
    have hrest : ∀ w ∈ ["=", "i32"], Unbroken w.toList := by decide +kernel
    simp only [words, List.forall_mem_cons] at hrest ⊢
    exact ⟨.temp_name result, hrest.1, hop, hrest.2.1, hcomma left, .value_text right, by simp⟩
  | print result value =>
    simp only [words, List.forall_mem_cons, List.forall_mem_append]
    exact ⟨.temp_name result, hcall, hclose value, by simp⟩
  | bareValue value => exact h.elim
  | bareSlot slot => exact h.elim

/-- The words of a legible instruction are read off its text. -/
theorem words_eq_of_text {i j : Instr} (hi : i.Legible) (hj : j.Legible) (h : i.text = j.text) :
    i.words = j.words := by
  have hsplit : ∀ {i : Instr}, i.Legible →
      i.text.toList.splitOn ' ' = i.words.map String.toList := by
    intro i hi
    rw [text_toList]
    refine List.splitOn_intercalate ' ' ?_ (by cases i <;> simp [words])
    intro cs hcs
    obtain ⟨w, hw, rfl⟩ := List.mem_map.mp hcs
    exact (unbroken_words hi w hw).notMem (by decide)
  have hmap : i.words.map String.toList = j.words.map String.toList := by
    rw [← hsplit hi, ← hsplit hj, h]
  exact List.map_injective_iff.mpr (fun _ _ => String.toList_inj.mp) hmap

/-- A legible instruction stands on one line. -/
theorem lineFeed_notMem_text {i : Instr} (hi : i.Legible) : '\n' ∉ i.text.toList := by
  have hwords : ∀ ws : List String, (∀ w ∈ ws, Unbroken w.toList) →
      '\n' ∉ [' '].intercalate (ws.map String.toList) := by
    intro ws hws
    induction ws with
    | nil => simp
    | cons w ws ih =>
      have hw : '\n' ∉ w.toList := (hws w (by simp)).notMem (by decide)
      have hrest := ih fun w' hw' => hws w' (by simp [hw'])
      cases ws with
      | nil => simpa using hw
      | cons w' ws => simpa [List.intercalate_cons_cons, hw] using hrest
  rw [text_toList]
  exact hwords _ (unbroken_words hi)

/-- **Legible instructions with the same text are the same.** -/
theorem text_injective {i j : Instr} (hi : i.Legible) (hj : j.Legible) (h : i.text = j.text) :
    i = j := by
  have hwords := words_eq_of_text hi hj h
  cases i with
  | alloca slot =>
    cases j <;> simp [words, callWords] at hwords
    rw [Slot.text_injective hwords]
  | store value slot =>
    cases j <;> simp [words, callWords] at hwords
    rw [Value.text_injective hwords.1, Slot.text_injective hwords.2]
  | load result slot =>
    cases j <;> simp [words, callWords] at hwords
    rw [Temp.name_injective hwords.1, Slot.text_injective hwords.2]
  | binary op result left right =>
    cases j <;> simp [words, callWords] at hwords
    obtain ⟨hresult, hop, hleft, hright⟩ := hwords
    rw [Temp.name_injective hresult, BinOp.mnemonic_injective hop, Value.text_injective hleft,
      Value.text_injective hright]
  | print result value =>
    cases j <;> simp [words, callWords] at hwords
    rw [Temp.name_injective hwords.1, Value.text_injective hwords.2]
  | bareValue value => exact hi.elim
  | bareSlot slot => exact hi.elim

end Instr

/-! ## The lines of a module -/

namespace Module

/-- Lines, each ended by a line feed. -/
def ended (ls : List String) : List Char :=
  ls.flatMap fun l => l.toList ++ ['\n']

/-- The lines of the instructions. -/
def body (code : List Instr) : List Char :=
  code.flatMap fun i => ' ' :: ' ' :: (i.text.toList ++ ['\n'])

/-- The text from the end of the name to the line above the instructions. -/
def opening : List Char :=
  "'".toList ++ '\n' :: ("declare i32 @printf(i8*, ...)".toList ++ '\n' ::
    "@print.str = constant [4 x i8] c\"%d\\0A\\00\"".toList)

/-- The line above the instructions. -/
def entrance : List Char :=
  "define i32 @main() \x7b".toList

/-- The lines above the instructions, with the name of the module taken out. -/
theorem ended_header (id : String) :
    ended (header id) = "; ModuleID = '".toList ++
      (id.toList ++ (opening ++ '\n' :: (entrance ++ ['\n']))) := by
  have hlines : ∀ a b l₁ l₂ l₃ : String, ended [a ++ id ++ b, l₁, l₂, l₃] = a.toList ++
      (id.toList ++ ((b.toList ++ '\n' :: (l₁.toList ++ '\n' :: l₂.toList)) ++
        '\n' :: (l₃.toList ++ ['\n']))) := by
    intro a b l₁ l₂ l₃
    simp [ended]
  exact hlines _ _ _ _ _

theorem text_toList (id : String) (code : List Instr) :
    (text ⟨id, code⟩).toList = ended (header id) ++ (body code ++ ended footer) := by
  have hfeed : "\n".toList = ['\n'] := by decide
  have hindent : "  ".toList = [' ', ' '] := by decide
  simp only [text, lines, String.toList_join, List.flatMap_map, List.flatMap_append,
    List.map_append, List.map_map, String.toList_append, hfeed, ended, body]
  simp [List.append_assoc, hindent]

/-- What follows the last occurrence of a character. -/
theorem eq_of_append_cons {α : Type} {c : α} {front front' back back' : List α}
    (h : front ++ c :: back = front' ++ c :: back') (hb : c ∉ back) (hb' : c ∉ back') :
    front = front' ∧ back = back' := by
  rcases List.append_eq_append_iff.mp h with ⟨d, rfl, hd⟩ | ⟨d, rfl, hd⟩
  · rcases d with _ | ⟨x, d⟩
    · cases hd
      simp
    · cases hd
      simp at hb
  · rcases d with _ | ⟨x, d⟩
    · cases hd
      simp
    · cases hd
      simp at hb'

/-- Two texts that end with a line each: the lines are the same, and so is what is above them. -/
theorem eq_of_append_line {front front' line line' : List Char}
    (h : front ++ '\n' :: (line ++ ['\n']) = front' ++ '\n' :: (line' ++ ['\n']))
    (hl : '\n' ∉ line) (hl' : '\n' ∉ line') : front = front' ∧ line = line' := by
  rw [← List.cons_append, ← List.append_assoc, ← List.cons_append, ← List.append_assoc] at h
  exact eq_of_append_cons (List.append_cancel_right h) hl hl'

/-- The text above an instruction ends with a line feed. -/
theorem exists_lineFeed (front : List Char) (code : List Instr) :
    ∃ above, front ++ '\n' :: (entrance ++ '\n' :: body code) = above ++ ['\n'] := by
  rcases List.eq_nil_or_concat code with rfl | ⟨code, i, rfl⟩
  · exact ⟨front ++ '\n' :: entrance, by simp [body]⟩
  · exact ⟨front ++ '\n' :: (entrance ++ '\n' :: (body code ++ ' ' :: ' ' :: i.text.toList)), by
      simp [body]⟩

/-- One more instruction is one more line. -/
theorem append_body_concat {front above : List Char} {code : List Instr}
    (h : front ++ '\n' :: (entrance ++ '\n' :: body code) = above ++ ['\n']) (i : Instr) :
    front ++ '\n' :: (entrance ++ '\n' :: body (code ++ [i])) =
      above ++ '\n' :: ((' ' :: ' ' :: i.text.toList) ++ ['\n']) := by
  have hrest := congrArg (· ++ ' ' :: ' ' :: (i.text.toList ++ ['\n'])) h
  simpa [body] using hrest

theorem lineFeed_notMem_entrance : '\n' ∉ entrance := by
  decide +kernel

theorem head?_entrance : entrance.head? = some 'd' := by
  decide +kernel

/-- **The instructions are read from the last line upwards**, to the line that does not begin like
an instruction. What is above that line may be anything. -/
theorem eq_of_append {code code' : List Instr} (hc : ∀ i ∈ code, i.Legible)
    (hc' : ∀ i ∈ code', i.Legible) {front front' : List Char}
    (h : front ++ '\n' :: (entrance ++ '\n' :: body code) =
      front' ++ '\n' :: (entrance ++ '\n' :: body code')) : front = front' ∧ code = code' := by
  have hline : ∀ {i : Instr}, i.Legible → '\n' ∉ ' ' :: ' ' :: i.text.toList := fun hi => by
    simpa using Instr.lineFeed_notMem_text hi
  have hne : ∀ i : Instr, entrance ≠ ' ' :: ' ' :: i.text.toList := fun i heq => by
    have hhead := head?_entrance
    rw [heq] at hhead
    cases hhead
  induction code using List.reverseRecOn generalizing code' with
  | nil =>
    rcases List.eq_nil_or_concat code' with rfl | ⟨code', j, rfl⟩
    · exact ⟨List.append_cancel_right h, rfl⟩
    · rw [List.concat_eq_append] at h hc'
      obtain ⟨above, habove⟩ := exists_lineFeed front' code'
      have hlast : front ++ '\n' :: (entrance ++ ['\n']) =
          above ++ '\n' :: ((' ' :: ' ' :: j.text.toList) ++ ['\n']) :=
        h.trans (append_body_concat habove j)
      exact absurd (eq_of_append_line hlast lineFeed_notMem_entrance (hline (hc' j (by simp)))).2
        (hne j)
  | append_singleton code i ih =>
    obtain ⟨above, habove⟩ := exists_lineFeed front code
    have hi : '\n' ∉ ' ' :: ' ' :: i.text.toList := hline (hc i (by simp))
    rcases List.eq_nil_or_concat code' with rfl | ⟨code', j, rfl⟩
    · have hlast : above ++ '\n' :: ((' ' :: ' ' :: i.text.toList) ++ ['\n']) =
          front' ++ '\n' :: (entrance ++ ['\n']) :=
        (append_body_concat habove i).symm.trans h
      exact absurd (eq_of_append_line hlast hi lineFeed_notMem_entrance).2.symm (hne i)
    · rw [List.concat_eq_append] at h hc' ⊢
      obtain ⟨above', habove'⟩ := exists_lineFeed front' code'
      have hj : '\n' ∉ ' ' :: ' ' :: j.text.toList := hline (hc' j (by simp))
      have hlast : above ++ '\n' :: ((' ' :: ' ' :: i.text.toList) ++ ['\n']) =
          above' ++ '\n' :: ((' ' :: ' ' :: j.text.toList) ++ ['\n']) :=
        (append_body_concat habove i).symm.trans (h.trans (append_body_concat habove' j))
      obtain ⟨rfl, htext⟩ := eq_of_append_line hlast hi hj
      have hij : i = j := Instr.text_injective (hc i (by simp)) (hc' j (by simp))
        (String.toList_inj.mp (by simpa using htext))
      obtain ⟨hfront, rfl⟩ := ih (fun i hi => hc i (by simp [hi]))
        (fun i hi => hc' i (by simp [hi])) (habove.trans habove'.symm)
      exact ⟨hfront, by rw [hij]⟩

end Module

/-! ## Compiled modules -/

theorem compileLines_not_isBare {lines : List String} {s s' : Session}
    (h : compileLines lines s = .ok () s') :
    s'.code.countP Instr.isBare = s.code.countP Instr.isBare := by
  have htotal : ∀ s : Session, Ledger.bare.total s.code = s.code.countP Instr.isBare := fun s =>
    Ledger.total_eq_countP fun _ => rfl
  induction lines generalizing s with
  | nil =>
    cases h
    rfl
  | cons text rest ih =>
    obtain ⟨_, s₁, hline, hrest⟩ := Lowering.bind_eq_ok_iff.mp h
    have hsame := Ledger.bare.total_of_compileLine hline
    have hdues : Ledger.bare.dues (Text.dropBlanks text.toList) = 0 := by
      rw [Ledger.dues, Ledger.stock_eq_zero fun _ => rfl]
      cases Line.target? (Text.dropBlanks text.toList) <;> rfl
    rw [hdues, htotal, htotal] at hsame
    rw [ih hrest]
    omega

/-- **Compiled instructions are legible.** -/
theorem compileLines_legible {lines : List String} {s : Session}
    (h : compileLines lines {} = .ok () s) : ∀ i ∈ s.code, i.Legible := by
  have hin : InStep s := compileLines_inStep .fresh h
  have hbare : ∀ i ∈ s.code, i.isBare = false := by
    have hnone : s.code.countP Instr.isBare = 0 := compileLines_not_isBare h
    simpa using List.countP_eq_zero.mp hnone
  intro i hi
  obtain ⟨before, after, hcode⟩ := List.append_of_mem hi
  have hslot : ∀ slot, i.slot? = some slot → isName slot.name = true := fun slot hs => by
    have hmem := (hin.ordered _ _ _ hcode).slot slot hs
    exact hin.named slot (by simp [hcode, hmem])
  cases i with
  | alloca slot => exact hin.named slot hi
  | store value slot => exact hslot slot rfl
  | load result slot => exact hslot slot rfl
  | binary op result left right => trivial
  | print result value => trivial
  | bareValue value => cases hbare _ hi
  | bareSlot slot => cases hbare _ hi

/-- **The text of a compiled module determines its name and its instructions**, whatever its name
is. -/
theorem module_text_eq_iff {source source' : String} {s s' : Session}
    (h : compile source = .ok () s) (h' : compile source' = .ok () s') (id id' : String) :
    Module.text ⟨id, s.code⟩ = Module.text ⟨id', s'.code⟩ ↔ id = id' ∧ s.code = s'.code := by
  refine ⟨fun htext => ?_, fun ⟨hid, hcode⟩ => by rw [hid, hcode]⟩
  have hchars := congrArg String.toList htext
  rw [Module.text_toList, Module.text_toList, ← List.append_assoc, ← List.append_assoc] at hchars
  have habove := List.append_cancel_right hchars
  rw [Module.ended_header, Module.ended_header, List.append_assoc, List.append_assoc] at habove
  have hname := List.append_cancel_left habove
  have hbody : (id.toList ++ Module.opening) ++
        '\n' :: (Module.entrance ++ '\n' :: Module.body s.code) =
      (id'.toList ++ Module.opening) ++
        '\n' :: (Module.entrance ++ '\n' :: Module.body s'.code) := by
    simpa using hname
  obtain ⟨hfront, hcode⟩ :=
    Module.eq_of_append (compileLines_legible h) (compileLines_legible h') hbody
  exact ⟨String.toList_inj.mp (List.append_cancel_right hfront), hcode⟩

/-- A module that is named like the text of another one can be told from one that is not. -/
theorem module_text_eq_iff_nested :
    ∃ s s', compile "x = 1" = .ok () s ∧ compile " x=1" = .ok () s' ∧
      Module.text ⟨"m", s.code⟩ ≠ Module.text ⟨Module.text ⟨"m", []⟩, s'.code⟩ := by
  obtain ⟨s, hs⟩ : ∃ s, compile "x = 1" = .ok () s := by decide +kernel
  obtain ⟨s', hs'⟩ : ∃ s, compile " x=1" = .ok () s := by decide +kernel
  refine ⟨s, s', hs, hs', fun htext => ?_⟩
  have hname := ((module_text_eq_iff hs hs' _ _).mp htext).1
  exact absurd hname (by decide +kernel)

end Abacus
