/-!
# Blank characters

A blank separates nothing: every blank of a line is dropped before its tokens are read. Which
characters are blank is a table of code point ranges.

## Main definitions

* `blankRanges`: the table
* `isBlank`: membership in it
* `dropBlanks`: a text without its blanks
-/

namespace Abacus.Text

/-- The code points of the blank characters, as closed ranges in increasing order. -/
def blankRanges : List (Nat × Nat) :=
  [(0x09, 0x0D), (0x1C, 0x20), (0x85, 0x85), (0xA0, 0xA0), (0x1680, 0x1680), (0x2000, 0x200A),
    (0x2028, 0x2029), (0x202F, 0x202F), (0x205F, 0x205F), (0x3000, 0x3000)]

/-- A character is blank when its code point lies in one of the `blankRanges`. -/
def isBlank (c : Char) : Bool :=
  blankRanges.any fun r => r.1 ≤ c.toNat && c.toNat ≤ r.2

/-- A text without its blanks. -/
def dropBlanks (cs : List Char) : List Char :=
  cs.filter (!isBlank ·)

@[simp] theorem dropBlanks_nil : dropBlanks [] = [] := rfl

@[simp] theorem dropBlanks_append (cs ds : List Char) :
    dropBlanks (cs ++ ds) = dropBlanks cs ++ dropBlanks ds :=
  List.filter_append ..

theorem mem_dropBlanks {c : Char} {cs : List Char} :
    c ∈ dropBlanks cs ↔ c ∈ cs ∧ isBlank c = false := by
  simp [dropBlanks]

/-- A text without blanks stays as it is. -/
theorem dropBlanks_eq_self {cs : List Char} (h : ∀ c ∈ cs, isBlank c = false) :
    dropBlanks cs = cs :=
  List.filter_eq_self.mpr fun c hc => by simp [h c hc]

end Abacus.Text
