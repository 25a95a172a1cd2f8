import Abacus.Text.Printable

/-!
# Quoted texts

A text is shown between quotes. The quotes are single, unless the text holds a single quote and no
double one. The quote itself and the backslash are escaped, and so is every character that is not
printable: tab, line feed and carriage return by a letter, the others by their code point in as few
of two, four or eight hexadecimal digits as it needs.

## Main definitions

* `quoteFor`: the quote that a text is put in
* `escape`: a character between quotes
* `quoted`: a text with its quotes
-/

namespace Abacus.Text

/-- The lower-case hexadecimal digits of `n`, at least `width` of them. -/
def hex (width n : Nat) : List Char :=
  let digits := Nat.toDigits 16 n
  List.replicate (width - digits.length) '0' ++ digits

/-- The quote that a text is put in. -/
def quoteFor (cs : List Char) : Char :=
  if cs.contains '\'' && !cs.contains '"' then '"' else '\''

/-- A character between quotes `q`. -/
def escape (q c : Char) : List Char :=
  if c = q || c = '\\' then ['\\', c]
  else if c = '\t' then ['\\', 't']
  else if c = '\n' then ['\\', 'n']
  else if c = '\r' then ['\\', 'r']
  else if isPrintable c then [c]
  else if c.toNat < 0x100 then '\\' :: 'x' :: hex 2 c.toNat
  else if c.toNat < 0x10000 then '\\' :: 'u' :: hex 4 c.toNat
  else '\\' :: 'U' :: hex 8 c.toNat

/-- A text with its quotes. -/
def quoted (text : String) : String :=
  let cs := text.toList
  let q := quoteFor cs
  String.ofList (q :: cs.flatMap (escape q) ++ [q])

end Abacus.Text
