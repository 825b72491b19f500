import LosslessCss.Runs

/-!
# White space

Two notions of blank space meet in a style sheet.  The lexical grammar knows five blank characters
(`LosslessCss.Token.isBlank`).  Trimming and compaction follow Unicode and use the property
`White_Space`, which this module holds: 25 characters, in ascending order of their code points.

## Main Definitions

* `isWhiteSpace` : the property itself
* `trimStart`, `trimEnd`, `trim` : a text without the white space at its ends
* `leadingSpace`, `trailingSpace` : the white space that trimming removes
-/

namespace LosslessCss.Text

/-- **Unicode's property `White_Space`.**  U+0009 to U+000D, U+0020, U+0085, U+00A0, U+1680, U+2000
to U+200A, U+2028, U+2029, U+202F, U+205F and U+3000. -/
def isWhiteSpace (c : Char) : Bool :=
  let n := c.toNat
  (0x9 ≤ n && n ≤ 0xD) || n == 0x20 || n == 0x85 || n == 0xA0 || n == 0x1680 ||
    (0x2000 ≤ n && n ≤ 0x200A) || n == 0x2028 || n == 0x2029 || n == 0x202F || n == 0x205F ||
    n == 0x3000

/-- White space at the start of a text. -/
def leadingSpace (cs : List Char) : List Char := cs.takeWhile isWhiteSpace

/-- White space at the end of a text. -/
def trailingSpace (cs : List Char) : List Char := takeTrailing isWhiteSpace cs

/-- A text without the white space at its start. -/
def trimStart (cs : List Char) : List Char := cs.dropWhile isWhiteSpace

/-- A text without the white space at its end. -/
def trimEnd (cs : List Char) : List Char := dropTrailing isWhiteSpace cs

/-- A text without the white space at its ends. -/
def trim (cs : List Char) : List Char := trimEnd (trimStart cs)

@[simp] theorem leadingSpace_append_trimStart (cs : List Char) :
    leadingSpace cs ++ trimStart cs = cs :=
  List.takeWhile_append_dropWhile

@[simp] theorem trimEnd_append_trailingSpace (cs : List Char) :
    trimEnd cs ++ trailingSpace cs = cs :=
  dropTrailing_append_takeTrailing _ _

end LosslessCss.Text
