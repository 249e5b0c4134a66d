import Mathlib.Data.List.Basic

/-!
# Character classes and word extraction of the C and C++ libraries

The sources classify characters with `<cctype>` in the C locale and read words with
`operator>>` into a `std::string`. Characters are read as single bytes: `isspace` holds of
the six ASCII white-space characters and `ispunct` of the printable ASCII characters that
are neither letters nor digits. `isalpha`, `isdigit` and `tolower` are `Char.isAlpha`,
`Char.isDigit` and `Char.toLower`, which agree with the C locale on ASCII. The model gives
characters above 127 none of these classes.
-/

namespace HpDb

/-- C `isspace`. -/
def isSpace (c : Char) : Bool :=
  c = ' ' || c = '\t' || c = '\n' || c = '\x0b' || c = '\x0c' || c = '\r'

/-- C `ispunct`. -/
def isPunct (c : Char) : Bool :=
  let n := c.toNat
  (33 ≤ n && n ≤ 47) || (58 ≤ n && n ≤ 64) || (91 ≤ n && n ≤ 96) || (123 ≤ n && n ≤ 126)

/-- The words that `while (stream >> token)` reads: the maximal runs of characters that are
    not white space, in order. -/
def words (s : List Char) : List (List Char) :=
  (s.splitOnP isSpace).filter (!·.isEmpty)

end HpDb
