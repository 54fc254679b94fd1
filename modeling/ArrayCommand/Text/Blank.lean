/-
Blank characters, trimming, and the lines of a text.

Lines and words of the command language are trimmed of every character with the white space
property, not only of the blanks and tabs that separate tokens.
-/

namespace ArrayCommand.Text

/-! ### The white space property -/

/-- The ranges of code points with the white space property, both ends included. -/
def blankRanges : List (Nat × Nat) :=
  [(0x0009, 0x000D), (0x0020, 0x0020), (0x0085, 0x0085), (0x00A0, 0x00A0), (0x1680, 0x1680),
    (0x2000, 0x200A), (0x2028, 0x2029), (0x202F, 0x202F), (0x205F, 0x205F), (0x3000, 0x3000)]

def isBlank (c : Char) : Bool :=
  blankRanges.any fun (lo, hi) => lo ≤ c.toNat && c.toNat ≤ hi

/-! ### Trimming -/

def dropBlanksRight (cs : List Char) : List Char :=
  (cs.reverse.dropWhile isBlank).reverse

def trimStart (s : String) : String := String.ofList (s.toList.dropWhile isBlank)

def trimEnd (s : String) : String := String.ofList (dropBlanksRight s.toList)

def trim (s : String) : String := String.ofList (dropBlanksRight (s.toList.dropWhile isBlank))

/-- A text that holds nothing but blank characters. -/
def allBlank (s : String) : Bool := s.toList.all isBlank

/-! ### Lines -/

/-- Cut at every line feed.  A line feed at the very end starts no further line, and the second
component of a piece tells whether a line feed ended it. -/
def cutLines : List Char → List (List Char × Bool)
  | [] => []
  | c :: cs =>
    if c = '\n' then ([], true) :: cutLines cs
    else
      match cutLines cs with
      | [] => [([c], false)]
      | (line, ended) :: rest => (c :: line, ended) :: rest

/-- A line that a line feed ended loses one carriage return before it as well. -/
def dropReturn : List Char × Bool → List Char
  | (line, true) => if line.getLast? = some '\r' then line.dropLast else line
  | (line, false) => line

def lines (s : String) : List String :=
  (cutLines s.toList).map fun piece => String.ofList (dropReturn piece)

/-- A line as read from a stream loses every carriage return and line feed at its end. -/
def stripLineEnd (s : String) : String :=
  String.ofList (s.toList.reverse.dropWhile fun c => c = '\r' || c = '\n').reverse

/-! ### Letters -/

def fold (s : String) : String := String.ofList (s.toList.map Char.toLower)

def upper (s : String) : String := String.ofList (s.toList.map Char.toUpper)

def sameFolded (s t : String) : Bool := fold s == fold t

end ArrayCommand.Text
