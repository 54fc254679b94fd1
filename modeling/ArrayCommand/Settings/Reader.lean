/-
Reading a document of settings.

Every reader takes characters and gives back what it read with the characters behind it, or nothing
if the text is not well formed.
-/

import ArrayCommand.Decimal.Binary64
import ArrayCommand.Settings.Document

namespace ArrayCommand.Reader

/-! ### Characters -/

def isBlank (c : Char) : Bool := c = ' ' || c = '\t'

def isPrintable (c : Char) : Bool := c = '\t' || (32 ≤ c.toNat && c.toNat != 127)

def isKeyChar (c : Char) : Bool := c.isAlphanum || c = '_' || c = '-'

def isPlainChar (c : Char) : Bool := isKeyChar c || c = '+' || c = '.' || c = ':'

def skipBlanks (cs : List Char) : List Char := cs.dropWhile isBlank

def newline? : List Char → Option (List Char)
  | '\n' :: cs => some cs
  | '\r' :: '\n' :: cs => some cs
  | _ => none

/-- The characters behind a comment, if one follows; it must be printable. -/
def skipComment (cs : List Char) : Option (List Char) :=
  match cs with
  | '#' :: rest =>
    match rest.dropWhile isPrintable with
    | [] => some []
    | more => (newline? more).map fun _ => more
  | _ => some cs

def skipGaps : (comment : Bool) → List Char → Option (List Char)
  | _, [] => some []
  | _, '\n' :: cs => skipGaps false cs
  | _, '\r' :: '\n' :: cs => skipGaps false cs
  | true, c :: cs => if isPrintable c then skipGaps true cs else none
  | false, '#' :: cs => skipGaps true cs
  | false, c :: cs => if isBlank c then skipGaps false cs else some (c :: cs)

/-! ### Quoted texts -/

def hexDigit? (c : Char) : Option Nat :=
  if c.isDigit then some (c.toNat - '0'.toNat)
  else if 'a' ≤ c && c ≤ 'f' then some (c.toNat - 'a'.toNat + 10)
  else if 'A' ≤ c && c ≤ 'F' then some (c.toNat - 'A'.toNat + 10)
  else none

def hexNumber? (digits : List Char) : Option Nat :=
  digits.foldlM (fun n c => (hexDigit? c).map fun d => n * 16 + d) 0

def codePoint? (digits : List Char) : Option Char := do
  let n ← hexNumber? digits
  if n.isValidChar then some (Char.ofNat n) else none

def escape? : Char → Option Char
  | 'b' => some '\x08'
  | 't' => some '\t'
  | 'n' => some '\n'
  | 'f' => some '\x0c'
  | 'r' => some '\r'
  | '"' => some '"'
  | '\\' => some '\\'
  | _ => none

def before (c : Char) (r : Option (List Char × List Char)) : Option (List Char × List Char) :=
  r.map fun (text, rest) => (c :: text, rest)

def basicText : List Char → Option (List Char × List Char)
  | [] => none
  | '"' :: cs => some ([], cs)
  | '\\' :: 'u' :: a :: b :: c :: d :: cs => do before (← codePoint? [a, b, c, d]) (basicText cs)
  | '\\' :: 'U' :: a :: b :: c :: d :: e :: f :: g :: h :: cs => do
    before (← codePoint? [a, b, c, d, e, f, g, h]) (basicText cs)
  | '\\' :: c :: cs => do before (← escape? c) (basicText cs)
  | c :: cs => if isPrintable c then before c (basicText cs) else none

def literalText : List Char → Option (List Char × List Char)
  | [] => none
  | '\'' :: cs => some ([], cs)
  | c :: cs => if isPrintable c then before c (literalText cs) else none

def endsLine (cs : List Char) : Bool := (newline? (skipBlanks cs)).isSome

/-- A text of several lines in double quotes, behind the first quotes.  A backslash at the end of a
line takes away the line end and all blanks and line ends behind it. -/
def basicLines : (trimming : Bool) → List Char → Option (List Char × List Char)
  | _, [] => none
  | _, '"' :: '"' :: '"' :: '"' :: '"' :: cs => some (['"', '"'], cs)
  | _, '"' :: '"' :: '"' :: '"' :: cs => some (['"'], cs)
  | _, '"' :: '"' :: '"' :: cs => some ([], cs)
  | true, ' ' :: cs => basicLines true cs
  | true, '\t' :: cs => basicLines true cs
  | true, '\n' :: cs => basicLines true cs
  | true, '\r' :: '\n' :: cs => basicLines true cs
  | _, '\n' :: cs => before '\n' (basicLines false cs)
  | _, '\r' :: '\n' :: cs => before '\n' (basicLines false cs)
  | _, '\\' :: 'u' :: a :: b :: c :: d :: cs => do
    before (← codePoint? [a, b, c, d]) (basicLines false cs)
  | _, '\\' :: 'U' :: a :: b :: c :: d :: e :: f :: g :: h :: cs => do
    before (← codePoint? [a, b, c, d, e, f, g, h]) (basicLines false cs)
  | _, '\\' :: c :: cs =>
    if endsLine (c :: cs) then basicLines true (c :: cs)
    else do before (← escape? c) (basicLines false cs)
  | _, c :: cs => if isPrintable c then before c (basicLines false cs) else none

def literalLines : List Char → Option (List Char × List Char)
  | [] => none
  | '\'' :: '\'' :: '\'' :: '\'' :: '\'' :: cs => some (['\'', '\''], cs)
  | '\'' :: '\'' :: '\'' :: '\'' :: cs => some (['\''], cs)
  | '\'' :: '\'' :: '\'' :: cs => some ([], cs)
  | '\n' :: cs => before '\n' (literalLines cs)
  | '\r' :: '\n' :: cs => before '\n' (literalLines cs)
  | c :: cs => if isPrintable c then before c (literalLines cs) else none

def dropNewline (cs : List Char) : List Char := (newline? cs).getD cs

def quoted? : List Char → Option (List Char × List Char)
  | '"' :: '"' :: '"' :: cs => basicLines false (dropNewline cs)
  | '\'' :: '\'' :: '\'' :: cs => literalLines (dropNewline cs)
  | '"' :: cs => basicText cs
  | '\'' :: cs => literalText cs
  | _ => none

/-! ### Values without quotes -/

def digits? (isDigit : Char → Bool) : List Char → Option (List Char)
  | [] => none
  | [c] => if isDigit c then some [c] else none
  | c :: '_' :: cs => if isDigit c then (digits? isDigit cs).map (c :: ·) else none
  | c :: cs => if isDigit c then (digits? isDigit cs).map (c :: ·) else none

def inBase (base : Nat) (digits : List Char) : Nat :=
  digits.foldl (fun n c => n * base + (hexDigit? c).getD 0) 0

def fits (n : Int) : Bool := -0x8000000000000000 ≤ n && n < 0x8000000000000000

def fitting (n : Int) : Option Item := if fits n then some (.integer n) else none

def based (base : Nat) (isDigit : Char → Bool) (cs : List Char) : Option Item :=
  (digits? isDigit cs).bind fun digits => fitting (inBase base digits)

def decimal? (cs : List Char) : Option (List Char) := do
  let digits ← digits? Char.isDigit cs
  if digits.head? = some '0' ∧ 1 < digits.length then none else some digits

def exponent? : List Char → Option Int
  | '+' :: cs => (digits? Char.isDigit cs).map fun digits => (inBase 10 digits : Int)
  | '-' :: cs => (digits? Char.isDigit cs).map fun digits => -(inBase 10 digits : Int)
  | cs => (digits? Char.isDigit cs).map fun digits => (inBase 10 digits : Int)

def isExponentMark (c : Char) : Bool := c = 'e' || c = 'E'

/-- The number behind a point and an exponent: the digits of the fraction, and the exponent. -/
def fraction? (cs : List Char) : Option (List Char × Int) := do
  match cs with
  | '.' :: cs =>
    let digits ← digits? Char.isDigit (cs.takeWhile fun c => !isExponentMark c)
    match cs.dropWhile fun c => !isExponentMark c with
    | [] => return (digits, 0)
    | _ :: rest => return (digits, ← exponent? rest)
  | c :: cs => if isExponentMark c then return ([], ← exponent? cs) else none
  | [] => none

/-- A number with a fraction or an exponent.  One that rounds to the positive infinite number is
refused; the negative one is not. -/
def float? (negative : Bool) (digits : List Char) (rest : List Char) : Option Item := do
  let (fraction, exponent) ← fraction? rest
  let x := Binary64.ofDecimal (inBase 10 (digits ++ fraction)) (exponent - fraction.length)
  if negative || Binary64.isFinite x then some .float else none

/-- A number behind its sign; `negative` tells which sign that was. -/
def unsigned? (negative : Bool) (cs : List Char) : Option Item :=
  match cs with
  | ['i', 'n', 'f'] => some .float
  | ['n', 'a', 'n'] => some .float
  | _ =>
    let isWhole := fun c : Char => c.isDigit || c = '_'
    (decimal? (cs.takeWhile isWhole)).bind fun digits =>
      match cs.dropWhile isWhole with
      | [] =>
        let n : Int := inBase 10 digits
        fitting (if negative then -n else n)
      | rest => float? negative digits rest

def number? : List Char → Option Item
  | '0' :: 'x' :: cs => based 16 (fun c => (hexDigit? c).isSome) cs
  | '0' :: 'o' :: cs => based 8 (fun c => '0' ≤ c && c ≤ '7') cs
  | '0' :: 'b' :: cs => based 2 (fun c => c = '0' || c = '1') cs
  | '+' :: cs => unsigned? false cs
  | '-' :: cs => unsigned? true cs
  | cs => unsigned? false cs

/-- Two digits that stand for a number of at most `most`. -/
def twoDigits (most : Nat) (a b : Char) : Bool :=
  a.isDigit && b.isDigit && inBase 10 [a, b] ≤ most

def monthDays (year month : Nat) : Nat :=
  if month = 2 then if (year % 4 = 0 ∧ year % 100 ≠ 0) ∨ year % 400 = 0 then 29 else 28
  else if month = 4 ∨ month = 6 ∨ month = 9 ∨ month = 11 then 30
  else 31

def isDate : List Char → Bool
  | [a, b, c, d, '-', e, f, '-', g, h] =>
    let year := inBase 10 [a, b, c, d]
    let month := inBase 10 [e, f]
    let day := inBase 10 [g, h]
    [a, b, c, d].all Char.isDigit && twoDigits 12 e f && 1 ≤ month &&
      twoDigits (monthDays year month) g h && 1 ≤ day
  | _ => false

def isTime : List Char → Bool
  | a :: b :: ':' :: c :: d :: ':' :: e :: f :: rest =>
    twoDigits 23 a b && twoDigits 59 c d && twoDigits 60 e f &&
      match rest with
      | [] => true
      | '.' :: digits => !digits.isEmpty && digits.all Char.isDigit
      | _ => false
  | _ => false

def isOffset : List Char → Bool
  | [] => true
  | ['Z'] => true
  | ['z'] => true
  | [sign, a, b, ':', c, d] => (sign = '+' || sign = '-') && twoDigits 23 a b && twoDigits 59 c d
  | _ => false

/-- A date with a time of day, and possibly the distance from universal time. -/
def isMoment (cs : List Char) : Bool :=
  let isTimeChar := fun c : Char => c.isDigit || c = ':' || c = '.'
  match cs.drop 10 with
  | [] => isDate cs
  | mark :: rest =>
    isDate (cs.take 10) && (mark = 'T' || mark = 't' || mark = ' ') &&
      isTime (rest.takeWhile isTimeChar) && isOffset (rest.dropWhile isTimeChar)

def plain? (cs : List Char) : Option Item :=
  match cs with
  | ['t', 'r', 'u', 'e'] => some (.boolean true)
  | ['f', 'a', 'l', 's', 'e'] => some (.boolean false)
  | _ => if isMoment cs || isTime cs then some .date else number? cs

def plain (cs : List Char) : Option (Item × List Char) :=
  let word := cs.takeWhile isPlainChar
  let rest := cs.dropWhile isPlainChar
  let joined :=
    match rest with
    | ' ' :: c :: more =>
      if isDate word && c.isDigit then
        some (word ++ ' ' :: (c :: more).takeWhile isPlainChar, (c :: more).dropWhile isPlainChar)
      else none
    | _ => none
  let (word, rest) := joined.getD (word, rest)
  (plain? word).map fun item => (item, rest)

/-! ### Keys -/

def simpleKey (cs : List Char) : Option (String × List Char) :=
  match cs with
  | '"' :: rest => (basicText rest).map fun (text, rest) => (String.ofList text, rest)
  | '\'' :: rest => (literalText rest).map fun (text, rest) => (String.ofList text, rest)
  | _ =>
    let word := cs.takeWhile isKeyChar
    if word.isEmpty then none else some (String.ofList word, cs.dropWhile isKeyChar)

/-- The greatest nesting of values, and the greatest number of keys with dots between them. -/
def depthLimit : Nat := 79

/-- Keys with dots between them, at most `most` of them. -/
def keysUpTo : (most : Nat) → List Char → Option (List String × List Char)
  | 0, _ => none
  | most + 1, cs => do
    let (key, cs) ← simpleKey (skipBlanks cs)
    match skipBlanks cs with
    | '.' :: cs =>
      let (rest, cs) ← keysUpTo most cs
      return (key :: rest, cs)
    | cs => return ([key], cs)

def keys (cs : List Char) : Option (List String × List Char) := keysUpTo depthLimit cs

/-! ### Values -/

abbrev Values := List Char → Option (Item × List Char)

/-- The items of a list up to its end, at most `fuel` of them.  A comma may follow the last one. -/
def items (value : Values) : (fuel : Nat) → List Char → Option (List Item × List Char)
  | 0, _ => none
  | fuel + 1, cs => do
    match ← skipGaps false cs with
    | ']' :: cs => return ([], cs)
    | cs =>
      let (item, cs) ← value cs
      match ← skipGaps false cs with
      | ',' :: cs =>
        let (rest, cs) ← items value fuel cs
        return (item :: rest, cs)
      | ']' :: cs => return ([item], cs)
      | _ => none

def pair (value : Values) (cs : List Char) : Option (List String × Item × List Char) := do
  let (path, cs) ← keys cs
  match cs with
  | '=' :: cs =>
    let (item, cs) ← value (skipBlanks cs)
    return (path, item, cs)
  | _ => none

/-- The entries of a table in braces up to its end, at most `fuel` of them, added to others. -/
def members (value : Values) : (fuel : Nat) → Entries → List Char → Option (Entries × List Char)
  | 0, _, _ => none
  | fuel + 1, entries, cs => do
    let (path, item, cs) ← pair value cs
    let (_, entries) ← Document.assignIn path item .braces entries
    match skipBlanks cs with
    | ',' :: cs => members value fuel entries cs
    | '\x7d' :: cs => return (entries, cs)
    | _ => none

def single : Values := fun cs =>
  match cs with
  | '"' :: _ => (quoted? cs).map fun (text, rest) => (.text (String.ofList text), rest)
  | '\'' :: _ => (quoted? cs).map fun (text, rest) => (.text (String.ofList text), rest)
  | _ => plain cs

/-- A value; lists and tables are nested at most `depth` times. -/
def value : (depth : Nat) → Values
  | 0, cs => single cs
  | depth + 1, cs =>
    match cs with
    | '[' :: rest =>
      (items (value depth) (rest.length + 1) rest).map fun (list, rest) => (.list list, rest)
    | '\x7b' :: rest =>
      match skipBlanks rest with
      | '\x7d' :: rest => some (.table .braces [], rest)
      | rest =>
        (members (value depth) (rest.length + 1) [] rest).map fun (entries, rest) =>
          (.table .braces entries, rest)
    | _ => single cs

/-! ### Documents -/

/-- The characters behind the end of a line: blanks, a comment, and a line end or the end of the
text. -/
def endLine (cs : List Char) : Option (List Char) := do
  match ← skipComment (skipBlanks cs) with
  | [] => return []
  | cs => newline? cs

def headerKeys (closing : List Char) (cs : List Char) : Option (List String × List Char) := do
  let (path, cs) ← keys cs
  if closing.isPrefixOf cs then return (path, cs.drop closing.length) else none

/-- Read the lines of a document, at most `fuel` of them, under the present header. -/
def readLines : (fuel : Nat) → (section' : List String) → Entries → List Char → Option Entries
  | 0, _, _, _ => none
  | fuel + 1, section', root, cs => do
    match ← skipGaps false cs with
    | [] => return root
    | '[' :: '[' :: cs =>
      let (path, cs) ← headerKeys [']', ']'] cs
      let root ← Document.arrayHeader path root
      readLines fuel path root (← endLine cs)
    | '[' :: cs =>
      let (path, cs) ← headerKeys [']'] cs
      let root ← Document.header path root
      readLines fuel path root (← endLine cs)
    | cs =>
      let (path, item, cs) ← pair (value depthLimit) cs
      let root ← Document.assign section' path item root
      readLines fuel section' root (← endLine cs)

/-- The entries of a document; a mark of the byte order at its start is passed over. -/
def document? (text : String) : Option Entries :=
  let cs := text.toList
  let cs := if cs.head? = some '\uFEFF' then cs.tail else cs
  readLines (cs.length + 1) [] [] cs

end ArrayCommand.Reader
