/-
Expansion: how the words of a command become its arguments.

Parameters, commands and sums are replaced first.  What they leave is split where it holds
separators, and then names of files take the place of patterns.
-/

import ArrayCommand.Shell.State
import ArrayCommand.Shell.Pattern
import ArrayCommand.Shell.Arithmetic

namespace ArrayCommand.Shell

/-- A character of a word: it may be quoted, and only what a replacement has left is split.  Beside
characters there are the borders between parameters and marks for quotes around nothing. -/
inductive Glyph where
  | char (c : Char) (quoted splits : Bool)
  | border
  | empty
deriving DecidableEq, Repr

namespace Expand

def glyphsOf (quoted splits : Bool) (text : String) : List Glyph :=
  text.toList.map fun c => .char c quoted splits

/-! ### Parameters -/

inductive Value where
  | one (text : String)
  | all (texts : List String) (joined : Bool)
deriving DecidableEq, Repr

def optionLetters : List Char := "ubaCEVvxsnmiIfe".toList

def value? (s : State) (name : String) : Option Value :=
  match name with
  | "@" => some (.all s.params false)
  | "*" => some (.all s.params true)
  | "#" => some (.one (toString s.params.length))
  | "?" => some (.one (toString s.status))
  | "-" => some (.one (String.ofList (optionLetters.filter fun c => s.has c)))
  | "$" => some (.one "1")
  | "0" => some (.one s.name)
  | _ =>
    match name.toNat? with
    | some n => (s.params[n - 1]?).map Value.one
    | none => (s.lookup name).map Value.one

def separators (s : State) : List Char := ((s.lookup "IFS").getD " \t\n").toList

def joint (s : State) : String := String.ofList ((separators s).take 1)

def bordered (quoted : Bool) : List String → List Glyph
  | [] => []
  | [text] => (if quoted then [.empty] else []) ++ glyphsOf quoted (!quoted) text
  | text :: rest =>
    (if quoted then [.empty] else []) ++ glyphsOf quoted (!quoted) text ++ .border ::
      bordered quoted rest

def Value.glyphs (v : Value) (s : State) (quoted : Bool) : List Glyph :=
  match v with
  | one text => glyphsOf quoted (!quoted) text
  | all texts joined =>
    if quoted && joined then glyphsOf true false ((joint s).intercalate texts)
    else bordered quoted texts

def Value.text (v : Value) (s : State) : String :=
  match v with
  | one text => text
  | all texts _ => (joint s).intercalate texts

def Value.trim (v : Value) (start : Bool) (change : List Char → List Char) : Value :=
  let changed := fun (text : String) => String.ofList (change text.toList)
  match v with
  | one text => one (changed text)
  | all texts joined =>
    if start then
      match texts with
      | text :: rest => all (changed text :: rest) joined
      | [] => v
    else
      match texts.getLast? with
      | some text => all (texts.dropLast ++ [changed text]) joined
      | none => v

/-! ### Replacement -/

abbrev Runner := Node → ShellM Unit

def output (run : Runner) (body : Node) : ShellM String := do
  let s ← get
  let text ← collecting (apart (run body))
  modify fun s' => { s' with status := s.status, inserted := some s'.status }
  let cs := text.toList.filter fun c => c.toNat != 0
  return String.ofList (cs.reverse.dropWhile (· = '\n')).reverse

def marked (s : State) (glyphs : List Glyph) : List Marked :=
  glyphs.flatMap fun
    | .char c quoted _ => [⟨c, quoted⟩]
    | .border => (joint s).toList.map fun c => ⟨c, true⟩
    | .empty => []

def flat (s : State) (glyphs : List Glyph) : String := String.ofList ((marked s glyphs).map Marked.char)

def notSet {α : Type} (name : String) (detail : String) : ShellM α := fail (name ++ ": " ++ detail) 2

def isMissing (s : State) (strict : Bool) (v? : Option Value) : Bool :=
  match v? with
  | none => true
  | some (.one text) => strict && text.isEmpty
  | some (.all texts joined) =>
    texts.isEmpty || (strict && ((Value.all texts joined).text s).isEmpty)

def isAll : Part → Bool
  | .param "@" .value _ _ => true
  | _ => false

def sum (text : String) : ShellM String := do
  let s ← get
  let lookup := fun name => s.lookup name
  match Arithmetic.evaluate text lookup with
  | .ok n => return toString n
  | .error message => fail message 2

mutual

def part (run : Runner) (quoted splits : Bool) : Part → ShellM (List Glyph)
  | .plain text => return glyphsOf quoted splits text
  | .quoted text => return .empty :: glyphsOf true false text
  | .double parts => do
    let glyphs ← parted run true false parts
    match parts with
    | [p] => return if isAll p then glyphs else .empty :: glyphs
    | _ => return .empty :: glyphs
  | .command body => do return glyphsOf quoted (!quoted) (← output run body)
  | .arithmetic parts => do
    let glyphs ← parted run true false parts
    return glyphsOf quoted (!quoted) (← sum (flat (← get) glyphs))
  | .param name form strict word => do
    let s ← get
    let v? := value? s name
    let checked : ShellM Value :=
      match v? with
      | some v => return v
      | none => if s.has 'u' then notSet name "parameter not set" else return .one ""
    match form with
    | .illegal => fail "Bad substitution" 2
    | .value => return (← checked).glyphs s quoted
    | .length =>
      let v ← checked
      let text :=
        match v with
        | .one text => text
        | .all texts _ => (joint s).intercalate texts
      return glyphsOf quoted (!quoted) (toString text.length)
    | .fallback =>
      if isMissing s strict v? then parted run quoted (!quoted) word
      else return (v?.getD (.one "")).glyphs s quoted
    | .alternative =>
      if isMissing s strict v? then return [] else parted run quoted (!quoted) word
    | .require =>
      if isMissing s strict v? then
        let glyphs ← parted run quoted (!quoted) word
        let given := flat (← get) glyphs
        notSet name
          (if !word.isEmpty then given
          else if strict then "parameter not set or null" else "parameter not set")
      else return (v?.getD (.one "")).glyphs s quoted
    | .assign =>
      if isMissing s strict v? then
        let text := flat (← get) (← parted run quoted (!quoted) word)
        if !isName name then notSet name "bad variable name"
        assignVar name text
        return glyphsOf quoted (!quoted) text
      else return (v?.getD (.one "")).glyphs s quoted
    | .trimStart longest =>
      let v ← checked
      let p := Pattern.ofMarked (marked (← get) (← parted run false false word))
      return (v.trim true (p.trimStart longest)).glyphs s quoted
    | .trimEnd longest =>
      let v ← checked
      let p := Pattern.ofMarked (marked (← get) (← parted run false false word))
      return (v.trim false (p.trimEnd longest)).glyphs s quoted

def parted (run : Runner) (quoted splits : Bool) : List Part → ShellM (List Glyph)
  | [] => return []
  | p :: rest => do
    let first ← part run quoted splits p
    return first ++ (← parted run quoted splits rest)

end

/-! ### Splitting -/

/-- A word while it is split: what is done, the field begun, and whether the last one ended at a
blank. -/
structure Fields where
  done : List (List Marked) := []
  open? : Option (List Marked) := none
  blank : Bool := false

def isBlankSeparator (c : Char) : Bool := c = ' ' || c = '\t' || c = '\n'

def Fields.close (f : Fields) (blank : Bool) : Fields :=
  match f.open? with
  | some field => { done := field.reverse :: f.done, open? := none, blank }
  | none => f

/-- A glyph added to the fields.  Blanks only part fields; any other separator ends one, which may be
empty, unless blanks before it have just done so. -/
def Fields.add (seps : List Char) (f : Fields) : Glyph → Fields
  | .border => { f.close false with blank := false }
  | .empty => { f with open? := some (f.open?.getD []) }
  | .char c quoted splits =>
    if splits && seps.contains c then
      if isBlankSeparator c then f.close true
      else
        match f.open? with
        | some _ => f.close false
        | none => if f.blank then { f with blank := false } else { f with done := [] :: f.done }
    else { f with open? := some (⟨c, quoted⟩ :: f.open?.getD []), blank := false }

def fields (seps : List Char) (glyphs : List Glyph) : List (List Marked) :=
  ((glyphs.foldl (Fields.add seps) {}).close false).done.reverse

/-! ### Names of files -/

def steps : (fuel : Nat) → List Marked → List (List Marked × String)
  | 0, _ => []
  | _, [] => []
  | fuel + 1, cs =>
    let rest := cs.dropWhile fun m => m.char != '/'
    let slashes := (rest.takeWhile fun m => m.char = '/').map Marked.char
    (cs.takeWhile fun m => m.char != '/', String.ofList slashes) ::
      steps fuel (rest.dropWhile fun m => m.char = '/')

/-- The names in a directory, those of the directory itself and the one above among them. -/
def namesIn (s : State) (path : String) : List String :=
  match locate (if path.isEmpty then "." else path) with
  | .below place =>
    if s.files.isDirectory place then
      "." :: ".." :: (s.files.names place).map Text.bytesOf
    else []
  | .elsewhere _ => []

def follow (s : State) (paths : List String) (step : List Marked × String) (last : Bool) :
    List String :=
  let p := Pattern.ofMarked step.1
  let found :=
    if p.isLiteral then
      paths.map fun path => path ++ String.ofList (step.1.map Marked.char)
    else
      paths.flatMap fun path =>
        ((namesIn s path).filter fun name =>
          (!name.startsWith "." || step.1.head?.any (fun m => m.char = '.')) &&
            p.matches' name.toList).map (path ++ ·)
  let kept :=
    found.filter fun path =>
      path.isEmpty || (if step.2.isEmpty then s.find path != .missing else s.isDirectory path)
  if last && step.2.isEmpty then kept else kept.map (· ++ step.2)

def followAll (s : State) : List String → List (List Marked × String) → List String
  | paths, [] => paths
  | paths, step :: rest => followAll s (follow s paths step rest.isEmpty) rest

/-- A field as arguments: the paths it leads to if it is a pattern, otherwise its text. -/
def paths (s : State) (field : List Marked) : List String :=
  let text := String.ofList (field.map Marked.char)
  if s.has 'f' || (Pattern.ofMarked field).isLiteral then [text]
  else
    match followAll s [""] (steps (field.length + 1) field) with
    | [] => [text]
    | found => found.mergeSort fun a b => a ≤ b

/-! ### Uses -/

def arguments (run : Runner) (word : Word) : ShellM (List String) := do
  let gs ← parted run false false word
  let s ← get
  return (fields (separators s) gs).flatMap (paths s)

def allArguments (run : Runner) : List Word → ShellM (List String)
  | [] => return []
  | word :: rest => do
    let first ← arguments run word
    return first ++ (← allArguments run rest)

def text (run : Runner) (word : Word) : ShellM String := do
  let gs ← parted run false false word
  return flat (← get) gs

def pattern (run : Runner) (word : Word) : ShellM Pattern := do
  let gs ← parted run false false word
  return Pattern.ofMarked (marked (← get) gs)

end Expand

end ArrayCommand.Shell
