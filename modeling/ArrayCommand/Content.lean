/-
The bytes of files and streams, and the lines they are made of.
-/

import ArrayCommand.Text.Blank

namespace ArrayCommand

inductive RawLine where
  | text (line : String)
  | invalid
deriving DecidableEq, Repr

abbrev Content := List UInt8

namespace Content

def invalidText : String := "stream did not contain valid UTF-8"

def text? (bytes : Content) : Option String := String.fromUTF8? ⟨bytes.toArray⟩

def ofText (text : String) : Content := text.toUTF8.toList

def cut : Content → List Content
  | [] => []
  | b :: bytes =>
    if b = 10 then [b] :: cut bytes
    else
      match cut bytes with
      | [] => [[b]]
      | line :: rest => (b :: line) :: rest

def line (bytes : Content) : RawLine :=
  match text? bytes with
  | some text => .text (Text.stripLineEnd text)
  | none => .invalid

def lines (bytes : Content) : List RawLine := (cut bytes).map line

end Content

end ArrayCommand
