/-
Settings from a document.

Keys that mean nothing are passed over; a value of the wrong type is a fault.
-/

import ArrayCommand.Fault
import ArrayCommand.Outside
import ArrayCommand.Settings
import ArrayCommand.Settings.Reader

namespace ArrayCommand

namespace Item

def text? : Item → Option String
  | text s => some s
  | _ => none

def char? : Item → Option Char
  | text s =>
    match s.toList with
    | [c] => some c
    | _ => none
  | _ => none

def boolean? : Item → Option Bool
  | boolean b => some b
  | _ => none

def size? : Item → Option Nat
  | integer (.ofNat n) => some n
  | _ => none

end Item

def field {α : Type} (entries : Entries) (key : String) (read : Item → Option α) (default : α) :
    Option α :=
  match entries.lookup key with
  | none => some default
  | some item => read item

namespace Limits

def ofEntries? (entries : Entries) : Option Limits := do
  let d : Limits := {}
  return {
    compileStack := ← field entries "compile_stack" Item.size? d.compileStack
    runStack := ← field entries "run_stack" Item.size? d.runStack
    valueStack := ← field entries "value_stack" Item.size? d.valueStack
    inputDepth := ← field entries "input_depth" Item.size? d.inputDepth
    nameLength := ← field entries "name_length" Item.size? d.nameLength }

/-- The limits of a list of sizes in their order; the last ones may be missing. -/
def ofList? (items : List Item) : Option Limits := do
  let names := ["compile_stack", "run_stack", "value_stack", "input_depth", "name_length"]
  ofEntries? (names.zip items)

def ofItem? : Item → Option Limits
  | .table _ entries => ofEntries? entries
  | .list items => ofList? items
  | .tables items => ofList? (items.map (.table .defined))
  | .date => some {}
  | _ => none

end Limits

namespace Settings

def ofDocument? (entries : Entries) : Option Settings := do
  let d : Settings := {}
  return {
    prompt := ← field entries "prompt" Item.text? d.prompt
    continuationPrompt := ← field entries "continuation_prompt" Item.text? d.continuationPrompt
    commentMark := ← field entries "comment_prefix" Item.char? d.commentMark
    shellMark := ← field entries "shell_prefix" Item.char? d.shellMark
    macroMark := ← field entries "macro_prefix" Item.char? d.macroMark
    fileMark := ← field entries "file_prefix" Item.char? d.fileMark
    shellEscape := ← field entries "shell_escape" Item.boolean? d.shellEscape
    endLimit := ← field entries "eof_limit" Item.size? d.endLimit
    startup := ← field entries "startup" (fun item => item.text?.map some) d.startup
    log := ← field entries "log" (fun item => item.text?.map some) d.log
    limits := ← field entries "limits" Limits.ofItem? d.limits }

def ofText (text : String) : Except Fault Settings :=
  match (Reader.document? text).bind ofDocument? with
  | some settings => .ok settings
  | none => .error (.because .syntaxError "CONFIG: NOT WELL FORMED")

variable [Outside]

def load (world : Outside.World) (path : String) : Except Fault Settings :=
  match Outside.contents world path with
  | .ok text => ofText text
  | .error reason => .error (.because .fileNotFound (path ++ ": " ++ reason))

def userFile : String := ".cmdlang.toml"

def discover (world : Outside.World) : Except Fault Settings :=
  if Outside.isFile world userFile then load world userFile else .ok {}

end Settings

end ArrayCommand
