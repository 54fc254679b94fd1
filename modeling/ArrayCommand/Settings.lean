/-
The settings of the interpreter.
-/

namespace ArrayCommand

/-- The sizes that are limited. -/
structure Limits where
  compileStack : Nat := 8192
  runStack : Nat := 256
  valueStack : Nat := 256
  inputDepth : Nat := 16
  nameLength : Nat := 32
deriving DecidableEq, Repr

/-- The settings of the interpreter.  A mark is the first character of a line that is a comment, a
command for the shell, the management of a macro, or the name of a command file. -/
structure Settings where
  prompt : String := "cmd> "
  continuationPrompt : String := "...> "
  commentMark : Char := '#'
  shellMark : Char := '$'
  macroMark : Char := ':'
  fileMark : Char := '@'
  shellEscape : Bool := true
  /-- How many ends of the input in a row end an interactive session. -/
  endLimit : Nat := 3
  /-- A command file that is run first. -/
  startup : Option String := none
  log : Option String := none
  limits : Limits := {}
deriving DecidableEq, Repr

/-- The greatest number of input levels; the console and one more are always possible. -/
def Settings.depthLimit (s : Settings) : Nat := max s.limits.inputDepth 2

theorem Settings.depthLimit_pos (s : Settings) : 0 < s.depthLimit :=
  Nat.lt_of_lt_of_le (by decide) (Nat.le_max_right _ 2)

end ArrayCommand
