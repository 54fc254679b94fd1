/-
String literals.

A literal is written between two quotes of one kind, with a backslash before every backslash and
every such quote.  Two scans look at it, each with its own rules for where it ends: the one that
inserts arguments and cuts a line at semicolons, and the one that reads tokens.  Both end at the
closing quote, whatever the string holds; only a doubled percent sign before a digit inserts an
argument into a literal.

* `Literal.text` — the literal of a string;
* `Template.scan_body` — a literal is copied as it stands;
* `Lexer.tokens_literal` — a literal is read as its string;
* `Template.substitute_literal` — both, for the line that assigns a literal.
-/

import ArrayCommand.Input.Template
import ArrayCommand.Proofs.Spelling

namespace ArrayCommand

open List

variable {quote c : Char} {s : List Char}

/-! ### Literals -/

namespace Literal

def escape (quote c : Char) : List Char := if c = '\\' ∨ c = quote then ['\\', c] else [c]

def body (quote : Char) (s : List Char) : List Char := s.flatMap (escape quote) ++ [quote]

def text (quote : Char) (s : String) : String := String.ofList (quote :: body quote s.toList)

@[simp] theorem body_nil : body quote [] = [quote] := rfl

theorem body_escaped (h : c = '\\' ∨ c = quote) :
    body quote (c :: s) = '\\' :: c :: body quote s := by
  simp [body, escape, h]

theorem body_plain (h : ¬(c = '\\' ∨ c = quote)) : body quote (c :: s) = c :: body quote s := by
  simp [body, escape, h]

theorem toList_line (quote : Char) (s : String) : ("x = " ++ text quote s).toList =
    'x' :: ' ' :: '=' :: ' ' :: quote :: body quote s.toList := by
  simp [text]

/-- A character that is no backslash and no quote begins what is behind the opening quote only if it
begins the string. -/
theorem head_of_body {rest : List Char} (hbackslash : c ≠ '\\') (hquote : c ≠ quote)
    (h : body quote s = c :: rest) : ∃ s', s = c :: s' ∧ rest = body quote s' := by
  cases s with
  | nil => exact absurd (cons.inj h).1.symm hquote
  | cons d s =>
    by_cases hd : d = '\\' ∨ d = quote
    · rw [body_escaped hd] at h
      exact absurd (cons.inj h).1.symm hbackslash
    · rw [body_plain hd] at h
      obtain ⟨rfl, rfl⟩ := cons.inj h
      exact ⟨s, rfl, rfl⟩

/-- A string without a doubled percent sign before a digit. -/
def Plain (s : List Char) : Prop := ∀ d, d.isDigit → ¬['%', '%', d] <:+: s

theorem Plain.tail (h : Plain (c :: s)) : Plain s :=
  fun d hd hin => h d hd (hin.trans (suffix_cons c s).isInfix)

end Literal

/-! ### Inserting arguments -/

namespace Template

open Literal

theorem move_plain (hquote : quote = '"' ∨ quote = '\'')
    (hc : ¬(c = '\\' ∨ c = quote)) (hplain : Plain (c :: s)) (pos : Nat) :
    move (some quote) pos c (body quote s) = .ok { pieces := [.char c], quote := some quote } := by
  rw [not_or] at hc
  unfold move insideQuote
  dsimp only
  rw [if_neg hc.1, if_neg hc.2]
  split
  case h_1 d more heq =>
    split
    case isTrue hd =>
      -- The doubled percent sign and the digit would stand in the string itself.
      exfalso
      obtain ⟨s, rfl, hrest⟩ := head_of_body (by decide) hc.2 heq
      have hne : d ≠ '\\' ∧ d ≠ quote := by
        constructor
        · rintro rfl
          exact absurd hd (by decide)
        · rintro rfl
          obtain rfl | rfl := hquote <;> exact absurd hd (by decide)
      obtain ⟨s, rfl, -⟩ := head_of_body hne.1 hne.2 hrest.symm
      exact hplain d hd ⟨[], s, rfl⟩
    case isFalse => rfl
  case h_2 => rfl

theorem scan_char {quote quote' : Option Char} {pos : Nat} {cs : List Char}
    (h : move quote pos c cs = .ok { pieces := [.char c], quote := quote' }) :
    scan quote 0 pos (c :: cs) = (scan quote' 0 (pos + 1) cs).map (prepend (.char c)) := by
  rw [scan, h]
  rfl

theorem scan_body (hquote : quote = '"' ∨ quote = '\'') (hplain : Plain s)
    (pos : Nat) : scan (some quote) 0 pos (body quote s) = .ok [(body quote s).map .char] := by
  induction s generalizing pos with
  | nil => obtain rfl | rfl := hquote <;> rfl
  | cons c s ih =>
    by_cases hc : c = '\\' ∨ c = quote
    · rw [body_escaped hc, scan, move]
      change (scan (some quote) 0 (pos + 1 + 1) (body quote s)).map _ = _
      rw [ih hplain.tail]
      rfl
    · rw [body_plain hc, scan_char (move_plain hquote hc hplain pos), ih hplain.tail]
      rfl

theorem render_chars (name : String) (args : List String) (cs : List Char) :
    render name args (cs.map .char) = String.ofList cs := by
  rw [render, map_map]
  induction cs with
  | nil => rfl
  | cons c cs ih =>
    rw [map_cons, String.join_cons, ih]
    simp [Piece.expand]

end Template

/-! ### Reading tokens -/

theorem Literal.escaped_body (hquote : quote = '"' ∨ quote = '\'') (s : List Char) :
    Escaped quote s (s.flatMap (escape quote)) := by
  induction s with
  | nil => exact .nil
  | cons c s ih =>
    rw [flatMap_cons, escape]
    split
    case isTrue hc =>
      refine .itself ?_ ih
      obtain rfl | rfl := hc
      · decide
      · obtain rfl | rfl := hquote <;> decide
    case isFalse hc =>
      rw [not_or] at hc
      exact .plain hc.2 hc.1 ih

theorem Lexer.tokens_literal (hquote : quote = '"' ∨ quote = '\'') (s : String) {maxName : Nat}
    (hname : 0 < maxName) :
    tokens ("x = " ++ Literal.text quote s) maxName = .ok [.name "x", .assign, .text s] := by
  have hx : Token.Spelled maxName (.name "x") ['x'] := .name (by decide) (by simp) hname
  have hs : Token.Spelled maxName _ _ := .text hquote (Literal.escaped_body hquote s.toList)
  rw [String.ofList_toList] at hs
  exact @Token.tokens_of_written maxName _
    [(true, ⟨_, _, hx⟩), (false, ⟨_, _, .assign⟩), (false, ⟨_, _, hs⟩)]
    (by simp [Literal.text, Token.written, Token.blank, Literal.body])

/-- A line that assigns a literal is one sub-line, which stays as it is whatever the arguments, and
whose tokens hold the string. -/
theorem Template.substitute_literal {quote : Char} (hquote : quote = '"' ∨ quote = '\'')
    (s : String) (hplain : Literal.Plain s.toList) (name : String) (args : List String)
    {maxName : Nat} (hname : 0 < maxName) :
    substitute ("x = " ++ Literal.text quote s) name args = .ok ["x = " ++ Literal.text quote s] ∧
      Lexer.tokens ("x = " ++ Literal.text quote s) maxName =
        .ok [.name "x", .assign, .text s] := by
  refine ⟨?_, Lexer.tokens_literal hquote s hname⟩
  have hscan : scan none 0 0 ("x = " ++ Literal.text quote s).toList =
      .ok [("x = " ++ Literal.text quote s).toList.map .char] := by
    have hopen : move none 4 quote (Literal.body quote s.toList) =
        .ok { pieces := [.char quote], quote := some quote } := by
      obtain rfl | rfl := hquote <;> rfl
    rw [Literal.toList_line, scan_char rfl, scan_char rfl, scan_char rfl, scan_char rfl,
      scan_char hopen, scan_body hquote hplain]
    rfl
  rw [substitute, hscan]
  simp only [Except.map, List.map_cons, List.map_nil, render_chars, String.ofList_toList]

/-- Semicolons, percent signs, both quotes and a backslash before a letter. -/
theorem Template.substitute_literal_marks :
    Literal.Plain "%%;%1'\"\\n".toList ∧
      substitute "x = \"%%;%1'\\\"\\\\n\"" "macro" ["7"] = .ok ["x = \"%%;%1'\\\"\\\\n\""] ∧
      Lexer.tokens "x = \"%%;%1'\\\"\\\\n\"" 32 =
        .ok [.name "x", .assign, .text "%%;%1'\"\\n"] := by
  have hplain : Literal.Plain "%%;%1'\"\\n".toList := by
    intro d hd hin
    obtain rfl : d = ';' := by simpa [List.infix_cons_iff] using hin
    exact absurd hd (by decide)
  exact ⟨hplain, substitute_literal (.inl rfl) "%%;%1'\"\\n" hplain "macro" ["7"] (by decide)⟩

end ArrayCommand
