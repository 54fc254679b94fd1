/-
Reading tokens undoes writing them.

Tokens are written one behind the other with a blank between two of them.  The blank may be left
out next to a bracket, a parenthesis, a brace, a comma, a colon or a placeholder: no token goes on
with such a character, and it is a token by itself whatever follows.  Texts are written between
quotes of either kind, each character as it is or behind a backslash; operators have all their
spellings.

* `Token.Spelled` — the spellings of a token;
* `Token.written` — the line that tokens are written as, each in a spelling of its own;
* `Token.Spelled.taken` — a spelling is read as its token, if what follows does not carry it on;
* `Token.tokens_written` — **a line is read as the tokens it was written from.**
-/

import ArrayCommand.Proofs.Stream

namespace ArrayCommand

open List

/-! ### Spellings -/

/-- What is written behind a backslash for the characters that have a letter. -/
def Literal.controls : List (Char × Char) :=
  [('\n', 'n'), ('\t', 't'), ('\r', 'r'), (Char.ofNat 0, '0')]

/-- The ways to write a string between quotes. -/
inductive Literal.Escaped (quote : Char) : List Char → List Char → Prop
  | nil : Escaped quote [] []
  | plain {c : Char} {s cs : List Char} (hquote : c ≠ quote) (hbackslash : c ≠ '\\')
      (h : Escaped quote s cs) : Escaped quote (c :: s) (c :: cs)
  | control {c d : Char} {s cs : List Char} (hd : (c, d) ∈ controls) (h : Escaped quote s cs) :
      Escaped quote (c :: s) ('\\' :: d :: cs)
  | itself {c : Char} {s cs : List Char} (hc : c ∉ controls.map Prod.snd)
      (h : Escaped quote s cs) : Escaped quote (c :: s) ('\\' :: c :: cs)

namespace Token

/-- A token that ends where it begins, and at which the token before it ends. -/
def standsAlone : Token → Bool
  | leftParen | rightParen | leftBracket | rightBracket | leftBrace | rightBrace => true
  | comma | colon | placeholder => true
  | _ => false

inductive Spelled (maxName : Nat) : Token → List Char → Prop
  | name {c : Char} {cs : List Char} (hc : Scan.startsName c = true)
      (hcs : ∀ d ∈ cs, Scan.continuesName d = true) (hlength : cs.length < maxName) :
      Spelled maxName (.name (String.ofList (c :: cs))) (c :: cs)
  | integer {n : Nat} (hn : n < 0x8000000000000000) :
      Spelled maxName (.integer n) (Nat.toDigits 10 n)
  | text {quote : Char} {s cs : List Char} (hquote : quote = '"' ∨ quote = '\'')
      (hs : Literal.Escaped quote s cs) :
      Spelled maxName (.text (String.ofList s)) (quote :: (cs ++ [quote]))
  | operator {spelling : List Char} {op : Operator} (h : (spelling, op) ∈ Operator.spellings) :
      Spelled maxName (.operator op) spelling
  | assign : Spelled maxName .assign ['=']
  | alone {token : Token} (h : token.standsAlone = true) :
      Spelled maxName token token.shown.toList

/-- A token in one of its spellings. -/
structure Spelling (maxName : Nat) where
  token : Token
  word : List Char
  spelled : Spelled maxName token word

def blank (close : Bool) : List Char := if close then [] else [' ']

/-- The line that tokens are written as.  With each of them it is told whether the blank before it
is to be left out, which is done only where it may be: if the token or the one before it stands
alone, and at the beginning of the line. -/
def written {maxName : Nat} (alone : Bool) : List (Bool × Spelling maxName) → List Char
  | [] => []
  | (close, s) :: rest =>
    blank (close && (alone || s.token.standsAlone)) ++ (s.word ++ written s.token.standsAlone rest)

end Token

/-! ### Where a token ends -/

namespace Scan

open Literal

/-- A blank, and the characters of the tokens that stand alone. -/
def stops : List Char := [' ', '(', ')', '[', ']', '{', '}', ',', ':', '@']

/-- What can follow every token. -/
def Stops (rest : List Char) : Prop := ∀ c ∈ rest.head?, c ∈ stops

variable {quote c : Char} {s cs rest : List Char} {p : Char → Bool}

theorem Stops.head (h : Stops (c :: rest)) (hp : stops.any p = false) : p c = false := by
  simpa using any_eq_false.1 hp c (h c rfl)

theorem takeWhile_stops (hp : stops.any p = false) (hcs : ∀ c ∈ cs, p c = true)
    (hrest : Stops rest) : (cs ++ rest).takeWhile p = cs := by
  rw [takeWhile_append_of_pos hcs]
  cases rest with
  | nil => exact append_nil cs
  | cons c rest => rw [takeWhile_cons_of_neg (by simp [hrest.head hp]), append_nil]

theorem number_digits (start : Nat) (hcs : ∀ c ∈ cs, c.isDigit = true) (hrest : Stops rest)
    (hsmall : decimal cs < 0x8000000000000000) :
    number start (cs ++ rest) = ⟨cs.length, .ok (.integer (decimal cs))⟩ := by
  have hpart : digitPart (cs ++ rest) = (cs, none, cs.length) := by
    rw [digitPart]
    dsimp only
    rw [takeWhile_stops (by decide) hcs hrest, drop_left]
    split
    · exact absurd (hrest _ rfl) (by decide)
    · rfl
  have hexponent : exponentPart rest = none := by
    cases rest with
    | nil => rfl
    | cons c rest =>
      rw [exponentPart, hrest.head (p := isExponentMark) (by decide)]
      rfl
  rw [number, hpart]
  dsimp only
  rw [drop_left, hexponent]
  exact if_pos hsmall

theorem stringBody_escaped (hquote : quote = '"' ∨ quote = '\'') (h : Escaped quote s cs)
    (rest : List Char) : stringBody quote (cs ++ quote :: rest) = some (s, cs.length + 1) := by
  have hbackslash : '\\' ≠ quote := by obtain rfl | rfl := hquote <;> decide
  induction h with
  | nil => cases rest <;> simp [stringBody]
  | plain hc hne _ ih =>
    -- At least the closing quote follows.
    obtain ⟨d, more, hmore⟩ := exists_cons_of_ne_nil
      (append_ne_nil_of_right_ne_nil _ (cons_ne_nil quote rest))
    rw [cons_append, hmore, stringBody, if_neg hc, if_neg hne, ← hmore, ih]
    rfl
  | control hd _ ih =>
    have hcontrols : controls.all (fun p => unescape p.2 == p.1) = true := by decide
    rw [cons_append, cons_append, stringBody, if_neg hbackslash, if_pos rfl, ih,
      eq_of_beq (all_eq_true.1 hcontrols _ hd)]
    rfl
  | itself hc _ ih =>
    simp only [controls, map_cons, map_nil, mem_cons, not_mem_nil, or_false, not_or] at hc
    rw [cons_append, cons_append, stringBody, if_neg hbackslash, if_pos rfl, ih]
    simp [unescape, hc]

theorem operator?_stops (hrest : Stops rest) :
    operator? (c :: cs ++ rest) = operator? (c :: cs) := by
  cases cs with
  | cons d cs => rfl
  | nil =>
    cases rest with
    | nil => rfl
    | cons d rest =>
      -- A spelling of one character is not carried on: none of these is a second character.
      have hsecond := hrest.head (p := fun d => ['|', '&', '=', '/', '*'].any (· == d)) (by decide)
      simp only [any_cons, any_nil, Bool.or_false, Bool.or_eq_false_iff] at hsecond
      simp [operator?, Operator.spellings, find?, isPrefixOf, hsecond]

theorem startsNumber_of_startsName (h : startsName c = true) (cs : List Char) :
    startsNumber c cs = false := by
  have hletter := (toNat_of_startsName h).1
  have hpoint : c ≠ '.' := by
    rintro rfl
    cases h
  have hdigit : c.isDigit = false := by
    rw [Bool.eq_false_iff]
    intro hdigit
    have hle : c.toNat ≤ 57 := of_decide_eq_true (Bool.and_eq_true_iff.1 hdigit).2
    omega
  simp [startsNumber, hpoint, hdigit]

end Scan

namespace Token

open Scan

variable {maxName : Nat} {token : Token} {c : Char} {word cs gap rest : List Char}

/-- A spelling, given by its first character and the others, is read as its token. -/
structure Taken (maxName : Nat) (token : Token) (c : Char) (cs : List Char) : Prop where
  visible : isSeparator c = false
  stops : token.standsAlone = true → c ∈ Scan.stops
  goesOn : token.isFinish = false
  scanned : ∀ start rest, (token.standsAlone = false → Stops rest) →
    Scan.token maxName start c (cs ++ rest) = ⟨cs.length + 1, .ok token⟩

theorem Spelled.taken (h : Spelled maxName token word) :
    ∃ c cs, word = c :: cs ∧ Taken maxName token c cs := by
  cases h with
  | @name c cs hc hcs hlength =>
    refine ⟨c, cs, rfl, isSeparator_of (by decide) hc, Bool.false_ne_true.elim, rfl,
      fun start rest hrest => ?_⟩
    have hword : (c :: cs ++ rest).takeWhile continuesName = c :: cs :=
      takeWhile_stops (by decide) (forall_mem_cons.2 ⟨continuesName_of_startsName hc, hcs⟩)
        (hrest rfl)
    rw [cons_append] at hword
    rw [Scan.token, startsNumber_of_startsName hc, if_neg Bool.false_ne_true, if_pos hc, Scan.name,
      hword, if_neg (by rw [length_cons]; omega), length_cons]
  | @integer n hn =>
    have hdigits : ∀ c ∈ Nat.toDigits 10 n, c.isDigit = true :=
      fun c => Nat.isDigit_of_mem_toDigits (by decide) (by decide)
    have hvalue : decimal (Nat.toDigits 10 n) = n :=
      Nat.ofDigitChars_toDigits (by decide) (by decide)
    obtain ⟨c, cs, hword⟩ := exists_cons_of_ne_nil (Nat.toDigits_ne_nil (b := 10) (n := n))
    rw [hword] at hdigits hvalue
    have hc := hdigits c mem_cons_self
    refine ⟨c, cs, hword, isSeparator_of (by decide) hc, Bool.false_ne_true.elim, rfl,
      fun start rest hrest => ?_⟩
    have hnumber := number_digits start hdigits (hrest rfl) (hvalue ▸ hn)
    rw [cons_append, length_cons, hvalue] at hnumber
    rw [Scan.token, startsNumber, hc, Bool.true_or, if_pos rfl, hnumber]
  | @text quote s cs hquote hs =>
    refine ⟨quote, cs ++ [quote], rfl, ?_, Bool.false_ne_true.elim, rfl, fun start rest _ => ?_⟩
    · rcases hquote with rfl | rfl <;> rfl
    · have htoken : Scan.token maxName start quote (cs ++ [quote] ++ rest) =
          Scan.string start quote (cs ++ quote :: rest) := by
        rw [append_assoc]
        rcases hquote with rfl | rfl <;> rfl
      rw [htoken, Scan.string, stringBody_escaped hquote hs]
      dsimp only
      rw [length_append]
      rfl
  | @operator spelling op hop =>
    have hall : ∀ p ∈ Operator.spellings, operator? p.1 = some (p.1.length, p.2) ∧
        (p.1.head?.all fun c => !(isSeparator c || c.isDigit || c = '.' || startsName c ||
          isQuote c)) ∧ p.1 ≠ [] := by decide
    obtain ⟨hoperator, hfirst, hne⟩ := hall _ hop
    obtain ⟨c, cs, rfl⟩ := exists_cons_of_ne_nil hne
    simp only [head?_cons, Option.all_some, Bool.not_eq_true', Bool.or_eq_false_iff] at hfirst
    obtain ⟨⟨⟨⟨hseparator, hdigit⟩, hpoint⟩, hname⟩, hquote⟩ := hfirst
    refine ⟨c, cs, rfl, hseparator, Bool.false_ne_true.elim, rfl, fun start rest hrest => ?_⟩
    rw [Scan.token, startsNumber, hdigit, hpoint, hname, hquote]
    rw [← operator?_stops (hrest rfl), cons_append] at hoperator
    simp [mark, hoperator]
  | assign =>
    refine ⟨'=', [], rfl, rfl, Bool.false_ne_true.elim, rfl, fun start rest hrest => ?_⟩
    have hoperator : operator? ('=' :: rest) = none := @operator?_stops '=' [] rest (hrest rfl)
    change mark start '=' rest = _
    rw [mark, hoperator]
    rfl
  | alone halone =>
    cases token with
    | leftParen | rightParen | leftBracket | rightBracket | leftBrace | rightBrace | comma | colon
      | placeholder => exact ⟨_, [], rfl, rfl, fun _ => by decide, rfl, fun start rest _ => rfl⟩
    | _ => cases halone

theorem Taken.lexeme (h : Taken maxName token c cs) (hgap : gap.all isSeparator = true)
    (hrest : token.standsAlone = false → Stops rest) (pos : Nat) :
    Scan.lexeme maxName pos (gap ++ (c :: cs ++ rest)) =
      ⟨⟨pos + gap.length, pos + (gap.length + (c :: cs).length)⟩, .ok token⟩ := by
  have hskipped : (gap ++ (c :: cs ++ rest)).takeWhile isSeparator = gap := by
    rw [takeWhile_append_of_pos (all_eq_true.1 hgap), cons_append,
      takeWhile_cons_of_neg (by simp [h.visible]), append_nil]
  rw [Scan.lexeme]
  dsimp only
  rw [hskipped, drop_left, cons_append]
  dsimp only
  rw [h.scanned _ rest hrest, Nat.add_assoc]
  rfl

end Token

/-! ### Lines -/

namespace Lexer

variable {l : Lexer} {column : Column} {token : Token}

theorem next_of_lexeme (hpeeked : l.peeked = none)
    (h : Scan.lexeme l.maxName l.pos l.ahead = ⟨column, .ok token⟩) :
    next l = .ok token { l with pos := column.stop, column } := by
  have hscan : scan l = .ok (column, token) { l with pos := column.stop } := by simp only [scan, h]
  rw [next, get_bind_apply, hpeeked]
  refine (bind_ok hscan _).trans ?_
  rw [hpeeked]
  rfl

theorem collect_cons {start n : Nat} (fuel : Nat) (hpeeked : l.peeked = none)
    (h : Scan.lexeme l.maxName l.pos l.ahead = ⟨⟨start, l.pos + n⟩, .ok token⟩)
    (hfinish : token.isFinish = false) :
    ∃ l' : Lexer, l'.maxName = l.maxName ∧ l'.peeked = none ∧ l'.ahead = l.ahead.drop n ∧
      collect (fuel + 1) l = (collect fuel l').map (token :: ·) := by
  refine ⟨{ l with pos := l.pos + n, column := ⟨start, l.pos + n⟩ }, rfl, hpeeked,
    drop_drop.symm, ?_⟩
  rw [collect, next_of_lexeme hpeeked h]
  dsimp only
  rw [hfinish]
  cases collect fuel _ <;> rfl

end Lexer

namespace Token

open Scan Lexer

variable {maxName : Nat}

theorem all_blank (close : Bool) : (blank close).all isSeparator = true := by
  cases close <;> rfl

theorem written_stops (line : List (Bool × Spelling maxName)) : Stops (written false line) := by
  cases line with
  | nil => simp [Stops, written]
  | cons s rest =>
    obtain ⟨c, cs, hword, htaken⟩ := s.2.spelled.taken
    rw [written, hword, Bool.false_or]
    cases hclose : s.1 && s.2.token.standsAlone with
    | false => simp [Stops, blank, Scan.stops]
    | true =>
      rintro d ⟨⟩
      exact htaken.stops (Bool.and_eq_true_iff.1 hclose).2

theorem collect_written {line : List (Bool × Spelling maxName)} {alone : Bool} {fuel : Nat}
    {l : Lexer} (hname : l.maxName = maxName) (hpeeked : l.peeked = none)
    (hahead : l.ahead = written alone line) (hfuel : l.ahead.length < fuel) :
    collect fuel l = .ok (line.map (·.2.token)) := by
  induction line generalizing alone fuel l with
  | nil =>
    obtain ⟨fuel, rfl⟩ := Nat.exists_eq_add_one.2 (Nat.zero_lt_of_lt hfuel)
    have hlexeme : lexeme l.maxName l.pos l.ahead = ⟨.point l.pos, .ok .finish⟩ := by
      rw [hahead]
      rfl
    rw [collect, next_of_lexeme hpeeked hlexeme]
    rfl
  | cons s rest ih =>
    obtain ⟨fuel, rfl⟩ := Nat.exists_eq_add_one.2 (Nat.zero_lt_of_lt hfuel)
    subst hname
    obtain ⟨c, cs, hword, htaken⟩ := s.2.spelled.taken
    rw [written, hword] at hahead
    generalize (s.1 && _) = close at hahead
    have hlexeme := htaken.lexeme (all_blank close) (fun h => h ▸ written_stops rest) l.pos
    rw [← hahead] at hlexeme
    obtain ⟨l', hname, hpeeked', hbehind, hcollect⟩ :=
      collect_cons fuel hpeeked hlexeme htaken.goesOn
    rw [hahead, ← append_assoc, drop_left' length_append] at hbehind
    rw [hahead, length_append, length_append, length_cons, ← hbehind] at hfuel
    rw [hcollect, ih hname hpeeked' hbehind (by omega)]
    rfl

theorem tokens_of_written {text : String} {line : List (Bool × Spelling maxName)}
    (h : text.toList = written true line) : tokens text maxName = .ok (line.map (·.2.token)) := by
  refine @collect_written maxName line true _ (ofText text maxName) rfl rfl h ?_
  rw [← String.length_toList]
  exact Nat.lt_succ_self _

/-- **A line is read as the tokens it was written from**, whichever of their spellings are taken,
and whether or not the blanks are left out that need not be there. -/
theorem tokens_written (maxName : Nat) (line : List (Bool × Spelling maxName)) :
    tokens (String.ofList (written true line)) maxName = .ok (line.map (·.2.token)) :=
  tokens_of_written String.toList_ofList

end Token

end ArrayCommand
