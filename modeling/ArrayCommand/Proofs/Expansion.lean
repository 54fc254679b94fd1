/-
What all the draws from a text deliver.

It can be said without levels.  A line stands for its sub-lines, a sub-line that calls a macro stands
for what the body stands for, and a line that names a file stands for what the lines of the file stand
for, each with its own arguments.

Main definitions:

* `Input.Lists` — the lines that a reader supplies until it comes to its end or fails;
* `Input.expandPart`, `Input.expandLine`, `Input.expandFeed` — what a sub-line, a line and the lines
  of a level stand for, given what the levels that they open stand for;
* `Input.expand`, `Input.expansion` — what a level and a text stand for;
* `Input.Drains` — drawing sub-lines until there are none or a fault is met.

Main results:

* `Input.carriesOut_level` — a level is used up in the order of its lines;
* `Input.drains_expansion` — **a text delivers what it stands for**, nothing else and in that order.
-/

import Mathlib.Data.List.Basic
import ArrayCommand.Proofs.Advance

namespace ArrayCommand

theorem NameTable.mem_of_lookup {α : Type} {name : String} {t : NameTable α} {index : Nat}
    {entry : String × α} (hexact : t.classify name = .exact index) (h : t.lookup name = .ok entry) :
    entry ∈ t.entries := by
  unfold lookup at h
  rw [hexact] at h
  dsimp only at h
  cases hentry : t.entries[index]? with
  | none =>
    rw [hentry] at h
    cases h
  | some found =>
    rw [hentry] at h
    cases h
    exact List.mem_of_getElem? hentry

namespace Input

/-! ### What lines stand for -/

/-- Why lines stand for nothing: one of them is in error or opens too many levels, or one of them
manages macros or runs the shell. -/
inductive Obstacle where
  | fault (fault : Fault)
  | effect
deriving DecidableEq, Repr

/-- What several things stand for, one behind the other. -/
def inTurn {α : Type} (f : α → Except Obstacle (List SubLine)) :
    List α → Except Obstacle (List SubLine)
  | [] => .ok []
  | a :: rest => do
    let here ← f a
    let behind ← inTurn f rest
    return here ++ behind

def orFault {α : Type} (result : Except Fault α) : Except Obstacle α := result.mapError .fault

theorem bind_ne_effect {α β : Type} {x : Except Obstacle α} {f : α → Except Obstacle β}
    (hx : x ≠ .error .effect) (hf : ∀ a, f a ≠ .error .effect) : (x >>= f) ≠ .error .effect := by
  cases x with
  | error obstacle =>
    rintro ⟨⟩
    exact hx rfl
  | ok a => exact hf a

theorem orFault_ne_effect {α : Type} (result : Except Fault α) : orFault result ≠ .error .effect := by
  cases result <;> nofun

theorem inTurn_ne_effect {α : Type} {f : α → Except Obstacle (List SubLine)} {list : List α}
    (h : ∀ a ∈ list, f a ≠ .error .effect) : inTurn f list ≠ .error .effect := by
  induction list with
  | nil => nofun
  | cons a rest ih =>
    refine bind_ne_effect (h a (by simp)) fun here => ?_
    exact bind_ne_effect (ih fun b hb => h b (List.mem_cons_of_mem _ hb)) fun behind => nofun

variable [Outside]

variable {name prompt line : String} {s t u : Input} {known : String → Bool}
  {lines lines' : List SubLine} {level l : Level}

/-- The lines of a file without their ends, and why reading does not come to the end of the file if it
does not. -/
structure Listing where
  lines : List String
  fault? : Option String

/-- Reading goes through the lines of a listing, in a world that stays the same. -/
inductive Lists (world : Outside.World) : Outside.Reader → Listing → Prop
  | ended {reader reader' : Outside.Reader} (h : Outside.read world reader = (.ended, reader')) :
      Lists world reader ⟨[], none⟩
  | failed {reader reader' : Outside.Reader} {detail : String}
      (h : Outside.read world reader = (.failed detail, reader')) :
      Lists world reader ⟨[], some detail⟩
  | line {reader reader' : Outside.Reader} {line : String} {listing : Listing}
      (h : Outside.read world reader = (.line line, reader')) (hrest : Lists world reader' listing) :
      Lists world reader { listing with lines := Text.stripLineEnd line :: listing.lines }

/-! ### Lines, files and levels -/

section Expansion

variable (s : Input) (known : String → Bool) (contents : Outside.Reader → Listing)
  (inner : Level → Except Obstacle (List SubLine))

/-- What a sub-line stands for: itself, or the body of the macro that it calls. -/
def expandPart (origin text : String) : Except Obstacle (List SubLine) :=
  match s.macroCall? known text with
  | none => .ok [⟨text, origin⟩]
  | some (name, body, args) => inner { name, feed := .text [body], args }

/-- What a command file with some arguments stands for. -/
def expandFile (path : String) (args : List String) : Except Obstacle (List SubLine) :=
  match Outside.openFile s.world path with
  | .ok reader => inner { name := path, feed := .file reader 0, args }
  | .error detail => .error (.fault (.because .fileNotFound (path ++ ": " ++ detail)))

/-- What the words of a line stand for that begin with the name of a command file. -/
def expandWords : List String → Except Obstacle (List SubLine)
  | [] => .error (.fault (.because .syntaxError "MISSING FILE NAME"))
  | word :: args => s.expandFile inner (Words.unquote word) args

/-- What a line of a level stands for: nothing if it is blank or a comment, a command file, or its
sub-lines that are not blank. -/
def expandLine (name : String) (args : List String) (origin line : String) :
    Except Obstacle (List SubLine) :=
  match (Text.trim line).toList with
  | [] => .ok []
  | first :: rest =>
    if first = s.settings.commentMark then .ok []
    else if first = s.settings.macroMark ∨ first = s.settings.shellMark then .error .effect
    else if first = s.settings.fileMark then do
      let parts ← orFault (Template.substitute (String.ofList rest) name args)
      s.expandWords inner (Words.split (";".intercalate parts))
    else do
      let parts ← orFault (Template.substitute (Text.trim line) name args)
      inTurn (s.expandPart known inner origin) (parts.filter fun part => !Text.allBlank part)

/-- What the lines of a file stand for, the first of which has a number. -/
def expandListing (name : String) (args : List String) (number : Nat) (listing : Listing) :
    Except Obstacle (List SubLine) := do
  let lines ← inTurn (fun line =>
    s.expandLine known inner name args (name ++ ":" ++ toString line.2) line.1)
    (listing.lines.zipIdx number)
  match listing.fault? with
  | none => return lines
  | some detail => throw (.fault (readFault detail))

/-- What the lines of a level stand for that are not read yet. -/
def expandFeed (name : String) (args : List String) : Feed → Except Obstacle (List SubLine)
  | .text lines => inTurn (s.expandLine known inner name args name) lines
  | .file reader number => s.expandListing known inner name args (number + 1) (contents reader)

end Expansion

/-- What a level stands for, if so many levels may be opened, this one included. -/
def expand (s : Input) (known : String → Bool) (contents : Outside.Reader → Listing) :
    (room : Nat) → Level → Except Obstacle (List SubLine)
  | 0, level => .error (.fault (.because .inputNesting ("AT " ++ NameTable.quote level.name)))
  | room + 1, level =>
    s.expandFeed known contents (s.expand known contents room) level.name level.args level.feed

/-- What the lines of a text stand for that is run with some arguments. -/
def expansion (s : Input) (known : String → Bool) (contents : Outside.Reader → Listing)
    (name text : String) (args : List String) : Except Obstacle (List SubLine) :=
  s.expand known contents (s.settings.depthLimit - s.depth)
    { name, feed := .text (Text.lines text), args }

/-! ### Lines without other effects -/

/-- Whether a line neither manages macros nor runs the shell. -/
def isPlain (s : Input) (line : String) : Bool :=
  match (Text.trim line).toList with
  | [] => true
  | first :: _ =>
    first == s.settings.commentMark ||
      first != s.settings.macroMark && first != s.settings.shellMark

/-- All lines that a line can refer to are plain: those of the files and the bodies of the macros. -/
structure Plain (s : Input) (contents : Outside.Reader → Listing) : Prop where
  files : ∀ {path reader}, Outside.openFile s.world path = .ok reader →
    ∀ line ∈ (contents reader).lines, s.isPlain line = true
  macros : ∀ {name body}, (name, body) ∈ s.macros.entries → s.isPlain body = true

/-- The lines of a level that are not read yet are plain. -/
def PlainFeed (s : Input) (contents : Outside.Reader → Listing) : Feed → Prop
  | .text lines => ∀ line ∈ lines, s.isPlain line = true
  | .file reader _ => ∀ line ∈ (contents reader).lines, s.isPlain line = true

variable {contents : Outside.Reader → Listing} {inner : Level → Except Obstacle (List SubLine)}
  {x : Except Obstacle (List SubLine)}

section Effects

variable {args : List String}

theorem mem_of_macroCall? {text body : String}
    (h : s.macroCall? known text = some (name, body, args)) : (name, body) ∈ s.macros.entries := by
  unfold macroCall? at h
  dsimp only at h
  split at h
  · cases h
  split at h
  · cases h
  split at h
  case h_2 => cases h
  case h_1 index hexact =>
    split at h
    case h_2 => cases h
    case h_1 found body' hlookup =>
      split at h
      · cases h
      · cases h
        exact NameTable.mem_of_lookup hexact hlookup

variable (hs : s.Plain contents)
  (hinner : ∀ level, s.PlainFeed contents level.feed → inner level ≠ .error .effect)

include hs hinner

theorem expandPart_ne_effect (origin text : String) :
    s.expandPart known inner origin text ≠ .error .effect := by
  unfold expandPart
  split
  case h_1 => nofun
  case h_2 name body args hcall =>
    have hbody : s.PlainFeed contents (.text [body]) := by
      intro line hline
      obtain rfl := List.mem_singleton.mp hline
      exact hs.macros (mem_of_macroCall? hcall)
    exact hinner _ hbody

theorem expandFile_ne_effect (path : String) (args : List String) :
    s.expandFile inner path args ≠ .error .effect := by
  unfold expandFile
  split
  case h_1 reader hopen =>
    have hlines : s.PlainFeed contents (.file reader 0) := hs.files hopen
    exact hinner _ hlines
  case h_2 => nofun

theorem expandLine_ne_effect {origin : String} (hline : s.isPlain line = true) :
    s.expandLine known inner name args origin line ≠ .error .effect := by
  unfold isPlain at hline
  unfold expandLine
  generalize (Text.trim line).toList = characters at hline ⊢
  cases characters with
  | nil => nofun
  | cons first rest =>
    dsimp only at hline ⊢
    by_cases hcomment : first = s.settings.commentMark
    · rw [if_pos hcomment]
      nofun
    · have hplain : ¬ (first = s.settings.macroMark ∨ first = s.settings.shellMark) := by
        simpa [hcomment, not_or] using hline
      rw [if_neg hcomment, if_neg hplain]
      split
      · refine bind_ne_effect (orFault_ne_effect _) fun parts => ?_
        unfold expandWords
        split
        · nofun
        · exact expandFile_ne_effect hs hinner _ _
      · exact bind_ne_effect (orFault_ne_effect _) fun _ =>
          inTurn_ne_effect fun part _ => expandPart_ne_effect hs hinner origin part

theorem expandFeed_ne_effect {feed : Feed} (hfeed : s.PlainFeed contents feed) :
    s.expandFeed known contents inner name args feed ≠ .error .effect := by
  cases feed with
  | text lines =>
    exact inTurn_ne_effect fun line hline => expandLine_ne_effect hs hinner (hfeed line hline)
  | file reader number =>
    refine bind_ne_effect (inTurn_ne_effect fun numbered hnumbered => ?_) fun lines => ?_
    · exact expandLine_ne_effect hs hinner (hfeed _ (List.fst_mem_of_mem_zipIdx hnumbered))
    · cases (contents reader).fault? with
      | none => nofun
      | some detail => nofun

omit hinner in
theorem expand_ne_effect (room : Nat) (level : Level) (hlevel : s.PlainFeed contents level.feed) :
    s.expand known contents room level ≠ .error .effect := by
  induction room generalizing level with
  | zero => nofun
  | succ room ih => exact expandFeed_ne_effect hs ih hlevel

end Effects

/-! ### Carrying out what lines stand for -/

/-- The loop delivers sub-lines on the way from one input to another. -/
inductive Delivers (known : String → Bool) (prompt : String) : Input → List SubLine → Input → Prop
  | refl (s : Input) : Delivers known prompt s [] s
  | again {s s' t : Input} {lines : List SubLine} (h : advance known prompt s = .ok .again s')
      (hrest : Delivers known prompt s' lines t) : Delivers known prompt s lines t
  | line {s s' t : Input} {line : SubLine} {lines : List SubLine}
      (h : advance known prompt s = .ok (.line line) s')
      (hrest : Delivers known prompt s' lines t) : Delivers known prompt s (line :: lines) t

theorem Delivers.trans (h : Delivers known prompt s lines t)
    (h' : Delivers known prompt t lines' u) : Delivers known prompt s (lines ++ lines') u := by
  induction h with
  | refl => exact h'
  | again hstep _ ih => exact .again hstep (ih h')
  | line hstep _ ih => exact .line hstep (ih h')

/-- From one input to another the loop delivers what something stands for.  If that is a fault, the
loop meets it, and the other input is not reached. -/
inductive CarriesOut (known : String → Bool) (prompt : String) (s t : Input) :
    Except Obstacle (List SubLine) → Prop
  | ok {lines : List SubLine} (h : Delivers known prompt s lines t) :
      CarriesOut known prompt s t (.ok lines)
  | fault {s₁ s₂ : Input} {lines : List SubLine} {fault : Fault}
      (h : Delivers known prompt s lines s₁)
      (hfault : advance known prompt s₁ = .error (.fault fault) s₂) :
      CarriesOut known prompt s t (.error (.fault fault))
  | effect : CarriesOut known prompt s t (.error .effect)

def atop (s : Input) (level : Level) (h : s.depth < s.settings.depthLimit) : Input :=
  { s with upper := level :: s.upper, bounded := h }

theorem push_of_lt (level : Level) (h : s.depth < s.settings.depthLimit) :
    s.push level = .ok (s.atop level h) :=
  dif_pos h

theorem eq_atop_of_push {s' : Input} (h : s.push level = .ok s') :
    ∃ hdepth, s' = s.atop level hdepth := by
  by_cases hdepth : s.depth < s.settings.depthLimit
  · rw [push_of_lt level hdepth] at h
    cases h
    exact ⟨hdepth, rfl⟩
  · rw [push, dif_neg (show ¬ s.upper.length + 1 < s.settings.depthLimit from hdepth)] at h
    cases h

/-- The two inputs have the same settings, surroundings and macros. -/
structure SameRules (s t : Input) : Prop where
  settings : t.settings = s.settings
  world : t.world = s.world
  macros : t.macros = s.macros

/-- A round of the loop that delivers nothing comes to the input of a result, or meets its fault. -/
structure Round (known : String → Bool) (prompt : String) (s : Input)
    (result : Except Failure Input) : Prop where
  ok : ∀ {s' : Input}, result = .ok s' → advance known prompt s = .ok .again s'
  error : ∀ {failure : Failure}, result = .error failure →
    ∃ s', advance known prompt s = .error failure s'

/-- What is known of the lines of a level. -/
def Listed (world : Outside.World) (contents : Outside.Reader → Listing) : Feed → Prop
  | .text _ => True
  | .file reader _ => Lists world reader (contents reader)

/-- What the levels stand for that are opened above an input is what the loop carries out there. -/
structure Opens (known : String → Bool) (prompt : String) (contents : Outside.Reader → Listing)
    (inner : Level → Except Obstacle (List SubLine)) (s : Input) : Prop where
  opened : ∀ {level : Level} {s' : Input}, level.pending = [] → level.terminal = false →
    Listed s.world contents level.feed → s.push level = .ok s' →
      CarriesOut known prompt s' s (inner level)
  refused : ∀ {level : Level} {fault : Fault}, s.push level = .error fault →
    inner level = .error (.fault fault)

section CarryingOut

variable {y : Except Obstacle (List SubLine)}

theorem CarriesOut.again (h : advance known prompt s = .ok .again t)
    (hrest : CarriesOut known prompt t u x) : CarriesOut known prompt s u x := by
  cases hrest with
  | ok hlines => exact .ok (.again h hlines)
  | fault hlines hfault => exact .fault (.again h hlines) hfault
  | effect => exact .effect

theorem CarriesOut.trans (h : CarriesOut known prompt s t x) (h' : CarriesOut known prompt t u y) :
    CarriesOut known prompt s u (do
      let here ← x
      let behind ← y
      return here ++ behind) := by
  cases h with
  | ok hlines =>
    cases h' with
    | ok hlines' => exact .ok (hlines.trans hlines')
    | fault hlines' hfault => exact .fault (hlines.trans hlines') hfault
    | effect => exact .effect
  | fault hlines hfault => exact .fault hlines hfault
  | effect => exact .effect

/-- Rounds that deliver nothing further. -/
theorem CarriesOut.behind (h : CarriesOut known prompt s t x) (h' : Delivers known prompt t [] u) :
    CarriesOut known prompt s u x := by
  cases h with
  | ok hlines =>
    have hlines' := hlines.trans h'
    rw [List.append_nil] at hlines'
    exact .ok hlines'
  | fault hlines hfault => exact .fault hlines hfault
  | effect => exact .effect

theorem macroCall?_of_sameRules (h : SameRules s t) (text : String) :
    t.macroCall? known text = s.macroCall? known text := by
  simp only [macroCall?, h.macros]

theorem SameRules.atop {h : t.depth < t.settings.depthLimit} (hrules : SameRules s t) :
    SameRules s (t.atop level h) :=
  ⟨hrules.settings, hrules.world, hrules.macros⟩

theorem Round.fault {fault : Fault} (h : Round known prompt s (.error (.fault fault))) :
    CarriesOut known prompt s t (.error (.fault fault)) := by
  obtain ⟨s', hadvance⟩ := h.error rfl
  exact .fault (.refl s) hadvance

theorem Round.proceed (h : advance known prompt s = proceed line t) :
    Round known prompt s (t.physical line) where
  ok hline := by rw [h, Input.proceed, hline]
  error hline := ⟨t, by rw [h, Input.proceed, hline]⟩

theorem Opens.carriesOut (hopens : Opens known prompt contents inner t)
    (hpending : level.pending = []) (hterminal : level.terminal = false)
    (hlisted : Listed t.world contents level.feed)
    (h : Round known prompt s ((t.push level).mapError .fault)) :
    CarriesOut known prompt s t (inner level) := by
  cases hpush : t.push level with
  | ok t' =>
    rw [hpush] at h
    exact .again (h.ok rfl) (hopens.opened hpending hterminal hlisted hpush)
  | error fault =>
    rw [hpush] at h
    rw [hopens.refused hpush]
    exact h.fault

theorem expandListing_cons (name : String) (args : List String) (number : Nat) (line : String)
    (listing : Listing) :
    s.expandListing known inner name args number
        { listing with lines := line :: listing.lines } = (do
      let here ← s.expandLine known inner name args (name ++ ":" ++ toString number) line
      let behind ← s.expandListing known inner name args (number + 1) listing
      return here ++ behind) := by
  unfold expandListing
  rw [List.zipIdx_cons, inTurn]
  cases s.expandLine known inner name args (name ++ ":" ++ toString number) line with
  | error obstacle => rfl
  | ok here =>
    cases inTurn (fun line => s.expandLine known inner name args (name ++ ":" ++ toString line.2)
        line.1) (listing.lines.zipIdx (number + 1)) with
    | error obstacle => rfl
    | ok behind => cases listing.fault? <;> rfl

theorem advance_file (l : Level) (h : t.depth < t.settings.depthLimit) (reader : Outside.Reader)
    (number : Nat) :
    advance known prompt (t.atop { l with feed := .file reader number, pending := [] } h) =
      match Outside.read t.world reader with
      | (.line line, reader) => proceed (Text.stripLineEnd line)
          (t.atop { l with feed := .file reader (number + 1), pending := [] } h)
      | (.ended, _) =>
        leave l.terminal (t.atop { l with feed := .file reader number, pending := [] } h)
      | (.failed detail, reader) => .error (.fault (readFault detail))
          (t.atop { l with feed := .file reader number, pending := [] } h) :=
  rfl

section Level

variable {h : t.depth < t.settings.depthLimit} (hrules : SameRules s t)
  (hfiles : ∀ path reader, Outside.openFile s.world path = .ok reader →
    Lists s.world reader (contents reader))
  (hinner : ∀ level, Opens known prompt contents inner (t.atop level h))

include hrules hinner

theorem carriesOut_part {text : String} {rest : List String} (hpending : l.pending = text :: rest) :
    CarriesOut known prompt (t.atop l h) (t.atop { l with pending := rest } h)
      (s.expandPart known inner l.origin text) := by
  have hadvance : advance known prompt (t.atop l h) =
      deliver known text l.origin (t.atop { l with pending := rest } h) := by
    change advanceLevel known l (t.atop l h) = _
    rw [advanceLevel, hpending]
    rfl
  rw [deliver, macroCall?_of_sameRules hrules.atop] at hadvance
  rw [expandPart]
  cases hcall : s.macroCall? known text with
  | none =>
    rw [hcall] at hadvance
    exact .ok (.line hadvance (.refl _))
  | some call =>
    rw [hcall] at hadvance
    dsimp only at hadvance
    refine (hinner _).carriesOut rfl rfl trivial ?_
    generalize Input.push _ _ = pushed at hadvance
    cases pushed with
    | ok t' => exact ⟨fun hpush => hadvance.trans (by cases hpush; rfl), nofun⟩
    | error fault => exact ⟨nofun, fun hpush => ⟨_, hadvance.trans (by cases hpush; rfl)⟩⟩

theorem carriesOut_parts (l : Level) (parts : List String) :
    CarriesOut known prompt (t.atop { l with pending := parts } h) (t.atop { l with pending := [] } h)
      (inTurn (s.expandPart known inner l.origin) parts) := by
  induction parts with
  | nil => exact .ok (.refl _)
  | cons text rest ih =>
    have hpart := carriesOut_part hrules hinner (l := { l with pending := text :: rest }) rfl
    exact hpart.trans ih

include hfiles

theorem carriesOut_file {text : String}
    (hround : Round known prompt u (((t.atop l h).openFile text).mapError .fault)) :
    CarriesOut known prompt u (t.atop l h) (s.expandWords inner (Words.split text)) := by
  have hworld : (t.atop l h).world = s.world := hrules.world
  unfold openFile at hround
  generalize Words.split text = words at hround ⊢
  cases words with
  | nil => exact hround.fault
  | cons word args =>
    dsimp only [pushFile, expandWords] at hround ⊢
    rw [hworld] at hround
    unfold expandFile
    cases hopen : Outside.openFile s.world (Words.unquote word) with
    | error detail =>
      rw [hopen] at hround
      exact hround.fault
    | ok reader =>
      rw [hopen] at hround
      refine (hinner l).carriesOut rfl rfl ?_ hround
      have hlists := hfiles _ reader hopen
      rwa [← hworld] at hlists

theorem carriesOut_line (l : Level) (line : String)
    (hround : Round known prompt u ((t.atop { l with pending := [] } h).physical line)) :
    CarriesOut known prompt u (t.atop { l with pending := [] } h)
      (s.expandLine known inner l.name l.args l.origin line) := by
  have hsettings : (t.atop { l with pending := [] } h).settings = s.settings := hrules.settings
  rw [physical] at hround
  rw [hsettings] at hround
  rw [expandLine]
  generalize (Text.trim line).toList = characters at hround ⊢
  cases characters with
  | nil => exact .ok (.again (hround.ok rfl) (.refl _))
  | cons first rest =>
    dsimp only at hround ⊢
    by_cases hcomment : first = s.settings.commentMark
    · rw [if_pos hcomment] at hround ⊢
      exact .ok (.again (hround.ok rfl) (.refl _))
    rw [if_neg hcomment] at hround ⊢
    by_cases heffect : first = s.settings.macroMark ∨ first = s.settings.shellMark
    · rw [if_pos heffect]
      exact .effect
    rw [if_neg heffect]
    rw [not_or] at heffect
    rw [if_neg heffect.1, if_neg heffect.2] at hround
    by_cases hfile : first = s.settings.fileMark
    · rw [if_pos hfile] at hround ⊢
      have hfilled : (t.atop { l with pending := [] } h).filled (String.ofList rest) =
          (Template.substitute (String.ofList rest) l.name l.args).map fun parts =>
            ";".intercalate parts := rfl
      rw [hfilled] at hround
      cases hparts : Template.substitute (String.ofList rest) l.name l.args with
      | error fault =>
        rw [hparts] at hround
        exact hround.fault
      | ok parts =>
        rw [hparts] at hround
        exact carriesOut_file hrules hfiles hinner hround
    · rw [if_neg hfile] at hround ⊢
      change Round known prompt u
        (Except.mapError _ (Except.map _ (Template.substitute _ l.name l.args))) at hround
      cases hparts : Template.substitute (Text.trim line) l.name l.args with
      | error fault =>
        rw [hparts] at hround
        exact hround.fault
      | ok parts =>
        rw [hparts] at hround
        exact .again (hround.ok rfl) (carriesOut_parts hrules hinner l _)

theorem carriesOut_text (l : Level) (lines : List String) :
    CarriesOut known prompt (t.atop { l with feed := .text lines, pending := [] } h)
      (t.atop { l with feed := .text [], pending := [] } h)
      (inTurn (s.expandLine known inner l.name l.args l.name) lines) := by
  induction lines with
  | nil => exact .ok (.refl _)
  | cons line lines ih =>
    have hline := carriesOut_line hrules hfiles hinner { l with feed := .text lines } line
      (u := t.atop { l with feed := .text (line :: lines), pending := [] } h) (.proceed rfl)
    exact hline.trans ih

/-- The lines of a file that a reader still has, the first of which has a number; behind them the
level is closed. -/
theorem carriesOut_listing (l : Level) (hterminal : l.terminal = false) {reader : Outside.Reader}
    {listing : Listing} (hlists : Lists t.world reader listing) (number : Nat) :
    CarriesOut known prompt (t.atop { l with feed := .file reader number, pending := [] } h) t
      (s.expandListing known inner l.name l.args (number + 1) listing) := by
  induction hlists generalizing number with
  | @ended reader _ hread =>
    have hclosed : advance known prompt
        (t.atop { l with feed := .file reader number, pending := [] } h) = .ok .again t := by
      rw [advance_file, hread]
      dsimp only
      rw [hterminal]
      rfl
    exact .ok (.again hclosed (.refl t))
  | @failed reader _ detail hread =>
    have hfault : ∃ s', advance known prompt
        (t.atop { l with feed := .file reader number, pending := [] } h) =
          .error (.fault (readFault detail)) s' := by
      rw [advance_file, hread]
      exact ⟨_, rfl⟩
    obtain ⟨s', hfault⟩ := hfault
    exact .fault (.refl _) hfault
  | @line reader reader' line listing hread _ ih =>
    have hproceed : advance known prompt
        (t.atop { l with feed := .file reader number, pending := [] } h) =
          proceed (Text.stripLineEnd line)
            (t.atop { l with feed := .file reader' (number + 1), pending := [] } h) := by
      rw [advance_file, hread]
    have hline := carriesOut_line hrules hfiles hinner { l with feed := .file reader' (number + 1) }
      (Text.stripLineEnd line) (.proceed hproceed)
    rw [expandListing_cons]
    exact hline.trans (ih (number + 1))

theorem carriesOut_level (l : Level) (hpending : l.pending = []) (hterminal : l.terminal = false)
    (hlisted : Listed t.world contents l.feed) :
    CarriesOut known prompt (t.atop l h) t
      (s.expandFeed known contents inner l.name l.args l.feed) := by
  obtain ⟨name, feed, args, pending, terminal⟩ := l
  obtain rfl : pending = [] := hpending
  obtain rfl : terminal = false := hterminal
  cases feed with
  | text lines =>
    have htext := carriesOut_text hrules hfiles hinner ⟨name, .text lines, args, [], false⟩ lines
    exact htext.behind (.again rfl (.refl t))
  | file reader number =>
    exact carriesOut_listing hrules hfiles hinner ⟨name, .file reader number, args, [], false⟩ rfl
      hlisted number

end Level

/-- What the levels above an input stand for, by induction on the number of levels that may be opened
there. -/
theorem opens_expand (known : String → Bool) (prompt : String) (room : Nat) (hrules : SameRules s t)
    (hfiles : ∀ path reader, Outside.openFile s.world path = .ok reader →
      Lists s.world reader (contents reader))
    (hroom : t.depth + room = t.settings.depthLimit) :
    Opens known prompt contents (s.expand known contents room) t := by
  induction room generalizing t with
  | zero =>
    refine ⟨fun _ _ _ hpush => ?_, fun hpush => ?_⟩
    · obtain ⟨hdepth, -⟩ := eq_atop_of_push hpush
      omega
    · rw [push, dif_neg (show ¬ t.upper.length + 1 < _ by rw [depth] at hroom; omega)] at hpush
      cases hpush
      rfl
  | succ room ih =>
    refine ⟨fun {level t'} hpending hterminal hlisted hpush => ?_, fun hpush => ?_⟩
    · obtain ⟨hdepth, rfl⟩ := eq_atop_of_push hpush
      refine carriesOut_level hrules hfiles (fun l => ih hrules.atop ?_) level hpending hterminal
        hlisted
      have hlevels : (t.atop l hdepth).depth = t.depth + 1 := rfl
      have hlimit : (t.atop l hdepth).settings.depthLimit = t.settings.depthLimit := rfl
      omega
    · rw [push_of_lt _ (by omega)] at hpush
      cases hpush

end CarryingOut

/-! ### Drawing until the end -/

/-- Sub-lines are drawn one after another until there are none or a fault is met. -/
inductive Drains (known : String → Bool) (prompt : String) :
    Input → List SubLine → Option Fault → Input → Prop
  | ended {s t : Input} (h : nextLine known prompt s = .ok none t) : Drains known prompt s [] none t
  | broken {s t : Input} {fault : Fault} (h : nextLine known prompt s = .error (.fault fault) t) :
      Drains known prompt s [] (some fault) t
  | line {s s' t : Input} {line : SubLine} {lines : List SubLine} {fault? : Option Fault}
      (h : nextLine known prompt s = .ok (some line) s')
      (hrest : Drains known prompt s' lines fault? t) :
      Drains known prompt s (line :: lines) fault? t

section Draining

variable {fault? : Option Fault}

theorem Drains.again (h : advance known prompt s = .ok .again t)
    (hrest : Drains known prompt t lines fault? u) : Drains known prompt s lines fault? u := by
  cases hrest with
  | ended hnext => exact .ended (nextLine_of_again h hnext fun _ h => by cases h)
  | broken hnext => exact .broken (nextLine_of_again h hnext fun _ h => by cases h)
  | line hnext hrest => exact .line (nextLine_of_again h hnext fun _ h => by cases h) hrest

theorem Delivers.drains (h : Delivers known prompt s lines t)
    (h' : Drains known prompt t lines' fault? u) :
    Drains known prompt s (lines ++ lines') fault? u := by
  induction h with
  | refl => exact h'
  | again hstep _ ih => exact .again hstep (ih h')
  | line hstep _ ih => exact .line (nextLine_of_line hstep) (ih h')

theorem CarriesOut.drains (h : CarriesOut known prompt s t x)
    (h' : Drains known prompt t [] none u) :
    (∀ lines, x = .ok lines → Drains known prompt s lines none u) ∧
      ∀ fault, x = .error (.fault fault) → ∃ lines t, Drains known prompt s lines (some fault) t := by
  cases h with
  | ok hlines =>
    refine ⟨?_, nofun⟩
    rintro lines ⟨⟩
    have hdrains := hlines.drains h'
    rwa [List.append_nil] at hdrains
  | fault hlines hfault =>
    refine ⟨nofun, ?_⟩
    rintro fault ⟨⟩
    exact ⟨_, _, hlines.drains (.broken (nextLine_of_error hfault))⟩
  | effect => exact ⟨nofun, nofun⟩

/-- A text that is run delivers what it stands for, if the files that can be opened are finite: each
supplies the lines of a listing until it comes to its end or fails.  Where the text stands for
sub-lines, these are drawn in their order and no others, and then the input is as it was before the
text was opened.  Where a line is in error or too many levels are opened, that fault is met.  Nothing
else keeps a text from standing for sub-lines if none of its lines, none of the lines of files and no
body of a macro manages macros or runs the shell. -/
theorem drains_expansion (known : String → Bool) (prompt name text : String) (args : List String)
    {s s₁ : Input} {contents : Outside.Reader → Listing}
    (hfiles : ∀ path reader, Outside.openFile s.world path = .ok reader →
      Lists s.world reader (contents reader))
    (hopen : s.pushText name text args true = .ok s₁) :
    (∀ lines, s.expansion known contents name text args = .ok lines →
      Drains known prompt s₁ lines none s) ∧
    (∀ fault, s.expansion known contents name text args = .error (.fault fault) →
      ∃ lines t, Drains known prompt s₁ lines (some fault) t) ∧
    (s.Plain contents → (∀ line ∈ Text.lines text, s.isPlain line = true) →
      s.expansion known contents name text args ≠ .error .effect) := by
  obtain ⟨hdepth, rfl⟩ := eq_atop_of_push hopen
  obtain ⟨room, hroom⟩ := Nat.exists_eq_add_of_lt hdepth
  have hexpansion : s.expansion known contents name text args =
      s.expandFeed known contents (s.expand known contents room) name args
        (.text (Text.lines text)) := by
    rw [expansion, show s.settings.depthLimit - s.depth = room + 1 by omega, expand]
  have hrules : SameRules s s := ⟨rfl, rfl, rfl⟩
  have hinner (l : Level) :
      Opens known prompt contents (s.expand known contents room) (s.atop l hdepth) := by
    refine opens_expand known prompt room hrules.atop hfiles ?_
    have hlevels : (s.atop l hdepth).depth = s.depth + 1 := rfl
    have hlimit : (s.atop l hdepth).settings.depthLimit = s.settings.depthLimit := rfl
    omega
  -- When its lines are used up, the terminal level is closed and nothing more is drawn.
  obtain ⟨hlines, hfault⟩ := CarriesOut.drains
    (carriesOut_text hrules hfiles hinner { name, feed := .text [], args, terminal := true }
      (Text.lines text))
    (.ended (nextLine_of_finished rfl))
  rw [hexpansion]
  exact ⟨hlines, hfault, fun hplain htext =>
    expandFeed_ne_effect hplain (expand_ne_effect hplain room) htext⟩

end Draining

end Input

namespace Input

open scoped Cabinet

/-- What stands in a file in a cabinet. -/
def shelved : Outside.Reader → Listing
  | none => ⟨[], some "Is a directory (os error 21)"⟩
  | some lines => ⟨lines.map Text.stripLineEnd, none⟩

theorem lists_shelved (world : Outside.World) (reader : Outside.Reader) :
    Lists world reader (shelved reader) := by
  cases reader with
  | none => exact .failed rfl
  | some lines =>
    induction lines with
    | nil => exact .ended rfl
    | cons line lines ih => exact .line rfl ih

/-- An input with two macros, one of which calls the other twice, and a file that calls a macro. -/
def nesting : Input :=
  { Input.initial {} [("f", some ["b\n", "half %1 3\n"])] with
    macros :=
      { maxLength := 32
        entries := [("half", "y%2 = %1 / 2"), ("twice", "half %1 1; x; half %2 2")] } }

/-- Macros and files are expanded in place, each with the arguments of its own call. -/
theorem drains_expansion_nesting :
    ∃ s₁, nesting.pushText "run" "a; twice 4 %1; z\n# none\n@f 8\nd" ["6"] true = .ok s₁ ∧
      Drains (fun _ => false) "" s₁
        [⟨"a", "run"⟩, ⟨"y1 = 4 / 2", "half"⟩, ⟨" x", "twice"⟩, ⟨"y2 = 6 / 2", "half"⟩, ⟨" z", "run"⟩,
          ⟨"b", "f:1"⟩, ⟨"y3 = 8 / 2", "half"⟩, ⟨"d", "run"⟩] none nesting :=
  have hopen := push_of_lt (s := nesting) _ (by decide)
  have hlines := drains_expansion (fun _ => false) "" "run" _ ["6"]
    (fun _ reader _ => lists_shelved _ reader) hopen
  ⟨_, hopen, hlines.1 _ (by decide +kernel)⟩

end Input

end ArrayCommand
