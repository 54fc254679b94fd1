/-
The levels of the input.

Lines are drawn from the top level only, and levels come and go: texts, command files and macros open
them, and they are closed when they are used up, when a fault is reported and when the interpreter is
left.  All this also happens in the middle of a statement that takes several lines.

A text that is run on top of the console never lets the console be read.  The level of the text is
terminal: when it is used up the source of lines has come to an end, a block that is still open
fails, and no further line is drawn before the run of the text ends.

Main definitions:

* `Input.Over` — levels that stand on a terminal level, which stands on some others;
* `Input.Unread` — nothing has been read from the console;
* `Input.Turn` — one thing that happens to the input;
* `Input.Primary`, `Input.Agrees` — the level that faults lead back to is on top and has nothing
  waiting; inputs that agree but for what a fault discards;
* `Session.Use` — one use of a session.

Main results:

* `Input.confined_nextLine` — drawing a line stays above the terminal level or closes it;
* `Session.enter_confined` — **a text that is run is confined to its own lines**;
* `Session.turns_use` — every use of a session consists of turns;
* `Session.levels_in_order` — **the levels are in order in every run**, and what a fault discards is
  without effect.
-/

import ArrayCommand.Proofs.Advance
import ArrayCommand.Proofs.Correspondence

namespace ArrayCommand

open List Compiler

/-! ### The console -/

namespace Console

variable (c : Console)

@[simp] theorem prompts_report (fault : Fault) (line : String) :
    (c.report fault line).prompts = c.prompts := by
  simp [prompts, report, log]

@[simp] theorem faults_report (fault : Fault) (line : String) :
    (c.report fault line).faults = c.faults ++ [(fault, line)] := by
  simp [faults, report, log]

theorem faults_read (prompt : String) : (c.read prompt).2.faults = c.faults := by
  rw [read]
  split <;> simp [faults, log]

end Console

section

variable [Outside]

variable {s t s' input input' : Input} {known : String → Bool} {prompt : String}
  {base below : List Level} {top : Level} {r : EStateM.Result Failure Input Progress}
  {R : Input → Input → Prop} {outcome : Step} {keeps : Feed → Prop}
variable {text : String} {fault : Fault} {failure : Failure} {fuel : Nat}

namespace Input

variable {line : String}

/-! ### Levels above a terminal one -/

/-- A property that the lines of a level keep when one of them is read or fails to be. -/
structure Stable (keeps : Feed → Prop) : Prop where
  takes : ∀ {world feed feed'}, Takes world feed feed' → keeps feed → keeps feed'
  failed : ∀ {world reader reader' number detail},
    Outside.read world reader = (.failed detail, reader') → keeps (.file reader number) →
      keeps (.file reader' number)

/-- Levels that stand on a terminal one, which stands on the levels `base`.  The lines of the terminal
one have some property. -/
inductive Over (keeps : Feed → Prop) (base : List Level) : List Level → Prop
  | bottom {level : Level} (hterminal : level.terminal = true) (hfeed : keeps level.feed) :
      Over keeps base (level :: base)
  | above {level : Level} {levels : List Level} (hlevel : level.terminal = false)
      (hbelow : Over keeps base levels) : Over keeps base (level :: levels)

namespace Over

variable {levels : List Level}

theorem exchange (h : Over keeps base (top :: below)) {top' : Level}
    (hterminal : top'.terminal = top.terminal)
    (hfeed : keeps top.feed → keeps top'.feed) : Over keeps base (top' :: below) := by
  cases h with
  | bottom htop hsource => exact .bottom (hterminal.trans htop) (hfeed hsource)
  | above htop hbelow => exact .above (hterminal.trans htop) hbelow

theorem tail_of_terminal (h : Over keeps base (top :: below)) (htop : top.terminal = true) :
    below = base := by
  cases h with
  | bottom => rfl
  | above hlevel _ =>
    rw [htop] at hlevel
    cases hlevel

theorem tail (h : Over keeps base (top :: below)) (htop : top.terminal = false) :
    Over keeps base below := by
  cases h with
  | bottom hterminal _ =>
    rw [htop] at hterminal
    cases hterminal
  | above _ hbelow => exact hbelow

theorem exists_top (h : Over keeps base levels) : ∃ top below, levels = top :: below := by
  cases h with
  | bottom | above => exact ⟨_, _, rfl⟩

theorem length_lt (h : Over keeps base levels) : base.length < levels.length := by
  induction h with
  | bottom => exact Nat.lt_succ_self _
  | above _ _ ih => exact Nat.lt_succ_of_lt ih

theorem dropWhile (h : Over keeps base levels) :
    Over keeps base (levels.dropWhile fun level => !level.terminal) := by
  induction h with
  | @bottom level hterminal hfeed =>
    rw [dropWhile_cons_of_neg (by simp [hterminal])]
    exact .bottom hterminal hfeed
  | above hlevel _ ih =>
    rw [dropWhile_cons_of_pos (by simp [hlevel])]
    exact ih

end Over

/-- Nothing has been read from the console, and nothing that waits there has been taken, though it
may have been given up. -/
structure Unread (s s' : Input) : Prop where
  settings : s'.settings = s.settings
  lines : s'.console.lines = s.console.lines
  prompts : s'.console.prompts = s.console.prompts
  pending : s'.pending = s.pending ∨ s'.pending = []

instance : IsPreorder Input Unread where
  refl _ := ⟨rfl, rfl, rfl, .inl rfl⟩
  trans _ _ _ h h' := by
    refine ⟨h'.settings.trans h.settings, h'.lines.trans h.lines, h'.prompts.trans h.prompts, ?_⟩
    rcases h'.pending with hsame | hempty
    · rw [hsame]
      exact h.pending
    · exact .inr hempty

theorem Unread.of_eq (hsettings : s'.settings = s.settings) (hconsole : s'.console = s.console)
    (hpending : s'.pending = s.pending) : Unread s s' :=
  ⟨hsettings, by rw [hconsole], by rw [hconsole], .inl hpending⟩

/-! ### Physical lines -/

/-- What a physical line does on any level: nothing is read from the console, no fault is reported
there, and the levels stay above a terminal one. -/
structure Acts (s s' : Input) : Prop where
  settings : s'.settings = s.settings
  lines : s'.console.lines = s.console.lines
  prompts : s'.console.prompts = s.console.prompts
  faults : s'.console.faults = s.console.faults
  levels : ∀ keeps base, Over keeps base s.upper →
    Over keeps base s'.upper ∧ s'.pending = s.pending

theorem acts_pushes (h : Pushes s s') : Acts s s' := by
  obtain ⟨level, hlevel, hpush⟩ := h
  obtain ⟨hsettings, hconsole, hpending, hupper⟩ := push_eq_ok hpush
  refine ⟨hsettings, by rw [hconsole], by rw [hconsole], by rw [hconsole], ?_⟩
  intro keeps base hover
  rw [hupper]
  exact ⟨.above hlevel hover, hpending⟩

theorem acts_addPending (s : Input) (lines : List String) : Acts s (s.addPending lines) := by
  unfold addPending
  split
  case h_1 hupper =>
    refine ⟨rfl, rfl, rfl, rfl, fun keeps base hover => ?_⟩
    rw [hupper] at hover
    cases hover
  case h_2 top below hupper =>
    refine ⟨rfl, rfl, rfl, rfl, fun keeps base hover => ⟨?_, rfl⟩⟩
    rw [hupper] at hover
    rw [upper_onTop hupper]
    exact hover.exchange rfl id

theorem Works.acts (h : Works s s') : Acts s s' := by
  cases h with
  | aside hsettings hlines hprompts hfaults hpending hupper =>
    exact ⟨hsettings, hlines, hprompts, hfaults, fun _ _ hover => ⟨hupper ▸ hover, hpending⟩⟩
  | adds lines => exact acts_addPending s lines
  | opens h => exact acts_pushes h

theorem Brings.works (h : Brings Pushes s r) : Brings Works s r := by
  cases h with
  | line line => exact .line line
  | fault fault => exact .fault fault
  | hangs h => exact .hangs h
  | again h => exact .again (.opens h)

/-! ### Drawing a line -/

/-- What drawing comes to above a terminal level: the level is closed exactly if the source has come
to its end, and the console has not been read. -/
inductive Confined {α : Type} (keeps : Feed → Prop) (base : List Level) (s : Input)
    (ends : α → Prop) : EStateM.Result Failure Input α → Prop
  | ok {a : α} {s' : Input} (hunread : Unread s s')
      (hlevels : ends a ∧ s'.upper = base ∨ ¬ ends a ∧ Over keeps base s'.upper) :
      Confined keeps base s ends (.ok a s')
  | error {failure : Failure} {s' : Input} (hunread : Unread s s')
      (hover : Over keeps base s'.upper) : Confined keeps base s ends (.error failure s')

theorem Confined.after {α : Type} {ends : α → Prop} {r : EStateM.Result Failure Input α}
    (h : Confined keeps base t ends r) (hunread : Unread s t) : Confined keeps base s ends r := by
  cases h with
  | ok hunread' hlevels => exact .ok (trans_of Unread hunread hunread') hlevels
  | error hunread' hover => exact .error (trans_of Unread hunread hunread') hover

section Confined

/-- What a line brings behind a step that only changes the top level. -/
theorem confined_brings (h : Brings Works t r)
    (ht : Over keeps base t.upper ∧ Unread s t) : Confined keeps base s (· = .finished) r := by
  obtain ⟨hover, hunread⟩ := ht
  cases h with
  | line line => exact .ok hunread (.inr ⟨nofun, hover⟩)
  | fault | hangs => exact .error hunread hover
  | again h =>
    obtain ⟨hover', hpending⟩ := h.acts.levels keeps base hover
    refine .ok (trans_of Unread hunread ?_) (.inr ⟨nofun, hover'⟩)
    exact ⟨h.acts.settings, h.acts.lines, h.acts.prompts, .inl hpending⟩

theorem confined_leave (hupper : s.upper = top :: below) (hover : Over keeps base s.upper) :
    Confined keeps base s (· = .finished) (leave top.terminal s) := by
  have hunread : Unread s s.dropTop := .of_eq rfl rfl rfl
  have hlevels : s.dropTop.upper = below := by simp [dropTop, hupper]
  rw [hupper] at hover
  cases hterminal : top.terminal with
  | true => exact .ok hunread (.inl ⟨rfl, hlevels.trans (hover.tail_of_terminal hterminal)⟩)
  | false =>
    refine .ok hunread (.inr ⟨by simp, ?_⟩)
    rw [hlevels]
    exact hover.tail hterminal

theorem over_onTop (hupper : s.upper = top :: below) (hover : Over keeps base s.upper)
    {f : Level → Level} (hterminal : (f top).terminal = top.terminal)
    (hfeed : keeps top.feed → keeps (f top).feed) :
    Over keeps base (s.onTop f).upper ∧ Unread s (s.onTop f) := by
  refine ⟨?_, .of_eq rfl rfl rfl⟩
  rw [hupper] at hover
  rw [upper_onTop hupper]
  exact hover.exchange hterminal hfeed

theorem confined_advance (hkeeps : Stable keeps) (known : String → Bool) (prompt : String)
    (hover : Over keeps base s.upper) :
    Confined keeps base s (· = .finished) (advance known prompt s) := by
  have hconsole : s.upper ≠ [] := by
    obtain ⟨top, below, hupper⟩ := hover.exists_top
    rw [hupper]
    exact cons_ne_nil top below
  cases advances known prompt s with
  | subLine hupper | line hupper | ended hupper => exact absurd hupper hconsole
  | subLineAbove hupper _ h => exact confined_brings h.works (over_onTop hupper hover rfl id)
  | lineAbove hupper hfeed h =>
    exact confined_brings h (over_onTop hupper hover rfl (hkeeps.takes hfeed))
  | closed hupper hr =>
    rw [hr]
    exact confined_leave hupper hover
  | @failed top below reader reader' number detail hupper hfeed hread hr =>
    have hnext := over_onTop (f := fun level => { level with feed := .file reader' number }) hupper
      hover rfl fun h => hkeeps.failed hread (hfeed ▸ h)
    rw [hr]
    exact .error hnext.2 hnext.1

theorem confined_nextLine (hkeeps : Stable keeps) (known : String → Bool) (prompt : String)
    (hover : Over keeps base s.upper) :
    Confined keeps base s (· = none) (nextLine known prompt s) := by
  have hstep {s : Input} {r : EStateM.Result Failure Input Progress} (h : advance known prompt s = r)
      (hover : Over keeps base s.upper) := h ▸ confined_advance hkeeps known prompt hover
  refine nextLine_induction known prompt (motive := fun s result => Over keeps base s.upper →
    Confined keeps base s (· = none) result) ?_ ?_ ?_ ?_ ?_ s hover
  · intro s line s' h hover
    obtain ⟨hunread, ⟨hends, -⟩ | ⟨-, hover'⟩⟩ := hstep h hover
    · cases hends
    · exact .ok hunread (.inr ⟨nofun, hover'⟩)
  · intro s s' h hover
    obtain ⟨hunread, ⟨-, hupper⟩ | ⟨hends, -⟩⟩ := hstep h hover
    · exact .ok hunread (.inl ⟨rfl, hupper⟩)
    · exact absurd rfl hends
  · intro s s' result h ih hover
    obtain ⟨hunread, ⟨hends, -⟩ | ⟨-, hover'⟩⟩ := hstep h hover
    · cases hends
    · exact (ih hover').after hunread
  · intro s failure s' h hover
    cases hstep h hover with
    | error hunread hover' => exact .error hunread hover'
  · intro s hover
    exact .error (refl_of Unread s) hover

/-- The frame of drawing lines above a terminal level, which is closed only by a failure. -/
def confining (keeps : Feed → Prop) (base : List Level) : Frame Input where
  ok s s' := Over keeps base s.upper → Over keeps base s'.upper ∧ Unread s s'
  error s s' := Over keeps base s.upper → (Over keeps base s'.upper ∨ s'.upper = base) ∧ Unread s s'
  refl_ok _ h := ⟨h, refl_of Unread _⟩
  refl_error _ h := ⟨.inl h, refl_of Unread _⟩
  trans_ok h h' hover := by
    obtain ⟨hover₁, hunread⟩ := h hover
    obtain ⟨hover₂, hunread'⟩ := h' hover₁
    exact ⟨hover₂, trans_of Unread hunread hunread'⟩
  trans_error h h' hover := by
    obtain ⟨hover₁, hunread⟩ := h hover
    obtain ⟨hover₂, hunread'⟩ := h' hover₁
    exact ⟨hover₂, trans_of Unread hunread hunread'⟩

end Confined

/-- A frame that the input stays within while statements are compiled and run.  A source that has come
to its end, or that fails, makes the statement fail. -/
structure Drawing (G : Frame Input) : Prop where
  printed : ∀ s text, G.ok s (s.print text)
  drawn : ∀ {known prompt s s' line}, nextLine known prompt s = .ok (some line) s' → G.ok s s'
  ended : ∀ {known prompt s s'}, nextLine known prompt s = .ok none s' → G.error s s'
  broken : ∀ {known prompt s s' failure},
    nextLine known prompt s = .error failure s' → G.error s s'

theorem nextLine_of_advance [IsPreorder Input R]
    (hadvance : ∀ s, R s (leftIn (advance known prompt s))) (s : Input) :
    R s (leftIn (nextLine known prompt s)) := by
  refine nextLine_induction known prompt (motive := fun s result => R s (leftIn result))
    ?_ ?_ ?_ ?_ ?_ s
  · intro s line s' h
    have hstep := hadvance s
    rwa [h] at hstep
  · intro s s' h
    have hstep := hadvance s
    rwa [h] at hstep
  · intro s s' result h ih
    have hstep := hadvance s
    rw [h] at hstep
    exact trans_of R hstep ih
  · intro s failure s' h
    have hstep := hadvance s
    rwa [h] at hstep
  · exact fun s => refl_of R s

theorem drawing_of [IsPreorder Input R] (hprinted : ∀ s text, R s (s.print text))
    (hadvance : ∀ known prompt s, R s (leftIn (advance known prompt s))) : Drawing (.of R) where
  printed := hprinted
  drawn {known prompt s s' line} h := by
    have hnext := nextLine_of_advance (hadvance known prompt) s
    rwa [h] at hnext
  ended {known prompt s s'} h := by
    have hnext := nextLine_of_advance (hadvance known prompt) s
    rwa [h] at hnext
  broken {known prompt s s' failure} h := by
    have hnext := nextLine_of_advance (hadvance known prompt) s
    rwa [h] at hnext

theorem unread_print (s : Input) (text : String) : Unread s (s.print text) :=
  ⟨rfl, rfl, by simp [print], .inl rfl⟩

theorem drawing_confining (hkeeps : Stable keeps) (base : List Level) :
    Drawing (confining keeps base) where
  printed s text hover := ⟨hover, unread_print s text⟩
  drawn {known prompt s s' line} h hover := by
    have hline := confined_nextLine hkeeps known prompt hover
    rw [h] at hline
    obtain ⟨hunread, ⟨hends, -⟩ | ⟨-, hover'⟩⟩ := hline
    · cases hends
    · exact ⟨hover', hunread⟩
  ended {known prompt s s'} h hover := by
    have hline := confined_nextLine hkeeps known prompt hover
    rw [h] at hline
    obtain ⟨hunread, ⟨-, hbase⟩ | ⟨hends, -⟩⟩ := hline
    · exact ⟨.inr hbase, hunread⟩
    · exact absurd rfl hends
  broken {known prompt s s' failure} h hover := by
    have hline := confined_nextLine hkeeps known prompt hover
    rw [h] at hline
    cases hline with
    | error hunread hover' => exact ⟨.inl hover', hunread⟩

/-! ### Reports -/

def reported (s : Input) (fault : Fault) (line : String) : Input :=
  { s with console := s.console.report fault line }.flush

section Reports

variable (s fault line)

theorem upper_clearPending :
    s.clearPending.upper = s.upper.modifyHead fun level => { level with pending := [] } := by
  unfold clearPending
  split
  case h_1 hupper =>
    rw [hupper]
    rfl
  case h_2 => rfl

/-- A report leaves the levels from the first terminal one on, and what waits there is given up. -/
theorem upper_reported : (s.reported fault line).upper =
      (s.upper.dropWhile fun level => !level.terminal).modifyHead
        fun level => { level with pending := [] } :=
  upper_clearPending _

theorem unread_clearPending : Unread s s.clearPending := by
  unfold clearPending
  split
  · exact ⟨rfl, rfl, rfl, .inr rfl⟩
  · exact .of_eq rfl rfl rfl

theorem unread_reported : Unread s (s.reported fault line) := by
  refine trans_of Unread ?_ (unread_clearPending _)
  exact ⟨rfl, rfl, by simp, .inl rfl⟩

theorem length_reported_le : (s.reported fault line).upper.length ≤ s.upper.length := by
  rw [upper_reported, length_modifyHead]
  exact (dropWhile_sublist _).length_le

theorem unread_reset : s.reset.upper = [] ∧ Unread s s.reset := ⟨rfl, rfl, rfl, rfl, .inr rfl⟩

end Reports

theorem over_reported (h : Over keeps base s.upper) :
    Over keeps base (s.reported fault line).upper := by
  have hkept := h.dropWhile
  obtain ⟨top, below, hlevels⟩ := hkept.exists_top
  rw [upper_reported, hlevels]
  rw [hlevels] at hkept
  exact hkept.exchange rfl id

end Input

/-! ### Statements -/

namespace Session

open Input

variable {s s' : Session} {G : Frame Input}

/-- A frame of the input as a frame of compilation, which draws its lines from the input. -/
def onSource (G : Frame Input) : Frame (Compiler Input) where
  ok c c' := G.ok c.source c'.source
  error c c' := G.error c.source c'.source
  refl_ok _ := G.refl_ok _
  refl_error _ := G.refl_error _
  trans_ok := G.trans_ok
  trans_error := G.trans_error

theorem nextLine_of_further
    {text? : Option String} (h : furtherLines prompt known input = .ok text? input') :
    ∃ line?, Input.nextLine known prompt input = .ok line? input' ∧ text? = line?.map SubLine.text := by
  rw [furtherLines] at h
  split at h <;> cases h
  exact ⟨_, by assumption, rfl⟩

theorem nextLine_of_further_error (h : furtherLines prompt known input = .error failure input') :
    Input.nextLine known prompt input = .error failure input' := by
  rw [furtherLines] at h
  split at h <;> cases h
  assumption

theorem compiling_onSource (hG : Drawing G) (prompt : String) :
    Compiling (onSource G) (furtherLines prompt) where
  still {c c'} _ _ hsource _ := by
    change G.ok c.source c'.source
    rw [hsource]
    exact G.refl_ok _
  failed {c c'} _ _ hsource _ := by
    change G.error c.source c'.source
    rw [hsource]
    exact G.refl_error _
  create name type shape := by
    constructor
    intro c
    unfold create
    cases Workspace.create name (Cell.fresh type shape .declared) c.workspace with
    | ok handle w => exact G.refl_ok _
    | error fault w => exact G.refl_error _
  drawn {c c' line} h := by
    obtain ⟨_ | line, hnext, hline⟩ := nextLine_of_further (nextLine_eq_ok h).1
    · cases hline
    · exact hG.drawn hnext
  ended {c c'} h := by
    obtain ⟨_ | line, hnext, hline⟩ := nextLine_of_further (nextLine_eq_ok h).1
    · exact hG.ended hnext
    · cases hline
  broken {c c' failure} h := by
    obtain ⟨failure, hline⟩ := (nextLine_eq_error h).1
    exact hG.broken (nextLine_of_further_error hline)

theorem error_of_ok {t' : Input} (h : G.ok t t') : G.error t t' :=
  G.trans_error h (G.refl_error t')

theorem flushOutput_input (hG : Drawing G) (s : Session) : G.ok s.input s.flushOutput.input := by
  unfold flushOutput
  dsimp only
  split
  · exact G.refl_ok _
  · exact hG.printed s.input _

theorem execute_input (hG : Drawing G) (fuel : Nat) (s : Session) :
    G.ok s.input (s.execute fuel).2.input := by
  have hfinish (m : Machine) :=
    flushOutput_input hG { s with machine := { m with values := m.values.clear, run := m.run.clear } }
  unfold execute
  cases Control.run s.program.nodes fuel { s.machine with counters := [] } with
  | ok flow m => exact hfinish m
  | error failure m => exact hfinish m

/-- A statement leaves the input within every frame of drawing lines: within its first relation if it
succeeds, and within the second one if it fails. -/
theorem statement_input (hG : Drawing G) (fuel : Nat) (line : String) (s : Session) :
    (∀ exit s', s.statement fuel line = (.ok exit, s') → G.ok s.input s'.input) ∧
      ∀ failure s', s.statement fuel line = (.error failure, s') → G.error s.input s'.input := by
  have hgoes := goes_statement fuel line s
  have hshown : G.ok s.input (s.shown line).input := by
    rw [shown]
    split
    · exact hG.printed s.input _
    · exact G.refl_ok _
  generalize s.shown line = s₁ at hgoes hshown
  have hmoves := moves_topLevel (compiling_onSource hG s₁.settings.continuationPrompt)
    s₁.settings.limits.nameLength fuel
  generalize s.statement fuel line = result at hgoes ⊢
  cases hgoes with
  | @refused c failure hcompile =>
    obtain ⟨c₁, htop, rfl⟩ := compile_eq_error hcompile
    have hcompiled : G.error s₁.input c₁.source := hmoves.error htop
    refine ⟨fun exit s' h => (by cases h), fun failure s' h => ?_⟩
    cases h
    exact G.trans_error hshown hcompiled
  | @ran c hcompile =>
    have hcompiled : G.ok s₁.input c.source := hmoves.ok (compile_eq_ok hcompile)
    have hexecuted := G.trans_ok (G.trans_ok hshown hcompiled) (execute_input hG fuel (s₁.compiled c))
    generalize execute fuel (s₁.compiled c) = executed at hexecuted
    obtain ⟨outcome, s₂⟩ := executed
    cases outcome with
    | ok flow =>
      refine ⟨fun exit s' h => ?_, fun failure s' h => by cases h⟩
      cases h
      exact hexecuted
    | error failure =>
      refine ⟨fun exit s' h => (by cases h), fun failure s' h => ?_⟩
      cases h
      exact error_of_ok hexecuted

/-! ### Texts -/

theorem report_input (fault : Fault) (line : String) (s : Session) :
    (report fault line s).input = s.input.reported fault line := rfl

/-- What a step does above a terminal level.  It ends the run exactly if the terminal level has been
used up between two statements; if that happens inside of a statement, the report leaves no more than
the levels below it. -/
structure Holds (keeps : Feed → Prop) (base : List Level) (s : Input) (outcome : Step) (s' : Input) :
    Prop where
  unread : Unread s s'
  ran : outcome = .ran → Over keeps base s'.upper ∨ s'.upper.length ≤ base.length
  ended : outcome = .ended → s'.upper = base

/-- What a step does with what it has drawn: no line could be drawn, there is none left, or the statement
of a line is carried out or fails. -/
inductive Stepped (fuel : Nat) (s : Session) :
    EStateM.Result Failure Input (Option SubLine) → Step → Session → Prop
  | undrawn (fault : Fault) (input : Input) :
      Stepped fuel s (.error (.fault fault) input) .ran (report fault "" { s with input })
  | ended (input : Input) : Stepped fuel s (.ok none input) .ended { s with input }
  | carried {line : SubLine} {input : Input} {exit : Option ExitMode} {s' : Session}
      (hrun : statement fuel line.text { s with input } = (.ok exit, s')) :
      Stepped fuel s (.ok (some line) input) (exit.elim .ran .exit) s'
  | failed {line : SubLine} {input : Input} {fault : Fault} {text : String} {s' : Session}
      (hrun : statement fuel line.text { s with input } = (.error (.fault fault, text), s')) :
      Stepped fuel s (.ok (some line) input) .ran (report fault text s')

theorem stepped_of_ok (h : step fuel s = .ok outcome s') :
    Stepped fuel s (nextLine s.workspace.names.knows s.settings.prompt s.input) outcome s' := by
  rw [step] at h
  split at h
  case h_1 hnext =>
    cases h
    exact hnext ▸ .undrawn _ _
  case h_2 => cases h
  case h_3 hnext =>
    cases h
    exact hnext ▸ .ended _
  case h_4 hnext =>
    rw [hnext]
    split at h
    case h_1 hrun =>
      cases h
      exact .carried hrun
    case h_2 hrun =>
      cases h
      exact .carried hrun
    case h_3 hrun =>
      unfold recover at h
      split at h
      · split at h <;> cases h
        exact .failed hrun
      · cases h

theorem holds_step (hkeeps : Stable keeps) (hover : Over keeps base s.input.upper)
    (h : step fuel s = .ok outcome s') : Holds keeps base s.input outcome s'.input := by
  have hG := drawing_confining hkeeps base
  have hline := confined_nextLine hkeeps s.workspace.names.knows s.settings.prompt hover
  have hstep := stepped_of_ok h
  generalize hnext : nextLine s.workspace.names.knows s.settings.prompt s.input = drawn at hline hstep
  cases hstep with
  | undrawn fault input =>
    cases hline with
    | error hunread hover' =>
      have hreported : Unread input (input.reported fault "") := unread_reported _ _ _
      exact ⟨trans_of Unread hunread hreported, fun _ => .inl (over_reported hover'), by simp⟩
  | ended =>
    obtain ⟨hunread, ⟨-, hbase⟩ | ⟨hends, -⟩⟩ := hline
    · exact ⟨hunread, by simp, fun _ => hbase⟩
    · exact absurd rfl hends
  | @carried _ _ exit _ hrun =>
    obtain ⟨hover₁, hunread₁⟩ := hG.drawn hnext hover
    obtain ⟨hover₂, hunread₂⟩ := (statement_input hG _ _ _).1 _ _ hrun hover₁
    exact ⟨trans_of Unread hunread₁ hunread₂, fun _ => .inl hover₂, by cases exit <;> nofun⟩
  | @failed _ _ fault text s₁ hrun =>
    obtain ⟨hover₁, hunread₁⟩ := hG.drawn hnext hover
    obtain ⟨hlevels, hunread₂⟩ := (statement_input hG _ _ _).2 _ _ hrun hover₁
    have hreported : Unread s₁.input (s₁.input.reported fault text) := unread_reported _ _ _
    refine ⟨trans_of Unread hunread₁ (trans_of Unread hunread₂ hreported), fun _ => ?_, by simp⟩
    rcases hlevels with hover₂ | hbase
    · exact .inl (over_reported hover₂)
    · -- the block was still open when the terminal level was used up
      refine .inr ?_
      rw [← hbase]
      exact length_reported_le _ _ _

/-- Nothing is asked of the lines of the terminal level. -/
theorem stable_true : Stable fun _ => True := ⟨fun _ _ => trivial, fun _ _ => trivial⟩

theorem confined_drain {exit : Option ExitMode}
    (hs : Over (fun _ => True) [] s.input.upper ∨ s.input.upper = [])
    (h : drain 2 fuel s = .ok exit s') : s'.input.upper = [] ∧ Unread s.input s'.input := by
  induction fuel generalizing s with
  | zero => cases h
  | succ fuel ih =>
    rw [drain, get_bind_apply] at h
    rcases hs with hover | hempty
    · have hdepth : ¬ s.input.depth < 2 := by
        have := hover.length_lt
        simp only [depth, length_nil] at this ⊢
        omega
      rw [if_neg hdepth] at h
      obtain ⟨outcome, s₁, hstep, h⟩ := bind_eq_ok.mp h
      have hheld := holds_step stable_true hover hstep
      cases outcome with
      | ran =>
        have hs₁ : Over (fun _ => True) [] s₁.input.upper ∨ s₁.input.upper = [] :=
          (hheld.ran rfl).imp_right fun hle => length_eq_zero_iff.mp (Nat.le_zero.mp hle)
        obtain ⟨hupper, hunread⟩ := ih hs₁ h
        exact ⟨hupper, trans_of Unread hheld.unread hunread⟩
      | ended =>
        cases h
        exact ⟨hheld.ended rfl, hheld.unread⟩
      | exit mode =>
        cases h
        obtain ⟨hupper, hunread⟩ := unread_reset s₁.input
        exact ⟨hupper, trans_of Unread hheld.unread hunread⟩
    · have hdepth : s.input.depth < 2 := by simp [depth, hempty]
      rw [if_pos hdepth] at h
      cases h
      exact ⟨hempty, refl_of Unread _⟩

/-- A text that is run on top of the console is confined to its own lines.  Whatever the lines are,
and whatever macros and command files they lead to, no line of the console is read and no prompt is
shown there, what waits there is not executed, and the console is the only level again. -/
theorem enter_confined {fuel : Nat} {text : String} {exit : Option ExitMode}
    (hs : s.input.depth = 1) (h : enter fuel text s = .ok exit s') :
    s'.input.depth = 1 ∧ s'.input.console.lines = s.input.console.lines ∧
      s'.input.console.prompts = s.input.console.prompts ∧
      (s'.input.pending = s.input.pending ∨ s'.input.pending = []) := by
  have hempty : s.input.upper = [] := by simpa [depth] using hs
  -- there is always room for one level above the console
  have hroom : s.input.upper.length + 1 < s.input.settings.depthLimit := by
    rw [hempty]
    exact Nat.lt_of_lt_of_le Nat.one_lt_two (Nat.le_max_right _ 2)
  rw [enter, get_bind_apply] at h
  cases hpush : s.input.pushText "" text [] true with
  | error fault =>
    rw [pushText, push, dif_pos hroom] at hpush
    cases hpush
  | ok input =>
    rw [hpush] at h
    dsimp only at h
    rw [set_bind_apply] at h
    obtain ⟨hsettings, hconsole, hpending, hupper⟩ := push_eq_ok hpush
    rw [hempty] at hupper
    have hover : Over (fun _ => True) [] input.upper := by
      rw [hupper]
      exact .bottom rfl trivial
    have hdepth : input.depth = 2 := by simp [depth, hupper]
    rw [hdepth] at h
    obtain ⟨hclosed, hunread⟩ := confined_drain (s := { s with input }) (.inl hover) h
    have hopened : Unread s.input input := .of_eq hsettings hconsole hpending
    have hall := trans_of Unread hopened hunread
    exact ⟨by simp [depth, hclosed], hall.lines, hall.prompts, hall.pending⟩

end Session

end

namespace Session

open Input

open scoped Cabinet

/-- A line that names no command file is reported, and the console still has its line. -/
theorem enter_confined_fault :
    ∃ exit s', enter 3 "@" ((Session.initial {} []).withConsole (.ofLines ["print 99"])) =
        .ok exit s' ∧
      s'.input.depth = 1 ∧ s'.input.console.lines = [.text "print 99"] ∧
      s'.input.console.prompts = [] := by
  have hreturns : ∃ exit s', enter 3 "@"
      ((Session.initial {} []).withConsole (.ofLines ["print 99"])) = .ok exit s' := by
    refine ⟨none, ?_⟩
    rw [enter, get_bind_apply]
    cases hpush : ((Session.initial {} []).withConsole (.ofLines ["print 99"])).input.pushText ""
        "@" [] true with
    | error fault => cases hpush
    | ok input =>
      cases hpush
      dsimp only
      rw [set_bind_apply]
      change ∃ s', drain 2 3 _ = _
      rw [drain, get_bind_apply, if_neg (by decide), bind_apply, step,
        nextLine_of_error rfl]
      dsimp only
      rw [drain, get_bind_apply, if_neg (by decide), bind_apply, step, nextLine_of_finished rfl]
      exact ⟨_, rfl⟩
  obtain ⟨exit, s', h⟩ := hreturns
  obtain ⟨hdepth, hlines, hprompts, -⟩ := enter_confined rfl h
  exact ⟨exit, s', h, hdepth, hlines, hprompts⟩

end Session

/-! ### Turns -/

section

variable [Outside]

variable {s t s' : Input} {known : String → Bool} {prompt : String} {outcome : Step}
  {r : EStateM.Result Failure Input Progress} {fault : Fault} {fuel : Nat}

namespace Input

/-- One thing that happens to the input: a step towards the next sub-line, a level opened for a text or
a command file that is run, a macro defined, text printed, a fault reported, all levels closed, the
macros forgotten, or new lines on the console. -/
inductive Turn (s : Input) : Input → Prop
  | advanced (known : String → Bool) (prompt : String) : Turn s (leftIn (advance known prompt s))
  | opened {level : Level} {s' : Input} (hterminal : level.terminal = true)
      (h : s.push level = .ok s') : Turn s s'
  | defined {name body : String} {s' : Input} (h : s.define name body = .ok s') : Turn s s'
  | printed (text : String) : Turn s (s.print text)
  | reported (fault : Fault) (line : String) : Turn s (s.reported fault line)
  | reset : Turn s s.reset
  | cleared : Turn s s.clearMacros
  | given (lines : List RawLine) : Turn s { s with console := { s.console with lines } }

/-- Things that happen to the input one after another. -/
abbrev Turns : Input → Input → Prop := Relation.ReflTransGen Turn

instance : IsPreorder Input Turns where
  refl _ := .refl
  trans _ _ _ := .trans

theorem drawing_turns : Drawing (.of Turns) :=
  drawing_of (fun _ text => .single (.printed text)) fun known prompt _ =>
    .single (.advanced known prompt)

end Input

namespace Session

open Input

variable {s s' : Session}

theorem turns_statement (fuel : Nat) (line : String) (s : Session) :
    Turns s.input (s.statement fuel line).2.input := by
  obtain ⟨hok, herror⟩ := statement_input drawing_turns fuel line s
  generalize s.statement fuel line = result at hok herror
  obtain ⟨outcome, s'⟩ := result
  cases outcome with
  | ok exit => exact hok exit s' rfl
  | error failure => exact herror failure s' rfl

/-- What happens to the input across a part of a session. -/
def InTurns (s s' : Session) : Prop := Turns s.input s'.input

instance : IsPreorder Session InTurns where
  refl _ := .refl
  trans _ _ _ := .trans

/-- Whatever running a text, a file or the console consists of takes turns of the input. -/
theorem passes_inTurns : Passes InTurns where
  drawn s := nextLine_of_advance (R := Turns) (fun _ => .single (.advanced _ _)) s.input
  broken {s fault input} heq := .tail (drawing_turns.broken heq) (.reported fault "")
  statement := turns_statement
  failed {fuel line s fault text s'} heq := by
    have hturns := turns_statement fuel line s
    rw [heq] at hturns
    exact .tail hturns (.reported fault text)
  refused {s text fault} _ := .single (.reported fault text)
  opened hterminal hpush := .single (.opened hterminal hpush)
  reset _ := .single .reset

theorem turns_shutdown (mode : ExitMode) (s : Session) : InTurns s (s.shutdown mode) := by
  have hteardown : (s.teardown mode).input = s.input := by
    obtain ⟨host, hhost⟩ := teardown_eq mode s
    rw [hhost]
  have hprinted (s : Session) : InTurns s s.flushOutput := flushOutput_input drawing_turns s
  cases mode with
  | minimal status =>
    have hlast := hprinted (s.teardown (.minimal status))
    rwa [InTurns, hteardown] at hlast
  | full status =>
    have hlast := hprinted (s.teardown (.full status)).release
    refine trans_of InTurns ?_ hlast
    change Turns s.input (s.teardown (.full status)).input.clearMacros.reset
    rw [hteardown]
    exact .tail (.single .cleared) .reset

/-- One use of a session. -/
inductive Use (s : Session) : Session → Prop
  | enter (fuel : Nat) (text : String) : Use s (leftIn (enter fuel text s))
  | runFile (fuel : Nat) (path : String) (args : List String) :
      Use s (leftIn (runFile fuel path args s))
  | run (fuel : Nat) : Use s (leftIn (run fuel s))
  | statement (fuel : Nat) (line : String) : Use s (s.statement fuel line).2
  | define (name body : String) : Use s (s.define name body).2
  | register (m : Module) : Use s (s.register m).2
  | shutdown (mode : ExitMode) : Use s (s.shutdown mode)
  | lines (lines : List RawLine) : Use s (s.withConsole { s.input.console with lines })
  | host (f : Host → Host) : Use s (s.onHost f)

/-- Whatever a session is used for, its input changes by turns. -/
theorem turns_use (h : Use s s') : InTurns s s' := by
  cases h with
  | enter fuel text => exact (moves_enter passes_inTurns fuel text).leftIn s
  | runFile fuel path args => exact (moves_runFile passes_inTurns fuel path args).leftIn s
  | run fuel => exact (moves_runFrom passes_inTurns fuel 0).leftIn s
  | statement fuel line => exact turns_statement fuel line s
  | define name body =>
    rw [Session.define]
    split
    case h_1 input hdefine => exact .single (.defined hdefine)
    case h_2 => exact refl_of InTurns s
  | register m =>
    rw [Session.register]
    split <;> exact refl_of InTurns s
  | shutdown mode => exact turns_shutdown mode s
  | lines lines => exact .single (.given lines)
  | host f => exact refl_of InTurns s

end Session

/-! ### Order -/

namespace Input

/-- Where the lines of the levels come from, the top level first; the console has no feed. -/
def feeds (s : Input) : List (Option Feed) := s.upper.map (fun level => some level.feed) ++ [none]

/-- The levels that a fault leaves: the first terminal one from the top, and those below it. -/
def retained (s : Input) : List Level := s.upper.dropWhile fun level => !level.terminal

/-- A terminal level or the console is on top, and nothing waits there. -/
def Primary (s : Input) : Prop :=
  match s.upper with
  | [] => s.pending = []
  | top :: _ => top.terminal = true ∧ top.pending = []

/-- Two inputs that agree but for what a fault discards: the levels above the first terminal one, and
the sub-lines that wait on that level or on the console if there is none. -/
structure Agrees (s t : Input) : Prop where
  settings : t.settings = s.settings
  world : t.world = s.world
  console : t.console = s.console
  macros : t.macros = s.macros
  levels : t.retained.modifyHead (fun level => { level with pending := [] }) =
    s.retained.modifyHead fun level => { level with pending := [] }
  pending : s.retained ≠ [] → t.pending = s.pending

section Reports

variable (s fault line)

theorem pending_reported :
    (s.reported fault line).pending = if s.retained = [] then [] else s.pending := by
  unfold reported flush clearPending retained
  dsimp only
  split
  case h_1 hlevels => rw [if_pos hlevels]
  case h_2 hlevels =>
    rw [if_neg (by rw [hlevels]; nofun)]
    rfl

theorem primary_reported : (s.reported fault line).Primary := by
  have hpending := pending_reported s fault line
  unfold retained at hpending
  unfold Primary
  rw [upper_reported]
  cases hlevels : s.upper.dropWhile fun level => !level.terminal with
  | nil => rwa [if_pos hlevels] at hpending
  | cons top below =>
    have hterminal := head?_dropWhile_not (fun level : Level => !level.terminal) s.upper
    rw [hlevels] at hterminal
    exact ⟨by simpa using hterminal, rfl⟩

theorem reported_fields :
    (s.reported fault line).settings = s.settings ∧ (s.reported fault line).world = s.world ∧
      (s.reported fault line).macros = s.macros ∧
      (s.reported fault line).console = s.console.report fault line := by
  unfold reported flush clearPending
  split <;> exact ⟨rfl, rfl, rfl, rfl⟩

end Reports

theorem Agrees.reported (h : Agrees s t) (fault : Fault) (line : String) :
    t.reported fault line = s.reported fault line := by
  have hupper : (t.reported fault line).upper = (s.reported fault line).upper := by
    rw [upper_reported, upper_reported]
    exact h.levels
  have hnone : t.retained = [] ↔ s.retained = [] := by
    have hlength := congrArg length h.levels
    rw [length_modifyHead, length_modifyHead] at hlength
    rw [← length_eq_zero_iff, ← length_eq_zero_iff, hlength]
  have hpending : (t.reported fault line).pending = (s.reported fault line).pending := by
    rw [pending_reported, pending_reported]
    by_cases hempty : s.retained = []
    · rw [if_pos hempty, if_pos (hnone.mpr hempty)]
    · rw [if_neg hempty, if_neg (hempty ∘ hnone.mp), h.pending hempty]
  obtain ⟨hsettings, hworld, hmacros, hconsole⟩ := reported_fields s fault line
  obtain ⟨hsettings', hworld', hmacros', hconsole'⟩ := reported_fields t fault line
  rw [h.settings, ← hsettings] at hsettings'
  rw [h.world, ← hworld] at hworld'
  rw [h.macros, ← hmacros] at hmacros'
  rw [h.console, ← hconsole] at hconsole'
  generalize t.reported fault line = a at *
  generalize s.reported fault line = b at *
  cases a
  cases b
  simp_all

/-- No fault has been reported, under the same settings. -/
structure Quiet (s s' : Input) : Prop where
  settings : s'.settings = s.settings
  faults : s'.console.faults = s.console.faults

instance : IsPreorder Input Quiet where
  refl _ := ⟨rfl, rfl⟩
  trans _ _ _ h h' := ⟨h'.settings.trans h.settings, h'.faults.trans h.faults⟩

theorem Brings.quiet (h : Brings Works t r) (ht : Quiet s t) : Quiet s (leftIn r) := by
  cases h with
  | line | fault | hangs => exact ht
  | again h => exact trans_of Quiet ht ⟨h.acts.settings, h.acts.faults⟩

theorem quiet_advance (s : Input) : Quiet s (leftIn (advance known prompt s)) := by
  have hread := s.console.faults_read prompt
  cases advances known prompt s with
  | subLine _ _ h => exact h.works.quiet ⟨rfl, rfl⟩
  | line _ heq h => exact h.quiet ⟨rfl, by rwa [heq] at hread⟩
  | ended _ heq hr =>
    rw [hr]
    exact ⟨rfl, by rwa [heq] at hread⟩
  | subLineAbove _ _ h => exact h.works.quiet ⟨rfl, rfl⟩
  | lineAbove _ _ h => exact h.quiet ⟨rfl, rfl⟩
  | closed _ hr =>
    rw [hr]
    exact ⟨rfl, rfl⟩
  | failed _ _ _ hr =>
    rw [hr]
    exact ⟨rfl, rfl⟩

theorem Turn.settings_faults (h : Turn s s') :
    s'.settings = s.settings ∧
      (s'.console.faults = s.console.faults ∨ ∃ fault line, s' = s.reported fault line) := by
  cases h with
  | advanced known prompt =>
    have hquiet : Quiet s (leftIn (advance known prompt s)) := quiet_advance s
    exact ⟨hquiet.settings, .inl hquiet.faults⟩
  | opened _ hpush =>
    obtain ⟨hsettings, hconsole, -⟩ := push_eq_ok hpush
    exact ⟨hsettings, .inl (by rw [hconsole])⟩
  | defined hdefine =>
    unfold define at hdefine
    split at hdefine
    · cases hdefine
      exact ⟨rfl, .inl rfl⟩
    · cases hdefine
  | printed text => exact ⟨rfl, .inl (by simp [print])⟩
  | reported fault line => exact ⟨(reported_fields s fault line).1, .inr ⟨fault, line, rfl⟩⟩
  | reset | cleared => exact ⟨rfl, .inl rfl⟩
  | given lines => exact ⟨rfl, .inl rfl⟩

theorem Turns.settings (h : Turns s s') : s'.settings = s.settings := by
  induction h with
  | refl => rfl
  | tail _ hturn ih => exact hturn.settings_faults.1.trans ih

theorem drawing_quiet : Drawing (.of Quiet) :=
  drawing_of (fun _ _ => ⟨rfl, by simp [print]⟩) fun _ _ => quiet_advance

theorem feeds_in_order (s : Input) :
    s.feeds.length = s.depth ∧ s.feeds.getLast? = some none ∧
      s.feeds.countP Option.isNone = 1 := by
  refine ⟨by simp [feeds, depth], by simp [feeds], ?_⟩
  have hnone : (s.upper.map fun level => some level.feed).countP Option.isNone = 0 := by
    rw [countP_eq_zero]
    simp
  rw [feeds, countP_append, hnone]
  rfl

theorem depth_le (s : Input) : s.depth ≤ max 2 s.settings.limits.inputDepth := by
  have hbounded := s.bounded
  rw [Settings.depthLimit] at hbounded
  rw [depth]
  omega

theorem feeds_reported (s : Input) (fault : Fault) (line : String) :
    (s.reported fault line).feeds = s.retained.map (fun level => some level.feed) ++ [none] := by
  rw [feeds, upper_reported, retained]
  cases s.upper.dropWhile fun level => !level.terminal with
  | nil => rfl
  | cons top below => rfl

end Input

namespace Session

open Input

variable {s s' : Session}

theorem primary_step (h : step fuel s = .ok outcome s')
    (hfaults : s'.input.console.faults ≠ s.input.console.faults) : s'.input.Primary := by
  have hstep := stepped_of_ok h
  generalize hnext : nextLine s.workspace.names.knows s.settings.prompt s.input = drawn at hstep
  cases hstep with
  | undrawn => exact primary_reported _ _ _
  | ended => exact absurd (drawing_quiet.ended hnext).faults hfaults
  | carried hrun =>
    have hquiet := (statement_input drawing_quiet _ _ _).1 _ _ hrun
    exact absurd (trans_of Quiet (drawing_quiet.drawn hnext) hquiet).faults hfaults
  | failed => exact primary_reported _ _ _

/-- The levels are in order whatever a session is used for.  Everything that happens to the input is a
turn; at every moment the console is the bottom level and no other one is, and there is at least one
level and never more than the limit.  When a turn or a step has reported a fault, the console or a
terminal level is on top with nothing waiting.  The levels from there on keep the lines they still
have, and what was discarded makes no difference to anything that follows. -/
theorem levels_in_order {settings : Settings} {world : Outside.World}
    (hs : Relation.ReflTransGen Use (.initial settings world) s) :
    Turns (.initial settings world) s.input ∧
      (∀ i, Turns (.initial settings world) i →
        (i.feeds.length = i.depth ∧ i.feeds.getLast? = some none ∧ i.feeds.countP Option.isNone = 1 ∧
          1 ≤ i.depth ∧ i.depth ≤ max 2 settings.limits.inputDepth) ∧
        ∀ i', Turn i i' → i'.console.faults ≠ i.console.faults →
          i'.Primary ∧ i'.console.lines = i.console.lines ∧
            i'.feeds = i.retained.map (fun level => some level.feed) ++ [none] ∧
            ∃ fault line, i' = i.reported fault line ∧
              ∀ j, i.Agrees j → j.reported fault line = i') ∧
      ∀ fuel outcome s', step fuel s = .ok outcome s' →
        s'.input.console.faults ≠ s.input.console.faults → s'.input.Primary := by
  refine ⟨?_, ?_, fun fuel outcome s' => primary_step⟩
  · induction hs with
    | refl => exact .refl
    | tail _ huse ih => exact .trans ih (turns_use huse)
  · intro i hi
    obtain ⟨hlength, hlast, hcount⟩ := feeds_in_order i
    have hsettings : i.settings = settings := hi.settings
    refine ⟨⟨hlength, hlast, hcount, Nat.succ_pos _, hsettings ▸ depth_le i⟩, ?_⟩
    intro i' hturn hfaults
    rcases hturn.settings_faults.2 with hsame | ⟨fault, line, rfl⟩
    · exact absurd hsame hfaults
    refine ⟨primary_reported i fault line, (unread_reported i fault line).lines,
      feeds_reported i fault line, fault, line, rfl, ?_⟩
    intro j hagrees
    exact hagrees.reported fault line

end Session

end

namespace Session

open Input

open scoped Cabinet

/-- A fault on a text with a line left and a sub-line waiting: the line stays, the sub-line does
not. -/
theorem levels_in_order_report :
    ∃ i i' : Input, Turns (.initial {} []) i ∧ Turn i i' ∧
      i.upper.map Level.pending = [["y"]] ∧ i'.upper.map Level.pending = [[]] ∧
      i'.feeds = [some (.text ["z"]), none] ∧ i'.Primary := by
  have hpush : (Input.initial {} []).push ⟨"", .text ["z"], [], ["y"], true⟩ = .ok _ := rfl
  have hopened := Relation.ReflTransGen.single (Turn.opened rfl hpush)
  obtain ⟨-, hmoments, -⟩ := levels_in_order (s := Session.initial {} []) .refl
  obtain ⟨hprimary, -, hfeeds, -⟩ := (hmoments _ hopened).2 _
    (.reported (.because .undefinedName "'x'") "x") (by simp [reported_fields])
  exact ⟨_, _, hopened, .reported _ _, rfl, rfl, hfeeds, hprimary⟩

end Session

end ArrayCommand
