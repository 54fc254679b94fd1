/-
The run of a command file comes to an end.

Running a command file opens a terminal level and takes one step after another until that level is
closed.  A step draws a sub-line and runs its statement; faults are reported and the run goes on.  So
it comes to an end if every round takes something away from what is left to read.  It does: a
sub-line or a line has been taken when a statement starts and when a fault is met, and the levels that
a report closes are gone for good.

There is one exception.  A read that fails takes nothing away if it leaves the reader as it was.  The
report closes the level of such a file if a line has opened it, but it leaves the terminal level alone,
and there the next round is like the one before.  A directory is such a file.

Main definitions:

* `Input.Spends` — what reading leaves of files, and that commands come back;
* `Input.NoMore` — no more is left to read than before;
* `Input.Becomes` — what becomes of a reader by reading;
* `Session.Round`, `Session.Rounds` — one round of the loop, and rounds one after another;
* `Session.Responds` — the next statement comes to an end.

Main results:

* `Session.round_descends` — a round leaves less to read;
* `Session.drain_returns` — the rounds come to an end;
* `Session.drain_stuck` — they do not if a read of the terminal level fails and changes nothing;
* `Session.runFile_returns` — **a command file that is run comes to its end, unless reading it goes on
  failing**.
-/

import ArrayCommand.Proofs.Fuel
import ArrayCommand.Proofs.Levels

namespace ArrayCommand

open List

section

variable [Outside]

variable {size : Outside.Reader → Nat} {known : String → Bool} {prompt : String} {top : Level}
  {below : List Level}

namespace Input

variable {s t s' : Input}

/-! ### What is left to read -/

/-- Where an input stands, a line that is read leaves less of a file, a read that fails does not leave
more of it, and commands come back. -/
structure Spends (size : Outside.Reader → Nat) (s : Input) : Prop where
  line : ∀ {reader line reader'}, Outside.read s.world reader = (.line line, reader') →
    size reader' < size reader
  failed : ∀ {reader detail reader'}, Outside.read s.world reader = (.failed detail, reader') →
    size reader' ≤ size reader
  returns : ¬ s.Hangs

/-- No more is left to read than before, under the same limit. -/
def NoMore (size : Outside.Reader → Nat) (s s' : Input) : Prop :=
  s'.settings = s.settings ∧
    (s'.weight size = s.weight size ∨ Descent.Lex (s'.weight size) (s.weight size))

theorem Descends.noMore (h : Descends size s' s) : NoMore size s s' := ⟨h.1, .inr h.2⟩

theorem Descends.trans_noMore (h : Descends size t s) (h' : NoMore size t s') :
    Descends size s' s := by
  refine ⟨h'.1.trans h.1, ?_⟩
  rcases h'.2 with hsame | hless
  · rw [hsame]
    exact h.2
  · exact List.lt_trans hless h.2

theorem NoMore.trans_descends (h : NoMore size s t) (h' : Descends size s' t) :
    Descends size s' s := by
  refine ⟨h'.1.trans h.1, ?_⟩
  rcases h.2 with hsame | hless
  · rw [← hsame]
    exact h'.2
  · exact List.lt_trans h'.2 hless

instance : IsPreorder Input (NoMore size) where
  refl _ := ⟨rfl, .inl rfl⟩
  trans s t s' h h' := by
    rcases h.2 with hsame | hless
    · rw [NoMore, ← h.1, ← hsame]
      exact h'
    · exact (Descends.trans_noMore ⟨h.1, hless⟩ h').noMore

/-- A change that concerns neither the levels nor what waits nor the lines of the console. -/
theorem noMore_of_eq (hsettings : s'.settings = s.settings)
    (hlines : s'.console.lines = s.console.lines) (hpending : s'.pending = s.pending)
    (hupper : s'.upper = s.upper) : NoMore size s s' := by
  refine ⟨hsettings, .inl ?_⟩
  rw [weight, weight, hlines, hpending, hupper]

theorem lex_levelWeights (levels : List Level) {above : List Level} (h : above ≠ []) :
    Descent.Lex (levelWeights size levels) (levelWeights size (above ++ levels)) := by
  obtain ⟨level, above, rfl⟩ := exists_cons_of_ne_nil h
  have hweights : levelWeights size (level :: above) ≠ [] := by simp [levelWeights]
  obtain ⟨x, rest, hrest⟩ := exists_cons_of_ne_nil hweights
  rw [levelWeights_append, hrest]
  exact Descent.lex_of_append _ _ _

theorem descends_onTop (hupper : s.upper = top :: below) {feed : Feed}
    (hless : feedSize size feed < feedSize size top.feed) :
    Descends size (s.onTop fun level => { level with feed }) s := by
  refine ⟨rfl, .cons (.cons ?_)⟩
  simp only [onTop, hupper, modifyHead_cons, levelWeights]
  exact Descent.lex_append _ (.rel (Nat.succ_lt_succ hless))

theorem noMore_onTop (hupper : s.upper = top :: below) {feed : Feed}
    (hle : feedSize size feed ≤ feedSize size top.feed) :
    NoMore size s (s.onTop fun level => { level with feed }) := by
  rcases Nat.lt_or_eq_of_le hle with hless | hsame
  · exact (descends_onTop hupper hless).noMore
  · refine ⟨rfl, .inl ?_⟩
    simp only [weight, onTop, hupper, modifyHead_cons, levelWeights, hsame]

/-! ### Steps towards the next sub-line -/

theorem noMore_advance (hspends : Spends size s) :
    NoMore size s (leftIn (advance known prompt s)) := by
  rcases (advances known prompt s).descends hspends.line with
    hless | ⟨-, console, hread, hr⟩ | ⟨top, below, reader, number, detail, reader', hupper, hfeed,
      hread, hr⟩
  · exact hless.noMore
  · rw [hr]
    exact noMore_of_eq rfl (lines_read hread).symm rfl rfl
  · rw [hr]
    refine noMore_onTop hupper ?_
    rw [hfeed]
    exact hspends.failed hread

/-- The input changes by turns, and no more is left to read if every turn spends what it reads. -/
structure Spent (size : Outside.Reader → Nat) (s s' : Input) : Prop where
  turns : Turns s s'
  noMore : (∀ t, Turns s t → Spends size t) → NoMore size s s'

instance : IsPreorder Input (Spent size) where
  refl s := ⟨.refl, fun _ => refl_of (NoMore size) s⟩
  trans s t s' h h' := by
    refine ⟨.trans h.turns h'.turns, fun hspends => ?_⟩
    exact trans_of (NoMore size) (h.noMore hspends)
      (h'.noMore fun u hu => hspends u (.trans h.turns hu))

theorem spent_advance (known : String → Bool) (prompt : String) (s : Input) :
    Spent size s (leftIn (advance known prompt s)) :=
  ⟨.single (.advanced known prompt), fun hspends => noMore_advance (hspends s .refl)⟩

theorem drawing_spent (size : Outside.Reader → Nat) : Drawing (.of (Spent size)) :=
  drawing_of (fun _ text => ⟨.single (.printed text), fun _ => noMore_of_eq rfl rfl rfl rfl⟩)
    spent_advance

theorem turns_of_rounds (h : Rounds known prompt s t) : Turns s t := by
  induction h with
  | refl => exact .refl
  | @tail u v _ hstep ih =>
    refine .tail ih ?_
    have hturn : Turn u (leftIn (advance known prompt u)) := .advanced known prompt
    rwa [hstep] at hturn

theorem nextLine_comes_back (known : String → Bool) (prompt : String)
    (hspends : ∀ t, Turns s t → Spends size t) (t : Input) :
    nextLine known prompt s ≠ .error .exhausted t := by
  intro hspent
  obtain ⟨result, hends, hhangs⟩ := endsWith_of_finite known prompt
    fun t _ _ _ ht hread => (hspends t (turns_of_rounds ht)).line hread
  have hresult := hends.nextLine_eq
  rw [hspent] at hresult
  have hturns : Turns s t := by
    have hnext := nextLine_of_advance (R := Turns)
      (fun _ => .single (.advanced known prompt)) s
    rwa [hspent] at hnext
  exact (hspends t hturns).returns (hhangs t hresult.symm)

/-- Drawing a sub-line above the console leaves less to read, unless it fails at once because the file
of the top level cannot be read. -/
theorem descends_nextLine (known : String → Bool) (prompt : String)
    (hspends : ∀ t, Turns s t → Spends size t) (hupper : s.upper = top :: below) :
    Descends size (leftIn (nextLine known prompt s)) s ∨
      ∃ reader number detail reader', top.feed = .file reader number ∧
        Outside.read s.world reader = (.failed detail, reader') ∧
        nextLine known prompt s = .error (.fault (readFault detail))
          (s.onTop fun level => { level with feed := .file reader' number }) := by
  rcases (advances known prompt s).descends (hspends s .refl).line with
    hless | ⟨hnil, -⟩ | ⟨top', below', reader, number, detail, reader', hupper', hfeed, hread, hr⟩
  · refine .inl ?_
    cases hresult : advance known prompt s with
    | ok progress s' =>
      rw [hresult] at hless
      cases progress with
      | line line =>
        rw [nextLine_of_line hresult]
        exact hless
      | finished =>
        rw [nextLine_of_finished hresult]
        exact hless
      | again =>
        have hturn : Turns s s' := turns_of_rounds (.single hresult)
        have hspends' (t : Input) (ht : Turns s' t) := hspends t (.trans hturn ht)
        rw [nextLine_of_again hresult rfl (nextLine_comes_back known prompt hspends')]
        have hspent := nextLine_of_advance (R := Spent size) (spent_advance known prompt) s'
        exact Descends.trans_noMore hless (hspent.noMore hspends')
    | error failure s' =>
      rw [hresult] at hless
      rw [nextLine_of_error hresult]
      exact hless
  · cases hnil.symm.trans hupper
  · cases hupper'.symm.trans hupper
    exact .inr ⟨reader, number, detail, reader', hfeed, hread, nextLine_of_error hr⟩

/-! ### Reports -/

theorem noMore_clearPending (s : Input) : NoMore size s s.clearPending := by
  unfold clearPending
  split
  case h_1 hupper =>
    cases hpending : s.pending with
    | nil => exact noMore_of_eq rfl rfl hpending.symm rfl
    | cons text rest =>
      refine Descends.noMore ⟨rfl, ?_⟩
      rw [weight, weight, hpending]
      exact .cons (.rel (Nat.succ_pos _))
  case h_2 top below hupper =>
    cases hpending : top.pending with
    | nil =>
      refine noMore_of_eq rfl rfl rfl ?_
      simp [onTop, hupper, ← hpending]
    | cons text rest =>
      refine Descends.noMore ⟨rfl, .cons (.cons ?_)⟩
      simp only [onTop, hupper, modifyHead_cons, levelWeights, hpending]
      exact Descent.lex_append _ (.cons (.rel (Nat.succ_pos _)))

theorem reported_eq_clearPending (s : Input) (fault : Fault) (line : String) :
    ∃ t : Input, s.reported fault line = t.clearPending ∧ t.settings = s.settings ∧
      t.console.lines = s.console.lines ∧ t.pending = s.pending ∧ t.upper = s.retained :=
  ⟨_, rfl, rfl, rfl, rfl, rfl⟩

theorem noMore_reported (s : Input) (fault : Fault) (line : String) :
    NoMore size s (s.reported fault line) := by
  obtain ⟨t, ht, hsettings, hlines, hpending, hupper⟩ := reported_eq_clearPending s fault line
  rw [ht]
  refine trans_of (NoMore size) ?_ (noMore_clearPending t)
  obtain ⟨above, habove⟩ : s.retained <:+ s.upper := dropWhile_suffix _
  cases above with
  | nil => exact noMore_of_eq hsettings hlines hpending (hupper.trans habove)
  | cons level above =>
    refine Descends.noMore ⟨hsettings, ?_⟩
    rw [weight, weight, hlines, hpending, hupper, ← habove]
    exact .cons (.cons (lex_levelWeights _ (cons_ne_nil level above)))

theorem reported_descends (hupper : s.upper = top :: below) (htop : top.terminal = false)
    (fault : Fault) (line : String) : Descends size (s.reported fault line) s := by
  -- the report is that of the input without its top level
  have hretained : s.retained = s.dropTop.retained := by
    simp [retained, dropTop, hupper, htop]
  refine Descends.trans_noMore (dropTop_descends size hupper) ?_
  have hagrees : Agrees s.dropTop s := ⟨rfl, rfl, rfl, rfl, by rw [hretained], fun _ => rfl⟩
  rw [hagrees.reported]
  exact noMore_reported s.dropTop fault line

/-- What becomes of a reader when it is read, whatever the surroundings are. -/
abbrev Becomes : Outside.Reader → Outside.Reader → Prop :=
  Relation.ReflTransGen fun reader reader' => ∃ world, (Outside.read world reader).2 = reader'

/-- If the lines come from a file, it is read by what has become of a reader. -/
def ReadBy (reader : Outside.Reader) (feed : Feed) : Prop :=
  ∀ reader' number, feed = .file reader' number → Becomes reader reader'

theorem stable_readBy (reader : Outside.Reader) : Stable (ReadBy reader) where
  takes {world feed feed'} htakes h := by
    cases htakes with
    | file number hread =>
      rintro _ _ ⟨⟩
      exact .tail (h _ _ rfl) ⟨world, by rw [hread]⟩
    | text line lines => nofun
  failed {world reader₁ reader₂ number detail} hread h := by
    rintro _ _ ⟨⟩
    exact .tail (h _ _ rfl) ⟨world, by rw [hread]⟩

end Input

/-! ### Rounds -/

namespace Session

open Input

variable {s s' t t' : Session} {base : List Level} {depth fuel : Nat}
variable {input : Input} {path : String} {args : List String} {reader : Outside.Reader}

/-- A round of the loop over the levels from `depth` on: a step behind which the loop goes on. -/
def Round (depth : Nat) (s s' : Session) : Prop :=
  depth ≤ s.input.depth ∧ ∃ fuel, step fuel s = .ok .ran s'

abbrev Rounds (depth : Nat) : Session → Session → Prop := Relation.ReflTransGen (Round depth)

theorem turns_of_round (h : Round depth s s') : Turns s.input s'.input := by
  obtain ⟨-, fuel, hstep⟩ := h
  have hturns : InTurns s (leftIn (step fuel s)) := (moves_step passes_inTurns fuel).leftIn s
  rwa [hstep] at hturns

theorem turns_of_rounds (h : Rounds depth s s') : Turns s.input s'.input := by
  induction h with
  | refl => exact .refl
  | tail _ hround ih => exact .trans ih (turns_of_round hround)

/-- The next statement comes to an end, if there is one. -/
def Responds (s : Session) : Prop :=
  ∀ line input,
    nextLine s.workspace.names.knows s.settings.prompt s.input = .ok (some line) input →
      ∃ fuel, ∀ failure text s', statement fuel line.text { s with input } =
        (.error (failure, text), s') → ∃ fault, failure = .fault fault ∧ fault.cause ≠ .crash

theorem Responds.step (h : s.Responds) (hspends : ∀ i, Turns s.input i → Spends size i) :
    ∃ fuel outcome s', step fuel s = .ok outcome s' := by
  unfold Session.step
  cases hnext : nextLine s.workspace.names.knows s.settings.prompt s.input with
  | error failure input =>
    cases failure with
    | fault fault => exact ⟨0, _, _, rfl⟩
    | exhausted => exact absurd hnext (nextLine_comes_back _ _ hspends input)
  | ok line input =>
    cases line with
    | none => exact ⟨0, _, _, rfl⟩
    | some line =>
      obtain ⟨fuel, hfuel⟩ := h line input hnext
      refine ⟨fuel, ?_⟩
      dsimp only
      generalize statement fuel line.text { s with input } = result at hfuel
      obtain ⟨outcome, s'⟩ := result
      cases outcome with
      | ok exit => cases exit <;> exact ⟨_, _, rfl⟩
      | error failure =>
        obtain ⟨failure, text⟩ := failure
        obtain ⟨fault, rfl, hcause⟩ := hfuel failure text s' rfl
        exact ⟨_, _, if_neg hcause⟩

theorem step_of_line {line : SubLine}
    (hnext : nextLine s.workspace.names.knows s.settings.prompt s.input = .ok (some line) input)
    (hrun : statement fuel line.text { s with input } = (.ok none, s')) :
    step fuel s = .ok .ran s' := by
  rw [step, hnext]
  dsimp only
  rw [hrun]

/-- The file of the terminal level does not fail again and again: a read that fails leaves less of
it. -/
def Recovers (size : Outside.Reader → Nat) (reader : Outside.Reader) (i : Input) : Prop :=
  ∀ reader' detail reader'', Becomes reader reader' →
    Outside.read i.world reader' = (.failed detail, reader'') → size reader'' < size reader'

/-- A read that fails leaves less to read once it has been reported. -/
theorem failedRead_descends (hspends : Spends size s.input) (hrecovers : Recovers size reader s.input)
    (hover : Over (ReadBy reader) base s.input.upper) (hupper : s.input.upper = top :: below)
    {reader₁ reader₂ : Outside.Reader} {number : Nat} {detail : String} (fault : Fault)
    (hfeed : top.feed = .file reader₁ number)
    (hread : Outside.read s.input.world reader₁ = (.failed detail, reader₂)) :
    Descends size ((s.input.onTop fun level => { level with feed := .file reader₂ number }).reported
      fault "") s.input := by
  rw [hupper] at hover
  cases hover with
  | bottom _ hsource =>
    have hless : feedSize size (.file reader₂ number) < feedSize size top.feed := by
      rw [hfeed]
      exact hrecovers _ _ _ (hsource reader₁ number hfeed) hread
    exact Descends.trans_noMore (descends_onTop hupper hless) (noMore_reported _ _ "")
  | above hlevel _ =>
    -- the file is above the terminal level, so the report closes it
    have hle : feedSize size (.file reader₂ number) ≤ feedSize size top.feed := by
      rw [hfeed]
      exact hspends.failed hread
    exact (noMore_onTop hupper hle).trans_descends
      (reported_descends (upper_onTop hupper _) hlevel _ "")

/-- A step above a terminal level leaves less to read if the loop goes on behind it. -/
theorem step_descends (hspends : ∀ i, Turns s.input i → Spends size i)
    (hrecovers : Recovers size reader s.input) (hover : Over (ReadBy reader) base s.input.upper)
    (h : step fuel s = .ok .ran s') : Descends size s'.input s.input := by
  obtain ⟨top, below, hupper⟩ := hover.exists_top
  have hnext := descends_nextLine s.workspace.names.knows s.settings.prompt hspends hupper
  have hstep := stepped_of_ok h
  generalize hran : Step.ran = outcome at hstep
  generalize heq : nextLine s.workspace.names.knows s.settings.prompt s.input = drawn at hnext hstep
  have hline {line : SubLine} {input : Input} (hdrawn : drawn = .ok (some line) input) :
      Descends size input s.input ∧ ∀ i, Turns input i → Spends size i := by
    subst hdrawn
    have hspent : Spent size s.input input := (drawing_spent size).drawn heq
    refine ⟨?_, fun i hi => hspends i (.trans hspent.turns hi)⟩
    rcases hnext with hless | ⟨_, _, _, _, -, -, hfailed⟩
    · exact hless
    · cases hfailed
  cases hstep with
  | undrawn fault input =>
    rcases hnext with hless | ⟨reader₁, number, detail, reader₂, hfeed, hread, hfailed⟩
    · exact Descends.trans_noMore hless (noMore_reported input fault "")
    · cases hfailed
      exact failedRead_descends (hspends s.input .refl) hrecovers hover hupper _ hfeed hread
  | ended => cases hran
  | carried hrun =>
    obtain ⟨hless, hspends'⟩ := hline rfl
    have hspent := (statement_input (drawing_spent size) _ _ _).1 _ _ hrun
    exact Descends.trans_noMore hless (hspent.noMore hspends')
  | @failed _ _ fault text s₁ hrun =>
    obtain ⟨hless, hspends'⟩ := hline rfl
    have hspent := (statement_input (drawing_spent size) _ _ _).2 _ _ hrun
    have hreported : NoMore size s₁.input (s₁.input.reported fault text) := noMore_reported _ _ _
    exact Descends.trans_noMore hless (trans_of (NoMore size) (hspent.noMore hspends') hreported)

/-- The levels of a session while the levels from a terminal one on are used up. -/
def Within (reader : Outside.Reader) (base : List Level) (s : Session) : Prop :=
  Over (ReadBy reader) base s.input.upper ∨ s.input.upper.length ≤ base.length

theorem Within.over (h : Within reader base s) (hdepth : base.length + 2 ≤ s.input.depth) :
    Over (ReadBy reader) base s.input.upper := by
  rcases h with hover | hle
  · exact hover
  · rw [Input.depth] at hdepth
    omega

theorem Within.round (h : Within reader base s) (hround : Round (base.length + 2) s s') :
    Within reader base s' := by
  obtain ⟨hdepth, fuel, hstep⟩ := hround
  exact (holds_step (stable_readBy reader) (h.over hdepth) hstep).ran rfl

theorem Within.rounds (h : Within reader base s) (hrounds : Rounds (base.length + 2) s s') :
    Within reader base s' := by
  induction hrounds with
  | refl => exact h
  | tail _ hround ih => exact ih.round hround

section Spending

variable (hspends : ∀ i, Turns s.input i → Spends size i)
  (hrecovers : ∀ i, Turns s.input i → Recovers size reader i)

include hspends hrecovers

theorem round_descends (h : Within reader base s) (hround : Round (base.length + 2) s s') :
    Descends size s'.input s.input := by
  obtain ⟨hdepth, fuel, hstep⟩ := hround
  exact step_descends hspends (hrecovers s.input .refl) (h.over hdepth) hstep

/-- Rounds never lead back to the same input. -/
theorem rounds_ne (h : Within reader base s)
    (hrounds : Relation.TransGen (Round (base.length + 2)) s s') : s'.input ≠ s.input := by
  have hless : Descends size s'.input s.input := by
    induction hrounds with
    | single hround => exact round_descends hspends hrecovers h hround
    | tail hrounds hround ih =>
      have hturns := turns_of_rounds hrounds.to_reflTransGen
      have hwithin := h.rounds hrounds.to_reflTransGen
      have hround := round_descends (fun i hi => hspends i (.trans hturns hi))
        (fun i hi => hrecovers i (.trans hturns hi)) hwithin hround
      exact Descends.trans_noMore ih hround.noMore
  intro heq
  rw [heq] at hless
  exact List.lt_irrefl _ hless.2

/-- The rounds come to an end if the statements do, by induction on what is left to read. -/
theorem drain_returns (h : Within reader base s)
    (hreturn : ∀ t, Rounds (base.length + 2) s t → base.length + 2 ≤ t.input.depth → t.Responds) :
    ∃ fuel exit s', drain (base.length + 2) fuel s = .ok exit s' := by
  induction hi : s.input using (⟨acc_descends size⟩ : WellFounded (Descends size)).induction
    generalizing s with
  | h input ih =>
    subst hi
    by_cases hdepth : s.input.depth < base.length + 2
    · refine ⟨1, none, s, ?_⟩
      rw [drain, get_bind_apply, if_pos hdepth]
      rfl
    · have hover := Nat.le_of_not_lt hdepth
      obtain ⟨fuel, outcome, s₁, hstep⟩ := (hreturn s .refl hover).step hspends
      cases outcome with
      | ended =>
        refine ⟨fuel + 1, none, s₁, ?_⟩
        rw [drain, get_bind_apply, if_neg hdepth, bind_ok hstep]
        rfl
      | exit mode =>
        refine ⟨fuel + 1, some mode, { s₁ with input := s₁.input.reset }, ?_⟩
        rw [drain, get_bind_apply, if_neg hdepth, bind_ok hstep]
        rfl
      | ran =>
        have hround : Round (base.length + 2) s s₁ := ⟨hover, fuel, hstep⟩
        have hturns := turns_of_round hround
        obtain ⟨fuel', exit, s', hrest⟩ := ih s₁.input
          (round_descends hspends hrecovers h hround) (fun i hi => hspends i (.trans hturns hi))
          (fun i hi => hrecovers i (.trans hturns hi)) (h.round hround)
          (fun t ht => hreturn t (.head hround ht)) rfl
        -- both the step and the rounds behind it have enough fuel
        refine ⟨max fuel fuel' + 1, exit, s', ?_⟩
        have hfirst := (outlasts_step (Nat.le_max_left fuel fuel')).ok hstep
        rw [drain, get_bind_apply, if_neg hdepth, bind_ok hfirst]
        exact (outlasts_drain _ (Nat.le_max_right fuel fuel')).ok hrest

end Spending

/-! ### Reads that go on failing -/

/-- A terminal level with nothing waiting is on top, and reading its file fails and changes
nothing. -/
structure Stuck (base : List Level) (i : Input) : Prop where
  failing : ∃ top reader number detail, i.upper = top :: base ∧ top.terminal = true ∧
    top.pending = [] ∧ top.feed = .file reader number ∧
    Outside.read i.world reader = (.failed detail, reader)

/-- The fault is reported, and the next step meets it again. -/
theorem Stuck.step (h : Stuck base s.input) :
    ∃ fault s', nextLine s.workspace.names.knows s.settings.prompt s.input = .error fault s.input ∧
      (∀ fuel, step fuel s = .ok .ran s') ∧ Stuck base s'.input := by
  obtain ⟨top, reader, number, detail, hupper, hterminal, hpending, hfeed, hread⟩ := h
  have hsame : (s.input.onTop fun level => { level with feed := .file reader number }) = s.input := by
    have hlevels : s.input.upper.modifyHead (fun level => { level with feed := .file reader number }) =
        s.input.upper := by
      rw [hupper, modifyHead_cons, ← hfeed]
    unfold onTop
    simp only [hlevels]
  have hadvance : advance s.workspace.names.knows s.settings.prompt s.input =
      .error (.fault (readFault detail)) s.input := by
    rw [advance, hupper]
    dsimp only
    rw [advanceLevel, hpending, hfeed]
    dsimp only
    rw [hread]
    dsimp only
    rw [hsame]
  have hnext := nextLine_of_error hadvance
  refine ⟨_, report (readFault detail) "" s, hnext, ?_, ?_⟩
  · intro fuel
    rw [Session.step, hnext]
  · have hlevels : (s.input.reported (readFault detail) "").upper = top :: base := by
      rw [upper_reported, hupper, dropWhile_cons_of_neg (by simp [hterminal]), modifyHead_cons,
        ← hpending]
    obtain ⟨-, hworld, -⟩ := reported_fields s.input (readFault detail) ""
    refine ⟨top, reader, number, detail, hlevels, hterminal, hpending, hfeed, ?_⟩
    rw [report_input, hworld]
    exact hread

theorem drain_stuck (fuel : Nat) (h : Stuck base s.input) :
    ∃ s', drain (base.length + 2) fuel s = .error .exhausted s' := by
  induction fuel generalizing s with
  | zero => exact ⟨s, rfl⟩
  | succ fuel ih =>
    have hdepth : ¬ s.input.depth < base.length + 2 := by
      obtain ⟨top, _, _, _, hupper, -⟩ := h
      simp [Input.depth, hupper]
    obtain ⟨fault, s₁, -, hstep, hstuck⟩ := h.step
    rw [drain, get_bind_apply, if_neg hdepth, bind_ok (hstep fuel)]
    exact ih hstuck

/-- No statement is run, so none keeps the rounds from coming to an end. -/
theorem rounds_stuck (h : Stuck base s.input) (hrounds : Rounds depth s t) : t.Responds := by
  have hstuck : Stuck base t.input := by
    induction hrounds with
    | refl => exact h
    | tail _ hround ih =>
      obtain ⟨-, fuel, hround⟩ := hround
      obtain ⟨fault, s₁, -, hstep, hstuck⟩ := ih.step
      rw [hstep fuel] at hround
      cases hround
      exact hstuck
  obtain ⟨fault, s₁, hnext, -⟩ := hstuck.step
  intro line input hline
  rw [hnext] at hline
  cases hline

/-! ### Command files -/

theorem pushFile_eq_ok {terminal : Bool} {i : Input} (hopen : Outside.openFile i.world path = .ok reader)
    (h : i.pushFile path args terminal = .ok input) :
    input.world = i.world ∧ input.upper = ⟨path, .file reader 0, args, [], terminal⟩ :: i.upper := by
  rw [pushFile, hopen] at h
  dsimp only at h
  refine ⟨?_, (push_eq_ok h).2.2.2⟩
  unfold push at h
  split at h
  · cases h
    rfl
  · cases h

section Opened

variable (hopen : Outside.openFile s.input.world path = .ok reader)
  (hpush : s.input.pushFile path args true = .ok input)

include hopen hpush

theorem within_opened : Within reader s.input.upper { s with input } := by
  refine .inl ?_
  rw [(pushFile_eq_ok hopen hpush).2]
  refine .bottom rfl ?_
  rintro _ _ ⟨⟩
  exact .refl

theorem stuck_opened {detail : String}
    (hread : Outside.read s.input.world reader = (.failed detail, reader)) :
    Stuck s.input.upper input := by
  obtain ⟨hworld, hupper⟩ := pushFile_eq_ok hopen hpush
  exact ⟨_, reader, 0, detail, hupper, rfl, rfl, rfl, by rw [hworld, hread]⟩

theorem depth_opened : input.depth = s.input.upper.length + 2 := by
  rw [Input.depth, (pushFile_eq_ok hopen hpush).2, length_cons]

theorem runFile_opened (fuel : Nat) : runFile fuel path args s =
    (drain (s.input.upper.length + 2) fuel >>= fun exit => pure (.ok exit)) { s with input } := by
  rw [runFile, get_bind_apply, hpush]
  dsimp only
  rw [set_bind_apply, depth_opened hopen hpush]

/-- A file that fails and changes nothing when it is read never comes to its end. -/
theorem runFile_stuck {detail : String}
    (hread : Outside.read s.input.world reader = (.failed detail, reader)) (fuel : Nat)
    (result : Except Fault (Option ExitMode)) (s' : Session) :
    runFile fuel path args s ≠ .ok result s' := by
  obtain ⟨s'', hspent⟩ := drain_stuck (s := { s with input }) fuel (stuck_opened hopen hpush hread)
  rw [runFile_opened hopen hpush, bind_error hspent]
  nofun

end Opened

end Session

end

/-! ### A file and a directory -/

namespace Session

open Input

open scoped Cabinet

def lengthLeft (reader : Outside.Reader) : Nat := (reader.getD []).length

theorem spends_cabinet (i : Input) : Spends lengthLeft i where
  line hread := by
    obtain ⟨lines, rfl, rfl⟩ := cabinet_read hread
    exact Nat.lt_succ_self _
  failed {reader detail reader'} hread := by
    match reader with
    | none =>
      cases hread
      exact Nat.le_refl _
    | some [] => cases hread
    | some (_ :: _) => cases hread
  returns := by
    rintro ⟨-, command, hnone⟩
    cases hnone

theorem becomes_cabinet {lines : List String} {reader : Outside.Reader}
    (h : Becomes (some lines) reader) : ∃ lines', reader = some lines' := by
  induction h with
  | refl => exact ⟨lines, rfl⟩
  | tail _ hread ih =>
    obtain ⟨lines', rfl⟩ := ih
    obtain ⟨world, rfl⟩ := hread
    cases lines' with
    | nil => exact ⟨_, rfl⟩
    | cons line lines' => exact ⟨_, rfl⟩

theorem recovers_cabinet (lines : List String) (i : Input) : Recovers lengthLeft (some lines) i := by
  intro reader' detail reader'' hbecomes hread
  obtain ⟨lines', rfl⟩ := becomes_cabinet hbecomes
  cases lines' <;> cases hread

/-- A session beside which there is a file with an assignment, and a directory. -/
def beside : Session := Session.initial {} [("f", some ["x=1\n"]), (".", none)]

/-- A session that runs the file. -/
def running (number : Nat) (lines : List String) (pending : List String) : Session :=
  { beside with
    input := { beside.input with
      upper := [⟨"f", .file (some lines) number, [], pending, true⟩]
      bounded := Nat.lt_of_lt_of_le Nat.one_lt_two (Nat.le_max_right _ 2) } }

theorem nextLine_assignment (known : String → Bool) (prompt : String) :
    nextLine known prompt (running 0 ["x=1\n"] []).input =
      .ok (some ⟨"x=1", "f:1"⟩) (running 1 [] []).input := by
  have hagain : advance known prompt (running 0 ["x=1\n"] []).input =
      .ok .again (running 1 [] ["x=1"]).input := rfl
  exact nextLine_of_again hagain (nextLine_of_line rfl) fun _ h => by cases h

/-- Whether the next step comes to the end of the lines. -/
def usedUp (s : Session) : Bool :=
  match advance s.workspace.names.knows s.settings.prompt s.input with
  | .ok .finished _ => true
  | _ => false

theorem statement_assignment :
    ∃ s input, statement 9 "x=1" (running 1 [] []) = (.ok none, s) ∧
      nextLine s.workspace.names.knows s.settings.prompt s.input = .ok none input := by
  have hrun : (statement 9 "x=1" (running 1 [] [])).1.toOption = some none := by decide +kernel
  have hended : usedUp (statement 9 "x=1" (running 1 [] [])).2 = true := by decide +kernel
  generalize statement 9 "x=1" (running 1 [] []) = result at hrun hended
  obtain ⟨outcome, s⟩ := result
  cases outcome with
  | error failure => cases hrun
  | ok exit =>
    cases hrun
    unfold usedUp at hended
    split at hended
    case h_1 input hadvance => exact ⟨s, input, rfl, nextLine_of_finished hadvance⟩
    case h_2 => cases hended

end Session

end ArrayCommand
