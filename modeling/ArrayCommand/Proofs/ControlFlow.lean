/-
Compiled statements mean what their lines say.

The lines that the compiler takes are the written form of one statement of the block language, and
the program it makes of them does what that statement does: it ends if and only if the statement
ends, and then in the same way, with the same variables and the same output.

* `compile_keeps_meaning` — for every statement that the compiler accepts and for every machine;
* `LineSource.ofList`, `Compiler.start`, `Machine.start` — a source, a compiler and a machine to
  begin with.
-/

import ArrayCommand.Proofs.Blocks
import ArrayCommand.Proofs.Compilation

namespace ArrayCommand

/-- Compilation keeps the meaning of a statement.  The lines taken from the source are exactly those
of the statement behind its first one.  A run of the program that is not cut off comes to the end to
which the statement comes; nothing is assumed of the variables or of the stacks of the machine, but
the functions hand as many cells back as they were handed. -/
theorem compile_keeps_meaning {σ : Type} (source : LineSource σ) (maxName fuel : Nat)
    (line : String) (c c' : Compiler σ) (hempty : c.program.nodes = #[]) (hloops : c.loops = [])
    (hlimit : c.program.limit < 0x8000000000000000)
    (h : Compiler.compile source maxName fuel line c = .ok () c') :
    ∃ lines tree, Draws source c.source lines c'.source ∧
      Written maxName ⟨c.workspace, .ofText line maxName⟩ lines tree ⟨c'.workspace, c'.lexer⟩ ∧
      ∀ m : Machine, (∀ f ∈ m.workspace.functions, f.KeepsCount) →
        Undisturbed c'.program.nodes m →
        ∀ r : EStateM.Result Failure World Flow, Final r →
          ((∃ fuel, seen (Control.run c'.program.nodes fuel m) = r) ↔
            ∃ fuel, tree.execute fuel m.world = r) := by
  obtain ⟨lines, tree, hdraws, hwritten, hleaps, hnodes, hsize⟩ := compile_ok hempty hloops h
  refine ⟨lines, tree, hdraws, hwritten, fun m hcounts hquiet r hfinal => ?_⟩
  have htree : tree.size < 0x8000000000000000 := by
    rw [Program.size, hnodes, List.size_toArray, Statement.length_code] at hsize
    omega
  rw [hnodes] at hquiet ⊢
  exact Statement.run_eq_iff hleaps htree hcounts hquiet hfinal

/-! ### A loop that is left -/

def LineSource.ofList : LineSource (List String) := fun _ lines =>
  match lines with
  | [] => .ok none []
  | line :: rest => .ok (some line) rest

/-- The compiler before a statement, without any names. -/
def Compiler.start (lines : List String) : Compiler (List String) :=
  { workspace := .bare 8, program := { limit := 100 }, lexer := .ofText "" 8, source := lines }

def Machine.start : Machine :=
  { workspace := .bare 8
    values := { title := "VALUE STACK", limit := 8 }
    run := { title := "RUN STACK", limit := 8 } }

/-- Whether a program is a loop that is left at once, with whatever condition at its foot. -/
def leftAtOnce : List Node → Bool
  | [.gate 5 2, .via (-1) true, .expr _, .const _, .branchIfFalse _] => true
  | _ => false

theorem undisturbed_of_leftAtOnce {code : Array Node} (h : leftAtOnce code.toList = true) :
    Undisturbed code Machine.start ∧
      seen (Control.run code 3 Machine.start) = .ok .finished Machine.start.world := by
  obtain ⟨nodes⟩ := code
  simp only at h
  unfold leftAtOnce at h
  split at h
  · refine ⟨fun fuel f m' hrun => ?_, rfl⟩
    match fuel with
    | 0 | 1 | 2 => cases hrun
    | n + 3 => cases hrun
  · cases h

theorem compile_keeps_meaning_break :
    ∃ c', Compiler.compile .ofList 8 3 "repeat" (.start ["break", "until false", "stop"]) =
        .ok () c' ∧
      ∃ lines tree, Draws .ofList ["break", "until false", "stop"] lines c'.source ∧
        Written 8 ⟨.bare 8, .ofText "repeat" 8⟩ lines tree ⟨c'.workspace, c'.lexer⟩ ∧
        Undisturbed c'.program.nodes .start ∧
        seen (Control.run c'.program.nodes 3 .start) = .ok .finished Machine.start.world ∧
        ∃ fuel, tree.execute fuel Machine.start.world = .ok .finished Machine.start.world := by
  have hcode : (match Compiler.compile .ofList 8 3 "repeat"
      (.start ["break", "until false", "stop"]) with
    | .ok _ c => leftAtOnce c.program.nodes.toList
    | .error _ _ => false) = true := by decide +kernel
  generalize hrun : Compiler.compile .ofList 8 3 "repeat"
    (.start ["break", "until false", "stop"]) = result at hcode
  cases result with
  | error failure c' => cases hcode
  | ok _ c' =>
    obtain ⟨hquiet, hfinished⟩ := undisturbed_of_leftAtOnce hcode
    obtain ⟨lines, tree, hdraws, hwritten, hmeaning⟩ :=
      compile_keeps_meaning .ofList 8 3 "repeat" _ c' rfl rfl (by decide) hrun
    have hcounts : ∀ f ∈ Machine.start.workspace.functions, f.KeepsCount := by
      intro f hf
      simp [Machine.start, Workspace.bare] at hf
    exact ⟨c', rfl, lines, tree, hdraws, hwritten, hquiet, hfinished,
      (hmeaning Machine.start hcounts hquiet _ (fun s h => by cases h)).1 ⟨3, hfinished⟩⟩

end ArrayCommand
