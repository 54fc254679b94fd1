/-
The nodes of a statement.

Jumps are written as distances between addresses, so the nodes of a statement depend on the address
at which they begin and on the address of the gate of the loop around it.  Their number does not.

* `Simple.code` — the nodes of a simple statement;
* `Statement.size`, `Statement.code` — the number of nodes of a statement, and the nodes;
* `Statement.Leaps` — a statement that leaves a loop around it, or gives up its round.
-/

import ArrayCommand.Proofs.Statement

namespace ArrayCommand

open Program (distance)

/-! ### Simple statements -/

def Typed.codes (values : List Typed) : List Node :=
  (values.map fun v => v.expr.code v.type).flatten

theorem Typed.codes_cons (v : Typed) (values : List Typed) :
    Typed.codes (v :: values) = v.expr.code v.type ++ Typed.codes values := rfl

theorem Argument.codes_eq_flatten (args : List Argument) :
    Argument.codes args = (args.map Argument.code).flatten := by
  induction args with
  | nil => rfl
  | cons a args ih => rw [Argument.codes, ih]; rfl

theorem Expr.codes_eq_flatten (es : List Expr) :
    Expr.codes es = (es.map fun e => e.code .integer).flatten := by
  induction es with
  | nil => rfl
  | cons e es ih => rw [Expr.codes, ih]; rfl

def Simple.code : Simple → List Node
  | .assign var subscripts values =>
    .assign var (subscripts.map fun list => list.map Subscript.axis) values.length ::
      (Subscript.codes (subscripts.getD []) ++ Typed.codes values)
  | .command func args => .command func args.length :: Argument.codes args
  | .declare var extents => .declare var extents.length :: Expr.codes extents

def Simple.codes (items : List Simple) : List Node := (items.map Simple.code).flatten

theorem Simple.codes_cons (s : Simple) (items : List Simple) :
    Simple.codes (s :: items) = s.code ++ Simple.codes items := rfl

/-! ### Statements -/

/-- The bounds of a counted loop in their order. -/
def loopBounds (first last : Typed) (step : Option Typed) : List Typed := first :: last :: step.toList

def Expr.testSize (test : Expr) : Nat := (test.code .logical).length

theorem Expr.length_test (test : Expr) : (test.code .logical).length = test.testSize := rfl

def Statement.size : Statement → Nat
  | .nothing => 0
  | .line items => (Simple.codes items).length
  | .leap _ => 1
  | .stop => 1
  | .both first second => first.size + second.size
  | .ifThen test yes => test.testSize + 1 + yes.size
  | .ifElse test yes no => test.testSize + 1 + yes.size + 1 + no.size
  | .while test body => 1 + test.testSize + 1 + body.size + 1
  | .repeat body test => 1 + body.size + test.testSize + 1
  | .count _ first last step body =>
    (Typed.codes (loopBounds first last step)).length + 3 + body.size + 1

/-- The nodes of a statement that begins at an address, inside of the loop whose gate stands at
another one.  A loop begins with its gate, or a counted loop with its bounds; a condition is followed
by the jump that is taken if it is false. -/
def Statement.code : (gate pc : Nat) → Statement → List Node
  | _, _, .nothing => []
  | _, _, .line items => Simple.codes items
  | gate, pc, .leap leave => [.via (distance pc gate) leave]
  | _, _, .stop => [.stop]
  | gate, pc, .both first second => first.code gate pc ++ second.code gate (pc + first.size)
  | gate, pc, .ifThen test yes =>
    let fork := pc + test.testSize
    let finish := fork + 1 + yes.size
    test.code .logical ++ .branchIfFalse (distance fork finish) :: yes.code gate (fork + 1)
  | gate, pc, .ifElse test yes no =>
    let fork := pc + test.testSize
    let middle := fork + 1 + yes.size
    let finish := middle + 1 + no.size
    test.code .logical ++ .branchIfFalse (distance fork (middle + 1)) ::
      (yes.code gate (fork + 1) ++ .branch (distance middle finish) :: no.code gate (middle + 1))
  | _, pc, .while test body =>
    let fork := pc + 1 + test.testSize
    let back := fork + 1 + body.size
    .gate (distance pc (back + 1)) 1 ::
      (test.code .logical ++ .branchIfFalse (distance fork (back + 1)) ::
        (body.code pc (fork + 1) ++ [.branch (distance back (pc + 1))]))
  | _, pc, .repeat body test =>
    let foot := pc + 1 + body.size
    let fork := foot + test.testSize
    .gate (distance pc (fork + 1)) (distance pc foot) ::
      (body.code pc (pc + 1) ++
        (test.code .logical ++ [.branchIfFalse (distance fork (pc + 1))]))
  | _, pc, .count var first last step body =>
    let bounds := Typed.codes (loopBounds first last step)
    let init := pc + bounds.length
    let back := init + 3 + body.size
    bounds ++ .loopInit (distance init (init + 2)) step.isSome ::
      .gate (distance (init + 1) (back + 1)) 1 ::
      .loopCounter var none (distance (init + 2) (back + 1)) ::
      (body.code (init + 1) (init + 3) ++ [.branch (distance back (init + 2))])

@[simp] theorem Statement.length_code (s : Statement) :
    ∀ gate pc, (s.code gate pc).length = s.size := by
  induction s with
  | nothing | line | leap | stop => intros; rfl
  | both first second ihf ihs => intros; simp [code, size, ihf, ihs]
  | ifThen test yes ih => intros; simp [code, size, ih, Expr.testSize]; omega
  | ifElse test yes no ihy ihn => intros; simp [code, size, ihy, ihn, Expr.testSize]; omega
  | «while» test body ih => intros; simp [code, size, ih, Expr.testSize]; omega
  | «repeat» body test ih => intros; simp [code, size, ih, Expr.testSize]; omega
  | count var first last step body ih => intros; simp [code, size, ih]; omega

/-- A statement that leaves a loop around it, or gives up its round. -/
def Statement.Leaps : Statement → Prop
  | .nothing => False
  | .line _ => False
  | .leap _ => True
  | .stop => False
  | .both first second => first.Leaps ∨ second.Leaps
  | .ifThen _ yes => yes.Leaps
  | .ifElse _ yes no => yes.Leaps ∨ no.Leaps
  | .while _ _ => False
  | .repeat _ _ => False
  | .count _ _ _ _ _ => False

end ArrayCommand
