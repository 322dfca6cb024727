import Daloy.Foundations.Triples

/-! # Functions that may be asynchronous

Nothing here mentions a program. A function that is called does its work up to its first `await` and
then gives its caller a value or a promise. What is left of it is a task: pieces of work between
which others run.

* `Task.ofCall`, `Fn.ofCall`: a call as a task of one piece, and as a function.
-/

namespace Daloy.Effects
set_option autoImplicit false

variable {σ ε α β : Type}

inductive Task (σ ε α : Type)
  | done (result : Except ε α)
  | run (step : σ → σ) (next : σ → Task σ ε α)

/-- What a function gives its caller. -/
inductive Settling (σ ε α : Type)
  | value (a : α)
  | promise (task : Task σ ε α)

abbrev Fn (σ ε α : Type) := Call σ ε (Settling σ ε α)

namespace Task

def ofCall (c : Call σ ε α) : Task σ ε α :=
  run (fun s => match c s with
    | .ok _ s' => s'
    | .error _ s' => s')
    fun s => match c s with
      | .ok a _ => done (.ok a)
      | .error e _ => done (.error e)

def discard : Task σ ε α → Task σ ε Unit
  | done _ => done (.ok ())
  | run step next => run step fun s => (next s).discard

end Task

def Fn.ofCall (isAsync : Bool) (c : Call σ ε α) : Fn σ ε α :=
  if isAsync then fun s => .ok (.promise (Task.ofCall c)) s
  else EStateM.bind c fun a => EStateM.pure (.value a)

end Daloy.Effects
