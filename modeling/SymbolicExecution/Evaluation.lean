import SymbolicExecution.Numbering
import SymbolicExecution.Storage
import SymbolicExecution.Symbols

/-!
# Evaluating one operation

An evaluation numbers values as it goes and ends with a result, with the finding that the path is
infeasible, or with a refusal. Values numbered before a refusal stay numbered.
-/

namespace SymbolicExecution

/-- Why an operation was not evaluated. -/
inductive Refusal where
  | unsupported (operation : OpId) (tag : Tag) (reason : String)
  | foreign (f : Foreign)
  deriving DecidableEq

namespace Refusal

def message : Refusal → String
  | unsupported operation tag reason =>
    "unsupported operation " ++ operation.text ++ " (" ++ tag.text ++ "): " ++ reason
  | foreign f => f.message

end Refusal

inductive Verdict (α : Type) where
  | result (a : α)
  | infeasible
  | refused (r : Refusal)

def Eval (α : Type) : Type := Numbering → Verdict α × Numbering

namespace Eval

variable {α β : Type}

instance : Monad Eval where
  pure a n := (.result a, n)
  bind x f n :=
    match x n with
    | (.result a, n) => f a n
    | (.infeasible, n) => (.infeasible, n)
    | (.refused r, n) => (.refused r, n)

def infeasible : Eval α := fun n => (.infeasible, n)

def refuse (r : Refusal) : Eval α := fun n => (.refused r, n)

def fresh : Eval Value := fun n => (.result n.fresh.1, n.fresh.2)

def intern (t : Term) : Eval Value := fun n => (.result (n.intern t).1, (n.intern t).2)

def feasible : Option α → Eval α
  | some a => pure a
  | none => infeasible

def owned : Except Foreign α → Eval α
  | .ok a => pure a
  | .error f => refuse (.foreign f)

end Eval

/-- What an evaluation may look at. -/
structure Situation where
  operation : Operation
  state : State
  routine : Routine
  symbols : Symbols

namespace Situation

variable {α : Type} (c : Situation)

def unsupported (reason : String) : Refusal :=
  .unsupported c.operation.id c.operation.tag reason

def refuse (reason : String) : Eval α := Eval.refuse (c.unsupported reason)

/-- Give the operation its value. -/
def bind (s : State) (v : Value) : Eval State := Eval.owned (s.setOperation c.operation.id v)

/-- The operation is a location that is written without being read. -/
def isWritten : Bool := c.routine.isWritten c.operation.id

end Situation

/-- The value of an operand. An operand without a value stands for an unknown one. -/
def operand (s : State) (i : OpId) : Eval (State × Value) :=
  match s.operation? i with
  | some v => pure (s, v)
  | none => do
    let v ← Eval.fresh
    let s ← Eval.owned (s.setOperation i v)
    return (s, v)

/-- A dereferenced value is not null from here on, except one that is known to be null. -/
def State.dereference (s : State) (v : Value) : State := (s.learn? v (.nullness .notNull)).getD s

end SymbolicExecution
