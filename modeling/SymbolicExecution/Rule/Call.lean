import SymbolicExecution.Evaluation

/-!
# Calls and creations

What is called is unknown and may change all that it can reach: the storage of arguments passed by
reference, and every field.
-/

namespace SymbolicExecution.Rule

/-- Bind the symbols that writable arguments reach to unknown values, argument by argument. -/
def renewArguments (r : Routine) : List Argument → State → Eval State
  | [], s => pure s
  | a :: rest, s =>
    match s.storage? r a.value with
    | some x => do
      let v ← Eval.fresh
      let s ← Eval.owned ((s.setSymbol x v).setOperation a.value v)
      renewArguments r rest s
    | none => renewArguments r rest s

def forgetFields (symbols : Symbols) (s : State) : State :=
  { s with symbols := s.symbols.filter fun x _ => !symbols.isField x }

def invalidate (c : Situation) (s : State) (arguments : List Argument) : Eval State := do
  let s ← renewArguments c.routine (arguments.filter Argument.isWritable) s
  return forgetFields c.symbols s

def call (c : Situation) : Eval State :=
  match c.operation.form with
  | .call receiver _ arguments => do
    let s ← match receiver with
      | some i => do
        let (s, v) ← operand c.state i
        pure (s.dereference v)
      | none => pure c.state
    let s ← invalidate c s arguments
    let v ← Eval.fresh
    c.bind s v
  | _ => c.refuse "expected an invocation"

/-- A created object is not null. -/
def create (c : Situation) : Eval State :=
  match c.operation.form with
  | .create _ arguments => do
    let s ← invalidate c c.state arguments
    let v ← Eval.fresh
    let s ← c.bind s v
    Eval.feasible (s.learn? v (.nullness .notNull))
  | _ => c.refuse "expected an object creation"

end SymbolicExecution.Rule
