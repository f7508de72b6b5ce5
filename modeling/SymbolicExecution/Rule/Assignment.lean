import SymbolicExecution.Derivation

/-!
# Writing storage

A write binds the symbol that its target reaches. A write that reaches no symbol gives its value to
operations only.
-/

namespace SymbolicExecution

/-- Bind the symbol that `target` reaches, if any. -/
def State.write (s : State) (r : Routine) (target : OpId) (v : Value) : State :=
  match s.storage? r target with
  | some x => s.setSymbol x v
  | none => s

namespace Rule

def store (c : Situation) (s : State) (target : OpId) (v : Value) : Eval State := do
  let s ← Eval.owned (s.setOperation target v)
  let s ← c.bind s v
  return s.write c.routine target v

def assign (c : Situation) : Eval State :=
  match c.operation.form with
  | .assign target value => do
    let (s, v) ← operand c.state value
    store c s target v
  | _ => c.refuse "expected an assignment"

def compound (c : Situation) : Eval State :=
  match c.operation.form with
  | .compound operator target value => do
    let (s, old) ← operand c.state target
    let (s, v) ← operand s value
    let (s, new) ← binaryValue s operator old v
    store c s target new
  | _ => c.refuse "expected a compound assignment"

/-- The symbol gets the new value. A postfixed step has the old value, a prefixed one the new. -/
def step (c : Situation) : Eval State :=
  match c.operation.form with
  | .step target down postfixed => do
    let (s, old) ← operand c.state target
    let (s, one) ← literalValue s (.int 1)
    let (s, new) ← binaryValue s (if down then .subtract else .add) old one
    c.bind (s.write c.routine target new) (if postfixed then old else new)
  | _ => c.refuse "expected an increment"

/-- A declared symbol without an initial value is unbound, also when it is declared again. -/
def declare (c : Situation) : Eval State :=
  match c.operation.form with
  | .declare x (some initial) => do
    let (s, v) ← operand c.state initial
    let s ← c.bind s v
    return s.setSymbol x v
  | .declare x none => pure (c.state.clearSymbol x)
  | _ => c.refuse "expected a variable declarator"

end Rule

end SymbolicExecution
