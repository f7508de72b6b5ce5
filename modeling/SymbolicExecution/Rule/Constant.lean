import SymbolicExecution.Derivation

/-!
# Constants, `this` and unknown expressions
-/

namespace SymbolicExecution.Rule

def literal (c : Situation) : Eval State :=
  match c.operation.form with
  | .literal l => do
    let (s, v) ← literalValue c.state l
    c.bind s v
  | _ => c.refuse "expected a literal"

/-- Whatever its form, the operation has the one value of `this`. -/
def this (c : Situation) : Eval State := do
  let v ← Eval.intern .this
  let s ← c.bind c.state v
  Eval.feasible (s.learn? v (.nullness .notNull))

/-- Whatever its form, the operation has an unknown value. -/
def unknown (c : Situation) : Eval State := do
  let v ← Eval.fresh
  c.bind c.state v

end SymbolicExecution.Rule
