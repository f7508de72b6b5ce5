import SymbolicExecution.Derivation

/-!
# Operators and tests
-/

namespace SymbolicExecution.Rule

def binary (c : Situation) : Eval State :=
  match c.operation.form with
  | .binary operator left right => do
    let (s, a) ← operand c.state left
    let (s, b) ← operand s right
    let (s, v) ← binaryValue s operator a b
    c.bind s v
  | _ => c.refuse "expected a binary operation"

def unary (c : Situation) : Eval State :=
  match c.operation.form with
  | .unary operator i => do
    let (s, a) ← operand c.state i
    let v ← Eval.intern (.unary operator a)
    let s ← c.bind s v
    Eval.feasible (s.settle? v (s.foldUnary? operator a))
  | _ => c.refuse "expected a unary operation"

/-- Null is of no type. -/
def isType (c : Situation) : Eval State :=
  match c.operation.form with
  | .isType i typeName => do
    let (s, a) ← operand c.state i
    let v ← Eval.intern (.isType typeName a)
    let s ← c.bind s v
    Eval.feasible
      (s.settle? v (if s.nullness? a = some .null then some (.truth false) else none))
  | _ => c.refuse "expected a type test"

def isPattern (c : Situation) : Eval State :=
  match c.operation.form with
  | .isPattern i pattern => do
    let (s, a) ← operand c.state i
    let v ← Eval.intern (.isPattern pattern a)
    let s ← c.bind s v
    Eval.feasible (s.settle? v ((s.matches? a pattern).map Fact.truth))
  | _ => c.refuse "expected a pattern test"

end SymbolicExecution.Rule
