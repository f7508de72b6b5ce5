import SymbolicExecution.Check

/-!
# Null dereferences

A receiver that is known to be null where it is used.
-/

namespace SymbolicExecution

/-- The operand that the form dereferences. -/
def Form.receiver? : Form → Option OpId
  | .call receiver _ _ => receiver
  | .fieldRef receiver _ => receiver
  | .element array _ => some array
  | _ => none

namespace NullDereference

def name : String := "null-dereference"

/-- Where the expression that stands for an operation continues. -/
def leadsTo? (s : Sighting) (i : OpId) : Option OpId :=
  match (s.routine.operation? i).map Operation.form with
  | some (.paren inner) | some (.convert inner) => some inner
  | some (.captureRef c) => s.state.capture? c
  | some (.capture _ value) => some value
  | _ => none

def shown (s : Sighting) (i : OpId) : String :=
  match ((follow? (leadsTo? s) s.routine.hops i).bind s.routine.operation?).map Operation.form with
  | some (.localRef x) | some (.paramRef x) | some (.fieldRef _ x) => s.symbols.name x
  | some (.literal .null) => "null"
  | some (.call _ method _) => method ++ "()"
  | _ => "expression"

def message (shown : String) : String := "'" ++ shown ++ "' is null on at least one execution path."

def find (s : Sighting) : List Finding :=
  match s.operation.bind fun o => o.form.receiver? with
  | some receiver =>
    if (s.state.operation? receiver).bind s.state.nullness? = some .null then
      [s.finding name .error (message (shown s receiver))]
    else []
  | none => []

end NullDereference

/-- Reports receivers that are null on some path. -/
def Check.nullDereference {σ : Type} : Check σ :=
  Check.ofFindings NullDereference.name NullDereference.find

end SymbolicExecution
