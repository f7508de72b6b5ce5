import SymbolicExecution.Routine
import SymbolicExecution.State

/-!
# Storage

Which symbol a write through an operation reaches. Parentheses and conversions lead to their
operand, a capture reference leads to the captured operation, a reference names its symbol (a field
only when it is static or read from `this`), and closure symbols lead to the symbol they share
storage with. A way that goes round in a circle reaches nothing.
-/

namespace SymbolicExecution

/-- Go from `a` along `next` to the end; nothing if the end is not reached within `hops` steps. -/
def follow? {α : Type} (next : α → Option α) : Nat → α → Option α
  | 0, _ => none
  | hops + 1, a =>
    match next a with
    | none => some a
    | some b => follow? next hops b

namespace Routine

/-- The operand of a parenthesis or conversion. -/
def inner? (r : Routine) (i : OpId) : Option OpId :=
  match (r.operation? i).map Operation.form with
  | some (.paren inner) | some (.convert inner) => some inner
  | _ => none

/-- A way through distinct operations of the routine is shorter than this. -/
def hops (r : Routine) : Nat := r.operations.size + 1

/-- The operation under all parentheses and conversions. -/
def unwrap? (r : Routine) (i : OpId) : Option OpId := follow? r.inner? r.hops i

/-- Where parentheses or conversions go round in a circle there is no operation under them, but no
block evaluates such a one. -/
def isThis (r : Routine) (i : OpId) : Bool :=
  match (r.unwrap? i).bind r.operation? with
  | some p => p.form = .this
  | none => false

/-- The symbol that an operation names by itself. -/
def namedSymbol? (r : Routine) (i : OpId) : Option SymbolId :=
  match (r.operation? i).map Operation.form with
  | some (.localRef x) | some (.paramRef x) | some (.fieldRef none x) => some x
  | some (.fieldRef (some receiver) x) => if r.isThis receiver then some x else none
  | _ => none

/-- The symbol that owns the storage of `x`. -/
def owner? (r : Routine) (x : SymbolId) : Option SymbolId :=
  follow? r.closures.get? (r.closures.entries.length + 1) x

end Routine

namespace State

/-- Where an operation passes its storage on to. -/
def passedTo? (s : State) (r : Routine) (i : OpId) : Option OpId :=
  match (r.operation? i).map Operation.form with
  | some (.paren inner) | some (.convert inner) => some inner
  | some (.captureRef c) => s.capture? c
  | _ => none

/-- The symbol that a write through `target` reaches, if one can be told. -/
def storage? (s : State) (r : Routine) (target : OpId) : Option SymbolId := do
  let last ← follow? (s.passedTo? r) r.hops target
  let named ← r.namedSymbol? last
  r.owner? named

end State

end SymbolicExecution
