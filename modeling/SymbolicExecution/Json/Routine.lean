import SymbolicExecution.Json.Operation
import SymbolicExecution.Routine
import SymbolicExecution.Symbols

/-!
# Blocks and symbols as JSON
-/

namespace SymbolicExecution

open Json (required optional list? ofOption)

instance : Codec Exit where
  encode
    | .goTo target => .object [("Goto", encode target)]
    | .branch condition whenTrue whenFalse =>
      .object
        [("Branch", .object
          [("condition", encode condition), ("when_true", encode whenTrue),
            ("when_false", encode whenFalse)])]
    | .leave value => .object [("Return", ofOption encode value)]
    | .raise value => .object [("Throw", ofOption encode value)]
  decode? j :=
    match j.case? with
    | some ("Goto", some c) => (decode? c).map .goTo
    | some ("Branch", some c) =>
      match c.caseFields? ["condition", "when_true", "when_false"] with
      | some [condition, whenTrue, whenFalse] => do
        return .branch (← required decode? condition) (← required decode? whenTrue)
          (← required decode? whenFalse)
      | _ => none
    | some ("Return", some c) => (optional decode? (some c)).map .leave
    | some ("Throw", some c) => (optional decode? (some c)).map .raise
    | _ => none

instance : Codec Block where
  encode b :=
    .object
      [("id", encode b.id), ("operations", .list (b.roots.map encode)), ("exit", encode b.exit),
        ("exception_handler", ofOption encode b.handler)]
  decode? j :=
    match j.fields? ["id", "operations", "exit", "exception_handler"] with
    | some [i, roots, exit, handler] => do
      return ⟨← required decode? i, ← required (list? decode?) roots, ← required decode? exit,
        ← optional decode? handler⟩
    | _ => none

instance : Codec SymbolKind where
  encode
    | .localVariable => .str "Local"
    | .parameter => .str "Parameter"
    | .field isStatic => .object [("Field", .object [("is_static", encode isStatic)])]
    | .other => .str "Other"
  decode? j :=
    match j.case?, j.name? with
    | some ("Field", some c), _ =>
      match c.caseFields? ["is_static"] with
      | some [isStatic] => (required decode? isStatic).map .field
      | _ => none
    | _, some "Local" => some .localVariable
    | _, some "Parameter" => some .parameter
    | _, some "Other" => some .other
    | _, _ => none

instance : Codec Description where
  encode d :=
    .object
      [("id", encode d.id), ("name", encode d.name), ("kind", encode d.kind),
        ("nullable", encode d.nullable)]
  decode? j :=
    match j.fields? ["id", "name", "kind", "nullable"] with
    | some [i, name, kind, nullable] => do
      return ⟨← required decode? i, ← required decode? name, ← required decode? kind,
        ← required decode? nullable⟩
    | _ => none

end SymbolicExecution
