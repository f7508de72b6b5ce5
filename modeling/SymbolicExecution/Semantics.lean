import SymbolicExecution.Rule.Assignment
import SymbolicExecution.Rule.Call
import SymbolicExecution.Rule.Computation
import SymbolicExecution.Rule.Constant
import SymbolicExecution.Rule.Reference

/-!
# Semantics

A rule takes a situation to its successor states; none means that the path is infeasible. Each tag
has a chain of rules: the first one starts from the incoming state, each further one goes on from
every state of the one before.
-/

namespace SymbolicExecution

/-- What a rule answers: the successors, or a refusal. -/
abbrev Successors : Type := Except Refusal (List State)

abbrev Rule : Type := Situation → Numbering → Successors × Numbering

namespace Rule

def ofEval (f : Situation → Eval State) : Rule := fun c n =>
  match f c n with
  | (.result s, n) => (.ok [s], n)
  | (.infeasible, n) => (.ok [], n)
  | (.refused r, n) => (.error r, n)

/-- Go on from each state in turn; the first refusal ends it. -/
def each (rule : Rule) (c : Situation) : List State → Numbering → Successors × Numbering
  | [], n => (.ok [], n)
  | s :: rest, n =>
    match rule { c with state := s } n with
    | (.error r, n) => (.error r, n)
    | (.ok first, n) =>
      match each rule c rest n with
      | (.error r, n) => (.error r, n)
      | (.ok others, n) => (.ok (first ++ others), n)

def chain (c : Situation) : List Rule → List State → Numbering → Successors × Numbering
  | [], states, n => (.ok states, n)
  | rule :: rest, states, n =>
    match each rule c states n with
    | (.error r, n) => (.error r, n)
    | (.ok states, n) => chain c rest states n

/-- The meaning of each form. -/
def builtin : Tag → Rule
  | .literal => ofEval literal
  | .localRef | .paramRef => ofEval symbolRef
  | .fieldRef => ofEval fieldRef
  | .this => ofEval this
  | .element => ofEval element
  | .paren | .convert => ofEval passThrough
  | .capture => ofEval capture
  | .captureRef => ofEval captureRef
  | .assign => ofEval assign
  | .compound => ofEval compound
  | .step => ofEval step
  | .declare => ofEval declare
  | .binary => ofEval binary
  | .unary => ofEval unary
  | .call => ofEval call
  | .create => ofEval create
  | .isType => ofEval isType
  | .isPattern => ofEval isPattern
  | .other => ofEval unknown

end Rule

structure Semantics where
  rules : Tag → List Rule

namespace Semantics

def empty : Semantics := ⟨fun _ => []⟩

def builtin : Semantics := ⟨fun t => [Rule.builtin t]⟩

/-- Add a rule at the end of a chain. -/
def extend (m : Semantics) (t : Tag) (rule : Rule) : Semantics :=
  ⟨fun u => if u = t then m.rules u ++ [rule] else m.rules u⟩

def supports (m : Semantics) (t : Tag) : Bool := !(m.rules t).isEmpty

/-- Evaluate an operation by the chain of its tag. -/
def process (m : Semantics) : Rule := fun c n =>
  match m.rules c.operation.tag with
  | [] => (.error (c.unsupported "no processor registered"), n)
  | rules => Rule.chain c rules [c.state] n

end Semantics

end SymbolicExecution
