import SymbolicExecution.Fact
import SymbolicExecution.Table

/-!
# Program states

What is known at one point of one path: the values of the operations evaluated so far, the values
bound to symbols, the facts about values, and the operations recorded in capture slots. Two states
are equal when they agree on all four.
-/

namespace SymbolicExecution

/-- An operation of another routine was given to a state. -/
structure Foreign where
  operation : OpId
  routine : RoutineId
  deriving DecidableEq

namespace Foreign

def message (f : Foreign) : String :=
  "operation " ++ f.operation.text ++ " does not belong to routine " ++ f.routine.text

end Foreign

structure State where
  routine : RoutineId
  operations : Table OpId Value
  symbols : Table SymbolId Value
  facts : Table Value Facts
  captures : Table CaptureId OpId
  deriving DecidableEq

namespace State

def entry (routine : RoutineId) : State :=
  ⟨routine, Table.empty, Table.empty, Table.empty, Table.empty⟩

def operation? (s : State) (i : OpId) : Option Value := s.operations.get? i

def symbol? (s : State) (x : SymbolId) : Option Value := s.symbols.get? x

def capture? (s : State) (c : CaptureId) : Option OpId := s.captures.get? c

def factsOf (s : State) (v : Value) : Facts := (s.facts.get? v).getD Facts.empty

def truth? (s : State) (v : Value) : Option Bool := (s.factsOf v).truth

def nullness? (s : State) (v : Value) : Option Nullness := (s.factsOf v).nullness?

def interval? (s : State) (v : Value) : Option Interval := (s.factsOf v).interval

def integer? (s : State) (v : Value) : Option Int64 := (s.interval? v).bind Interval.single?

def setOperation (s : State) (i : OpId) (v : Value) : Except Foreign State :=
  if i.routine = s.routine then .ok { s with operations := s.operations.insert i v }
  else .error ⟨i, s.routine⟩

def setCapture (s : State) (c : CaptureId) (i : OpId) : Except Foreign State :=
  if i.routine = s.routine then .ok { s with captures := s.captures.insert c i }
  else .error ⟨i, s.routine⟩

def setSymbol (s : State) (x : SymbolId) (v : Value) : State :=
  { s with symbols := s.symbols.insert x v }

def clearSymbol (s : State) (x : SymbolId) : State := { s with symbols := s.symbols.erase x }

/-- Add a fact about a value; nothing when it contradicts what is known. -/
def learn? (s : State) (v : Value) (f : Fact) : Option State :=
  ((s.factsOf v).learn? f).map fun known =>
    if known = s.factsOf v then s else { s with facts := s.facts.insert v known }

def learnAll? (s : State) (v : Value) (l : List Fact) : Option State :=
  l.foldlM (fun s f => s.learn? v f) s

/-- Drop the values of operations other than captured ones, and the facts about values that nothing
names any more. -/
def forgetOperations (s : State) : State :=
  let kept := s.operations.filter fun i _ => s.captures.values.contains i
  { s with
    operations := kept
    facts := s.facts.filter fun v _ => kept.values.contains v || s.symbols.values.contains v }

def line (name content : String) : String := "  " ++ name ++ ": " ++ content ++ "\n"

def text (s : State) : String :=
  "Symbols:\n" ++ String.join (s.symbols.entries.map fun (x, v) => line x.text v.text) ++
  "Constraints:\n" ++ String.join (s.facts.entries.map fun (v, f) => line v.text f.text) ++
  "Operations:\n" ++ String.join (s.operations.entries.map fun (i, v) => line i.text v.text) ++
  if s.captures.isEmpty then ""
  else "Captures:\n" ++ String.join (s.captures.entries.map fun (c, i) => line c.text i.text)

end State

end SymbolicExecution
