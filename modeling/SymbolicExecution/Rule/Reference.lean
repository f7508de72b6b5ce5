import SymbolicExecution.Evaluation

/-!
# Reading storage

The first read of an unbound symbol binds it to an unknown value. A location that is only written
is not read.
-/

namespace SymbolicExecution.Rule

/-- The declared type of a symbol may exclude null. -/
def learnDeclared (c : Situation) (s : State) (x : SymbolId) (v : Value) : Eval State :=
  if c.symbols.excludesNull x then Eval.feasible (s.learn? v (.nullness .notNull)) else pure s

def readSymbol (c : Situation) (s : State) (x : SymbolId) : Eval State :=
  match s.symbol? x with
  | some v => c.bind s v
  | none => do
    let v ← Eval.fresh
    let s ← c.bind s v
    learnDeclared c (s.setSymbol x v) x v

def readUntracked (c : Situation) (s : State) (x : SymbolId) : Eval State := do
  let v ← Eval.fresh
  let s ← c.bind s v
  learnDeclared c s x v

/-- Read the storage of the operation, which names `x`. -/
def readStorage (c : Situation) (s : State) (x : SymbolId) : Eval State :=
  match s.storage? c.routine c.operation.id with
  | some tracked => readSymbol c s tracked
  | none => readUntracked c s x

def symbolRef (c : Situation) : Eval State :=
  match c.operation.form with
  | .localRef x | .paramRef x =>
    if c.isWritten then pure c.state else readStorage c c.state x
  | _ => c.refuse "expected a local or parameter reference"

def fieldRef (c : Situation) : Eval State :=
  match c.operation.form with
  | .fieldRef receiver x => do
    let s ← match receiver with
      | some i => do
        let (s, v) ← operand c.state i
        pure (s.dereference v)
      | none => pure c.state
    if c.isWritten then pure s else readStorage c s x
  | _ => c.refuse "expected a field reference"

def element (c : Situation) : Eval State :=
  match c.operation.form with
  | .element array index => do
    let (s, v) ← operand c.state array
    let (s, _) ← operand s index
    let s := s.dereference v
    if c.isWritten then pure s
    else do
      let w ← Eval.fresh
      c.bind s w
  | _ => c.refuse "expected an array element reference"

/-- Parentheses and conversions have the value of their operand. -/
def passThrough (c : Situation) : Eval State :=
  match c.operation.form with
  | .paren inner | .convert inner =>
    if c.isWritten then pure c.state
    else do
      let (s, v) ← operand c.state inner
      c.bind s v
  | _ => c.refuse "expected a parenthesized expression or conversion"

def capture (c : Situation) : Eval State :=
  match c.operation.form with
  | .capture slot value => do
    let s ← Eval.owned (c.state.setCapture slot value)
    if c.routine.isWritten value then pure s
    else do
      let (s, v) ← operand s value
      c.bind s v
  | _ => c.refuse "expected a flow capture"

def captureRef (c : Situation) : Eval State :=
  match c.operation.form with
  | .captureRef slot =>
    if c.isWritten then pure c.state
    else
      match c.state.capture? slot with
      | some captured => do
        let (s, v) ← operand c.state captured
        c.bind s v
      | none => do
        let v ← Eval.fresh
        c.bind c.state v
  | _ => c.refuse "expected a flow capture reference"

end SymbolicExecution.Rule
