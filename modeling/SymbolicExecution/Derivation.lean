import SymbolicExecution.Evaluation

/-!
# Derived values

Literals and operator results are numbered by their term. Where the facts about the operands decide
a result, the result gets the deciding fact.
-/

namespace SymbolicExecution

namespace Literal

/-- What holds of every value of the literal. -/
def facts : Literal → List Fact
  | int n => [.within (Interval.exact n), .nullness .notNull]
  | bool b => [.truth b, .nullness .notNull]
  | str _ => [.nullness .notNull]
  | null => [.nullness .null]

end Literal

namespace BinOp

/-- Exact integer arithmetic. -/
def compute? : BinOp → Int64 → Int64 → Option Int64
  | add => Word.add?
  | subtract => Word.sub?
  | multiply => Word.mul?
  | divide => Word.div?
  | remainder => Word.rem?
  | _ => fun _ _ => none

/-- Conjunction and disjunction of truth values that may be unknown. -/
def connect? : BinOp → Option Bool → Option Bool → Option Bool
  | and, some false, _ | and, _, some false => some false
  | and, some true, some true => some true
  | or, some true, _ | or, _, some true => some true
  | or, some false, some false => some false
  | _, _, _ => none

end BinOp

namespace State

/-- Whether two values are equal, when the facts tell. -/
def equal? (s : State) (a b : Value) : Option Bool :=
  if a = b then some true
  else
    match s.nullness? a, s.nullness? b with
    | some .null, some .null => some true
    | some .null, some .notNull | some .notNull, some .null => some false
    | _, _ => apart? <|> sameTruth?
where
  apart? : Option Bool :=
    match s.interval? a, s.interval? b with
    | some r, some t =>
      if (r.meet? t).isNone then some false
      else
        match r.single?, t.single? with
        | some m, some n => some (m = n)
        | _, _ => none
    | _, _ => none
  sameTruth? : Option Bool :=
    match s.truth? a, s.truth? b with
    | some p, some q => some (p = q)
    | _, _ => none

/-- The fact that decides `a operator b`, if there is one. -/
def fold? (s : State) (operator : BinOp) (a b : Value) : Option Fact :=
  match operator with
  | .add | .subtract | .multiply | .divide | .remainder => do
    let m ← s.integer? a
    let n ← s.integer? b
    let k ← operator.compute? m n
    return .within (Interval.exact k)
  | .equals => (s.equal? a b).map Fact.truth
  | .notEquals => (s.equal? a b).map fun e => .truth (!e)
  | .lessThan | .lessOrEqual | .greaterThan | .greaterOrEqual => do
    let r ← s.interval? a
    let t ← s.interval? b
    let holds ← Interval.compare? operator r t
    return .truth holds
  | .and | .or => (operator.connect? (s.truth? a) (s.truth? b)).map Fact.truth

/-- The fact that decides the result of a unary operator, if there is one. -/
def foldUnary? (s : State) (operator : UnOp) (a : Value) : Option Fact :=
  match operator with
  | .not => (s.truth? a).map fun b => .truth (!b)
  | .negate => ((s.integer? a).bind Word.neg?).map fun n => .within (Interval.exact n)

/-- Learn a deciding fact, if there is one. -/
def settle? (s : State) (v : Value) : Option Fact → Option State
  | some f => s.learn? v f
  | none => some s

/-- Whether a value matches a pattern, when the facts tell. -/
def matches? (s : State) (v : Value) : Pattern → Option Bool
  | .discard => some true
  | .null | .constant .null => (s.nullness? v).map fun n => n = .null
  | .notNull => (s.nullness? v).map fun n => n = .notNull
  | .type _ | .constant (.str _) => if s.nullness? v = some .null then some false else none
  | .constant (.int n) =>
    if s.nullness? v = some .null then some false
    else do
      let r ← s.interval? v
      if r.contains n then r.single?.map fun m => m = n else some false
  | .constant (.bool b) =>
    if s.nullness? v = some .null then some false else (s.truth? v).map fun a => a = b

end State

/-- The value of a literal. -/
def literalValue (s : State) (l : Literal) : Eval (State × Value) := do
  let v ← Eval.intern (.literal l)
  let s ← Eval.feasible (s.learnAll? v l.facts)
  return (s, v)

/-- The value of a binary operator on two values. -/
def binaryValue (s : State) (operator : BinOp) (a b : Value) : Eval (State × Value) := do
  let v ← Eval.intern (.binary operator a b)
  let s ← Eval.feasible (s.settle? v (s.fold? operator a b))
  return (s, v)

end SymbolicExecution
