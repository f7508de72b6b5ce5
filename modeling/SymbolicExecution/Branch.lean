import SymbolicExecution.Derivation

/-!
# Branches

A condition that is known takes its side. Any other takes both sides, each learning the outcome and,
if wanted, what the outcome says about the operands; a side that contradicts itself is dropped.
-/

namespace SymbolicExecution

namespace State

/-- Learn about the value of an operation; an operation without a value teaches nothing. -/
def learnAt? (s : State) (i : OpId) (f : Fact) : Option State :=
  match s.operation? i with
  | some v => s.learn? v f
  | none => some s

/-- The interval of `v` when `v operator n` holds. An inequality moves a bound that it touches. -/
def bounded? (s : State) (v : Value) (operator : BinOp) (n : Int64) : Option Interval :=
  match operator with
  | .equals => some (Interval.exact n)
  | .notEquals =>
    match s.interval? v with
    | some r =>
      if r.lo = some n then (Word.next? n).map Interval.atLeast
      else if r.hi = some n then (Word.prev? n).map Interval.atMost
      else none
    | none => none
  | .lessThan => (Word.prev? n).map Interval.atMost
  | .lessOrEqual => some (Interval.atMost n)
  | .greaterThan => (Word.next? n).map Interval.atLeast
  | .greaterOrEqual => some (Interval.atLeast n)
  | _ => none

/-- Learn that `v operator n` holds. Unless the comparison itself came out true, that says nothing
of a value that may be null. -/
def learnBound? (s : State) (outcome : Bool) (v : Value) (operator : BinOp) (n : Int64) :
    Option State :=
  if !outcome && s.nullness? v != some .notNull then some s
  else s.settle? v ((s.bounded? v operator n).map Fact.within)

/-- Learn that a comparison with an exact integer holds. -/
def learnOrder? (s : State) (outcome : Bool) (operator : BinOp) (a b : Value) : Option State :=
  match s.integer? a, s.integer? b with
  | _, some n => s.learnBound? outcome a operator n
  | some n, none => s.learnBound? outcome b operator.swapped n
  | none, none => some s

/-- Learn that `a operator b` holds, where the tested comparison came out as `outcome`. -/
def learnComparison? (s : State) (outcome : Bool) (operator : BinOp) (a b : Value) :
    Option State :=
  match operator with
  | .equals => learnEquality .null
  | .notEquals => learnEquality .notNull
  | _ => s.learnOrder? outcome operator a b
where
  learnEquality (n : Nullness) : Option State :=
    if s.nullness? b = some .null then s.learn? a (.nullness n)
    else if s.nullness? a = some .null then s.learn? b (.nullness n)
    else s.learnOrder? outcome operator a b

end State

/-- What the outcome of a pattern test says about the tested value. -/
def Pattern.implied? : Pattern → Bool → Option Fact
  | .null, true | .constant .null, true | .notNull, false => some (.nullness .null)
  | .null, false | .constant .null, false | .notNull, true => some (.nullness .notNull)
  | .type _, true | .constant (.str _), true => some (.nullness .notNull)
  | .constant (.int n), true => some (.within (Interval.exact n))
  | .constant (.bool b), true => some (.truth b)
  | _, _ => none

namespace Routine

/-- What the outcome of an operation says about its operands. Of an operation that it leads on to,
`deeper` says what the outcome of that one says. -/
def learnBy? (r : Routine) (deeper : State → OpId → Bool → Option State) (s : State) (i : OpId)
    (outcome : Bool) : Option State :=
  match (r.operation? i).map Operation.form with
  | some (.paren inner) | some (.convert inner) => deeper s inner outcome
  | some (.unary .not a) => do
    let s ← s.learnAt? a (.truth !outcome)
    deeper s a !outcome
  | some (.binary operator a b) =>
    if operator = .and && outcome || operator = .or && !outcome then do
      let s ← s.learnAt? a (.truth outcome)
      let s ← s.learnAt? b (.truth outcome)
      let s ← deeper s a outcome
      deeper s b outcome
    else
      match if outcome then some operator else operator.opposite?,
          s.operation? a, s.operation? b with
      | some holding, some v, some w =>
        if operator.isComparison then s.learnComparison? outcome holding v w else some s
      | _, _, _ => some s
  | some (.isType a _) => if outcome then s.learnAt? a (.nullness .notNull) else some s
  | some (.isPattern a p) =>
    match p.implied? outcome with
    | some f => s.learnAt? a f
    | none => some s
  | _ => some s

/-- What the outcome of an operation says about the values under it, to a depth. As many levels as
there are `hops` suffice for a tree, which is what every condition of a block is. Only down a circle
they run out. -/
def learnFrom? (r : Routine) : Nat → State → OpId → Bool → Option State
  | 0 => fun s _ _ => some s
  | depth + 1 => r.learnBy? (r.learnFrom? depth)

/-- One side of a condition with the value `v`. -/
def side? (r : Routine) (learning : Bool) (s : State) (condition : OpId) (v : Value)
    (outcome : Bool) : Option State := do
  let s ← s.learn? v (.truth outcome)
  if learning then r.learnFrom? r.hops s condition outcome else some s

/-- The sides of a branch that can be taken, true before false. -/
def split (r : Routine) (learning : Bool) (s : State) (condition : OpId) :
    Eval (List (Bool × State)) := do
  let (s, v) ← operand s condition
  match s.truth? v with
  | some b => return [(b, s)]
  | none =>
    return [true, false].filterMap fun b =>
      (r.side? learning s condition v b).map fun s => (b, s)

end Routine

end SymbolicExecution
