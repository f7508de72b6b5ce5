import SymbolicExecution.Operator
import SymbolicExecution.Word

/-!
# Integer intervals

Closed intervals of 64-bit integers; a missing bound is infinite. An interval may be written with
its bounds the wrong way round and then holds nothing.
-/

namespace SymbolicExecution

structure Interval where
  lo : Option Int64
  hi : Option Int64
  deriving DecidableEq, Ord

namespace Interval

def exact (n : Int64) : Interval := ⟨some n, some n⟩

def atLeast (n : Int64) : Interval := ⟨some n, none⟩

def atMost (n : Int64) : Interval := ⟨none, some n⟩

/-- The only element, when the bounds agree. -/
def single? (r : Interval) : Option Int64 :=
  match r.lo, r.hi with
  | some a, some b => if a = b then some a else none
  | _, _ => none

def contains (r : Interval) (n : Int64) : Bool :=
  r.lo.all (fun a => decide (a ≤ n)) && r.hi.all (fun b => decide (n ≤ b))

def higher : Option Int64 → Option Int64 → Option Int64
  | some a, some b => some (if a ≤ b then b else a)
  | some a, none => some a
  | none, b => b

def lower : Option Int64 → Option Int64 → Option Int64
  | some a, some b => some (if a ≤ b then a else b)
  | some a, none => some a
  | none, b => b

/-- The intersection, unless the bounds cross. -/
def meet? (r s : Interval) : Option Interval :=
  let t : Interval := ⟨higher r.lo s.lo, lower r.hi s.hi⟩
  match t.lo, t.hi with
  | some a, some b => if b < a then none else some t
  | _, _ => some t

/-- Every element of `r` is below every element of `s`, as far as the bounds tell. -/
def allBelow (r s : Interval) : Bool :=
  match r.hi, s.lo with
  | some b, some a => decide (b < a)
  | _, _ => false

/-- Every element of `r` is at most every element of `s`, as far as the bounds tell. -/
def allUpTo (r s : Interval) : Bool :=
  match r.hi, s.lo with
  | some b, some a => decide (b ≤ a)
  | _, _ => false

def less? (r s : Interval) : Option Bool :=
  if r.allBelow s then some true else if s.allUpTo r then some false else none

def lessOrEqual? (r s : Interval) : Option Bool :=
  if r.allUpTo s then some true else if s.allBelow r then some false else none

/-- What the bounds alone say about an order comparison. -/
def compare? (o : BinOp) (r s : Interval) : Option Bool :=
  match o with
  | .lessThan => less? r s
  | .lessOrEqual => lessOrEqual? r s
  | .greaterThan => less? s r
  | .greaterOrEqual => lessOrEqual? s r
  | _ => none

def boundText (infinite : String) : Option Int64 → String
  | some n => toString n.toInt
  | none => infinite

def text (r : Interval) : String :=
  match r.single? with
  | some n => toString n.toInt
  | none => boundText "-inf" r.lo ++ "..=" ++ boundText "+inf" r.hi

end Interval

end SymbolicExecution
