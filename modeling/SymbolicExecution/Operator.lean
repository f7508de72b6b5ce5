/-!
# Operators

Binary and unary operators, with the two symmetries of comparisons: swapping the operands and
taking the opposite.
-/

namespace SymbolicExecution

inductive BinOp where
  | add
  | subtract
  | multiply
  | divide
  | remainder
  | equals
  | notEquals
  | lessThan
  | lessOrEqual
  | greaterThan
  | greaterOrEqual
  | and
  | or
  deriving DecidableEq, Ord

namespace BinOp

def isComparison : BinOp → Bool
  | equals | notEquals | lessThan | lessOrEqual | greaterThan | greaterOrEqual => true
  | _ => false

/-- The comparison of the swapped operands. -/
def swapped : BinOp → BinOp
  | lessThan => greaterThan
  | lessOrEqual => greaterOrEqual
  | greaterThan => lessThan
  | greaterOrEqual => lessOrEqual
  | o => o

/-- The comparison that holds where this one fails. -/
def opposite? : BinOp → Option BinOp
  | equals => some notEquals
  | notEquals => some equals
  | lessThan => some greaterOrEqual
  | lessOrEqual => some greaterThan
  | greaterThan => some lessOrEqual
  | greaterOrEqual => some lessThan
  | _ => none

def text : BinOp → String
  | add => "Add"
  | subtract => "Subtract"
  | multiply => "Multiply"
  | divide => "Divide"
  | remainder => "Remainder"
  | equals => "Equals"
  | notEquals => "NotEquals"
  | lessThan => "LessThan"
  | lessOrEqual => "LessThanOrEqual"
  | greaterThan => "GreaterThan"
  | greaterOrEqual => "GreaterThanOrEqual"
  | and => "And"
  | or => "Or"

def all : List BinOp :=
  [add, subtract, multiply, divide, remainder, equals, notEquals, lessThan, lessOrEqual,
    greaterThan, greaterOrEqual, and, or]

theorem swapped_swapped (o : BinOp) : o.swapped.swapped = o := by cases o <;> rfl

theorem opposite?_isSome (o : BinOp) : o.opposite?.isSome = o.isComparison := by cases o <;> rfl

end BinOp

inductive UnOp where
  | not
  | negate
  deriving DecidableEq, Ord

namespace UnOp

def text : UnOp → String
  | not => "Not"
  | negate => "Negate"

def all : List UnOp := [not, negate]

end UnOp

end SymbolicExecution
