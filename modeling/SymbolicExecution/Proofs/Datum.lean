import SymbolicExecution.Routine
import SymbolicExecution.Word

/-!
# Runtime values

What a program computes with: null, booleans, 64-bit integers, strings and other objects. Arithmetic
wraps around, a quotient or remainder exists where the exact one does, a comparison of order with
null is false, and equality across sorts is false. Where an operator has no result a program stops.

Less is determined by the operands alone: the result of arithmetic where it fits, of a comparison of
order where it is one of integers, and of a connective where the booleans among its operands decide.
-/

namespace SymbolicExecution

inductive Datum where
  | null
  | bool (b : Bool)
  | int (n : Int64)
  | str (s : String)
  | object (k : Nat)
  deriving DecidableEq

/-- The tests of runtime types, which are not part of the program. Null is of no type. -/
structure TypeTest where
  admits : String → Datum → Bool
  not_null (typeName : String) : admits typeName .null = false

def Literal.datum : Literal → Datum
  | int n => .int n
  | bool b => .bool b
  | str s => .str s
  | null => .null

/-- The datum matches the pattern. -/
def Pattern.admits (types : TypeTest) : Pattern → Datum → Bool
  | null, d => d = .null
  | notNull, d => d ≠ .null
  | constant l, d => d = l.datum
  | type typeName, d => types.admits typeName d
  | discard, _ => true

namespace BinOp

def isOrder : BinOp → Bool
  | lessThan | lessOrEqual | greaterThan | greaterOrEqual => true
  | _ => false

theorem isOrder_swapped {o : BinOp} (order : o.isOrder) : o.swapped.isOrder := by
  cases o <;> first | rfl | cases order

def isArithmetic : BinOp → Bool
  | add | subtract | multiply | divide | remainder => true
  | _ => false

def calculate? : BinOp → Int64 → Int64 → Option Int64
  | add, m, n => some (m + n)
  | subtract, m, n => some (m - n)
  | multiply, m, n => some (m * n)
  | divide, m, n => Word.div? m n
  | remainder, m, n => Word.rem? m n
  | _, _, _ => none

/-- The order comparison of two integers. -/
def orders : BinOp → Int64 → Int64 → Bool
  | lessThan, m, n => m < n
  | lessOrEqual, m, n => m ≤ n
  | greaterThan, m, n => n < m
  | greaterOrEqual, m, n => n ≤ m
  | _, _, _ => false

/-- The order comparison of two data. -/
def compare? (operator : BinOp) : Datum → Datum → Option Bool
  | .null, _ | _, .null => some false
  | .int m, .int n => some (operator.orders m n)
  | _, _ => none

/-- Both operands of a connective are evaluated. -/
def join? (operator : BinOp) : Datum → Datum → Option Bool
  | .bool p, .bool q => some (if operator = .and then p && q else p || q)
  | _, _ => none

def result? (operator : BinOp) (a b : Datum) : Option Datum :=
  match operator with
  | .equals => some (.bool (a = b))
  | .notEquals => some (.bool (a ≠ b))
  | .lessThan | .lessOrEqual | .greaterThan | .greaterOrEqual =>
    (operator.compare? a b).map .bool
  | .and | .or => (operator.join? a b).map .bool
  | .add | .subtract | .multiply | .divide | .remainder =>
    match a, b with
    | .int m, .int n => (operator.calculate? m n).map .int
    | _, _ => none

theorem orders_swapped (operator : BinOp) (m n : Int64) :
    operator.swapped.orders n m = operator.orders m n := by
  cases operator <;> rfl

/-- A comparison may be read from right to left. -/
theorem result?_swapped {operator : BinOp} (comparison : operator.isComparison) (a b : Datum) :
    operator.swapped.result? b a = operator.result? a b := by
  have order : operator.swapped.compare? b a = operator.compare? a b := by
    cases a <;> cases b <;> simp [compare?, orders_swapped]
  cases operator with
  | equals | notEquals => simp [swapped, result?, eq_comm]
  | lessThan | lessOrEqual | greaterThan | greaterOrEqual =>
    exact congrArg (Option.map Datum.bool) order
  | add | subtract | multiply | divide | remainder | and | or => cases comparison

/-- Where a comparison fails its opposite holds, unless it is one of order with null. -/
theorem result?_opposite {operator holding : BinOp} {a b : Datum}
    (opposite : operator.opposite? = some holding)
    (fails : operator.result? a b = some (.bool false))
    (present : holding.isOrder → a ≠ .null ∧ b ≠ .null) :
    holding.result? a b = some (.bool true) := by
  have order : holding.isOrder → operator.compare? a b = some false →
      (∀ m n, operator.orders m n = false → holding.orders m n = true) →
      holding.compare? a b = some true := by
    intro isOrder failed negated
    obtain ⟨left, right⟩ := present isOrder
    cases a <;> cases b <;> simp_all [compare?]
  have unwrap : ∀ {x : Option Bool}, x.map Datum.bool = some (.bool false) → x = some false := by
    intro x h
    simpa using h
  cases operator with
  | equals =>
    cases opposite
    simpa [result?] using fails
  | notEquals =>
    cases opposite
    simpa [result?] using fails
  | lessThan =>
    cases opposite
    have := order rfl (unwrap fails) (by simp [orders, Int64.not_lt])
    simp [result?, this]
  | lessOrEqual =>
    cases opposite
    have := order rfl (unwrap fails) (by simp [orders, Int64.not_le])
    simp [result?, this]
  | greaterThan =>
    cases opposite
    have := order rfl (unwrap fails) (by simp [orders, Int64.not_lt])
    simp [result?, this]
  | greaterOrEqual =>
    cases opposite
    have := order rfl (unwrap fails) (by simp [orders, Int64.not_le])
    simp [result?, this]
  | add | subtract | multiply | divide | remainder | and | or => cases opposite

/-- An order comparison that holds is one of integers. -/
theorem exists_int_of_result? {operator : BinOp} (order : operator.isOrder) {a : Datum} {n : Int64}
    (holds : operator.result? a (.int n) = some (.bool true)) : ∃ m, a = .int m := by
  have same : operator.result? a (.int n) = (operator.compare? a (.int n)).map .bool := by
    cases operator <;> first | rfl | cases order
  rw [same] at holds
  cases a with
  | int m => exact ⟨m, rfl⟩
  | null | bool | str | object => simp [compare?] at holds

/-- The exact result, where it fits. A remainder goes with a quotient. -/
def fitting? : BinOp → Int64 → Int64 → Option Int64
  | add, m, n => word? (m.toInt + n.toInt)
  | subtract, m, n => word? (m.toInt - n.toInt)
  | multiply, m, n => word? (m.toInt * n.toInt)
  | divide, m, n => if n.toInt = 0 then none else word? (m.toInt.tdiv n.toInt)
  | remainder, m, n =>
    if n.toInt = 0 ∨ word? (m.toInt.tdiv n.toInt) = none then none
    else word? (m.toInt.tmod n.toInt)
  | _, _, _ => none

/-- Conjunction and disjunction, where one operand may decide. -/
def kleene? : BinOp → Datum → Datum → Option Bool
  | and, a, b =>
    if a = .bool false ∨ b = .bool false then some false
    else if a = .bool true ∧ b = .bool true then some true
    else none
  | or, a, b =>
    if a = .bool true ∨ b = .bool true then some true
    else if a = .bool false ∧ b = .bool false then some false
    else none
  | _, _, _ => none

/-- The result that the operands determine. -/
def determined? (operator : BinOp) (a b : Datum) : Option Datum :=
  match operator with
  | .equals => some (.bool (a = b))
  | .notEquals => some (.bool (a ≠ b))
  | .lessThan | .lessOrEqual | .greaterThan | .greaterOrEqual =>
    match a, b with
    | .int m, .int n => some (.bool (operator.orders m n))
    | _, _ => none
  | .and | .or => (operator.kleene? a b).map .bool
  | .add | .subtract | .multiply | .divide | .remainder =>
    match a, b with
    | .int m, .int n => (operator.fitting? m n).map .int
    | _, _ => none

theorem fitting_divide (m n : Int64) : divide.fitting? m n = Word.div? m n := by
  simp only [fitting?, Word.div?, ← Int64.toInt_zero, Int64.toInt_inj]

theorem fitting_remainder (m n : Int64) : remainder.fitting? m n = Word.rem? m n := by
  simp only [fitting?, Word.rem?, Word.div?, ← Int64.toInt_zero, Int64.toInt_inj]
  by_cases zero : n = 0
  · simp [zero]
  · cases quotient : word? (m.toInt.tdiv n.toInt) <;> simp [zero]

/-- Where exact arithmetic has a result, wrapping arithmetic has the same. -/
theorem calculate_of_fitting {operator : BinOp} {m n k : Int64}
    (fits : operator.fitting? m n = some k) : operator.calculate? m n = some k := by
  cases operator with
  | add =>
    have value : k.toInt = m.toInt + n.toInt := word?_eq_some_iff.mp fits
    have same : k = m + n := by
      rw [← Int64.ofInt_toInt k, value, Int64.ofInt_add, Int64.ofInt_toInt, Int64.ofInt_toInt]
    rw [same]
    rfl
  | subtract =>
    have value : k.toInt = m.toInt - n.toInt := word?_eq_some_iff.mp fits
    have same : k = m - n := by
      rw [← Int64.ofInt_toInt k, value, Int64.ofInt_sub, Int64.ofInt_toInt, Int64.ofInt_toInt]
    rw [same]
    rfl
  | multiply =>
    have value : k.toInt = m.toInt * n.toInt := word?_eq_some_iff.mp fits
    have same : k = m * n := by
      rw [← Int64.ofInt_toInt k, value, Int64.ofInt_mul, Int64.ofInt_toInt, Int64.ofInt_toInt]
    rw [same]
    rfl
  | divide => exact (fitting_divide m n).symm.trans fits
  | remainder => exact (fitting_remainder m n).symm.trans fits
  | _ => cases fits

/-- What one operand decides is the connective of both. -/
theorem join_of_kleene {operator : BinOp} {a b : Datum} {d e : Bool}
    (decided : operator.kleene? a b = some e) (joined : operator.join? a b = some d) : d = e := by
  cases a with
  | bool p =>
    cases b with
    | bool q =>
      cases operator with
      | and | or => cases p <;> cases q <;> simp_all [kleene?, join?]
      | _ => cases decided
    | null | int | str | object => cases joined
  | null | int | str | object => cases joined

/-- What the operands determine is the result, if there is one. -/
theorem result?_of_determined {operator : BinOp} {a b d e : Datum}
    (determined : operator.determined? a b = some e) (result : operator.result? a b = some d) :
    d = e := by
  cases operator with
  | equals | notEquals => exact Option.some.inj (result.symm.trans determined)
  | add | subtract | multiply | divide | remainder =>
    cases a with
    | int m =>
      cases b with
      | int n =>
        obtain ⟨k, fits, rfl⟩ := Option.map_eq_some_iff.mp determined
        simp only [result?, calculate_of_fitting fits, Option.map_some] at result
        exact (Option.some.inj result).symm
      | null | bool | str | object => cases determined
    | null | bool | str | object => cases determined
  | lessThan | lessOrEqual | greaterThan | greaterOrEqual =>
    cases a with
    | int m =>
      cases b with
      | int n => exact Option.some.inj (result.symm.trans determined)
      | null | bool | str | object => cases determined
    | null | bool | str | object => cases determined
  | and | or =>
    obtain ⟨e, decided, rfl⟩ := Option.map_eq_some_iff.mp determined
    obtain ⟨d, joined, rfl⟩ := Option.map_eq_some_iff.mp result
    exact congrArg Datum.bool (join_of_kleene decided joined)

end BinOp

def UnOp.result? : UnOp → Datum → Option Datum
  | not, .bool b => some (.bool (!b))
  | negate, .int n => some (.int (-n))
  | _, _ => none

/-- The result that the operand determines. -/
def UnOp.determined? : UnOp → Datum → Option Datum
  | not, .bool b => some (.bool (!b))
  | negate, .int n => (word? (-n.toInt)).map .int
  | _, _ => none

theorem UnOp.result?_of_determined {operator : UnOp} {a d e : Datum}
    (determined : operator.determined? a = some e) (result : operator.result? a = some d) :
    d = e := by
  cases operator with
  | not =>
    cases a with
    | bool b => exact Option.some.inj (result.symm.trans determined)
    | null | int | str | object => cases determined
  | negate =>
    cases a with
    | int n =>
      obtain ⟨k, fits, rfl⟩ := Option.map_eq_some_iff.mp determined
      have value : k.toInt = -n.toInt := word?_eq_some_iff.mp fits
      have same : k = -n := by
        rw [← Int64.ofInt_toInt k, value, Int64.ofInt_neg, Int64.ofInt_toInt]
      rw [same]
      exact (Option.some.inj result).symm
    | null | bool | str | object => cases determined

end SymbolicExecution
