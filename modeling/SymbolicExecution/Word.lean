/-!
# 64-bit integers

Exact arithmetic on 64-bit integers: an operation has a result only where the true result fits.
-/

namespace SymbolicExecution

/-- The 64-bit integer with the value of `n`, if there is one. -/
def word? (n : Int) : Option Int64 :=
  if Int64.minValue.toInt ≤ n ∧ n ≤ Int64.maxValue.toInt then some (Int64.ofInt n) else none

theorem word?_eq_some_iff {n : Int} {w : Int64} : word? n = some w ↔ w.toInt = n := by
  unfold word?
  split
  · rename_i h
    simp only [Option.some.injEq]
    constructor
    · rintro rfl
      rw [Int64.toInt_minValue, Int64.toInt_maxValue] at h
      exact Int64.toInt_ofInt_of_le h.1 (Int.lt_of_le_sub_one h.2)
    · rintro rfl
      exact Int64.ofInt_toInt w
  · rename_i h
    simp only [reduceCtorEq, false_iff]
    rintro rfl
    rw [Int64.toInt_minValue, Int64.toInt_maxValue] at h
    exact h ⟨Int64.le_toInt w, Int.le_sub_one_of_lt (Int64.toInt_lt w)⟩

namespace Word

def add? (a b : Int64) : Option Int64 := word? (a.toInt + b.toInt)

def sub? (a b : Int64) : Option Int64 := word? (a.toInt - b.toInt)

def mul? (a b : Int64) : Option Int64 := word? (a.toInt * b.toInt)

def neg? (a : Int64) : Option Int64 := word? (-a.toInt)

/-- Division goes toward zero. -/
def div? (a b : Int64) : Option Int64 := if b = 0 then none else word? (a.toInt.tdiv b.toInt)

/-- A remainder exists where the quotient does. -/
def rem? (a b : Int64) : Option Int64 :=
  (div? a b).bind fun _ => word? (a.toInt.tmod b.toInt)

def next? (a : Int64) : Option Int64 := add? a 1

def prev? (a : Int64) : Option Int64 := sub? a 1

end Word

end SymbolicExecution
