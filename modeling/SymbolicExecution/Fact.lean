import SymbolicExecution.Interval

/-!
# Facts about a value

A fact says that a value is a given boolean, is or is not null, or is an integer of an interval.
The facts known of one value keep at most one of each sort; learning one more narrows them, changes
nothing, or contradicts them. Booleans and integers are not null.
-/

namespace SymbolicExecution

inductive Nullness where
  | null
  | notNull
  deriving DecidableEq, Ord

namespace Nullness

def opposite : Nullness → Nullness
  | null => notNull
  | notNull => null

def text : Nullness → String
  | null => "Null"
  | notNull => "NotNull"

def all : List Nullness := [null, notNull]

end Nullness

inductive Fact where
  | truth (b : Bool)
  | nullness (n : Nullness)
  | within (r : Interval)
  deriving DecidableEq

structure Facts where
  truth : Option Bool
  nullness : Option Nullness
  interval : Option Interval
  deriving DecidableEq

namespace Facts

def empty : Facts := ⟨none, none, none⟩

def isEmpty (f : Facts) : Bool := f.truth.isNone && f.nullness.isNone && f.interval.isNone

/-- Nullness as stated or as implied by the other facts. -/
def nullness? (f : Facts) : Option Nullness :=
  match f.nullness with
  | some n => some n
  | none => if f.truth.isSome || f.interval.isSome then some .notNull else none

/-- Narrow by one fact; nothing when it contradicts what is known. -/
def learn? (f : Facts) : Fact → Option Facts
  | .truth b =>
    if f.truth = some (!b) ∨ f.nullness = some .null then none else some { f with truth := some b }
  | .nullness n =>
    if f.nullness? = some n.opposite then none else some { f with nullness := some n }
  | .within r =>
    if f.nullness = some .null then none
    else
      match f.interval with
      | some s => (s.meet? r).map fun t => { f with interval := some t }
      | none => some { f with interval := some r }

def truthText (b : Bool) : String := if b then "True" else "False"

def text (f : Facts) : String :=
  ", ".intercalate
    ((f.truth.map truthText).toList ++ (f.nullness.map Nullness.text).toList ++
      (f.interval.map fun r => "Range(" ++ r.text ++ ")").toList)

/-- True comes before false. -/
def compareTruth (a b : Bool) : Ordering := compare b a

instance : Ord Facts where
  compare f g :=
    letI : Ord Bool := ⟨compareTruth⟩
    (compare f.truth g.truth).then
      ((compare f.nullness g.nullness).then (compare f.interval g.interval))

end Facts

end SymbolicExecution
