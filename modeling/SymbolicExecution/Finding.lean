import SymbolicExecution.Id

/-!
# Findings

What checks report. A finding is anchored at its operation, or at its point when it has none. Of the
findings of one check at one anchor only the first is kept.
-/

namespace SymbolicExecution

inductive Severity where
  | info
  | warning
  | error
  | critical
  deriving DecidableEq, Ord

namespace Severity

def text : Severity → String
  | info => "Info"
  | warning => "Warning"
  | error => "Error"
  | critical => "Critical"

def all : List Severity := [info, warning, error, critical]

instance : Inhabited Severity := ⟨warning⟩

end Severity

structure Finding where
  check : String
  severity : Severity
  routine : RoutineId
  operation : Option OpId
  point : Point
  line : Option Nat
  message : String
  deriving DecidableEq

inductive Anchor where
  | operation (i : OpId)
  | point (p : Point)
  deriving DecidableEq

namespace Finding

def anchor (f : Finding) : Anchor :=
  match f.operation with
  | some i => .operation i
  | none => .point f.point

/-- Same check, same anchor. -/
def Repeats (f g : Finding) : Prop := f.check = g.check ∧ f.anchor = g.anchor

instance (f g : Finding) : Decidable (f.Repeats g) := inferInstanceAs (Decidable (_ ∧ _))

end Finding

structure Findings where
  kept : Array Finding
  deriving DecidableEq

namespace Findings

def empty : Findings := ⟨#[]⟩

def report (l : Findings) (f : Finding) : Findings :=
  if l.kept.any fun g => f.Repeats g then l else ⟨l.kept.push f⟩

def reportAll (l : Findings) (fs : List Finding) : Findings := fs.foldl report l

end Findings

end SymbolicExecution
