import SymbolicExecution.Finding
import SymbolicExecution.Storage
import SymbolicExecution.Symbols

/-!
# Checks

A check is shown every newly reached pair of a point and a state and answers with findings. It may
keep a memory from one sighting to the next, and it may ask for the exploration to be cancelled.
-/

namespace SymbolicExecution

structure Sighting where
  routine : Routine
  symbols : Symbols
  point : Point
  /-- The operation just evaluated; none at the entry of a block. -/
  operation : Option Operation
  state : State

namespace Sighting

/-- A finding at the operation or point of the sighting. -/
def finding (s : Sighting) (check : String) (severity : Severity) (message : String) : Finding where
  check := check
  severity := severity
  routine := s.routine.id
  operation := s.operation.map Operation.id
  point := s.point
  line := s.operation.bind Operation.line
  message := message

end Sighting

structure Observation (σ : Type) where
  findings : List Finding
  memory : σ
  cancels : Bool

structure Check (σ : Type) where
  name : String
  observe : Sighting → σ → Observation σ

namespace Check

/-- A check without memory that never cancels. -/
def ofFindings {σ : Type} (name : String) (find : Sighting → List Finding) : Check σ where
  name := name
  observe s m := ⟨find s, m, false⟩

end Check

end SymbolicExecution
