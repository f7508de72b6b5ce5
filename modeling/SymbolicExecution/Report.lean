import SymbolicExecution.Exploration

/-!
# Reports

What is known when the exploration of a routine has ended. A cancelled exploration keeps no
findings.
-/

namespace SymbolicExecution

structure Stats where
  steps : Nat
  visited : Nat
  duplicates : Nat
  infeasible : Nat
  skipped : Nat
  terminal : Nat
  values : Nat
  milliseconds : Nat
  deriving DecidableEq

structure Report where
  routine : RoutineId
  name : String
  outcome : Outcome
  findings : List Finding
  stats : Stats
  deriving DecidableEq

namespace Run

variable {σ : Type}

/-- The clock is not read; the time is left at zero. -/
def stats (r : Run σ) : Stats where
  steps := r.counters.steps
  visited := r.visited.size
  duplicates := r.counters.duplicates
  infeasible := r.counters.infeasible
  skipped := r.counters.skipped
  terminal := r.counters.terminal
  values := r.numbering.created
  milliseconds := 0

/-- A run that has not ended counts as completed. -/
def result (r : Run σ) : Outcome := r.outcome.getD .completed

def report (r : Run σ) (of : Routine) : Report where
  routine := of.id
  name := of.name
  outcome := r.result
  findings := if r.result = .cancelled then [] else r.findings.kept.toList
  stats := r.stats

end Run

end SymbolicExecution
