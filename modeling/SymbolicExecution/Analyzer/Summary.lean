import SymbolicExecution.Analyzer
import SymbolicExecution.Json

/-!
# The summary of an analyzer

One line with the configuration, the length of the rule chain of every supported tag, and the names
of the checks.
-/

namespace SymbolicExecution

/-- A name and its fields in braces. -/
def recordText (name : String) (fields : List (String × String)) : String :=
  name ++ " \x7b " ++ ", ".intercalate (fields.map fun f => f.1 ++ ": " ++ f.2) ++ " \x7d"

def listText (l : List String) : String := "[" ++ ", ".intercalate l ++ "]"

namespace Config

def summary (c : Config) : String :=
  recordText name
    [(maxVisitedField, toString c.maxVisited), (maxStepsField, toString c.maxSteps),
      (resetField, switchText c.resetAtBoundary), (learnField, switchText c.learnAtBranches),
      (parallelField, switchText c.parallel)]

end Config

namespace Semantics

/-- Supported tags in order, each with the number of its rules. -/
def chainLengths (m : Semantics) : List (Tag × Nat) :=
  (Tag.all.filter m.supports).map fun t => (t, (m.rules t).length)

def summary (m : Semantics) : String :=
  recordText "ProcessorRegistry"
    [("processors",
      listText (m.chainLengths.map fun c => "(" ++ c.1.text ++ ", " ++ toString c.2 ++ ")"))]

end Semantics

namespace Analyzer

variable {σ : Type}

def summary (a : Analyzer σ) : String :=
  recordText "SymbolicEngine"
    [("config", a.config.summary), ("registry", a.semantics.summary),
      ("checks", listText (a.checkNames.map Json.quote))]

end Analyzer

end SymbolicExecution
