/-!
# Configuration

The budgets of one exploration and its switches. A preset gives all of them; a configuration is
valid when both budgets are in range and the steps suffice for the pairs.
-/

namespace SymbolicExecution

inductive Preset where
  | fast
  | balanced
  | thorough
  | custom
  deriving DecidableEq

namespace Preset

def all : List Preset := [fast, balanced, thorough, custom]

def text : Preset → String
  | fast => "fast"
  | balanced => "balanced"
  | thorough => "thorough"
  | custom => "custom"

instance : Inhabited Preset := ⟨balanced⟩

def maxVisited : Preset → Nat
  | fast => 2000
  | balanced | custom => 10000
  | thorough => 100000

def maxSteps : Preset → Nat
  | fast => 20000
  | balanced | custom => 100000
  | thorough => 1000000

/-- Names are compared without regard to case. No letter outside ASCII has a letter of these names
as its lower case, so lowering the ASCII letters is enough. -/
def ofName? (name : String) : Option Preset := all.find? fun p => p.text == name.map Char.toLower

end Preset

inductive ConfigError where
  | range (field : String) (value lo hi : Nat) (hint : String)
  | unknownPreset (name : String)
  | missingVersion
  | unsupportedVersion (found : Nat)
  | stepsBelowVisited (steps visited : Nat)
  /-- The text is no configuration document. -/
  | malformed
  /-- The file cannot be read. -/
  | unreadable
  deriving DecidableEq

namespace ConfigError

def message : ConfigError → String
  | range field value lo hi hint =>
    "Invalid range for field '" ++ field ++ "': " ++ toString value ++ " not in " ++ toString lo ++
      "..=" ++ toString hi ++ ". " ++ hint
  | unknownPreset name =>
    "Unknown preset '" ++ name ++ "'. Valid presets: " ++
      ", ".intercalate (Preset.all.map Preset.text)
  | missingVersion =>
    "Missing 'version' field in configuration file. " ++
      "Add 'version: 1' to the top of your YAML file."
  | unsupportedVersion found =>
    "Unsupported configuration version " ++ toString found ++ ". Supported versions: 1"
  | stepsBelowVisited steps visited =>
    "Validation error: max_steps (" ++ toString steps ++ ") must be >= max_visited_pairs (" ++
      toString visited ++ ")"
  | malformed => "YAML parsing error"
  | unreadable => "IO error"

end ConfigError

structure Config where
  maxVisited : Nat
  maxSteps : Nat
  /-- Forget the values of operations when a state enters another block. -/
  resetAtBoundary : Bool
  /-- Learn about the operands of a condition on each side of a branch. -/
  learnAtBranches : Bool
  parallel : Bool
  deriving DecidableEq

namespace Config

def maxVisitedField : String := "max_visited_pairs"
def maxStepsField : String := "max_steps"
def resetField : String := "reset_operations_at_block_boundary"
def learnField : String := "learn_branch_constraints"
def parallelField : String := "parallel"

def name : String := "ExplorationConfig"

/-- How a switch is written. -/
def switchText (b : Bool) : String := if b then "true" else "false"

/-- The name of a validated thing that gives itself no other. -/
def genericName : String := "Config"

def ofPreset (p : Preset) : Config where
  maxVisited := p.maxVisited
  maxSteps := p.maxSteps
  resetAtBoundary := true
  learnAtBranches := true
  parallel := p ≠ .fast

instance : Inhabited Config := ⟨ofPreset default⟩

def visitedLimit : Nat := 10000000

def stepsLimit : Nat := 100000000

/-- The first thing wrong with a configuration. -/
def defect? (c : Config) : Option ConfigError :=
  if c.maxVisited = 0 ∨ visitedLimit < c.maxVisited then
    some (.range maxVisitedField c.maxVisited 1 visitedLimit
      "At least the entry state must be visited")
  else if c.maxSteps = 0 ∨ stepsLimit < c.maxSteps then
    some (.range maxStepsField c.maxSteps 1 stepsLimit "Step budget must be finite")
  else if c.maxSteps < c.maxVisited then some (.stepsBelowVisited c.maxSteps c.maxVisited)
  else none

def validate (c : Config) : Except ConfigError Unit :=
  match c.defect? with
  | some e => .error e
  | none => .ok ()

end Config

end SymbolicExecution
