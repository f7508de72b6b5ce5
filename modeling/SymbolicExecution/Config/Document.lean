import SymbolicExecution.Config

/-!
# Configuration documents

A document has a version, a preset and overriding values, all optional. Reading one takes the values
of the preset, then the overriding ones, and refuses an invalid result.
-/

namespace SymbolicExecution

structure Overrides where
  maxVisited : Option Nat
  maxSteps : Option Nat
  resetAtBoundary : Option Bool
  learnAtBranches : Option Bool
  parallel : Option Bool
  deriving DecidableEq

namespace Overrides

def empty : Overrides := ⟨none, none, none, none, none⟩

def ofConfig (c : Config) : Overrides :=
  ⟨some c.maxVisited, some c.maxSteps, some c.resetAtBoundary, some c.learnAtBranches,
    some c.parallel⟩

def apply (o : Overrides) (c : Config) : Config where
  maxVisited := o.maxVisited.getD c.maxVisited
  maxSteps := o.maxSteps.getD c.maxSteps
  resetAtBoundary := o.resetAtBoundary.getD c.resetAtBoundary
  learnAtBranches := o.learnAtBranches.getD c.learnAtBranches
  parallel := o.parallel.getD c.parallel

end Overrides

structure ConfigDocument where
  version : Option Nat
  preset : Option String
  overrides : Option Overrides
  deriving DecidableEq

namespace ConfigDocument

def supportedVersion : Nat := 1

def checkVersion (d : ConfigDocument) : Except ConfigError Unit :=
  match d.version with
  | none => .error .missingVersion
  | some v => if v = supportedVersion then .ok () else .error (.unsupportedVersion v)

def basePreset (d : ConfigDocument) : Except ConfigError Preset :=
  match d.preset with
  | none => .ok default
  | some name =>
    match Preset.ofName? name with
    | some p => .ok p
    | none => .error (.unknownPreset name)

def toConfig (d : ConfigDocument) : Except ConfigError Config := do
  d.checkVersion
  let p ← d.basePreset
  let c := (d.overrides.getD Overrides.empty).apply (Config.ofPreset p)
  c.validate
  return c

/-- A document that gives every value. -/
def ofConfig (c : Config) : ConfigDocument :=
  ⟨some supportedVersion, some Preset.custom.text, some (Overrides.ofConfig c)⟩

end ConfigDocument

end SymbolicExecution
