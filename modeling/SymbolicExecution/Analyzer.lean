import SymbolicExecution.Check.NullDereference
import SymbolicExecution.Check.UselessIncrement
import SymbolicExecution.Report

/-!
# Analyzers

An analyzer joins a valid configuration, a semantics and checks, and explores routines one by one.
-/

namespace SymbolicExecution

structure Analyzer (σ : Type) where
  config : Config
  semantics : Semantics
  checks : List (Check σ)

/-- Why nothing was analyzed. -/
inductive SetupError where
  | config (e : ConfigError)
  | routine (d : Defect)
  | state (f : Foreign)
  deriving DecidableEq

namespace SetupError

def message : SetupError → String
  | config e => "Configuration error: " ++ e.message
  | routine d => "Graph error: " ++ d.message
  | state f => "State error: " ++ f.message

end SetupError

namespace Analyzer

variable {σ : Type}

/-- The built-in semantics and no checks. -/
def ofConfig (c : Config) : Except SetupError (Analyzer σ) :=
  match c.validate with
  | .error e => .error (.config e)
  | .ok () => .ok ⟨c, Semantics.builtin, []⟩

def withCheck (a : Analyzer σ) (c : Check σ) : Analyzer σ := { a with checks := a.checks ++ [c] }

def withBuiltinChecks (a : Analyzer σ) : Analyzer σ :=
  (a.withCheck Check.nullDereference).withCheck Check.uselessIncrement

def withRule (a : Analyzer σ) (t : Tag) (rule : Rule) : Analyzer σ :=
  { a with semantics := a.semantics.extend t rule }

def checkNames (a : Analyzer σ) : List String := a.checks.map Check.name

def exploration (a : Analyzer σ) (symbols : Symbols) (r : Routine) : Exploration σ :=
  ⟨r, symbols, a.semantics, a.checks, a.config⟩

def analyze (a : Analyzer σ) (symbols : Symbols) (r : Routine) (memory : σ) (cancelled : Bool) :
    Report :=
  ((a.exploration symbols r).run memory cancelled).report r

/-- Routines do not depend on each other; the reports keep their order. -/
def analyzeAll (a : Analyzer σ) (symbols : Symbols) (routines : List Routine) (memory : σ)
    (cancelled : Bool) : List Report :=
  routines.map fun r => a.analyze symbols r memory cancelled

end Analyzer

end SymbolicExecution
