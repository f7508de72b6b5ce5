import SymbolicExecution.Id

/-!
# Symbols

What is known about the declared symbols. An undescribed symbol shows as its number. A symbol table
describes its rows: symbol `n` is the `n`-th declared one.
-/

namespace SymbolicExecution

inductive SymbolKind where
  | localVariable
  | parameter
  | field (isStatic : Bool)
  | other
  deriving DecidableEq

structure Description where
  id : SymbolId
  name : String
  kind : SymbolKind
  /-- The declared type admits null. -/
  nullable : Bool
  deriving DecidableEq

namespace Description

def isField (d : Description) : Bool :=
  match d.kind with
  | .field _ => true
  | _ => false

def isStaticField (d : Description) : Bool := d.kind = .field true

end Description

structure Symbols where
  describe? : SymbolId → Option Description

namespace Symbols

def name (t : Symbols) (s : SymbolId) : String :=
  match t.describe? s with
  | some d => d.name
  | none => s.text

def isField (t : Symbols) (s : SymbolId) : Bool := (t.describe? s).any Description.isField

/-- The symbol is described, and its type excludes null. -/
def excludesNull (t : Symbols) (s : SymbolId) : Bool := (t.describe? s).any fun d => !d.nullable

end Symbols

structure SymbolTable where
  rows : Array Description

namespace SymbolTable

def empty : SymbolTable := ⟨#[]⟩

def declare (t : SymbolTable) (name : String) (kind : SymbolKind) (nullable : Bool) : SymbolTable :=
  ⟨t.rows.push ⟨⟨t.rows.size⟩, name, kind, nullable⟩⟩

def symbols (t : SymbolTable) : Symbols := ⟨fun s => t.rows[s.index]?⟩

end SymbolTable

end SymbolicExecution
