import SymbolicExecution.Operation

/-!
# Value numbering

Values are numbered in the order of their creation. A value computed from other values is named by
its term, and equal terms get the same value; an unknown gets a value of its own.
-/

namespace SymbolicExecution

/-- How a value is computed from values. -/
inductive Term where
  | literal (l : Literal)
  | this
  | binary (operator : BinOp) (left right : Value)
  | unary (operator : UnOp) (operand : Value)
  | isPattern (pattern : Pattern) (value : Value)
  | isType (typeName : String) (value : Value)
  deriving DecidableEq

structure Numbering where
  /-- How many values there are. -/
  created : Nat
  terms : List (Term × Value)

namespace Numbering

def start : Numbering := ⟨0, []⟩

def fresh (n : Numbering) : Value × Numbering := (⟨n.created⟩, { n with created := n.created + 1 })

def find? (n : Numbering) (t : Term) : Option Value := n.terms.lookup t

def intern (n : Numbering) (t : Term) : Value × Numbering :=
  match n.find? t with
  | some v => (v, n)
  | none => (⟨n.created⟩, ⟨n.created + 1, (t, ⟨n.created⟩) :: n.terms⟩)

end Numbering

end SymbolicExecution
