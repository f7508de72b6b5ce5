import SymbolicExecution.Yaml.Node

/-!
# Anchors and aliases

An anchor gets the number of names known before it, and keeps it until its name is given again; an
alias stands for the last node with the number of its name. A name must be given before it is used.
-/

namespace SymbolicExecution.Yaml

/-- Anchor names and their numbers. -/
abbrev Anchors := List (String × Nat)

def Anchors.declare (known : Anchors) (name : String) : Anchors :=
  (name, known.length) :: known.filter fun a => a.1 ≠ name

namespace Node

/-- The number of an anchor, and the names known after it. -/
def numberAnchor (known : Anchors) : Option String → Option Nat × Anchors
  | some name => (some known.length, known.declare name)
  | none => (none, known)

mutual

/-- Number the anchors and aliases of a node in the order of the text. -/
def number? (known : Anchors) : Node String → Option (Node Nat × Anchors)
  | .alias name => (known.lookup name).map fun n => (.alias n, known)
  | .scalar anchor tag style text =>
    let (n, known) := numberAnchor known anchor
    some (.scalar n tag style text, known)
  | .mapping anchor entries => do
    let (n, known) := numberAnchor known anchor
    let (entries, known) ← numberEntries? known entries
    return (.mapping n entries, known)

def numberEntries? (known : Anchors) :
    List (Node String × Node String) → Option (List (Node Nat × Node Nat) × Anchors)
  | [] => some ([], known)
  | (k, v) :: rest => do
    let (k, known) ← number? known k
    let (v, known) ← number? known v
    let (rest, known) ← numberEntries? known rest
    return ((k, v) :: rest, known)

end

variable {α : Type}

def anchor? : Node α → Option α
  | .alias _ => none
  | .scalar anchor _ _ _ | .mapping anchor _ => anchor

mutual

/-- A node and the nodes in it, in the order of the text. -/
def nodes : Node α → List (Node α)
  | .mapping anchor entries => .mapping anchor entries :: entryNodes entries
  | n => [n]

def entryNodes : List (Node α × Node α) → List (Node α)
  | [] => []
  | (k, v) :: rest => nodes k ++ nodes v ++ entryNodes rest

end

/-- The node that `n` stands for inside `root`. -/
def resolve? (root : Node Nat) : Node Nat → Option (Node Nat)
  | .alias target => root.nodes.reverse.find? fun m => m.anchor? = some target
  | n => some n

end Node

end SymbolicExecution.Yaml
