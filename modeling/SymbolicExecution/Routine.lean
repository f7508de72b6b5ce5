import SymbolicExecution.Operation
import SymbolicExecution.Table

/-!
# Routines

A routine is a list of basic blocks over a list of operations. An outline is taken as a routine
when every label is its position and every name it uses exists, and when no operation evaluated by
a block contains itself; each block then has its evaluation order fixed: children before parents,
the value of the exit last.
-/

namespace SymbolicExecution

/-- How control leaves a block. A raised value goes to the block's handler if it has one. -/
inductive Exit where
  | goTo (target : BlockId)
  | branch (condition : OpId) (whenTrue whenFalse : BlockId)
  | leave (value : Option OpId)
  | raise (value : Option OpId)
  deriving DecidableEq

namespace Exit

/-- The operation evaluated for the exit. -/
def value? : Exit → Option OpId
  | goTo _ => none
  | branch condition _ _ => some condition
  | leave value | raise value => value

def targets : Exit → List BlockId
  | goTo target => [target]
  | branch _ whenTrue whenFalse => [whenTrue, whenFalse]
  | leave _ | raise _ => []

end Exit

structure Block where
  id : BlockId
  /-- The statements, in source order. -/
  roots : List OpId
  exit : Exit
  handler : Option BlockId
  deriving DecidableEq

namespace Block

/-- What the block evaluates, in order. -/
def evaluated (b : Block) : List OpId := b.roots ++ b.exit.value?.toList

end Block

/-- Why an outline is no routine. -/
inductive Defect where
  | noBlocks (routine : RoutineId)
  | blockLabel (position : Nat) (found : BlockId)
  | operationLabel (position : Nat) (found : OpId)
  | unknownOperation (id : OpId)
  | unknownBlock (id : BlockId)
  | cyclicTree (id : OpId)
  deriving DecidableEq

namespace Defect

def message : Defect → String
  | noBlocks routine => "routine " ++ routine.text ++ " has no basic blocks"
  | blockLabel position found =>
    "block at position " ++ toString position ++ " is labelled " ++ found.text
  | operationLabel position found =>
    "operation at position " ++ toString position ++ " is labelled " ++ found.text
  | unknownOperation id => "reference to unknown operation " ++ id.text
  | unknownBlock id => "reference to unknown block " ++ id.text
  | cyclicTree id => "operation tree contains a cycle through " ++ id.text

end Defect

structure Outline where
  id : RoutineId
  name : String
  blocks : Array Block
  operations : Array Operation
  /-- From a symbol of a closure to the enclosing symbol that it shares storage with. -/
  closures : List (SymbolId × SymbolId)

namespace Outline

def operation? (o : Outline) (i : OpId) : Option Operation :=
  if i.routine = o.id then o.operations[i.index]? else none

def block? (o : Outline) (i : BlockId) : Option Block := o.blocks[i.index]?

def blockLabelDefect? (o : Outline) : Option Defect :=
  o.blocks.toList.zipIdx.findSome? fun (b, i) =>
    if b.id.index = i then none else some (.blockLabel i b.id)

def operationLabelDefect? (o : Outline) : Option Defect :=
  o.operations.toList.zipIdx.findSome? fun (p, i) =>
    if p.id = ⟨o.id, i⟩ then none else some (.operationLabel i p.id)

def unknownOperation? (o : Outline) (l : List OpId) : Option Defect :=
  l.findSome? fun i => if (o.operation? i).isSome then none else some (.unknownOperation i)

def unknownBlock? (o : Outline) (l : List BlockId) : Option Defect :=
  l.findSome? fun i => if (o.block? i).isSome then none else some (.unknownBlock i)

def blockDefect? (o : Outline) (b : Block) : Option Defect :=
  o.unknownOperation? b.evaluated <|> o.unknownBlock? (b.exit.targets ++ b.handler.toList)

/-- The first thing wrong with the labels and names of the outline. -/
def defect? (o : Outline) : Option Defect :=
  if o.blocks.isEmpty then some (.noBlocks o.id)
  else
    o.blockLabelDefect? <|> o.operationLabelDefect? <|>
      o.operations.toList.findSome? (fun p => o.unknownOperation? p.form.children) <|>
      o.blocks.toList.findSome? o.blockDefect?

/-- The operations below `i` in post-order and then `i`. `above` holds the operations on the way
from the root; meeting one of them again closes a cycle. A way without repetition is no longer
than the list of operations, which bounds the depth. -/
def postOrder (o : Outline) : Nat → List OpId → OpId → Except Defect (List OpId)
  | 0, _, i => .error (.cyclicTree i)
  | depth + 1, above, i =>
    if i ∈ above then .error (.cyclicTree i)
    else
      match o.operation? i with
      | none => .error (.unknownOperation i)
      | some p => do
        let below ← p.form.children.mapM (o.postOrder depth (i :: above))
        return below.flatten ++ [i]

def evaluationOrder (o : Outline) (b : Block) : Except Defect (List OpId) := do
  let trees ← b.evaluated.mapM (o.postOrder (o.operations.size + 1) [])
  return trees.flatten

end Outline

structure Routine where
  id : RoutineId
  name : String
  blocks : Array Block
  operations : Array Operation
  closures : Table SymbolId SymbolId
  /-- The evaluation order of each block. -/
  orders : Array (Array OpId)
  /-- Operations written without being read. -/
  written : List OpId
  deriving DecidableEq

namespace Routine

def ofOutline (o : Outline) : Except Defect Routine :=
  match o.defect? with
  | some d => .error d
  | none => do
    let orders ← o.blocks.toList.mapM o.evaluationOrder
    return {
      id := o.id
      name := o.name
      blocks := o.blocks
      operations := o.operations
      closures := Table.ofList o.closures
      orders := (orders.map List.toArray).toArray
      written := o.operations.toList.flatMap fun p => p.form.written }

def entry (_ : Routine) : BlockId := ⟨0⟩

def block? (r : Routine) (i : BlockId) : Option Block := r.blocks[i.index]?

def operation? (r : Routine) (i : OpId) : Option Operation :=
  if i.routine = r.id then r.operations[i.index]? else none

/-- The evaluation order of a block; nothing for an unknown one. -/
def order (r : Routine) (b : BlockId) : Array OpId := r.orders[b.index]?.getD #[]

def isWritten (r : Routine) (i : OpId) : Bool := r.written.contains i

end Routine

end SymbolicExecution
