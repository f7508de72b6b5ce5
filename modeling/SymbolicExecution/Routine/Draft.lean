import SymbolicExecution.Routine

/-!
# Drafts

A draft grows an outline one operation and one block at a time and hands out the labels. Steps on
operations and blocks that do not exist yet change nothing.
-/

namespace SymbolicExecution

structure Draft where
  outline : Outline

namespace Draft

def start (id : RoutineId) (name : String) : Draft := ⟨⟨id, name, #[], #[], []⟩⟩

def nextOperation (d : Draft) : OpId := ⟨d.outline.id, d.outline.operations.size⟩

def nextBlock (d : Draft) : BlockId := ⟨d.outline.blocks.size⟩

/-- The new operation is named `d.nextOperation`. -/
def add (d : Draft) (form : Form) : Draft :=
  ⟨{ d.outline with operations := d.outline.operations.push ⟨d.nextOperation, form, none⟩ }⟩

def atLine (d : Draft) (i : OpId) (line : Nat) : Draft :=
  ⟨{ d.outline with
      operations := d.outline.operations.modify i.index ({ · with line := some line }) }⟩

/-- The new block is named `d.nextBlock` and leaves the routine until given another exit. -/
def block (d : Draft) : Draft :=
  ⟨{ d.outline with blocks := d.outline.blocks.push ⟨d.nextBlock, [], .leave none, none⟩ }⟩

def changeBlock (d : Draft) (b : BlockId) (f : Block → Block) : Draft :=
  ⟨{ d.outline with blocks := d.outline.blocks.modify b.index f }⟩

def push (d : Draft) (b : BlockId) (i : OpId) : Draft :=
  d.changeBlock b fun k => { k with roots := k.roots ++ [i] }

def exit (d : Draft) (b : BlockId) (e : Exit) : Draft := d.changeBlock b ({ · with exit := e })

def handler (d : Draft) (b h : BlockId) : Draft :=
  d.changeBlock b ({ · with handler := some h })

def closure (d : Draft) (inner outer : SymbolId) : Draft :=
  ⟨{ d.outline with closures := d.outline.closures ++ [(inner, outer)] }⟩

def build (d : Draft) : Except Defect Routine := Routine.ofOutline d.outline

end Draft

end SymbolicExecution
