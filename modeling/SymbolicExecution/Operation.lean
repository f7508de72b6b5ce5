import SymbolicExecution.Id
import SymbolicExecution.Operator

/-!
# Operations

An operation is one node of an expression tree: a read, a write, a call or a test. It names its
children by their position in the routine; `Form.children` lists them in evaluation order.
-/

namespace SymbolicExecution

inductive Literal where
  | int (n : Int64)
  | bool (b : Bool)
  | str (s : String)
  | null
  deriving DecidableEq, Ord

/-- What an `is` test compares with. -/
inductive Pattern where
  | null
  | notNull
  | constant (l : Literal)
  | type (name : String)
  | discard
  deriving DecidableEq, Ord

/-- How an argument is passed; an `out` argument is written and never read. -/
inductive Passing where
  | byValue
  | byRef
  | out
  deriving DecidableEq

namespace Passing

def text : Passing → String
  | byValue => "Value"
  | byRef => "Ref"
  | out => "Out"

def all : List Passing := [byValue, byRef, out]

end Passing

structure Argument where
  value : OpId
  passing : Passing
  deriving DecidableEq

namespace Argument

/-- The callee may write through the argument. -/
def isWritable (a : Argument) : Bool := a.passing ≠ .byValue

end Argument

inductive Form where
  | literal (l : Literal)
  | localRef (symbol : SymbolId)
  | paramRef (symbol : SymbolId)
  /-- A static field has no receiver. -/
  | fieldRef (receiver : Option OpId) (field : SymbolId)
  | this
  | element (array index : OpId)
  | paren (inner : OpId)
  | convert (inner : OpId)
  | capture (slot : CaptureId) (value : OpId)
  | captureRef (slot : CaptureId)
  | assign (target value : OpId)
  | compound (operator : BinOp) (target value : OpId)
  | step (target : OpId) (down postfixed : Bool)
  | declare (symbol : SymbolId) (initial : Option OpId)
  | binary (operator : BinOp) (left right : OpId)
  | unary (operator : UnOp) (operand : OpId)
  | call (receiver : Option OpId) (method : String) (arguments : List Argument)
  | create (typeName : String) (arguments : List Argument)
  | isType (value : OpId) (typeName : String)
  | isPattern (value : OpId) (pattern : Pattern)
  | other (description : String)
  deriving DecidableEq

/-- The form without its parts. -/
inductive Tag where
  | literal
  | localRef
  | paramRef
  | fieldRef
  | this
  | element
  | paren
  | convert
  | capture
  | captureRef
  | assign
  | compound
  | step
  | declare
  | binary
  | unary
  | call
  | create
  | isType
  | isPattern
  | other
  deriving DecidableEq, Ord

namespace Tag

def all : List Tag :=
  [literal, localRef, paramRef, fieldRef, this, element, paren, convert, capture, captureRef,
    assign, compound, step, declare, binary, unary, call, create, isType, isPattern, other]

def text : Tag → String
  | literal => "Literal"
  | localRef => "LocalReference"
  | paramRef => "ParameterReference"
  | fieldRef => "FieldReference"
  | this => "InstanceReference"
  | element => "ArrayElementReference"
  | paren => "Parenthesized"
  | convert => "Conversion"
  | capture => "FlowCapture"
  | captureRef => "FlowCaptureReference"
  | assign => "SimpleAssignment"
  | compound => "CompoundAssignment"
  | step => "Increment"
  | declare => "VariableDeclarator"
  | binary => "Binary"
  | unary => "Unary"
  | call => "Invocation"
  | create => "ObjectCreation"
  | isType => "IsType"
  | isPattern => "IsPattern"
  | other => "Other"

theorem mem_all (t : Tag) : t ∈ all := by cases t <;> decide

end Tag

namespace Form

def tag : Form → Tag
  | literal _ => .literal
  | localRef _ => .localRef
  | paramRef _ => .paramRef
  | fieldRef _ _ => .fieldRef
  | this => .this
  | element _ _ => .element
  | paren _ => .paren
  | convert _ => .convert
  | capture _ _ => .capture
  | captureRef _ => .captureRef
  | assign _ _ => .assign
  | compound _ _ _ => .compound
  | step _ _ _ => .step
  | declare _ _ => .declare
  | binary _ _ _ => .binary
  | unary _ _ => .unary
  | call _ _ _ => .call
  | create _ _ => .create
  | isType _ _ => .isType
  | isPattern _ _ => .isPattern
  | other _ => .other

def arguments : Form → List Argument
  | call _ _ args | create _ args => args
  | _ => []

/-- The operations evaluated before this one, in order. -/
def children : Form → List OpId
  | literal _ | localRef _ | paramRef _ | this | captureRef _ | other _ => []
  | fieldRef receiver _ => receiver.toList
  | element array index => [array, index]
  | paren inner | convert inner => [inner]
  | capture _ value => [value]
  | assign target value | compound _ target value => [target, value]
  | step target _ _ => [target]
  | declare _ initial => initial.toList
  | binary _ left right => [left, right]
  | unary _ operand => [operand]
  | call receiver _ args => receiver.toList ++ args.map Argument.value
  | create _ args => args.map Argument.value
  | isType value _ | isPattern value _ => [value]

/-- Calls and creations may leave their block through its handler. -/
def mayThrow : Form → Bool
  | call _ _ _ | create _ _ => true
  | _ => false

/-- Operations that the form writes without reading them. -/
def written : Form → List OpId
  | assign target _ => [target]
  | call _ _ args | create _ args =>
    (args.filter fun a => a.passing = .out).map Argument.value
  | _ => []

end Form

structure Operation where
  id : OpId
  form : Form
  line : Option Nat
  deriving DecidableEq

namespace Operation

def tag (o : Operation) : Tag := o.form.tag

end Operation

end SymbolicExecution
