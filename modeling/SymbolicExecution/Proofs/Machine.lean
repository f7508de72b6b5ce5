import Mathlib.Logic.Function.Basic
import SymbolicExecution.Proofs.Datum
import SymbolicExecution.Symbols

/-!
# Runs on data

A machine that runs a routine on data. It executes the operations of a block in evaluation order,
gives values to symbols and to operations, and follows the exits. It stops at a return, where an
operator has no result or an operand has no value, at a branch on something that is not a boolean,
and at the operations that it does not know: fields, calls, captures, conversions and type tests.
-/

namespace SymbolicExecution

/-- The values of the symbols, and of the operations executed so far. -/
structure Store where
  env : SymbolId → Datum
  values : OpId → Option Datum

namespace Store

def give (m : Store) (i : OpId) (d : Datum) : Store :=
  { m with values := Function.update m.values i (some d) }

def write (m : Store) (x : SymbolId) (d : Datum) : Store :=
  { m with env := Function.update m.env x d }

variable {m : Store} {i j : OpId} {x y : SymbolId} {d : Datum}

@[simp] theorem values_give_self : (m.give i d).values i = some d := Function.update_self _ _ _

theorem values_give_of_ne (other : j ≠ i) : (m.give i d).values j = m.values j :=
  Function.update_of_ne other _ _

@[simp] theorem values_write : (m.write x d).values = m.values := rfl

@[simp] theorem env_give : (m.give i d).env = m.env := rfl

@[simp] theorem env_write_self : (m.write x d).env x = d := Function.update_self _ _ _

theorem env_write_of_ne (other : y ≠ x) : (m.write x d).env y = m.env y :=
  Function.update_of_ne other _ _

theorem give_of_known (known : m.values i = some d) : m.give i d = m := by
  simp [give, ← known]

theorem write_of_bound (bound : m.env x = d) : m.write x d = m := by
  simp [write, ← bound]

end Store

/-- The forms of locations that the machine can write to. -/
def Form.isLocation : Form → Bool
  | .localRef _ | .paramRef _ | .paren _ => true
  | _ => false

namespace Routine

variable (r : Routine) (symbols : Symbols) (types : TypeTest)

/-- The operation is a local variable or parameter, perhaps in parentheses. -/
inductive Denotes : OpId → SymbolId → Prop
  | symbol {i : OpId} {p : Operation} {x : SymbolId} (found : r.operation? i = some p)
      (form : p.form = .localRef x ∨ p.form = .paramRef x) : Denotes i x
  | paren {i inner : OpId} {p : Operation} {x : SymbolId} (found : r.operation? i = some p)
      (form : p.form = .paren inner) (denotes : Denotes inner x) : Denotes i x

/-- What the execution of an operation does to the store. -/
inductive Executes (o : Operation) (m : Store) : Store → Prop
  | literal {l : Literal} (form : o.form = .literal l) : Executes o m (m.give o.id l.datum)
  | read {x : SymbolId} (form : o.form = .localRef x ∨ o.form = .paramRef x)
      (read : r.isWritten o.id = false) : Executes o m (m.give o.id (m.env x))
  | paren {inner : OpId} {d : Datum} (form : o.form = .paren inner)
      (read : r.isWritten o.id = false) (value : m.values inner = some d) :
      Executes o m (m.give o.id d)
  /-- A location that is only written is not read. -/
  | location (form : o.form.isLocation) (written : r.isWritten o.id = true) : Executes o m m
  | assign {target value : OpId} {x : SymbolId} {d : Datum} (form : o.form = .assign target value)
      (denotes : r.Denotes target x) (known : m.values value = some d) :
      Executes o m (((m.give target d).give o.id d).write x d)
  | compound {operator : BinOp} {target value : OpId} {x : SymbolId} {a b d : Datum}
      (form : o.form = .compound operator target value) (denotes : r.Denotes target x)
      (old : m.values target = some a) (known : m.values value = some b)
      (result : operator.result? a b = some d) :
      Executes o m (((m.give target d).give o.id d).write x d)
  | step {target : OpId} {down postfixed : Bool} {x : SymbolId} {a d : Datum}
      (form : o.form = .step target down postfixed) (denotes : r.Denotes target x)
      (old : m.values target = some a)
      (result : BinOp.result? (if down then .subtract else .add) a (.int 1) = some d) :
      Executes o m ((m.write x d).give o.id (if postfixed then a else d))
  | declare {x : SymbolId} {initial : OpId} {d : Datum} (form : o.form = .declare x (some initial))
      (known : m.values initial = some d) : Executes o m ((m.give o.id d).write x d)
  /-- Without an initial value, the symbol gets any one that its type admits. -/
  | undefined {x : SymbolId} {d : Datum} (form : o.form = .declare x none)
      (admitted : symbols.excludesNull x → d ≠ .null) : Executes o m (m.write x d)
  | binary {operator : BinOp} {left right : OpId} {a b d : Datum}
      (form : o.form = .binary operator left right) (first : m.values left = some a)
      (second : m.values right = some b) (result : operator.result? a b = some d) :
      Executes o m (m.give o.id d)
  | unary {operator : UnOp} {i : OpId} {a d : Datum} (form : o.form = .unary operator i)
      (known : m.values i = some a) (result : operator.result? a = some d) :
      Executes o m (m.give o.id d)
  | test {i : OpId} {p : Pattern} {a : Datum} (form : o.form = .isPattern i p)
      (known : m.values i = some a) : Executes o m (m.give o.id (.bool (p.admits types a)))

/-- One move of the machine. -/
inductive Moves : Point × Store → Point × Store → Prop
  | execute {p : Point} {i : OpId} {o : Operation} {m m' : Store}
      (here : (r.order p.block)[p.index]? = some i) (found : r.operation? i = some o)
      (executes : r.Executes symbols types o m m') : Moves (p, m) (p.next, m')
  | goTo {p : Point} {b : Block} {target : BlockId} {m : Store}
      (done : p.index = (r.order p.block).size) (found : r.block? p.block = some b)
      (exit : b.exit = .goTo target) : Moves (p, m) (Point.entry target, m)
  | branch {p : Point} {b : Block} {condition : OpId} {whenTrue whenFalse : BlockId}
      {outcome : Bool} {m : Store} (done : p.index = (r.order p.block).size)
      (found : r.block? p.block = some b) (exit : b.exit = .branch condition whenTrue whenFalse)
      (came : m.values condition = some (.bool outcome)) :
      Moves (p, m) (Point.entry (if outcome then whenTrue else whenFalse), m)

/-- Where runs come by that start with values of the symbols that their types admit. -/
inductive Reaches : Point × Store → Prop
  | start {env : SymbolId → Datum} (admitted : ∀ x, symbols.excludesNull x → env x ≠ .null) :
      Reaches (Point.entry r.entry, ⟨env, fun _ => none⟩)
  | move {c d : Point × Store} (reaches : Reaches c) (moves : r.Moves symbols types c d) :
      Reaches d

end Routine

end SymbolicExecution
