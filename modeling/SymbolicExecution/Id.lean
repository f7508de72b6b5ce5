/-!
# Numbered names

Routines, blocks, symbols, capture slots and symbolic values are numbered. What a number names is
part of its type, so numbers of different things never mix. An operation is named by its routine
and its position there, a point of a routine by a block and a position in its evaluation order.
-/

namespace SymbolicExecution

inductive Named where
  | routine
  | block
  | symbol
  | capture
  | value
  deriving DecidableEq

namespace Named

/-- What stands in front of the number. -/
def mark : Named → String
  | routine => "R"
  | block => "B"
  | symbol => "sym"
  | capture => "capture"
  | value => "SV_"

end Named

structure Id (n : Named) where
  index : Nat
  deriving DecidableEq, Ord

abbrev RoutineId := Id .routine
abbrev BlockId := Id .block
abbrev SymbolId := Id .symbol
abbrev CaptureId := Id .capture

/-- A symbolic value is a name for an unknown runtime value. -/
abbrev Value := Id .value

structure OpId where
  routine : RoutineId
  index : Nat
  deriving DecidableEq, Ord

/-- Position `index` of the evaluation order of `block`; the position after the last operation is
the block's exit. -/
structure Point where
  block : BlockId
  index : Nat
  deriving DecidableEq, Ord

/-- A strict total order that can be decided. -/
class Key (κ : Type) extends LT κ where
  decidableLT : DecidableLT κ
  lt_irrefl (a : κ) : ¬a < a
  lt_trans {a b c : κ} : a < b → b < c → a < c
  eq_of_not_lt {a b : κ} : ¬a < b → ¬b < a → a = b

instance Key.instDecidableLT {κ : Type} [Key κ] : DecidableLT κ := Key.decidableLT

namespace Id

variable {n : Named}

def text (i : Id n) : String := n.mark ++ toString i.index

instance : Key (Id n) where
  lt a b := a.index < b.index
  decidableLT a b := inferInstanceAs (Decidable (a.index < b.index))
  lt_irrefl a := Nat.lt_irrefl a.index
  lt_trans := Nat.lt_trans
  eq_of_not_lt {a b} h k := by
    cases a; cases b
    exact congrArg mk (Nat.le_antisymm (Nat.le_of_not_lt k) (Nat.le_of_not_lt h))

end Id

namespace OpId

def text (o : OpId) : String := o.routine.text ++ "#op" ++ toString o.index

def Before (a b : OpId) : Prop :=
  a.routine.index < b.routine.index ∨ a.routine.index = b.routine.index ∧ a.index < b.index

instance : Key OpId where
  lt := Before
  decidableLT a b := inferInstanceAs (Decidable (_ ∨ _))
  lt_irrefl a h := by simp [Before] at h
  lt_trans h k := by simp only [Before] at *; omega
  eq_of_not_lt {a b} h k := by
    obtain ⟨⟨r⟩, i⟩ := a
    obtain ⟨⟨s⟩, j⟩ := b
    simp only [Before] at h k
    simp only [mk.injEq, Id.mk.injEq]
    omega

end OpId

namespace Point

def text (p : Point) : String := p.block.text ++ ":" ++ toString p.index

def entry (b : BlockId) : Point := ⟨b, 0⟩

def next (p : Point) : Point := { p with index := p.index + 1 }

def Before (p q : Point) : Prop :=
  p.block.index < q.block.index ∨ p.block.index = q.block.index ∧ p.index < q.index

instance : Key Point where
  lt := Before
  decidableLT a b := inferInstanceAs (Decidable (_ ∨ _))
  lt_irrefl a h := by simp [Before] at h
  lt_trans h k := by simp only [Before] at *; omega
  eq_of_not_lt {a b} h k := by
    obtain ⟨⟨r⟩, i⟩ := a
    obtain ⟨⟨s⟩, j⟩ := b
    simp only [Before] at h k
    simp only [mk.injEq, Id.mk.injEq]
    omega

theorem lt_next (p : Point) : p < p.next := Or.inr ⟨rfl, Nat.lt_succ_self _⟩

end Point

end SymbolicExecution
