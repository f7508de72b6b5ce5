import Mathlib.Logic.Relation
import SymbolicExecution.Proofs.Fact
import SymbolicExecution.Proofs.Feasible
import SymbolicExecution.Rule.Assignment
import SymbolicExecution.Rule.Call

/-!
# Footprints

What may be touched when one state becomes another: the operations that get values, the slots and
the symbols. Facts may be learned about any value, but none that contradicts itself. Every change
that an evaluation makes is a sequence of a few small ones, so what these keep is kept by all that
is evaluated.
-/

namespace SymbolicExecution

structure Footprint where
  /-- The operation may get a value. -/
  gives : OpId → Prop
  /-- The operation may get a value if it has none. -/
  fills : OpId → Prop
  /-- The slot may record the operation. -/
  captures : CaptureId → OpId → Prop
  /-- The symbol may be bound or unbound. -/
  binds : SymbolId → Prop

/-- One operation gets a value if it has none. -/
def Footprint.filling (i : OpId) : Footprint :=
  ⟨fun _ => False, fun j => j = i, fun _ _ => False, fun _ => False⟩

/-- The operations that the footprint speaks of. -/
def Footprint.Names (f : Footprint) (i : OpId) : Prop :=
  f.gives i ∨ f.fills i ∨ ∃ slot, f.captures slot i

theorem Footprint.names_filling {i j : OpId} : (Footprint.filling i).Names j ↔ j = i := by
  simp [Names, filling]

namespace State

/-- One change within a footprint. -/
inductive Touches (f : Footprint) : State → State → Prop
  | give {s : State} {i : OpId} {v : Value} (allowed : f.gives i) :
      Touches f s { s with operations := s.operations.insert i v }
  | fill {s : State} {i : OpId} {v : Value} (allowed : f.fills i)
      (unknown : s.operation? i = none) :
      Touches f s { s with operations := s.operations.insert i v }
  | capture {s : State} {slot : CaptureId} {i : OpId} (allowed : f.captures slot i) :
      Touches f s { s with captures := s.captures.insert slot i }
  | bind {s : State} {symbols : Table SymbolId Value}
      (allowed : ∀ x, f.binds x ∨ symbols.get? x = s.symbol? x) :
      Touches f s { s with symbols := symbols }
  | learn {s t : State} {v : Value} {fact : Fact} (learned : s.learn? v fact = some t)
      (proper : fact.Proper) : Touches f s t

/-- `t` comes from `s` by changes within a footprint. -/
def Becomes (f : Footprint) : State → State → Prop := Relation.ReflTransGen (Touches f)

variable {f : Footprint} {s t u : State}

theorem sameButFacts_of_learn {v : Value} {fact : Fact} (learned : s.learn? v fact = some t) :
    s.SameButFacts t := by
  obtain ⟨known, _, same⟩ := Option.map_eq_some_iff.mp learned
  split at same
  · rw [← same]
    exact .refl s
  · rw [← same]
    exact ⟨rfl, rfl, rfl, rfl⟩

section Frame

theorem Becomes.routine (becomes : s.Becomes f t) : t.routine = s.routine := by
  induction becomes with
  | refl => rfl
  | tail _ touches ih =>
    rw [← ih]
    cases touches with
    | learn learned => exact (sameButFacts_of_learn learned).routine
    | give | fill | capture | bind => rfl

/-- The slots stay as they are but for those of the footprint. -/
theorem Becomes.captures (becomes : s.Becomes f t) (slot : CaptureId) :
    t.capture? slot = s.capture? slot ∨ ∃ i, t.capture? slot = some i ∧ f.captures slot i := by
  induction becomes with
  | refl => exact Or.inl rfl
  | @tail t u _ touches ih =>
    cases touches with
    | @capture slot' i allowed =>
      rw [capture?, Table.get?_insert]
      split
      · rename_i here
        rw [here]
        exact Or.inr ⟨i, rfl, allowed⟩
      · exact ih
    | learn learned =>
      rw [capture?, (sameButFacts_of_learn learned).captures]
      exact ih
    | give | fill | bind => exact ih

/-- The operations have the values that they had but for those of the footprint. -/
theorem Becomes.operations (becomes : s.Becomes f t) (i : OpId) :
    t.operation? i = s.operation? i ∨ f.gives i ∨ f.fills i ∧ s.operation? i = none := by
  induction becomes with
  | refl => exact Or.inl rfl
  | @tail t u _ touches ih =>
    cases touches with
    | @give j _ allowed =>
      rw [operation?, Table.get?_insert]
      split
      · rename_i here
        rw [here]
        exact Or.inr (Or.inl allowed)
      · exact ih
    | @fill j _ allowed unknown =>
      rw [operation?, Table.get?_insert]
      split
      · rename_i here
        rcases ih with same | touched
        · rw [← same, here]
          exact Or.inr (Or.inr ⟨allowed, unknown⟩)
        · exact Or.inr touched
      · exact ih
    | learn learned =>
      rw [(sameButFacts_of_learn learned).operation?]
      exact ih
    | capture | bind => exact ih

/-- The symbols are bound as they were but for those of the footprint. -/
theorem Becomes.symbols (becomes : s.Becomes f t) (x : SymbolId) :
    t.symbol? x = s.symbol? x ∨ f.binds x := by
  induction becomes with
  | refl => exact Or.inl rfl
  | @tail t u _ touches ih =>
    cases touches with
    | bind allowed =>
      rcases allowed x with bound | same
      · exact Or.inr bound
      · rw [symbol?, same]
        exact ih
    | learn learned =>
      rw [symbol?, (sameButFacts_of_learn learned).symbols]
      exact ih
    | give | fill | capture => exact ih

/-- Only proper facts are learned, which leaves what is known feasible. -/
theorem Becomes.feasible (becomes : s.Becomes f t) (feasible : s.Feasible) : t.Feasible := by
  induction becomes with
  | refl => exact feasible
  | tail _ touches ih =>
    cases touches with
    | learn learned proper => exact ih.learn proper learned
    | give | fill | capture | bind => exact ih

/-- What is known of nullness stays known. -/
theorem Becomes.nullness? (becomes : s.Becomes f t) {v : Value} {n : Nullness}
    (known : s.nullness? v = some n) : t.nullness? v = some n := by
  induction becomes with
  | refl => exact known
  | tail _ touches ih =>
    cases touches with
    | learn learned => exact nullness?_of_learn learned ih
    | give | fill | capture | bind => exact ih

/-- Where a write leads depends on the slots alone. -/
theorem storage?_congr (same : ∀ slot, t.capture? slot = s.capture? slot) (r : Routine) (i : OpId) :
    t.storage? r i = s.storage? r i := by
  have passed : t.passedTo? r = s.passedTo? r := by
    funext j
    simp only [passedTo?, same]
  simp only [storage?, passed]

theorem Becomes.storage? (becomes : s.Becomes f t) (none : ∀ slot i, ¬f.captures slot i)
    (r : Routine) (i : OpId) : t.storage? r i = s.storage? r i := by
  apply storage?_congr
  intro slot
  rcases becomes.captures slot with same | ⟨j, _, captured⟩
  · exact same
  · exact absurd captured (none slot j)

end Frame

section Change

theorem Becomes.refl (s : State) : s.Becomes f s := Relation.ReflTransGen.refl

theorem Becomes.touch (before : u.Becomes f s) (touches : s.Touches f t) : u.Becomes f t :=
  .tail before touches

variable (before : u.Becomes f s)

include before

theorem Becomes.stay (same : some s = some t) : u.Becomes f t := by
  cases same
  exact before

theorem Becomes.learn {v : Value} {fact : Fact} (learned : s.learn? v fact = some t)
    (proper : fact.Proper) : u.Becomes f t := before.touch (.learn learned proper)

theorem Becomes.learnAll {v : Value} {l : List Fact} (learned : s.learnAll? v l = some t)
    (proper : ∀ fact ∈ l, fact.Proper) : u.Becomes f t := by
  induction l generalizing s with
  | nil => exact before.stay learned
  | cons fact rest ih =>
    obtain ⟨t', first, last⟩ := Option.bind_eq_some_iff.mp learned
    have proper' : ∀ g ∈ rest, g.Proper := fun g hg => proper g (List.mem_cons_of_mem fact hg)
    exact ih (before.learn first (proper fact List.mem_cons_self)) last proper'

theorem Becomes.settle {v : Value} {fact : Option Fact} (learned : s.settle? v fact = some t)
    (proper : ∀ g, fact = some g → g.Proper) : u.Becomes f t := by
  cases fact with
  | none => exact before.stay learned
  | some fact => exact before.learn learned (proper fact rfl)

theorem Becomes.dereference (v : Value) : u.Becomes f (s.dereference v) := by
  cases learned : s.learn? v (.nullness .notNull) with
  | none =>
    rw [State.dereference, learned]
    exact before
  | some t =>
    rw [State.dereference, learned]
    exact before.learn learned trivial

theorem Becomes.setSymbol {x : SymbolId} (allowed : f.binds x) (v : Value) :
    u.Becomes f (s.setSymbol x v) := by
  apply before.touch (.bind _)
  intro y
  rw [Table.get?_insert]
  split
  · rename_i here
    rw [here]
    exact Or.inl allowed
  · exact Or.inr rfl

theorem Becomes.clearSymbol {x : SymbolId} (allowed : f.binds x) :
    u.Becomes f (s.clearSymbol x) := by
  apply before.touch (.bind _)
  intro y
  rw [Table.get?_erase]
  split
  · rename_i here
    rw [here]
    exact Or.inl allowed
  · exact Or.inr rfl

theorem Becomes.forgetFields {symbols : Symbols} (allowed : ∀ x, symbols.isField x → f.binds x) :
    u.Becomes f (Rule.forgetFields symbols s) := by
  apply before.touch (.bind _)
  intro x
  by_cases field : symbols.isField x
  · exact Or.inl (allowed x field)
  · rw [Table.get?_filter]
    simp only [Bool.not_eq_true] at field
    cases bound : s.symbols.get? x with
    | none => simp [symbol?, bound]
    | some v => simp [symbol?, bound, field]

theorem Becomes.write {r : Routine} {target : OpId}
    (allowed : ∀ x, s.storage? r target = some x → f.binds x) (v : Value) :
    u.Becomes f (s.write r target v) := by
  simp only [State.write]
  split
  · rename_i x reached
    exact before.setSymbol (allowed x reached) v
  · exact before

end Change

end State

end SymbolicExecution
