import SymbolicExecution.State

/-!
# Values in scope

The values that occur in a state, and what the changes of a state add to them.
-/

namespace SymbolicExecution.State

/-- The value occurs in the state: it is that of an operation or of a symbol, or constrained. -/
def Mentions (s : State) (v : Value) : Prop :=
  (∃ i, s.operation? i = some v) ∨ (∃ x, s.symbol? x = some v) ∨ ∃ f, s.facts.get? v = some f

/-- Every value that occurs in the state is below `k`. -/
structure Below (s : State) (k : Nat) : Prop where
  operation {i : OpId} {v : Value} : s.operation? i = some v → v.index < k
  symbol {x : SymbolId} {v : Value} : s.symbol? x = some v → v.index < k
  fact {v : Value} {f : Facts} : s.facts.get? v = some f → v.index < k

variable {s t : State} {k : Nat}

theorem Below.mono (below : s.Below k) {m : Nat} (le : k ≤ m) : s.Below m := by
  constructor
  · intro i v known
    exact Nat.lt_of_lt_of_le (below.operation known) le
  · intro x v bound
    exact Nat.lt_of_lt_of_le (below.symbol bound) le
  · intro v f constrained
    exact Nat.lt_of_lt_of_le (below.fact constrained) le

theorem Below.index_lt (below : s.Below k) {v : Value} (mentions : s.Mentions v) : v.index < k := by
  rcases mentions with ⟨i, known⟩ | ⟨x, bound⟩ | ⟨f, constrained⟩
  · exact below.operation known
  · exact below.symbol bound
  · exact below.fact constrained

theorem Below.fresh (below : s.Below k) : ¬s.Mentions ⟨k⟩ := by
  intro mentions
  exact Nat.lt_irrefl k (below.index_lt mentions)

theorem Below.facts_new (below : s.Below k) {v : Value} (new : k ≤ v.index) :
    s.facts.get? v = none := by
  apply Option.eq_none_iff_forall_ne_some.mpr
  intro f constrained
  exact Nat.not_lt.mpr new (below.fact constrained)

/-- Nothing is known of the value that is numbered next. -/
theorem Below.facts_fresh (below : s.Below k) : s.facts.get? ⟨k⟩ = none :=
  below.facts_new (Nat.le_refl k)

/-- Nothing is known of a value that is not below those of the state. -/
theorem Below.factsOf (below : s.Below k) {v : Value} (new : k ≤ v.index) :
    s.factsOf v = Facts.empty := by
  rw [State.factsOf, below.facts_new new]
  rfl

theorem below_entry (routine : RoutineId) (k : Nat) : (entry routine).Below k := by
  constructor
  · intro i v known
    cases known
  · intro x v bound
    cases bound
  · intro v f constrained
    cases constrained

theorem setOperation_eq_ok_iff {i : OpId} {v : Value} : s.setOperation i v = .ok t ↔
    i.routine = s.routine ∧ { s with operations := s.operations.insert i v } = t := by
  by_cases own : i.routine = s.routine
  · simp [State.setOperation, own]
  · simp [State.setOperation, own]

theorem Below.setOperation (below : s.Below k) {i : OpId} {v : Value} (inside : v.index < k)
    (set : s.setOperation i v = .ok t) : t.Below k := by
  obtain ⟨_, rfl⟩ := setOperation_eq_ok_iff.mp set
  refine ⟨?_, below.symbol, below.fact⟩
  intro j w known
  rw [operation?, Table.get?_insert] at known
  split at known
  · cases known
    exact inside
  · exact below.operation known

theorem Below.setSymbol (below : s.Below k) {x : SymbolId} {v : Value} (inside : v.index < k) :
    (s.setSymbol x v).Below k := by
  refine ⟨below.operation, ?_, below.fact⟩
  intro y w bound
  rw [symbol?, State.setSymbol, Table.get?_insert] at bound
  split at bound
  · cases bound
    exact inside
  · exact below.symbol bound

theorem symbol?_clearSymbol (s : State) (x y : SymbolId) :
    (s.clearSymbol x).symbol? y = if y = x then none else s.symbol? y :=
  Table.get?_erase _ _ _

theorem Below.clearSymbol (below : s.Below k) (x : SymbolId) : (s.clearSymbol x).Below k := by
  refine ⟨below.operation, ?_, below.fact⟩
  intro y v bound
  rw [symbol?_clearSymbol] at bound
  split at bound
  · cases bound
  · exact below.symbol bound

theorem Below.learn (below : s.Below k) {v : Value} (inside : v.index < k) {f : Fact}
    (learned : s.learn? v f = some t) : t.Below k := by
  obtain ⟨known, _, same⟩ := Option.map_eq_some_iff.mp learned
  split at same
  · cases same
    exact below
  · cases same
    refine ⟨below.operation, below.symbol, ?_⟩
    intro w g constrained
    rw [Table.get?_insert] at constrained
    split at constrained
    · rename_i here
      rw [here]
      exact inside
    · exact below.fact constrained

theorem operation?_of_forgetOperations {i : OpId} {v : Value}
    (known : s.forgetOperations.operation? i = some v) : s.operation? i = some v := by
  simp only [operation?, forgetOperations, Table.get?_filter, Option.filter_eq_some_iff] at known
  exact known.1

theorem facts_of_forgetOperations {v : Value} {f : Facts}
    (known : s.forgetOperations.facts.get? v = some f) : s.facts.get? v = some f := by
  simp only [forgetOperations, Table.get?_filter, Option.filter_eq_some_iff] at known
  exact known.1

theorem Below.forgetOperations (below : s.Below k) : s.forgetOperations.Below k := by
  constructor
  · intro i v known
    exact below.operation (operation?_of_forgetOperations known)
  · intro x v bound
    exact below.symbol bound
  · intro v f constrained
    exact below.fact (facts_of_forgetOperations constrained)

end SymbolicExecution.State
