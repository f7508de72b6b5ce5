import SymbolicExecution.Branch
import SymbolicExecution.Proofs.Interval
import SymbolicExecution.Proofs.Scope

/-!
# Facts without contradiction

The bounds of an interval may cross only where it is written so. The facts that are learned have
their bounds in order, and learning them leaves facts that do not contradict each other.
-/

namespace SymbolicExecution

namespace Fact

/-- The fact does not contradict itself. -/
def Proper : Fact → Prop
  | within r => r.Proper
  | truth _ | nullness _ => True

/-- A truth value does not contradict itself, wherever it comes from. -/
theorem proper_of_map_truth {α : Type} {x : Option α} {b : α → Bool} {f : Fact}
    (decided : x.map (fun a => truth (b a)) = some f) : f.Proper := by
  obtain ⟨_, _, rfl⟩ := Option.map_eq_some_iff.mp decided
  trivial

theorem proper_of_literal {l : Literal} {f : Fact} (hf : f ∈ l.facts) : f.Proper := by
  cases l with
  | int n =>
    rcases List.mem_cons.mp hf with rfl | hf
    · exact Interval.proper_exact n
    · rw [List.mem_singleton.mp hf]
      trivial
  | bool b =>
    rcases List.mem_cons.mp hf with rfl | hf
    · trivial
    · rw [List.mem_singleton.mp hf]
      trivial
  | str | null =>
    rw [List.mem_singleton.mp hf]
    trivial

theorem proper_of_fold? {s : State} {operator : BinOp} {a b : Value} {f : Fact}
    (folded : s.fold? operator a b = some f) : f.Proper := by
  simp only [State.fold?] at folded
  split at folded
  case h_1 | h_2 | h_3 | h_4 | h_5 =>
    obtain ⟨m, _, folded⟩ := Option.bind_eq_some_iff.mp folded
    obtain ⟨n, _, folded⟩ := Option.bind_eq_some_iff.mp folded
    obtain ⟨k, _, ⟨⟩⟩ := Option.bind_eq_some_iff.mp folded
    exact Interval.proper_exact k
  case h_6 | h_7 | h_12 | h_13 => exact proper_of_map_truth folded
  case h_8 | h_9 | h_10 | h_11 =>
    obtain ⟨r, _, folded⟩ := Option.bind_eq_some_iff.mp folded
    obtain ⟨t, _, folded⟩ := Option.bind_eq_some_iff.mp folded
    obtain ⟨holds, _, ⟨⟩⟩ := Option.bind_eq_some_iff.mp folded
    trivial

theorem proper_of_foldUnary? {s : State} {operator : UnOp} {a : Value} {f : Fact}
    (folded : s.foldUnary? operator a = some f) : f.Proper := by
  cases operator with
  | not => exact proper_of_map_truth folded
  | negate =>
    obtain ⟨n, _, rfl⟩ := Option.map_eq_some_iff.mp folded
    exact Interval.proper_exact n

/-- A comparison with a number leaves an interval that is open on one side or a point. -/
theorem proper_of_bounded? {s : State} {v : Value} {operator : BinOp} {n : Int64} {r : Interval}
    (bounded : s.bounded? v operator n = some r) : r.Proper := by
  have above : ∀ {x : Option Int64}, x.map Interval.atLeast = some r → r.Proper := by
    intro x moved
    obtain ⟨m, _, rfl⟩ := Option.map_eq_some_iff.mp moved
    exact Interval.proper_atLeast m
  have below : ∀ {x : Option Int64}, x.map Interval.atMost = some r → r.Proper := by
    intro x moved
    obtain ⟨m, _, rfl⟩ := Option.map_eq_some_iff.mp moved
    exact Interval.proper_atMost m
  cases operator with
  | equals =>
    cases bounded
    exact Interval.proper_exact n
  | notEquals =>
    simp only [State.bounded?] at bounded
    split at bounded
    · split at bounded
      · exact above bounded
      · split at bounded
        · exact below bounded
        · cases bounded
    · cases bounded
  | lessThan => exact below bounded
  | greaterThan => exact above bounded
  | lessOrEqual =>
    cases bounded
    exact Interval.proper_atMost n
  | greaterOrEqual =>
    cases bounded
    exact Interval.proper_atLeast n
  | _ => cases bounded

theorem proper_of_implied? {p : Pattern} {outcome : Bool} {f : Fact}
    (implied : p.implied? outcome = some f) : f.Proper := by
  simp only [Pattern.implied?] at implied
  split at implied
  case h_9 =>
    cases implied
    exact Interval.proper_exact _
  case h_11 => cases implied
  all_goals
    cases implied
    trivial

end Fact

namespace Facts

/-- The facts about a value do not contradict each other: what is null is neither a truth value nor
an integer, and the integers leave something. -/
structure Consistent (f : Facts) : Prop where
  apart : f.nullness = some .null → f.truth = none ∧ f.interval = none
  ordered {r : Interval} : f.interval = some r → r.Proper

/-- There are facts, and they do not contradict each other. -/
structure Feasible (f : Facts) : Prop extends Consistent f where
  nonempty : f.isEmpty = false

variable {f g : Facts} {fact : Fact}

theorem consistent_empty : empty.Consistent := by
  constructor
  · intro null
    cases null
  · intro r bounded
    cases bounded

/-- What is learned without a contradiction is feasible. -/
theorem Consistent.learn (consistent : f.Consistent) (proper : fact.Proper)
    (learned : f.learn? fact = some g) : g.Feasible := by
  cases fact with
  | truth b =>
    simp only [learn?] at learned
    split at learned
    · cases learned
    · rename_i allowed
      cases learned
      have notNull : f.nullness ≠ some .null := fun null => allowed (Or.inr null)
      exact ⟨⟨fun null => absurd null notNull, consistent.ordered⟩, rfl⟩
  | nullness n =>
    simp only [learn?] at learned
    split at learned
    · cases learned
    · rename_i allowed
      cases learned
      refine ⟨⟨?_, consistent.ordered⟩, by simp [isEmpty]⟩
      rintro ⟨⟩
      -- A value that may be null has no facts that exclude it.
      cases known : f.nullness with
      | some n =>
        cases n with
        | null => exact consistent.apart known
        | notNull => exact absurd (by simp [nullness?, known, Nullness.opposite]) allowed
      | none =>
        simp only [nullness?, known, Nullness.opposite] at allowed
        split at allowed
        · exact absurd rfl allowed
        · rename_i neither
          simpa using neither
  | within r =>
    simp only [learn?] at learned
    split at learned
    · cases learned
    · rename_i notNull
      split at learned
      · obtain ⟨t, met, rfl⟩ := Option.map_eq_some_iff.mp learned
        refine ⟨⟨fun null => absurd null notNull, ?_⟩, by simp [isEmpty]⟩
        rintro _ ⟨⟩
        exact Interval.proper_of_meet? met
      · cases learned
        refine ⟨⟨fun null => absurd null notNull, ?_⟩, by simp [isEmpty]⟩
        rintro _ ⟨⟩
        exact proper

/-- Learning does not change what is known of nullness. -/
theorem nullness?_of_learn (learned : f.learn? fact = some g) {n : Nullness}
    (known : f.nullness? = some n) : g.nullness? = some n := by
  cases fact with
  | truth b =>
    simp only [learn?] at learned
    split at learned
    · cases learned
    · rename_i allowed
      cases learned
      cases stated : f.nullness with
      | some m => simpa [nullness?, stated] using known
      | none =>
        simp only [nullness?, stated] at known ⊢
        split at known
        · simpa using known
        · cases known
  | nullness m =>
    simp only [learn?] at learned
    split at learned
    · cases learned
    · rename_i allowed
      cases learned
      rw [known] at allowed
      cases n <;> cases m <;> simp_all [nullness?, Nullness.opposite]
  | within r =>
    have same : g.nullness = f.nullness ∧ g.interval.isSome := by
      simp only [learn?] at learned
      split at learned
      · cases learned
      · split at learned
        · obtain ⟨t, _, rfl⟩ := Option.map_eq_some_iff.mp learned
          exact ⟨rfl, rfl⟩
        · cases learned
          exact ⟨rfl, rfl⟩
    cases stated : f.nullness with
    | some m => simpa [nullness?, same.1, stated] using known
    | none =>
      simp only [nullness?, stated] at known
      split at known
      · simpa [nullness?, same.1, same.2, stated] using known
      · cases known

end Facts

namespace State

/-- All that is known about values is feasible. -/
def Feasible (s : State) : Prop := ∀ v f, s.facts.get? v = some f → f.Feasible

variable {s t : State}

theorem feasible_entry (routine : RoutineId) : (entry routine).Feasible := by
  intro v f known
  cases known

theorem Feasible.consistent (feasible : s.Feasible) (v : Value) : (s.factsOf v).Consistent := by
  cases known : s.facts.get? v with
  | none =>
    rw [factsOf, known]
    exact Facts.consistent_empty
  | some f =>
    rw [factsOf, known]
    exact (feasible v f known).toConsistent

theorem Feasible.learn (feasible : s.Feasible) {v : Value} {fact : Fact} (proper : fact.Proper)
    (learned : s.learn? v fact = some t) : t.Feasible := by
  obtain ⟨known, narrowed, same⟩ := Option.map_eq_some_iff.mp learned
  have more := (feasible.consistent v).learn proper narrowed
  split at same
  · rw [← same]
    exact feasible
  · rw [← same]
    intro w f constrained
    rw [Table.get?_insert] at constrained
    split at constrained
    · cases constrained
      exact more
    · exact feasible w f constrained

/-- Learning, be it about another value, does not change what is known of nullness. -/
theorem nullness?_of_learn {v w : Value} {fact : Fact} (learned : s.learn? v fact = some t)
    {n : Nullness} (known : s.nullness? w = some n) : t.nullness? w = some n := by
  obtain ⟨more, narrowed, same⟩ := Option.map_eq_some_iff.mp learned
  split at same
  · rw [← same]
    exact known
  · rw [← same, State.nullness?, factsOf, Table.get?_insert]
    split
    · rename_i here
      rw [here] at known
      exact Facts.nullness?_of_learn narrowed known
    · exact known

theorem Feasible.forgetOperations (feasible : s.Feasible) : s.forgetOperations.Feasible :=
  fun v f constrained => feasible v f (facts_of_forgetOperations constrained)

end State

end SymbolicExecution
