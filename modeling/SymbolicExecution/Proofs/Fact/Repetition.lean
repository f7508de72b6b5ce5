import SymbolicExecution.Proofs.Fact.Order
import SymbolicExecution.Proofs.Feasible

/-!
# Learning what is known

A fact that was learned is learned again without any change, with one exception. The first interval
that is learned of a value is taken as it is written, while later ones meet the one that is known.
So an interval whose bounds cross is learned once and contradicts itself thereafter.
-/

namespace SymbolicExecution

namespace Facts

variable {f g : Facts} {a : Fact} {r : Interval}

/-- A fact that does not contradict itself is known once it is learned. -/
theorem learn?_of_learn (learned : f.learn? a = some g) (proper : a.Proper) :
    g.learn? a = some g := by
  cases a with
  | truth b =>
    obtain ⟨allowed, ⟨⟩⟩ := Option.ite_none_left_eq_some.mp learned
    have present : f.nullness ≠ some .null := fun null => allowed (Or.inr null)
    rw [learn?_truth_of_present (f := { f with truth := some b }) present]
    cases b <;> rfl
  | nullness n =>
    obtain ⟨_, ⟨⟩⟩ := Option.ite_none_left_eq_some.mp learned
    cases n <;> rfl
  | within r =>
    obtain ⟨present, _⟩ := Option.ite_none_left_eq_some.mp learned
    rw [learn?_within_of_present present] at learned
    obtain ⟨t, met, rfl⟩ := Option.map_eq_some_iff.mp learned
    have again : t.meet? r = some t := by
      cases known : f.interval with
      | some s =>
        rw [known] at met
        exact Interval.meet?_of_meet? met
      | none =>
        rw [known] at met
        cases met
        exact Interval.meet?_self_eq_some_iff.mpr proper
    rw [learn?_within_of_present (f := { f with interval := some t }) present]
    simp [again]

/-- An interval with crossed bounds is learned only where it is the first one, and it contradicts
itself the second time. -/
theorem learn?_eq_none_of_learn (learned : f.learn? a = some g) (crossed : ¬a.Proper) :
    f.interval = none ∧ g.learn? a = none := by
  cases a with
  | truth | nullness => exact absurd trivial crossed
  | within r =>
    obtain ⟨present, _⟩ := Option.ite_none_left_eq_some.mp learned
    rw [learn?_within_of_present present] at learned
    obtain ⟨t, met, rfl⟩ := Option.map_eq_some_iff.mp learned
    cases known : f.interval with
    | some s =>
      rw [known] at met
      exact absurd (Interval.proper_right_of_meet? met) crossed
    | none =>
      rw [known] at met
      cases met
      rw [learn?_within_of_present (f := { f with interval := some r }) present]
      simp [Interval.meet?_self_eq_none_iff.mpr crossed]

end Facts

namespace State

variable {s t : State} {v : Value} {a : Fact}

/-- To learn a fact again is to learn it of the facts that it has led to. -/
theorem exists_learn?_eq (learned : s.learn? v a = some t) : ∃ g,
    (s.factsOf v).learn? a = some g ∧ t.learn? v a = (g.learn? a).map (t.know v) ∧
      t.know v g = t := by
  rw [learn?_eq] at learned
  obtain ⟨g, narrowed, rfl⟩ := Option.map_eq_some_iff.mp learned
  refine ⟨g, narrowed, ?_, congrFun (know_know s v g) g⟩
  rw [learn?_eq, factsOf_know_self]

/-- A fact that was learned is learned again, and without any change of the state, exactly if it
does not contradict itself. The one that does, an interval with crossed bounds, is learned only of a
value of which no interval was known, and is refuted the second time. -/
theorem learn?_repeated (learned : s.learn? v a = some t) :
    (t.learn? v a = some t ↔ a.Proper) ∧
    (¬a.Proper → s.interval? v = none ∧ t.learn? v a = none) := by
  obtain ⟨g, narrowed, again, known⟩ := exists_learn?_eq learned
  have refuted (crossed : ¬a.Proper) : s.interval? v = none ∧ t.learn? v a = none := by
    obtain ⟨unknown, refuted⟩ := Facts.learn?_eq_none_of_learn narrowed crossed
    exact ⟨unknown, by rw [again, refuted, Option.map_none]⟩
  refine ⟨?_, refuted⟩
  constructor
  · intro same
    refine Classical.byContradiction fun crossed => ?_
    cases (refuted crossed).2.symm.trans same
  · intro proper
    rw [again, Facts.learn?_of_learn narrowed proper, Option.map_some, known]

/-- What is at most ten is learned to be at least three, once and again. -/
theorem learn?_repeated_meeting : ∃ s t : State,
    s = (State.entry ⟨0⟩).know ⟨0⟩ ⟨none, some .notNull, some (.atMost 10)⟩ ∧
    s.learn? ⟨0⟩ (.within (.atLeast 3)) = some t ∧ t.interval? ⟨0⟩ = some ⟨some 3, some 10⟩ ∧
    (Fact.within (.atLeast 3)).Proper ∧ t.learn? ⟨0⟩ (.within (.atLeast 3)) = some t := by
  have proper : (Fact.within (.atLeast 3)).Proper := Interval.proper_atLeast 3
  refine ⟨_, _, rfl, rfl, rfl, proper, ?_⟩
  exact (learn?_repeated (s := (State.entry ⟨0⟩).know ⟨0⟩
    ⟨none, some .notNull, some (.atMost 10)⟩) rfl).1.mpr proper

/-- Of a value of which nothing is known it is learned that it is at least nine and at most four,
but not twice. -/
theorem learn?_refuted_again : ∃ t : State,
    (State.entry ⟨0⟩).learn? ⟨0⟩ (.within ⟨some 9, some 4⟩) = some t ∧
    t.learn? ⟨0⟩ (.within ⟨some 9, some 4⟩) = none :=
  ⟨_, rfl, rfl⟩

end State

end SymbolicExecution
