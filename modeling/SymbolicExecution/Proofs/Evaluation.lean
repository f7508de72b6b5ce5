import SymbolicExecution.Branch

/-!
# Evaluations in sequence

How a sequence of evaluations goes on is decided by the verdict of its first part.
-/

namespace SymbolicExecution

namespace Eval

variable {α β : Type} {x : Eval α} {f : α → Eval β} {n m : Numbering}

theorem bind_of_result {a : α} (first : x n = (.result a, m)) : (x >>= f) n = f a m := by
  simp [bind, first]

theorem bind_of_infeasible (first : x n = (.infeasible, m)) :
    (x >>= f) n = (.infeasible, m) := by
  simp [bind, first]

theorem bind_of_refused {r : Refusal} (first : x n = (.refused r, m)) :
    (x >>= f) n = (.refused r, m) := by
  simp [bind, first]

end Eval

variable {s u : State} {i : OpId} {v : Value} {n m : Numbering}

theorem operand_of_known (known : s.operation? i = some v) :
    operand s i n = (.result (s, v), n) := by
  simp only [operand]
  rw [known]
  rfl

theorem operand_of_unknown (unknown : s.operation? i = none) (own : i.routine = s.routine) :
    operand s i n = (.result
      ({ s with operations := s.operations.insert i ⟨n.created⟩ }, ⟨n.created⟩), n.fresh.2) := by
  simp only [operand]
  rw [unknown]
  simp [bind, Eval.fresh, Numbering.fresh, State.setOperation, own, Eval.owned, pure]

namespace Routine

variable {r : Routine} {learning : Bool}

theorem split_of_decided {b : Bool} (evaluated : operand s i n = (.result (u, v), m))
    (decided : u.truth? v = some b) : r.split learning s i n = (.result [(b, u)], m) := by
  simp only [split]
  rw [Eval.bind_of_result evaluated]
  simp only [decided]
  rfl

theorem split_of_open (evaluated : operand s i n = (.result (u, v), m))
    (undecided : u.truth? v = none) :
    r.split learning s i n = (.result ([true, false].filterMap fun b =>
      (r.side? learning u i v b).map fun s => (b, s)), m) := by
  simp only [split]
  rw [Eval.bind_of_result evaluated]
  simp only [undecided]
  rfl

/-- The sides of a branch are those that can be taken. -/
theorem mem_sides {side? : Bool → Option State} {b : Bool} {t : State} :
    (b, t) ∈ [true, false].filterMap (fun b => (side? b).map fun s => (b, s)) ↔
      side? b = some t := by
  rw [List.mem_filterMap]
  constructor
  · rintro ⟨c, _, found⟩
    obtain ⟨u, taken, ⟨⟩⟩ := Option.map_eq_some_iff.mp found
    exact taken
  · intro taken
    exact ⟨b, by cases b <;> simp, by rw [taken]; rfl⟩

end Routine

end SymbolicExecution
