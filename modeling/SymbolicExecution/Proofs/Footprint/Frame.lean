import SymbolicExecution.Proofs.Fact.Exact
import SymbolicExecution.Proofs.Fact.Order
import SymbolicExecution.Proofs.Footprint.Rule

/-!
# What stays

What an operation does not touch stays as it was: slots, operations and symbols, each up to those
that its form names. About values more may be known afterwards, never less.
-/

namespace SymbolicExecution

namespace State

variable {s t : State} {v w : Value} {fact : Fact} {f : Footprint} {d : Guise}

/-- To learn about one value makes nothing possible for any. -/
theorem admit_of_learn (learned : s.learn? w fact = some t) (possible : (t.factsOf v).Admit d) :
    (s.factsOf v).Admit d := by
  rw [learn?_eq] at learned
  obtain ⟨g, narrowed, rfl⟩ := Option.map_eq_some_iff.mp learned
  by_cases same : v = w
  · rw [same] at possible ⊢
    rw [factsOf_know_self] at possible
    exact ((Facts.admit_of_learn narrowed).mp possible).1
  · rwa [factsOf_know s g same] at possible

theorem Becomes.possible (becomes : s.Becomes f t) (possible : (t.factsOf v).Admit d) :
    (s.factsOf v).Admit d := by
  induction becomes with
  | refl => exact possible
  | tail _ touches ih =>
    cases touches with
    | learn learned => exact ih (admit_of_learn learned possible)
    | give | fill | capture | bind => exact ih possible

end State

/-- The frame of an operation: what it leaves as it was. -/
structure Situation.Frames (c : Situation) (t : State) : Prop where
  routine : t.routine = c.state.routine
  /-- What is possible for a value was possible before. -/
  facts {v : Value} {d : Guise} : (t.factsOf v).Admit d → (c.state.factsOf v).Admit d
  /-- A slot changes only where the operation captures into it. -/
  captures (slot : CaptureId) : t.capture? slot = c.state.capture? slot ∨
    ∃ i, c.operation.form = .capture slot i ∧ t.capture? slot = some i
  /-- Another operation changes only if it is the target of an assignment or an argument that is
  passed by reference, or if it had no value and is a child or the captured operation. -/
  operations (i : OpId) : t.operation? i = c.state.operation? i ∨ i = c.operation.id ∨
    i ∈ c.operation.form.renewed ∨ c.state.operation? i = none ∧
      (i ∈ c.operation.form.children ∨
        ∃ slot, c.operation.form = .captureRef slot ∧ c.state.capture? slot = some i)
  symbols (x : SymbolId) : t.symbol? x = c.state.symbol? x ∨ c.Rebinds x

theorem State.Becomes.frames {c : Situation} {t : State}
    (becomes : c.state.Becomes c.footprint t) : c.Frames t where
  routine := becomes.routine
  facts := becomes.possible
  captures slot := by
    rcases becomes.captures slot with same | ⟨i, recorded, form⟩
    · exact Or.inl same
    · exact Or.inr ⟨i, form, recorded⟩
  operations i := by
    rcases becomes.operations i with same | (own | renewed) | ⟨filled, unknown⟩
    · exact Or.inl same
    · exact Or.inr (Or.inl own)
    · exact Or.inr (Or.inr (Or.inl renewed))
    · exact Or.inr (Or.inr (Or.inr ⟨unknown, filled⟩))
  symbols := becomes.symbols

/-- The built-in semantics, where it does not refuse an operation, answers with at most one state,
which is as it was up to what the operation names and what was learned. -/
theorem Rule.process_frames {c : Situation} {n : Numbering} {states : List State}
    (answered : (Semantics.builtin.process c n).1 = .ok states) :
    states.length ≤ 1 ∧ ∀ t ∈ states, c.Frames t := by
  obtain ⟨t, rfl, becomes⟩ := process_answers answered
  refine ⟨Option.length_toList_le, ?_⟩
  intro s mem
  exact (becomes s (Option.mem_toList.mp mem)).frames

namespace Rule

/-- A local is added to another one. -/
def adding : Outline where
  id := ⟨0⟩
  name := "adding"
  blocks := #[⟨⟨0⟩, [⟨⟨0⟩, 2⟩], .leave none, none⟩]
  operations := #[⟨⟨⟨0⟩, 0⟩, .localRef ⟨0⟩, none⟩, ⟨⟨⟨0⟩, 1⟩, .localRef ⟨1⟩, none⟩,
    ⟨⟨⟨0⟩, 2⟩, .compound .add ⟨⟨0⟩, 0⟩ ⟨⟨0⟩, 1⟩, none⟩]
  closures := []

/-- Both locals were read, the second one is at least zero, and a third one is bound. -/
def addingState : State where
  routine := ⟨0⟩
  operations := (Table.empty.insert ⟨⟨0⟩, 0⟩ ⟨0⟩).insert ⟨⟨0⟩, 1⟩ ⟨1⟩
  symbols := ((Table.empty.insert ⟨0⟩ ⟨0⟩).insert ⟨1⟩ ⟨1⟩).insert ⟨2⟩ ⟨2⟩
  facts := Table.empty.insert ⟨1⟩ ⟨none, none, some (.atLeast 0)⟩
  captures := Table.empty

/-- The addition, of locals that nothing describes. -/
def addingSituation (r : Routine) : Situation :=
  ⟨⟨⟨⟨0⟩, 2⟩, .compound .add ⟨⟨0⟩, 0⟩ ⟨⟨0⟩, 1⟩, none⟩, addingState, r, ⟨fun _ => none⟩⟩

/-- The first local and the reference to it have the sum, and the rest is as it was. -/
theorem process_frames_adding : ∃ r t, Routine.ofOutline adding = .ok r ∧
    (Semantics.builtin.process (addingSituation r) ⟨3, []⟩).1 = .ok [t] ∧
    t.symbol? ⟨0⟩ = some ⟨3⟩ ∧ t.operation? ⟨⟨0⟩, 0⟩ = some ⟨3⟩ ∧
    (∀ x, x ≠ ⟨0⟩ → t.symbol? x = addingState.symbol? x) ∧
    t.operation? ⟨⟨0⟩, 1⟩ = addingState.operation? ⟨⟨0⟩, 1⟩ ∧
    ∀ b k, (t.factsOf ⟨1⟩).Admit (.present b k) → 0 ≤ k := by
  obtain ⟨r, t, accepted, reached, answered, bound, given⟩ :
      ∃ r t, Routine.ofOutline adding = .ok r ∧ addingState.storage? r ⟨⟨0⟩, 0⟩ = some ⟨0⟩ ∧
        (Semantics.builtin.process (addingSituation r) ⟨3, []⟩).1 = .ok [t] ∧
        t.symbol? ⟨0⟩ = some ⟨3⟩ ∧ t.operation? ⟨⟨0⟩, 0⟩ = some ⟨3⟩ :=
    ⟨_, _, rfl, rfl, rfl, rfl, rfl⟩
  have frames := (process_frames answered).2 t (List.mem_singleton_self t)
  refine ⟨r, t, accepted, answered, bound, given, ?_, ?_, ?_⟩
  · intro x other
    rcases frames.symbols x with same | rebinds
    · exact same
    · exact absurd (Option.some.inj (reached.symm.trans rebinds)).symm other
  · rcases frames.operations ⟨⟨0⟩, 1⟩ with same | own | renewed | ⟨unknown, _⟩
    · exact same
    · cases own
    · cases List.mem_singleton.mp renewed
    · cases unknown
  · intro b k possible
    exact ((frames.facts possible).interval rfl).above rfl

end Rule

end SymbolicExecution
