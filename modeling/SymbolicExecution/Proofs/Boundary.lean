import SymbolicExecution.Proofs.Fact.Order
import SymbolicExecution.Proofs.Footprint

/-!
# What is kept across a boundary

Leaving a block forgets the values of operations that are not captured, and then the facts about
values that neither a symbol nor a captured operation has. What is left is a canonical form: two
states come to the same one exactly if they agree on all that can still be told.
-/

namespace SymbolicExecution.State

variable {s t : State} {i : OpId} {v : Value}

/-- Some slot holds the operation. -/
def Captured (s : State) (i : OpId) : Prop := ∃ slot, s.capture? slot = some i

/-- A symbol or a captured operation has the value. -/
def Live (s : State) (v : Value) : Prop :=
  (∃ x, s.symbol? x = some v) ∨ ∃ i, s.Captured i ∧ s.operation? i = some v

/-- The states that an entry state leads to. -/
inductive Made : State → Prop
  | entry (routine : RoutineId) : Made (entry routine)
  | setOperation {s t : State} {i : OpId} {v : Value} (made : Made s)
    (set : s.setOperation i v = .ok t) : Made t
  | setCapture {s t : State} {slot : CaptureId} {i : OpId} (made : Made s)
    (set : s.setCapture slot i = .ok t) : Made t
  | setSymbol {s : State} (made : Made s) (x : SymbolId) (v : Value) : Made (s.setSymbol x v)
  | clearSymbol {s : State} (made : Made s) (x : SymbolId) : Made (s.clearSymbol x)
  | learn {s t : State} {v : Value} {f : Fact} (made : Made s) (learned : s.learn? v f = some t) :
    Made t
  | forgetOperations {s : State} (made : Made s) : Made s.forgetOperations

/-- The table of facts has an entry only for values that it says something about. -/
def Stated (s : State) : Prop := ∀ v, s.facts.get? v ≠ some Facts.empty

theorem Stated.learn (stated : s.Stated) {f : Fact} (learned : s.learn? v f = some t) :
    t.Stated := by
  rw [learn?_eq] at learned
  obtain ⟨g, narrowed, rfl⟩ := Option.map_eq_some_iff.mp learned
  intro w
  simp only [know, Table.get?_insert]
  split
  · simpa using Facts.ne_empty_of_learn narrowed
  · exact stated w

theorem setCapture_eq_ok_iff {slot : CaptureId} : s.setCapture slot i = .ok t ↔
    i.routine = s.routine ∧ { s with captures := s.captures.insert slot i } = t := by
  by_cases own : i.routine = s.routine
  · simp [State.setCapture, own]
  · simp [State.setCapture, own]

theorem Made.stated (made : s.Made) : s.Stated := by
  induction made with
  | entry => exact nofun
  | setOperation _ set ih =>
    obtain ⟨_, rfl⟩ := setOperation_eq_ok_iff.mp set
    exact ih
  | setCapture _ set ih =>
    obtain ⟨_, rfl⟩ := setCapture_eq_ok_iff.mp set
    exact ih
  | setSymbol _ _ _ ih | clearSymbol _ _ ih => exact ih
  | learn _ learned ih => exact ih.learn learned
  | forgetOperations _ ih => exact fun v empty => ih v (facts_of_forgetOperations empty)

/-- Then the entries can be told from what they say. -/
theorem Stated.facts_eq (stated : s.Stated) (stated' : t.Stated)
    (same : s.factsOf v = t.factsOf v) : s.facts.get? v = t.facts.get? v := by
  simp only [factsOf] at same
  cases known : s.facts.get? v with
  | none =>
    cases known' : t.facts.get? v with
    | none => rfl
    | some g =>
      rw [known, known'] at same
      exact absurd (known'.trans (congrArg some same.symm)) (stated' v)
  | some f =>
    cases known' : t.facts.get? v with
    | none =>
      rw [known, known'] at same
      exact absurd (known.trans (congrArg some same)) (stated v)
    | some g =>
      rw [known, known'] at same
      exact congrArg some same

section Forget

theorem operation?_forgetOperations_of_captured (captured : s.Captured i) :
    s.forgetOperations.operation? i = s.operation? i := by
  have mem : s.captures.values.contains i = true := Table.contains_values.mpr captured
  simp only [operation?, forgetOperations, Table.get?_filter, mem]
  cases s.operations.get? i <;> rfl

theorem operation?_forgetOperations_of_not_captured (free : ¬s.Captured i) :
    s.forgetOperations.operation? i = none := by
  have out : s.captures.values.contains i = false :=
    Bool.eq_false_iff.mpr fun mem => free (Table.contains_values.mp mem)
  simp only [operation?, forgetOperations, Table.get?_filter, out]
  cases s.operations.get? i <;> rfl

/-- The values that the kept facts are about are those in use after forgetting, and before. -/
theorem contains_live_iff : (s.forgetOperations.operations.values.contains v ||
    s.symbols.values.contains v) = true ↔ s.Live v := by
  rw [Bool.or_eq_true, Table.contains_values, Table.contains_values, or_comm]
  apply or_congr Iff.rfl
  constructor
  · rintro ⟨i, kept⟩
    by_cases captured : s.Captured i
    · exact ⟨i, captured, operation?_of_forgetOperations kept⟩
    · cases (operation?_forgetOperations_of_not_captured captured).symm.trans kept
  · rintro ⟨i, captured, known⟩
    exact ⟨i, (operation?_forgetOperations_of_captured captured).trans known⟩

theorem facts_forgetOperations_of_live (live : s.Live v) :
    s.forgetOperations.facts.get? v = s.facts.get? v := by
  have mem := contains_live_iff.mpr live
  simp only [forgetOperations] at mem
  simp only [forgetOperations, Table.get?_filter, mem]
  cases s.facts.get? v <;> rfl

theorem facts_forgetOperations_of_not_live (dead : ¬s.Live v) :
    s.forgetOperations.facts.get? v = none := by
  have out := Bool.eq_false_iff.mpr fun mem => dead (contains_live_iff.mp mem)
  simp only [forgetOperations] at out
  simp only [forgetOperations, Table.get?_filter, out]
  cases s.facts.get? v <;> rfl

theorem factsOf_forgetOperations_of_live (live : s.Live v) :
    s.forgetOperations.factsOf v = s.factsOf v := by
  rw [factsOf, facts_forgetOperations_of_live live, factsOf]

theorem factsOf_forgetOperations_of_not_live (dead : ¬s.Live v) :
    s.forgetOperations.factsOf v = Facts.empty := by
  rw [factsOf, facts_forgetOperations_of_not_live dead]
  rfl

end Forget

/-- The states agree on all that is kept across a boundary. -/
structure Agrees (s t : State) : Prop where
  routine : s.routine = t.routine
  symbol (x : SymbolId) : s.symbol? x = t.symbol? x
  capture (slot : CaptureId) : s.capture? slot = t.capture? slot
  operation {i : OpId} : s.Captured i → s.operation? i = t.operation? i
  facts {v : Value} : s.Live v → s.factsOf v = t.factsOf v

namespace Agrees

theorem captured_iff (agrees : s.Agrees t) : s.Captured i ↔ t.Captured i := by
  simp only [Captured, agrees.capture]

theorem live_iff (agrees : s.Agrees t) : s.Live v ↔ t.Live v := by
  simp only [Live, agrees.symbol]
  apply or_congr Iff.rfl
  constructor
  · rintro ⟨i, captured, known⟩
    exact ⟨i, agrees.captured_iff.mp captured, (agrees.operation captured).symm.trans known⟩
  · rintro ⟨i, captured, known⟩
    have captured := agrees.captured_iff.mpr captured
    exact ⟨i, captured, (agrees.operation captured).trans known⟩

theorem symm (agrees : s.Agrees t) : t.Agrees s where
  routine := agrees.routine.symm
  symbol x := (agrees.symbol x).symm
  capture slot := (agrees.capture slot).symm
  operation captured := (agrees.operation (agrees.captured_iff.mpr captured)).symm
  facts live := (agrees.facts (agrees.live_iff.mpr live)).symm

theorem trans {u : State} (first : s.Agrees t) (second : t.Agrees u) : s.Agrees u where
  routine := first.routine.trans second.routine
  symbol x := (first.symbol x).trans (second.symbol x)
  capture slot := (first.capture slot).trans (second.capture slot)
  operation captured :=
    (first.operation captured).trans (second.operation (first.captured_iff.mp captured))
  facts live := (first.facts live).trans (second.facts (first.live_iff.mp live))

end Agrees

/-- Nothing that is kept is changed. -/
theorem agrees_forgetOperations (s : State) : s.Agrees s.forgetOperations where
  routine := rfl
  symbol _ := rfl
  capture _ := rfl
  operation captured := (operation?_forgetOperations_of_captured captured).symm
  facts live := (factsOf_forgetOperations_of_live live).symm

/-- States that agree keep the same: of what is not kept neither keeps anything. The entries of the
facts are compared, for an entry that says nothing is kept, too. -/
theorem Agrees.forgetOperations_eq (agrees : s.Agrees t)
    (entries : ∀ {v}, s.Live v → s.facts.get? v = t.facts.get? v) :
    s.forgetOperations = t.forgetOperations := by
  have operations : s.forgetOperations.operations = t.forgetOperations.operations := by
    apply Table.ext_get?
    intro i
    change s.forgetOperations.operation? i = t.forgetOperations.operation? i
    by_cases captured : s.Captured i
    · rw [operation?_forgetOperations_of_captured captured, agrees.operation captured,
        operation?_forgetOperations_of_captured (agrees.captured_iff.mp captured)]
    · rw [operation?_forgetOperations_of_not_captured captured,
        operation?_forgetOperations_of_not_captured (mt agrees.captured_iff.mpr captured)]
  have facts : s.forgetOperations.facts = t.forgetOperations.facts := by
    apply Table.ext_get?
    intro v
    by_cases live : s.Live v
    · rw [facts_forgetOperations_of_live live, entries live,
        facts_forgetOperations_of_live (agrees.live_iff.mp live)]
    · rw [facts_forgetOperations_of_not_live live,
        facts_forgetOperations_of_not_live (mt agrees.live_iff.mpr live)]
  have symbols : s.symbols = t.symbols := Table.ext_get? agrees.symbol
  have captures : s.captures = t.captures := Table.ext_get? agrees.capture
  calc s.forgetOperations
      = ⟨s.routine, s.forgetOperations.operations, s.symbols, s.forgetOperations.facts,
          s.captures⟩ := rfl
    _ = ⟨t.routine, t.forgetOperations.operations, t.symbols, t.forgetOperations.facts,
          t.captures⟩ := by rw [agrees.routine, operations, symbols, facts, captures]
    _ = t.forgetOperations := rfl

theorem forgetOperations_forgetOperations (s : State) :
    s.forgetOperations.forgetOperations = s.forgetOperations :=
  ((agrees_forgetOperations s).forgetOperations_eq fun live =>
    (facts_forgetOperations_of_live live).symm).symm

/-- Two states come to the same one at a boundary exactly if they agree on the routine, on symbols
and captures, on the values of captured operations, and on the facts about the values of symbols and
captured operations. Forgetting twice is forgetting once. It changes none of these, nor where a
write reaches, and keeps no value of another operation and no fact about another value. -/
theorem forgetOperations_canonical :
    (∀ s t : State, s.Made → t.Made →
      (s.forgetOperations = t.forgetOperations ↔ s.Agrees t)) ∧
    ∀ s : State, s.forgetOperations.forgetOperations = s.forgetOperations ∧
      s.Agrees s.forgetOperations ∧
      (∀ r i, s.forgetOperations.storage? r i = s.storage? r i) ∧
      (∀ i, ¬s.Captured i → s.forgetOperations.operation? i = none) ∧
      ∀ v, ¬s.Live v → s.forgetOperations.factsOf v = Facts.empty := by
  constructor
  · intro s t made made'
    constructor
    · intro same
      have agrees : s.Agrees t.forgetOperations := same ▸ agrees_forgetOperations s
      exact agrees.trans (agrees_forgetOperations t).symm
    · intro agrees
      exact agrees.forgetOperations_eq fun live =>
        made.stated.facts_eq made'.stated (agrees.facts live)
  · intro s
    exact ⟨forgetOperations_forgetOperations s, agrees_forgetOperations s,
      storage?_congr fun _ => rfl, fun _ => operation?_forgetOperations_of_not_captured,
      fun _ => factsOf_forgetOperations_of_not_live⟩

/-- A state with a captured operation, and nothing else. -/
def captureState : State :=
  { entry ⟨0⟩ with
    operations := Table.empty.insert ⟨⟨0⟩, 1⟩ ⟨1⟩
    captures := Table.empty.insert ⟨0⟩ ⟨⟨0⟩, 1⟩ }

/-- What is known of another operation and of its value makes no difference. -/
theorem forgetOperations_canonical_captureState : ∃ t u : State,
    captureState.setOperation ⟨⟨0⟩, 0⟩ ⟨0⟩ = .ok t ∧ t.learn? ⟨0⟩ (.nullness .null) = some u ∧
    captureState.Made ∧ u.Made ∧ captureState ≠ u ∧
    captureState.forgetOperations = u.forgetOperations := by
  obtain ⟨t, given⟩ : ∃ t, captureState.setOperation ⟨⟨0⟩, 0⟩ ⟨0⟩ = .ok t := ⟨_, rfl⟩
  obtain ⟨u, learned⟩ : ∃ u, t.learn? ⟨0⟩ (.nullness .null) = some u := by
    cases given
    exact ⟨_, rfl⟩
  obtain ⟨s, given', recorded⟩ : ∃ s, (entry ⟨0⟩).setOperation ⟨⟨0⟩, 1⟩ ⟨1⟩ = .ok s ∧
      s.setCapture ⟨0⟩ ⟨⟨0⟩, 1⟩ = .ok captureState := ⟨_, rfl, rfl⟩
  have made : captureState.Made := ((Made.entry ⟨0⟩).setOperation given').setCapture recorded
  have captured {i : OpId} (captured : captureState.Captured i) : i = ⟨⟨0⟩, 1⟩ := by
    obtain ⟨slot, held⟩ := captured
    simp only [captureState, capture?, Table.get?_insert] at held
    split at held
    · exact (Option.some.inj held).symm
    · cases held
  have live {v : Value} (live : captureState.Live v) : v = ⟨1⟩ := by
    rcases live with ⟨x, bound⟩ | ⟨i, held, known⟩
    · cases bound
    · rw [captured held] at known
      exact (Option.some.inj known).symm
  have agrees : captureState.Agrees u := by
    cases given
    cases learned
    refine ⟨rfl, fun _ => rfl, fun _ => rfl, ?_, ?_⟩
    · intro i held
      rw [captured held]
      rfl
    · intro v used
      rw [live used]
      rfl
  have made' : u.Made := (made.setOperation given).learn learned
  refine ⟨t, u, given, learned, made, made', ?_,
    (forgetOperations_canonical.1 captureState u made made').mpr agrees⟩
  cases given
  cases learned
  decide

end SymbolicExecution.State
