import SymbolicExecution.Check.UselessIncrement
import SymbolicExecution.Proofs.Exploration.Reporting
import SymbolicExecution.Proofs.Exploration.Wrapping

/-!
# Reported increments

The check for useless increments looks at an assignment after it was made. If what was assigned is
the value of a postfixed step, and it was assigned to the symbol that was stepped, the symbol has
its old value again: what the step computed is lost.
-/

namespace SymbolicExecution

open Relation

/-- The value of the postfixed step `i` was just assigned to the symbol that the step writes. It may
have been passed on in parentheses or by a conversion. -/
structure Sighting.Restores (s : Sighting) (i location : OpId) (x : SymbolId) : Prop where
  assigned : ∃ o target value, s.operation = some o ∧ o.form = .assign target value ∧
    ReflTransGen s.routine.Wraps value i ∧ s.state.storage? s.routine target = some x
  stepped : ∃ p down, s.routine.operation? i = some p ∧ p.form = .step location down true ∧
    s.state.storage? s.routine location = some x

theorem Routine.not_wraps_of_step {r : Routine} {i j location : OpId} {p : Operation}
    {down postfixed : Bool} (found : r.operation? i = some p)
    (form : p.form = .step location down postfixed) : ¬r.Wraps i j := by
  intro wraps
  obtain ⟨q, found', wrapping⟩ := wraps.exists_operation
  cases found.symm.trans found'
  rcases wrapping with wrapping | wrapping <;> cases form.symm.trans wrapping

/-- A step names no symbol. -/
theorem State.storage?_of_step {s : State} {r : Routine} {i location : OpId} {p : Operation}
    {down postfixed : Bool} (found : r.operation? i = some p)
    (form : p.form = .step location down postfixed) : s.storage? r i = none := by
  rw [storage?_of_last (by simp [passedTo?, found, form])]
  simp [Routine.namedSymbol?, found, form]

/-- The check reports a step whose value was assigned to the symbol that it stepped. -/
theorem UselessIncrement.find_iff {s : Sighting} (closed : s.routine.Closed) {i : OpId} :
    (∃ f ∈ find s, f.check = name ∧ f.operation = some i) ↔
      ∃ location x, s.Restores i location x := by
  constructor
  · rintro ⟨f, hf, _, here⟩
    simp only [find] at hf
    split at hf
    case h_2 => cases hf
    rename_i o operation
    split at hf
    case h_2 => cases hf
    rename_i target value assigns
    split at hf
    case h_2 => cases hf
    rename_i p known
    split at hf
    case h_2 => cases hf
    rename_i location down steps
    split at hf
    case isFalse => cases hf
    rename_i shared
    rw [List.mem_singleton.mp hf] at here
    cases here
    obtain ⟨j, unwrapped, found⟩ := Option.bind_eq_some_iff.mp known
    obtain ⟨way, _⟩ := Routine.unwrap?_eq_some_iff.mp unwrapped
    rw [Routine.hop_inner_eq, ← closed.label found] at way
    rw [← closed.label found] at found
    simp only [Bool.and_eq_true, decide_eq_true_eq] at shared
    obtain ⟨x, reached⟩ := Option.isSome_iff_exists.mp shared.1
    exact ⟨location, x, ⟨o, target, value, operation, assigns, way, reached⟩,
      ⟨p, down, found, steps, shared.2 ▸ reached⟩⟩
  · rintro ⟨location, x, ⟨o, target, value, operation, assigns, way, written⟩,
      ⟨p, down, found, steps, reached⟩⟩
    have last : s.routine.inner? i = none := by
      cases hop : s.routine.inner? i with
      | none => rfl
      | some j =>
        have wraps := Routine.hop_inner_iff.mp hop
        exact absurd wraps (Routine.not_wraps_of_step found steps)
    rw [← Routine.hop_inner_eq] at way
    have unwrapped := Routine.unwrap?_eq_some_iff.mpr ⟨way, last⟩
    refine ⟨{ s.finding name .error (message down) with
      operation := some p.id, line := p.line <|> o.line }, ?_, rfl, ?_⟩
    case refine_2 => exact congrArg some (closed.label found)
    simp [find, operation, assigns, unwrapped, found, steps, written, reached]

namespace Exploration

variable {σ : Type} {e : Exploration σ}

/-- On the way to the pair the step was evaluated and wrote the new value to the symbol. Its own
value is the old one, which it found at its location. If the location names the symbol, instead of
something recorded earlier, this is the value that the symbol had. -/
structure Stepped (e : Exploration σ) (visited : Array Pair) (i location : OpId) (x : SymbolId)
    (old new : Value) (q : Pair) : Prop where
  value : q.state.operation? i = some old
  bound : q.state.symbol? x = some new
  changed : new ≠ old
  origin : ∃ p ∈ visited, ReflTransGen e.Leads p q ∧
    (∃ n m o, e.operationAt? p.point = some o ∧ o.id = i ∧
      Rule.Computes (e.situation p o) n m new old) ∧
    ∀ j y, ReflTransGen e.routine.Wraps location j → e.routine.Refers j y →
      p.state.symbol? x = some old

/-- Whatever symbol the location reaches was stepped on the way to the pair. -/
def SteppedFrom (e : Exploration σ) (visited : Array Pair) (i location : OpId) (q : Pair)
    (old : Value) : Prop :=
  ∀ x, q.state.storage? e.routine location = some x →
    ∃ new, e.Stepped visited i location x old new q

section Write

variable {outline : Outline} (accepted : Routine.ofOutline outline = .ok e.routine)
  (builtin : e.semantics = .builtin) {n : Numbering} {p q : Pair} {o : Operation} {target : OpId}
  (leads : e.LeadsOn n p o q) (writes : o.form.target? = some target)

include accepted builtin leads writes

/-- Behind a write, the symbol that its target reaches is bound to what the write computes. -/
theorem LeadsOn.written : ∃ m v w, Numbering.start.Grows Numbering.InScope m ∧
    Rule.Computes (e.situation p o) n m v w ∧ q.state.operation? o.id = some w ∧
    (∀ i, q.state.storage? e.routine i = p.state.storage? e.routine i) ∧
    ∀ x, p.state.storage? e.routine target = some x → q.state.symbol? x = some v := by
  obtain ⟨states, m, answered, mem, becomes⟩ := leads.answered accepted builtin
  obtain ⟨f, meaning, leaves⟩ := Rule.leaves_landed (c := e.situation p o) (n := n) writes
  obtain ⟨written, s, v, w, value, computes, given, _⟩ :=
    Rule.leaves_of_process meaning leaves answered _ mem
  obtain ⟨_, v', value', symbol⟩ := written.symbol?
  cases value.symm.trans value'
  have grows := (Semantics.process_scoped (e.situation p o) leads.made leads.sound.below).1
  rw [answered] at grows
  refine ⟨m, v, w, leads.made.trans grows, computes, given, ?_, ?_⟩
  · apply becomes.storage?
    intro slot i captured
    have captured : o.form = .capture slot i := captured
    simp [captured, Form.target?] at writes
  · intro x reached
    exact (symbol x).trans (if_pos reached)

end Write

section Run

variable {outline : Outline} (accepted : Routine.ofOutline outline = .ok e.routine)
  (once : e.routine.EvaluatesOnce) (builtin : e.semantics = .builtin) {memory : σ}
  {cancelled : Bool} {i location : OpId} {x : SymbolId} {s : Operation} {down : Bool}
  (found : e.routine.operation? i = some s) (steps : s.form = .step location down true)

include accepted once builtin found steps

/-- Where the step is evaluated, the symbol that its location names has the location's value. -/
theorem exists_value_of_location {j : OpId} {y : SymbolId}
    (way : ReflTransGen e.routine.Wraps location j) (refers : e.routine.Refers j y) {p : Pair}
    (published : p ∈ (e.run memory cancelled).visited) (behind : e.Behind location p)
    (reached : p.state.storage? e.routine location = some x) :
    ∃ v, p.state.operation? location = some v ∧ p.state.symbol? x = some v := by
  have closed := Outline.closed accepted
  have tree := Outline.treelike accepted once
  have read : ∀ c, ReflTransGen e.routine.Wraps location c → e.routine.isWritten c = false := by
    intro c inner
    exact tree.isWritten_of_wrapped found (by simp [steps, Form.children])
      (by simp [steps, Form.written]) inner
  rw [State.storage?_of_wrapped way, State.storage?_of_refers refers] at reached
  refine exists_value_of_wrapped (P := fun q v => q.state.symbol? x = some v) accepted builtin way
    read ?_ ?_ published behind
  · rintro q hq ⟨o, arrival, rfl⟩
    obtain ⟨p, hp, n, leads⟩ := exists_leadsOn_of_arrival closed builtin hq arrival
    obtain ⟨states, m, answered, mem, _⟩ := leads.answered accepted builtin
    have known := operation?_of_arrival closed arrival
    have reference : o.form.isReference := by
      rcases refers with form | form | form | ⟨form, _, _⟩ <;>
        simp_all [Form.isReference]
    have names : p.state.storage? e.routine o.id = some x :=
      (State.storage?_of_refers refers).trans reached
    obtain ⟨f, meaning, leaves⟩ := Rule.leaves_reference (c := e.situation p o) (n := n) reference
      (read _ way) names
    exact Rule.leaves_of_process meaning leaves answered _ mem
  · intro p q d f v _ _ handed bound
    rw [handed]
    exact bound

/-- Behind the step the symbol has the new value and the step itself the old one. -/
theorem exists_stepped_of_behind {q : Pair} (published : q ∈ (e.run memory cancelled).visited)
    (behind : e.Behind i q) : ∃ old, q.state.operation? i = some old ∧
      e.SteppedFrom (e.run memory cancelled).visited i location q old := by
  have closed := Outline.closed accepted
  obtain ⟨o, arrival, rfl⟩ := behind
  cases found.symm.trans (operation?_of_arrival closed arrival)
  obtain ⟨p, hp, n, leads⟩ := exists_leadsOn_of_arrival closed builtin published arrival
  have writes : s.form.target? = some location := by simp [steps, Form.target?]
  obtain ⟨m, new, old, made, computes, value, storage, bound⟩ :=
    leads.written accepted builtin writes
  obtain ⟨u, one, supplied, left, derived⟩ := computes.step_cases steps
  refine ⟨old, value, ?_⟩
  intro x reached
  rw [storage] at reached
  have behind := leads.behind_last accepted (c := location) (by simp [steps, Form.children])
  refine ⟨new, value, bound x reached, ?_, p, hp, .single ⟨n, _, leads⟩,
    ⟨n, m, _, leads.operation, rfl, computes⟩, ?_⟩
  · -- the new value is numbered when the old one exists
    have below := Numbering.operands_lt_of_grows made derived old List.mem_cons_self
    rintro rfl
    exact Nat.lt_irrefl _ below
  · intro j y way refers
    obtain ⟨v, known, named⟩ := exists_value_of_location accepted once builtin found steps way
      refers hp behind reached
    cases left.symm.trans (supplied.kept known)
    exact named

omit accepted once builtin in
/-- Where the value of a wrapping is handed up, nothing changes for the step. -/
theorem SteppedFrom.wrapping {visited : Array Pair} {p q : Pair} {c d : OpId} {old : Value}
    (wraps : e.routine.Wraps c d) (leads : e.Leads p q)
    (handed : q.state = { p.state with operations := p.state.operations.insert c old })
    (stepped : e.SteppedFrom visited i location p old) :
    e.SteppedFrom visited i location q old := by
  intro x reached
  have same : q.state.storage? e.routine location = p.state.storage? e.routine location := by
    rw [handed]
    exact State.storage?_congr (fun _ => rfl) _ _
  rw [same] at reached
  obtain ⟨new, value, bound, changed, p₀, hp, way, rest⟩ := stepped x reached
  have other : i ≠ c := by
    rintro rfl
    exact Routine.not_wraps_of_step found steps wraps
  refine ⟨new, ?_, ?_, changed, p₀, hp, way.tail leads, rest⟩
  · rw [handed, State.operation?, Table.get?_insert, if_neg other]
    exact value
  · rw [handed]
    exact bound

/-- Behind what wraps the step, the symbol still has the new value. -/
theorem exists_stepped_of_wrapped {c : OpId} (way : ReflTransGen e.routine.Wraps c i)
    (read : ∀ d, ReflTransGen e.routine.Wraps c d → e.routine.isWritten d = false) {q : Pair}
    (published : q ∈ (e.run memory cancelled).visited) (behind : e.Behind c q) :
    ∃ old, q.state.operation? c = some old ∧
      e.SteppedFrom (e.run memory cancelled).visited i location q old :=
  exists_value_of_wrapped accepted builtin way read
    (fun _ hq behind => exists_stepped_of_behind accepted once builtin found steps hq behind)
    (fun _ _ _ _ _ wraps leads handed stepped => stepped.wrapping found steps wraps leads handed)
    published behind

/-- Behind an assignment of its value, the step has the old value, and so has the symbol if it is
the one that was stepped. -/
theorem LeadsOn.restored {n : Numbering} {p q : Pair} {o : Operation} {target value : OpId}
    (leads : e.LeadsOn n p o q) (published : p ∈ (e.run memory cancelled).visited)
    (assigns : o.form = .assign target value) (way : ReflTransGen e.routine.Wraps value i)
    (written : q.state.storage? e.routine target = some x)
    (reached : q.state.storage? e.routine location = some x) :
    ∃ old, q.state.operation? i = some old ∧ q.state.symbol? x = some old ∧
      ∃ new, e.Stepped (e.run memory cancelled).visited i location x old new p := by
  have known := operation?_of_arrival (Outline.closed accepted) leads.arrival
  have writes : o.form.target? = some target := by simp [assigns, Form.target?]
  obtain ⟨m, v, w, _, computes, _, storage, bound⟩ := leads.written accepted builtin writes
  obtain ⟨old, valued, stepped⟩ := exists_stepped_of_wrapped accepted once builtin found steps way
    (fun d inner => Outline.isWritten_of_assigned accepted once known assigns inner) published
    (leads.behind_last accepted (by simp [assigns, Form.children]))
  obtain ⟨new, stepped⟩ := stepped x ((storage location).symm.trans reached)
  obtain ⟨u, supplied, right⟩ := computes.assign_cases assigns
  cases right.symm.trans (supplied.kept valued)
  refine ⟨v, ?_, bound x ((storage target).symm.trans written), new, stepped⟩
  obtain ⟨_, _, _, _, becomes⟩ := leads.answered accepted builtin
  rcases becomes.operations i with same | (itself | renewed) | ⟨_, unknown⟩
  · exact same.trans stepped.value
  · have itself : i = o.id := itself
    rw [itself] at found
    cases found.symm.trans known
    cases steps.symm.trans assigns
  · -- the target of the assignment reaches a symbol, which a step does not
    have renewed : i ∈ o.form.renewed := renewed
    rw [assigns, Form.renewed, List.mem_singleton] at renewed
    rw [← renewed, State.storage?_of_step found steps] at written
    cases written
  · cases unknown.symm.trans stepped.value

end Run

/-- A completed run with the built-in semantics reports a useless increment at an operation, and
does so once, exactly if at a published pair the value of this postfixed step was just assigned to
the symbol that it steps. At every such pair the symbol has the value of the step, the old one,
while the new one that the step computed was bound to it right before the assignment and differs: it
was overwritten. This takes that every operation is evaluated once and that no other check reports
useless increments. -/
theorem run_reports_useless_increments {outline : Outline}
    (accepted : Routine.ofOutline outline = .ok e.routine) (once : e.routine.EvaluatesOnce)
    (builtin : e.semantics = .builtin)
    (registers : Registers e.checks UselessIncrement.name UselessIncrement.find) {memory : σ}
    {cancelled : Bool} (completed : (e.run memory cancelled).result = .completed) (i : OpId) :
    (((e.run memory cancelled).report e.routine).findings.countP
        (fun f => f.check = UselessIncrement.name ∧ f.operation = some i) = 1 ↔
      ∃ q ∈ (e.run memory cancelled).visited, ∃ location x,
        (e.sighting q).Restores i location x) ∧
    ∀ q ∈ (e.run memory cancelled).visited, ∀ location x, (e.sighting q).Restores i location x →
      ∃ old, q.state.operation? i = some old ∧ q.state.symbol? x = some old ∧
        (∃ p ∈ (e.run memory cancelled).visited, e.Leads p q) ∧
        ∀ p ∈ (e.run memory cancelled).visited, e.Leads p q →
          ∃ new, e.Stepped (e.run memory cancelled).visited i location x old new p := by
  have closed := Outline.closed accepted
  constructor
  · obtain ⟨k, attains⟩ := e.attains_run memory cancelled
    have reports := (invariant_reports registers memory).attains attains
    have findings : ((e.run memory cancelled).report e.routine).findings =
        (e.run memory cancelled).findings.kept.toList := by
      simp [Run.report, completed]
    rw [findings, reports.count_eq_one_iff i]
    have found : ∀ q, (∃ f ∈ UselessIncrement.find (e.sighting q),
        f.check = UselessIncrement.name ∧ f.operation = some i) ↔
        ∃ location x, (e.sighting q).Restores i location x :=
      fun q => UselessIncrement.find_iff closed
    simp only [found]
  · intro q hq location x restores
    obtain ⟨⟨o, target, value, arrival, assigns, way, written⟩,
      ⟨s, down, found, steps, reached⟩⟩ := restores
    have restored : ∀ p ∈ (e.run memory cancelled).visited, e.Leads p q →
        ∃ old, q.state.operation? i = some old ∧ q.state.symbol? x = some old ∧
          ∃ new, e.Stepped (e.run memory cancelled).visited i location x old new p := by
      rintro p hp ⟨n, o', leads⟩
      cases arrival.symm.trans leads.arrival
      exact leads.restored accepted once builtin found steps hp assigns way written reached
    obtain ⟨p, hp, n, leads⟩ := exists_leadsOn_of_arrival closed builtin hq arrival
    obtain ⟨old, valued, bound, _⟩ := restored p hp ⟨n, o, leads⟩
    refine ⟨old, valued, bound, ⟨p, hp, n, o, leads⟩, ?_⟩
    intro p' hp' leads'
    obtain ⟨old', valued', _, stepped⟩ := restored p' hp' leads'
    cases valued.symm.trans valued'
    exact stepped

/-- `x = (x++)` -/
def restoring : Outline where
  id := ⟨0⟩
  name := "restoring"
  blocks := #[⟨⟨0⟩, [⟨⟨0⟩, 4⟩], .leave none, none⟩]
  operations := #[⟨⟨⟨0⟩, 0⟩, .localRef ⟨0⟩, none⟩, ⟨⟨⟨0⟩, 1⟩, .localRef ⟨0⟩, none⟩,
    ⟨⟨⟨0⟩, 2⟩, .step ⟨⟨0⟩, 1⟩ false true, none⟩, ⟨⟨⟨0⟩, 3⟩, .paren ⟨⟨0⟩, 2⟩, none⟩,
    ⟨⟨⟨0⟩, 4⟩, .assign ⟨⟨0⟩, 0⟩ ⟨⟨0⟩, 3⟩, none⟩]
  closures := []

def restoringExploration : Exploration Unit where
  routine :=
    { id := ⟨0⟩
      name := "restoring"
      blocks := restoring.blocks
      operations := restoring.operations
      closures := Table.empty
      orders := #[#[⟨⟨0⟩, 0⟩, ⟨⟨0⟩, 1⟩, ⟨⟨0⟩, 2⟩, ⟨⟨0⟩, 3⟩, ⟨⟨0⟩, 4⟩]]
      written := [⟨⟨0⟩, 0⟩] }
  symbols := ⟨fun _ => none⟩
  semantics := .builtin
  checks := [.uselessIncrement]
  config := default

/-- Behind the assignment all operations have the first value, and so has the symbol again. -/
def restoredPair : Pair where
  point := ⟨⟨0⟩, 5⟩
  state :=
    { routine := ⟨0⟩
      operations := ((((Table.empty.insert ⟨⟨0⟩, 1⟩ ⟨0⟩).insert ⟨⟨0⟩, 2⟩ ⟨0⟩).insert
        ⟨⟨0⟩, 3⟩ ⟨0⟩).insert ⟨⟨0⟩, 0⟩ ⟨0⟩).insert ⟨⟨0⟩, 4⟩ ⟨0⟩
      symbols := Table.empty.insert ⟨0⟩ ⟨0⟩
      facts := Table.empty.insert ⟨1⟩ ⟨none, some .notNull, some (.exact 1)⟩
      captures := Table.empty }

/-- The increment is reported, and before the assignment the symbol had another value. -/
theorem run_reports_useless_increments_restoring :
    ((restoringExploration.run () false).report restoringExploration.routine).findings.countP
      (fun f => f.check = UselessIncrement.name ∧ f.operation = some ⟨⟨0⟩, 2⟩) = 1 ∧
    restoredPair ∈ (restoringExploration.run () false).visited ∧
    restoredPair.state.symbol? ⟨0⟩ = some ⟨0⟩ ∧
    ∃ p ∈ (restoringExploration.run () false).visited, restoringExploration.Leads p restoredPair ∧
      ∃ new ≠ ⟨0⟩, p.state.symbol? ⟨0⟩ = some new := by
  have accepted : Routine.ofOutline restoring = .ok restoringExploration.routine := by rfl
  have once : restoringExploration.routine.EvaluatesOnce := by decide
  have registers :
      Registers restoringExploration.checks UselessIncrement.name UselessIncrement.find :=
    ⟨List.mem_cons_self, fun hc => Or.inl (List.mem_singleton.mp hc)⟩
  have completed : (restoringExploration.run () false).result = .completed := by decide +kernel
  have published : restoredPair ∈ (restoringExploration.run () false).visited :=
    Array.mem_of_getElem? (i := 5) (by decide +kernel)
  have restores : (restoringExploration.sighting restoredPair).Restores ⟨⟨0⟩, 2⟩ ⟨⟨0⟩, 1⟩ ⟨0⟩ :=
    ⟨⟨_, _, _, rfl, rfl, .single (.paren rfl), rfl⟩, ⟨_, _, rfl, rfl, rfl⟩⟩
  obtain ⟨reported, overwritten⟩ :=
    run_reports_useless_increments accepted once rfl registers completed ⟨⟨0⟩, 2⟩
  obtain ⟨old, _, bound, ⟨p, hp, leads⟩, stepped⟩ := overwritten _ published _ _ restores
  cases bound
  obtain ⟨new, stepped⟩ := stepped p hp leads
  exact ⟨reported.mpr ⟨_, published, _, _, restores⟩, published, rfl, p, hp, leads, new,
    stepped.changed, stepped.bound⟩

end Exploration

end SymbolicExecution
