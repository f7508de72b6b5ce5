import SymbolicExecution.Proofs.Exploration.Chain
import SymbolicExecution.Proofs.Exploration.Operand
import SymbolicExecution.Proofs.Exploration.Origin
import SymbolicExecution.Proofs.Footprint.Readback
import SymbolicExecution.Proofs.Routine.Acceptance
import SymbolicExecution.Proofs.Storage.Resolution

/-!
# Values in wrappings

The last child of an operation is evaluated directly before it. So a pair behind a parenthesis or a
conversion comes from one behind what is wrapped, and this goes on to the innermost operation, whose
value is handed up while nothing else changes.
-/

namespace SymbolicExecution

open Relation

namespace Routine

variable {r : Routine} {i j c : OpId} {p : Operation}

theorem Wraps.exists_operation (wraps : r.Wraps i j) :
    ∃ p, r.operation? i = some p ∧ (p.form = .paren j ∨ p.form = .convert j) := by
  rcases wraps with form | form
  · obtain ⟨p, found, form⟩ := Option.map_eq_some_iff.mp form
    exact ⟨p, found, Or.inl form⟩
  · obtain ⟨p, found, form⟩ := Option.map_eq_some_iff.mp form
    exact ⟨p, found, Or.inr form⟩

/-- What is wrapped in an operand that is read is read. -/
theorem Treelike.isWritten_of_wrapped (tree : r.Treelike) (found : r.operation? i = some p)
    (child : j ∈ p.form.children) (read : j ∉ p.form.written)
    (way : ReflTransGen r.Wraps j c) : r.isWritten c = false := by
  rw [← Bool.not_eq_true]
  intro isWritten
  rcases way.cases_tail with rfl | ⟨d, _, wraps⟩
  · exact read (tree.mem_written_of_child found child isWritten)
  · obtain ⟨q, known, form⟩ := wraps.exists_operation
    have inner : c ∈ q.form.children := by
      rcases form with form | form <;> simp [form, Form.children]
    have written := tree.mem_written_of_child known inner isWritten
    rcases form with form | form <;> simp [form, Form.written] at written

end Routine

/-- What is wrapped in the value of an assignment is read, as the value is not its target, too. -/
theorem Outline.isWritten_of_assigned {outline : Outline} {r : Routine}
    (accepted : Routine.ofOutline outline = .ok r) (once : r.EvaluatesOnce) {i c : OpId}
    {o : Operation} {target value : OpId} (found : r.operation? i = some o)
    (assigns : o.form = .assign target value) (way : ReflTransGen r.Wraps value c) :
    r.isWritten c = false := by
  have distinct := nodup_children accepted once found
  simp only [assigns, Form.children, List.nodup_cons, List.mem_singleton] at distinct
  have read : value ∉ o.form.written := by
    simpa [assigns, Form.written, eq_comm] using distinct.1
  have child : value ∈ o.form.children := by simp [assigns, Form.children]
  exact (treelike accepted once).isWritten_of_wrapped found child read way

namespace Exploration

variable {σ : Type} {e : Exploration σ} {n : Numbering} {p q : Pair} {o : Operation} {i c : OpId}

/-- Some expansion of the one pair leads on to the other one. -/
def Leads (e : Exploration σ) (p q : Pair) : Prop := ∃ n o, e.LeadsOn n p o q

/-- The pair stands behind the operation. -/
def Behind (e : Exploration σ) (i : OpId) (q : Pair) : Prop :=
  ∃ o, e.arrival? q.point = some o ∧ o.id = i

section LeadsOn

variable {outline : Outline} (accepted : Routine.ofOutline outline = .ok e.routine)
  (leads : e.LeadsOn n p o q)

include accepted leads

/-- A pair where an operation is evaluated stands behind its last child. -/
theorem LeadsOn.behind_last (last : o.form.children.getLast? = some c) : e.Behind c p := by
  have closed := Outline.closed accepted
  obtain ⟨i, here, found⟩ := Option.bind_eq_some_iff.mp leads.operation
  obtain ⟨j, next, before⟩ := Outline.last_child_of_order accepted here found last
  obtain ⟨o', known⟩ := closed.ordered before
  refine ⟨o', ?_, closed.label known⟩
  simp only [arrival?, next, operationAt?, before, Option.bind_some, known]

variable (builtin : e.semantics = .builtin)

include builtin

/-- The rule of the operation answers with the state of the pair behind it, which keeps to the
footprint. -/
theorem LeadsOn.answered : ∃ states m,
    Semantics.builtin.process (e.situation p o) n = (.ok states, m) ∧ q.state ∈ states ∧
      p.state.Becomes (e.situation p o).footprint q.state := by
  obtain ⟨states, successors, mem⟩ := leads.successors
  have answered := leads.sound.toPlaces.answered (Outline.closed accepted) builtin leads.operation
    successors
  obtain ⟨t, rfl, keeps⟩ := Rule.process_answers (c := e.situation p o) answered
  exact ⟨_, _, Prod.ext answered rfl, mem, keeps _ (Option.mem_toList.mp mem)⟩

/-- Parentheses and conversions that are read hand up the value of what they enclose, and nothing
else changes. -/
theorem LeadsOn.wraps (wraps : e.routine.Wraps o.id c) (read : e.routine.isWritten o.id = false)
    {v : Value} (known : p.state.operation? c = some v) :
    q.state = { p.state with operations := p.state.operations.insert o.id v } := by
  have closed := Outline.closed accepted
  obtain ⟨o', found, form⟩ := wraps.exists_operation
  cases found.symm.trans (operation?_of_arrival closed leads.arrival)
  obtain ⟨states, m, answered, mem, _⟩ := leads.answered accepted builtin
  have meaning : Rule.builtin (e.situation p o).operation.tag = Rule.ofEval Rule.passThrough := by
    rcases form with form | form
    · exact Model.builtin_tag form
    · exact Model.builtin_tag form
  exact Rule.leaves_of_process meaning (Rule.leaves_passThrough form read known) answered _ mem

end LeadsOn

/-- What holds of the value of the innermost operation wherever it was evaluated, and is kept where
parentheses and conversions hand it up, holds of the value of what wraps it. -/
theorem exists_value_of_wrapped {outline : Outline}
    (accepted : Routine.ofOutline outline = .ok e.routine) (builtin : e.semantics = .builtin)
    {memory : σ} {cancelled : Bool} {P : Pair → Value → Prop}
    (way : ReflTransGen e.routine.Wraps c i)
    (read : ∀ d, ReflTransGen e.routine.Wraps c d → e.routine.isWritten d = false)
    (innermost : ∀ q ∈ (e.run memory cancelled).visited, e.Behind i q →
      ∃ v, q.state.operation? i = some v ∧ P q v)
    (wrapping : ∀ p q d f v, e.routine.Wraps d f → e.Leads p q →
      q.state = { p.state with operations := p.state.operations.insert d v } → P p v → P q v)
    (published : q ∈ (e.run memory cancelled).visited) (behind : e.Behind c q) :
    ∃ v, q.state.operation? c = some v ∧ P q v := by
  have closed := Outline.closed accepted
  -- from the outside in, as the pair before one behind a wrapping is behind what is wrapped
  induction way using ReflTransGen.head_induction_on generalizing q with
  | refl => exact innermost q published behind
  | @head c d wraps _ ih =>
    obtain ⟨o, arrival, rfl⟩ := behind
    obtain ⟨p, hp, n, leads⟩ := exists_leadsOn_of_arrival closed builtin published arrival
    have last : o.form.children.getLast? = some d := by
      obtain ⟨o', found, form⟩ := wraps.exists_operation
      cases found.symm.trans (operation?_of_arrival closed arrival)
      rcases form with form | form <;> simp [form, Form.children]
    obtain ⟨v, known, holds⟩ := ih (fun f inner => read f (inner.head wraps)) hp
      (leads.behind_last accepted last)
    have handed := leads.wraps accepted builtin wraps (read _ .refl) known
    refine ⟨v, ?_, wrapping p q _ d v wraps ⟨n, o, leads⟩ handed holds⟩
    rw [handed, State.operation?, Table.get?_insert, if_pos rfl]

end Exploration

end SymbolicExecution
