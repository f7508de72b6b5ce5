import SymbolicExecution.Proofs.Exploration.Invariant

/-!
# Budgets

Every published pair has cost a step or waits, so an exploration within its pair budget takes no
more steps than that. The outcome tells which budget ran out, and a configuration whose steps
suffice for its pairs never runs out of steps.
-/

namespace SymbolicExecution

theorem Config.maxVisited_le_of_validate {c : Config} (valid : c.validate = .ok ()) :
    c.maxVisited ≤ c.maxSteps := by
  have sound : c.defect? = none := by
    cases defect : c.defect? with
    | none => rfl
    | some d =>
      rw [Config.validate, defect] at valid
      cases valid
  apply Nat.le_of_not_lt
  intro short
  simp only [Config.defect?] at sound
  split at sound
  · cases sound
  · split at sound
    · cases sound
    · cases sound

namespace Exploration

variable {σ : Type} (e : Exploration σ)

/-- The published pairs are those that cost a step and those that wait, both budgets are kept, and
the outcome agrees with them. -/
structure Balanced (r : Run σ) : Prop where
  published : r.visited.size = r.counters.steps + r.pending.length
  pairs : r.visited.size ≤ e.config.maxVisited
  steps : r.counters.steps ≤ e.config.maxSteps
  completed : r.outcome = some .completed → r.pending = []
  full {l : Nat} : r.outcome = some (.incomplete (.visited l)) →
    l = e.config.maxVisited ∧ l = r.visited.size
  spent {l : Nat} : r.outcome = some (.incomplete (.steps l)) →
    l = e.config.maxSteps ∧ l = r.counters.steps ∧ r.pending ≠ []

namespace Balanced

variable {e} {r : Run σ}

/-- A run that ends otherwise is balanced if its numbers are. -/
theorem ofOutcome (published : r.visited.size = r.counters.steps + r.pending.length)
    (pairs : r.visited.size ≤ e.config.maxVisited) (steps : r.counters.steps ≤ e.config.maxSteps)
    (other : r.outcome = none ∨ r.outcome = some .cancelled ∨ ∃ m, r.outcome = some (.failed m)) :
    e.Balanced r := by
  refine ⟨published, pairs, steps, ?_, ?_, ?_⟩
  · intro ended
    simp [ended] at other
  · intro l ended
    simp [ended] at other
  · intro l ended
    simp [ended] at other

theorem publish (balanced : e.Balanced r) (p : Pair) (operation : Option Operation) :
    e.Balanced (e.publish p operation r) := by
  apply e.publish_elim
  case ended =>
    intro _
    exact balanced
  case known =>
    intro running _
    exact .ofOutcome balanced.published balanced.pairs balanced.steps (Or.inl running)
  case full =>
    intro _ _ full
    refine ⟨balanced.published, balanced.pairs, balanced.steps, ?_, ?_, ?_⟩
    · rintro ⟨⟩
    · rintro _ ⟨⟩
      exact ⟨rfl, Nat.le_antisymm full balanced.pairs⟩
    · rintro _ ⟨⟩
  case new =>
    intro running _ room
    apply ofOutcome
    · have published := balanced.published
      simp only [accept_visited, accept_pending, accept_counters, Array.size_push,
        List.length_append, List.length_singleton]
      omega
    · rw [accept_visited, Array.size_push]
      exact room
    · simpa using balanced.steps
    · simpa using Or.inl running

theorem act (balanced : e.Balanced r) (m : Move) : e.Balanced (e.act r m) := by
  cases m with
  | publish p operation => exact balanced.publish p operation
  | renumber | discard | skip | terminate =>
    exact ⟨balanced.published, balanced.pairs, balanced.steps, balanced.completed, balanced.full,
      balanced.spent⟩
  | fail message =>
    exact .ofOutcome balanced.published balanced.pairs balanced.steps
      (Or.inr (Or.inr ⟨message, rfl⟩))

theorem take {p : Pair} {rest : List Pair} (balanced : e.Balanced r) (running : r.outcome = none)
    (pending : r.pending = p :: rest) (budget : r.counters.steps < e.config.maxSteps) :
    e.Balanced (step rest r) := by
  refine .ofOutcome ?_ balanced.pairs budget (Or.inl running)
  have published := balanced.published
  rw [pending, List.length_cons] at published
  change r.visited.size = r.counters.steps + 1 + rest.length
  omega

theorem finish {o : Outcome} (balanced : e.Balanced r) (ends : e.Ends r o) :
    e.Balanced (r.finish o) := by
  cases ends with
  | completed done =>
    refine ⟨balanced.published, balanced.pairs, balanced.steps, fun _ => done, ?_, ?_⟩
    · rintro _ ⟨⟩
    · rintro _ ⟨⟩
  | cancelled =>
    exact .ofOutcome balanced.published balanced.pairs balanced.steps (Or.inr (Or.inl rfl))
  | spent waits spent =>
    refine ⟨balanced.published, balanced.pairs, balanced.steps, ?_, ?_, ?_⟩
    · rintro ⟨⟩
    · rintro _ ⟨⟩
    · rintro _ ⟨⟩
      exact ⟨rfl, Nat.le_antisymm spent balanced.steps, waits⟩

/-- The numbers rule out that the steps run out before the pairs do. -/
theorem not_spent (balanced : e.Balanced r) (valid : e.config.validate = .ok ()) (l : Nat) :
    r.outcome ≠ some (.incomplete (.steps l)) := by
  intro ended
  obtain ⟨budget, spent, waits⟩ := balanced.spent ended
  have waiting : 0 < r.pending.length := List.length_pos_iff.mpr waits
  have published := balanced.published
  have pairs := balanced.pairs
  have enough := Config.maxVisited_le_of_validate valid
  omega

end Balanced

theorem invariant_balanced (memory : σ) :
    e.Invariant memory (fun _ => True) e.Balanced where
  start _ := .ofOutcome rfl (Nat.zero_le _) (Nat.zero_le _) (Or.inl rfl)
  entry := trivial
  waiting _ _ _ _ := trivial
  take balanced running pending budget := balanced.take running pending budget
  act balanced _ _ := balanced.act _
  finish balanced ends := balanced.finish ends
  cancel balanced :=
    ⟨balanced.published, balanced.pairs, balanced.steps, balanced.completed, balanced.full,
      balanced.spent⟩

variable {e}

theorem steps_publish (p : Pair) (operation : Option Operation) (r : Run σ) :
    (e.publish p operation r).counters.steps = r.counters.steps := by
  apply e.publish_elim (P := fun t => t.counters.steps = r.counters.steps)
  case ended => exact fun _ => rfl
  case known => exact fun _ _ => rfl
  case full => exact fun _ _ _ => rfl
  case new =>
    intro _ _ _
    rw [accept_counters]

theorem steps_foldl (l : List Move) (r : Run σ) :
    (l.foldl e.play r).counters.steps = r.counters.steps := by
  induction l generalizing r with
  | nil => rfl
  | cons m rest ih =>
    rw [List.foldl_cons, ih, play]
    split
    · rfl
    · cases m with
      | publish p operation => exact steps_publish p operation r
      | renumber | discard | skip | terminate | fail => rfl

/-- While a run goes on, each turn is a step. -/
theorem Attains.steps {memory : σ} {k : Nat} {r : Run σ} (attains : e.Attains memory k r)
    (running : r.outcome = none) : r.counters.steps = k := by
  induction attains with
  | enter cancelled => exact steps_publish _ none (Run.start memory cancelled)
  | @turn k r _ before ih =>
    rcases e.advance_cases before with ⟨o, _, same⟩ | ⟨p, rest, _, _, _, same⟩
    · rw [same] at running
      cases running
    · rw [same, steps_foldl]
      exact congrArg (· + 1) (ih before)
  | cancel _ ih => exact ih running

variable (e)

/-- Every run ends: it ends by itself, and interrupted or not it goes on for no more turns than it
may take steps. At any time the published pairs are those that cost a step and those that wait, and
both budgets are kept. A completed run has expanded all its pairs, an incomplete one has used up the
budget that it names, and under a valid configuration that is never the budget of steps. -/
theorem run_balances (memory : σ) :
    (∀ cancelled, (e.run memory cancelled).outcome ≠ none ∧
      ∃ k, e.Attains memory k (e.run memory cancelled)) ∧
    ∀ k r, e.Attains memory k r →
      (r.outcome = none → k = r.counters.steps) ∧
      r.visited.size = r.counters.steps + r.pending.length ∧
      r.counters.steps ≤ e.config.maxSteps ∧ r.visited.size ≤ e.config.maxVisited ∧
      (r.outcome = some .completed → r.counters.steps = r.visited.size) ∧
      (∀ l, r.outcome = some (.incomplete (.visited l)) →
        l = e.config.maxVisited ∧ l = r.visited.size) ∧
      (∀ l, r.outcome = some (.incomplete (.steps l)) →
        l = e.config.maxSteps ∧ l = r.counters.steps) ∧
      (e.config.validate = .ok () → ∀ l, r.outcome ≠ some (.incomplete (.steps l))) := by
  constructor
  · intro cancelled
    exact ⟨e.outcome_run_ne_none memory cancelled, e.attains_run memory cancelled⟩
  · intro k r attains
    have balanced := (e.invariant_balanced memory).attains attains
    refine ⟨fun running => (attains.steps running).symm, balanced.published, balanced.steps,
      balanced.pairs, ?_, fun _ ended => balanced.full ended, ?_, balanced.not_spent⟩
    · intro ended
      have published := balanced.published
      rw [balanced.completed ended] at published
      exact published.symm
    · intro l ended
      obtain ⟨budget, steps, _⟩ := balanced.spent ended
      exact ⟨budget, steps⟩

end Exploration

end SymbolicExecution
