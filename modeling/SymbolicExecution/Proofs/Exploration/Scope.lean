import SymbolicExecution.Proofs.Exploration.Closure
import SymbolicExecution.Proofs.Renaming.Expansion

/-!
# What an expansion numbers

The built-in rules and the splits number unknowns and terms of values that exist, and what they
leave mentions values that exist. An expansion takes over the numbering that its rule or its split
leaves.
-/

namespace SymbolicExecution

/-- A rule numbers terms of values that exist, and its successors mention such values. -/
theorem Semantics.process_scoped (z : Situation) {n : Numbering}
    (made : Numbering.start.Grows Numbering.InScope n) (below : z.state.Below n.created) :
    n.Grows Numbering.InScope (builtin.process z n).2 ∧
    ∀ states, (builtin.process z n).1 = .ok states →
      ∀ s ∈ states, s.Below (builtin.process z n).2.created := by
  have states := Correspondence.states_ofGrows (made.imp fun _ => trivial)
    (fun known => Numbering.closed_of_grows made known) .refl below
  obtain ⟨d, le, left, _, answers⟩ := Correspondence.tracksRule_builtin z.operation.tag states
  rw [process_builtin]
  have same : d.left = (Rule.builtin z.operation.tag z n).2 := left
  rw [← same]
  refine ⟨le.grows, ?_⟩
  intro l answered
  rcases answers with ⟨r, refused, _⟩ | ⟨l', m, answered', _, related⟩
  · cases refused.symm.trans answered
  · cases answered'.symm.trans answered
    exact ((List.forall₂_and_left l m).mp
      (related.imp fun _ _ states => ⟨states.below, states⟩)).1

/-- A split creates at most an unknown value for the condition. -/
theorem Routine.split_scoped (r : Routine) (learning : Bool) {s : State} (condition : OpId)
    {n : Numbering} (made : Numbering.start.Grows Numbering.InScope n) (below : s.Below n.created) :
    n.Grows Numbering.InScope (r.split learning s condition n).2 ∧
    ∀ sides, (r.split learning s condition n).1 = .result sides →
      ∀ side ∈ sides, side.2.Below (r.split learning s condition n).2.created := by
  have states := Correspondence.states_ofGrows (made.imp fun _ => trivial)
    (fun known => Numbering.closed_of_grows made known) .refl below
  obtain ⟨d, le, left, _, alike⟩ := states.tracks_split r learning condition
  have same : d.left = (r.split learning s condition n).2 := left
  rw [← same]
  refine ⟨le.grows, ?_⟩
  intro sides split
  have alike : Verdict.Alike (List.Forall₂ d.Sides) (r.split learning s condition n).1
      (r.split learning s condition n).1 := alike
  rw [split] at alike
  cases alike with
  | result related =>
    exact ((List.forall₂_and_left sides sides).mp
      (related.imp fun _ _ sides => ⟨sides.states.below, sides⟩)).1

namespace Exploration

variable {σ : Type}

theorem below_crossing {e : Exploration σ} {s : State} {k : Nat} (below : s.Below k) :
    (e.crossing s).Below k := by
  simp only [crossing]
  split
  · exact below.forgetOperations
  · exact below

variable (e : Exploration σ)

/-- A publication numbers nothing. -/
theorem numbering_publish (p : Pair) (operation : Option Operation) (r : Run σ) :
    (e.publish p operation r).numbering = r.numbering := by
  rcases e.publish_cases p operation r with ⟨_, same⟩ | ⟨_, same⟩ | same | ⟨_, _, _, _, _, same⟩
  · rw [same]
  · rw [same]
    rfl
  · rw [same]
    rfl
  · rw [same]

theorem numbering_jump (b : BlockId) (s : State) (r : Run σ) :
    (e.jump b s r).numbering = r.numbering :=
  e.numbering_publish _ none r

theorem numbering_succeed (p : Point) (o : Operation) (r : Run σ) (s : State) :
    (e.succeed p o r s).numbering = r.numbering := by
  simp only [succeed]
  split
  · rw [numbering_publish, numbering_jump]
  · exact e.numbering_publish _ _ r

theorem numbering_foldl {α : Type} {f : Run σ → α → Run σ}
    (same : ∀ r a, (f r a).numbering = r.numbering) (l : List α) (r : Run σ) :
    (l.foldl f r).numbering = r.numbering := by
  induction l generalizing r with
  | nil => rfl
  | cons a rest ih => exact (ih (f r a)).trans (same r a)

/-- All that an evaluation numbers its rule has numbered. -/
theorem numbering_evaluate (p : Pair) (o : Operation) (r : Run σ) :
    (e.evaluate p o r).numbering =
      (e.semantics.process ⟨o, p.state, e.routine, e.symbols⟩ r.numbering).2 := by
  simp only [evaluate]
  generalize e.semantics.process ⟨o, p.state, e.routine, e.symbols⟩ r.numbering = answer
  obtain ⟨verdict, n⟩ := answer
  cases verdict with
  | ok states =>
    cases states with
    | nil => rfl
    | cons s rest => exact numbering_foldl (e.numbering_succeed p.point o) (s :: rest) _
  | error refusal =>
    cases refusal with
    | unsupported => exact e.numbering_succeed p.point o _ p.state
    | foreign => rfl

/-- All that a branch numbers the split has numbered. -/
theorem numbering_fork (s : State) (condition : OpId) (whenTrue whenFalse : BlockId)
    (r : Run σ) : (e.fork s condition whenTrue whenFalse r).numbering =
      (e.routine.split e.config.learnAtBranches s condition r.numbering).2 := by
  simp only [fork]
  generalize e.routine.split e.config.learnAtBranches s condition r.numbering = answer
  obtain ⟨verdict, n⟩ := answer
  cases verdict with
  | result sides =>
    refine (numbering_foldl (fun r side => e.numbering_jump _ side.2 r) sides _).trans ?_
    split
    · rfl
    · rfl
  | infeasible => rfl
  | refused => rfl

end Exploration

end SymbolicExecution
