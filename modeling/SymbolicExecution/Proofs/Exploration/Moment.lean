import SymbolicExecution.Proofs.Exploration.Invariant

/-!
# Moments

A run between any two moves, and not only between two turns: the moves that the turn has still to
play, and the run as it is. The signal may be raised at every moment.
-/

namespace SymbolicExecution.Exploration

variable {σ : Type} (e : Exploration σ)

/-- The run is at hand while the moves are still to be played. A turn begins when none is left. -/
inductive Moment (memory : σ) : List Move → Run σ → Prop
  | start (cancelled : Bool) :
      Moment memory [.publish ⟨Point.entry e.routine.entry, State.entry e.routine.id⟩ none]
        (Run.start memory cancelled)
  | play {m : Move} {l : List Move} {r : Run σ} (before : Moment memory (m :: l) r) :
      Moment memory l (e.play r m)
  | take {r : Run σ} {p : Pair} {rest : List Pair} (before : Moment memory [] r)
      (turn : e.next? r = some p) (pending : r.pending = p :: rest) :
      Moment memory (e.moves p r.numbering) (step rest r)
  | halt {r : Run σ} (before : Moment memory [] r) (running : r.outcome = none)
      (idle : e.next? r = none) : Moment memory [] (e.advance r)
  | cancel {l : List Move} {r : Run σ} (before : Moment memory l r) :
      Moment memory l { r with cancelled := true }

variable {e} {memory : σ} {l : List Move} {r : Run σ}

/-- The moves of a turn are played to the end. -/
theorem Moment.foldl (moment : e.Moment memory l r) : e.Moment memory [] (l.foldl e.play r) := by
  induction l generalizing r with
  | nil => exact moment
  | cons m l ih => exact ih moment.play

/-- A turn goes from moment to moment. -/
theorem Moment.advance (moment : e.Moment memory [] r) (running : r.outcome = none) :
    e.Moment memory [] (e.advance r) := by
  cases turn : e.next? r with
  | none => exact moment.halt running turn
  | some p =>
    obtain ⟨_, _, rest, pending, taken⟩ := e.next?_eq_some turn
    rw [taken, e.expand_eq (r := step rest r) running]
    exact (moment.take turn pending).foldl

/-- What is at hand between turns is at hand at a moment. -/
theorem Attains.moment {k : Nat} (attains : e.Attains memory k r) : e.Moment memory [] r := by
  induction attains with
  | enter cancelled =>
    rw [Exploration.enter, ← e.play_publish]
    exact (Moment.start cancelled).foldl
  | turn _ running ih => exact ih.advance running
  | cancel _ ih => exact ih.cancel

end SymbolicExecution.Exploration
