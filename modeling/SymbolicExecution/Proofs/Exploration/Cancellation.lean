import SymbolicExecution.Proofs.Exploration.Budget
import SymbolicExecution.Proofs.Exploration.Extension
import SymbolicExecution.Proofs.Exploration.Moment

/-!
# Cancellation

A pair that was shown to the checks waits, so that a signal that is raised while they look at it is
noticed before the next step. Only what the turn has still to do can end the run before.
-/

namespace SymbolicExecution

namespace Exploration

variable {σ : Type} (e : Exploration σ)

/-- The outcomes that a turn can come to before it is over. -/
inductive Breaks : Outcome → Prop
  | full : Breaks (.incomplete (.visited e.config.maxVisited))
  | failed (message : String) : Breaks (.failed message)

/-- A pair waits, and the run has not ended unless the turn broke off. -/
structure Waits (r : Run σ) : Prop where
  pending : r.pending ≠ []
  breaks {o : Outcome} : r.outcome = some o → e.Breaks o

variable {e} {r t : Run σ}

theorem Waits.ofOutcome (pending : r.pending ≠ []) (running : r.outcome = none) : e.Waits r := by
  refine ⟨pending, ?_⟩
  intro o ended
  rw [running] at ended
  cases ended

theorem waits_accept (running : r.outcome = none) (p : Pair) (operation : Option Operation) :
    e.Waits (e.accept p operation r) := .ofOutcome (by simp) (by simpa using running)

/-- No move takes a pair that waits. -/
theorem Waits.play (waits : e.Waits r) (m : Move) : e.Waits (e.play r m) := by
  simp only [Exploration.play]
  split
  · exact waits
  · cases m with
    | publish p operation =>
      apply e.publish_elim
      case ended => exact fun _ => waits
      case known => exact fun _ _ => ⟨waits.pending, waits.breaks⟩
      case full => exact fun _ _ _ => ⟨waits.pending, by rintro _ ⟨⟩; exact .full⟩
      case new => exact fun running _ _ => waits_accept running p operation
    | fail message => exact ⟨waits.pending, by rintro _ ⟨⟩; exact .failed message⟩
    | renumber | discard | skip | terminate => exact ⟨waits.pending, waits.breaks⟩

theorem Waits.foldl (waits : e.Waits r) (l : List Move) : e.Waits (l.foldl e.play r) := by
  induction l generalizing r with
  | nil => exact waits
  | cons m l ih => exact ih (waits.play m)

/-- Only the checks raise the signal, and then the pair that they look at waits. -/
theorem waits_play_of_raised (before : r.cancelled = true → e.Waits r) (m : Move)
    (raised : (e.play r m).cancelled = true) : e.Waits (e.play r m) := by
  cases running : r.outcome with
  | some o =>
    rw [e.play_of_ended (by simp [running])] at raised ⊢
    exact before raised
  | none =>
    by_cases already : r.cancelled = true
    · exact (before already).play m
    · rw [e.play_of_running running] at raised ⊢
      cases m with
      | publish p operation =>
        revert raised
        apply e.publish_elim (P := fun t => t.cancelled = true → e.Waits t)
        case ended => exact fun ended => absurd running ended
        case known => exact fun _ _ raised => absurd raised already
        case full => exact fun _ _ _ raised => absurd raised already
        case new => exact fun _ _ _ _ => waits_accept running p operation
      | renumber | discard | skip | terminate | fail => exact absurd raised already

theorem waits_foldl_of_raised (before : r.cancelled = true → e.Waits r) (l : List Move)
    (raised : (l.foldl e.play r).cancelled = true) : e.Waits (l.foldl e.play r) := by
  induction l generalizing r with
  | nil => exact before raised
  | cons m l ih => exact ih (waits_play_of_raised before m) raised

/-- A raised signal stays raised. -/
theorem raised_accept (raised : r.cancelled = true) (p : Pair) (operation : Option Operation) :
    (e.accept p operation r).cancelled = true := by
  have kept : ∀ (s : Sighting) (checks : List (Check σ)) (t : Run σ), t.cancelled = true →
      (checks.foldl (Run.consult s) t).cancelled = true := by
    intro s checks
    induction checks with
    | nil => exact fun _ raised => raised
    | cons c rest ih => exact fun t raised => ih _ (by simp [Run.consult, raised])
  exact kept _ e.checks { r with visited := r.visited.push p } raised

theorem raised_play (raised : r.cancelled = true) (m : Move) : (e.play r m).cancelled = true := by
  simp only [Exploration.play]
  split
  · exact raised
  · cases m with
    | publish p operation =>
      apply e.publish_elim (P := fun t => t.cancelled = true)
      case ended => exact fun _ => raised
      case known => exact fun _ _ => raised
      case full => exact fun _ _ _ => raised
      case new => exact fun _ _ _ => raised_accept raised p operation
    | renumber | discard | skip | terminate | fail => exact raised

theorem raised_foldl (raised : r.cancelled = true) (l : List Move) :
    (l.foldl e.play r).cancelled = true := by
  induction l generalizing r with
  | nil => exact raised
  | cons m l ih => exact ih (raised_play raised m)

/-- A raised signal ends a run in which a pair waits. -/
theorem Waits.advance (waits : e.Waits r) (raised : r.cancelled = true) :
    e.advance r = r.finish .cancelled := by
  obtain ⟨p, rest, pending⟩ := List.exists_cons_of_ne_nil waits.pending
  simp [Exploration.advance, pending, raised]

/-- The next turn ends a run that the turn before has not broken off. -/
theorem Waits.go (waits : e.Waits r) (raised : r.cancelled = true) (n : Nat) :
    r.outcome = none ∧ e.go (n + 1) r = r.finish .cancelled ∨
    ∃ o, r.outcome = some o ∧ e.Breaks o ∧ e.go (n + 1) r = r := by
  cases outcome : r.outcome with
  | none =>
    have ended : e.go (n + 1) r = e.go n (r.finish .cancelled) := by
      simp [Exploration.go, outcome, waits.advance raised]
    refine Or.inl ⟨rfl, ended.trans ?_⟩
    cases n with
    | zero => rfl
    | succ n => simp [Exploration.go, Run.finish]
  | some o => exact Or.inr ⟨o, rfl, waits.breaks outcome, by simp [Exploration.go, outcome]⟩

theorem Moment.go {memory : σ} (moment : e.Moment memory [] r) (n : Nat) :
    e.Moment memory [] (e.go n r) := by
  induction n generalizing r with
  | zero => exact moment
  | succ n ih =>
    simp only [Exploration.go]
    split
    · exact moment
    · rename_i running
      exact ih (moment.advance (Option.not_isSome_iff_eq_none.mp running))

section After

variable (memory : σ)

theorem waits_enter {cancelled : Bool} (room : cancelled = true → 1 ≤ e.config.maxVisited)
    (raised : (e.after memory cancelled 0).cancelled = true) :
    e.Waits (e.after memory cancelled 0) := by
  revert raised
  apply e.publish_elim (P := fun t => t.cancelled = true → e.Waits t)
  case ended => exact fun ended => absurd rfl ended
  case known => exact fun _ known => by simp [Run.start] at known
  case full => exact fun _ _ full raised => absurd full (Nat.not_le.mpr (room raised))
  case new => exact fun running _ _ _ => waits_accept running _ _

/-- Where the checks have raised the signal, a pair waits until the next turn ends the run. -/
theorem waits_after {cancelled : Bool} (room : cancelled = true → 1 ≤ e.config.maxVisited)
    {k : Nat} (raised : (e.after memory cancelled k).cancelled = true) :
    e.Waits (e.after memory cancelled k) ∨
      (e.after memory cancelled k).outcome = some .cancelled := by
  induction k with
  | zero => exact Or.inl (waits_enter memory room raised)
  | succ k ih =>
    rw [e.after_succ] at raised ⊢
    split at raised
    · rename_i running
      rw [if_pos running]
      rcases e.advance_cases running with ⟨o, ends, same⟩ | ⟨p, rest, _, unraised, _, same⟩
      · rw [same] at raised ⊢
        rcases ih raised with waits | ended
        · rw [← same, waits.advance raised]
          exact Or.inr rfl
        · rw [running] at ended
          cases ended
      · -- the turn found the signal down, so that its moves have raised it
        rw [same] at raised ⊢
        have unraised : (step rest (e.after memory cancelled k)).cancelled = false := unraised
        exact Or.inl (waits_foldl_of_raised (fun already => by simp [unraised] at already) _ raised)
    · rename_i ended
      rw [if_neg ended]
      exact ih raised

theorem run_of_ended {cancelled : Bool} {k : Nat}
    (ended : (e.after memory cancelled k).outcome ≠ none) :
    e.run memory cancelled = e.after memory cancelled k := by
  rcases Nat.le_total k (e.config.maxSteps + 1) with le | le
  · exact e.after_of_ended memory cancelled le ended
  · exact (e.after_of_ended memory cancelled le (e.outcome_run_ne_none memory cancelled)).symm

/-- Where the checks have raised the signal, the run is at its end or will be at the next turn. -/
theorem run_of_raised {cancelled : Bool} (room : cancelled = true → 1 ≤ e.config.maxVisited)
    {k : Nat} (raised : (e.after memory cancelled k).cancelled = true) :
    e.run memory cancelled = (e.after memory cancelled k).finish .cancelled ∨
    (∃ o, (e.after memory cancelled k).outcome = some o ∧ (o = .cancelled ∨ e.Breaks o)) ∧
      e.run memory cancelled = e.after memory cancelled k := by
  rcases waits_after memory room raised with waits | ended
  · cases outcome : (e.after memory cancelled k).outcome with
    | some o =>
      have ended : (e.after memory cancelled k).outcome ≠ none := by simp [outcome]
      exact Or.inr ⟨⟨o, rfl, Or.inr (waits.breaks outcome)⟩, run_of_ended memory ended⟩
    | none =>
      have next : e.after memory cancelled (k + 1) =
          (e.after memory cancelled k).finish .cancelled := by
        rw [e.after_succ, if_pos outcome, waits.advance raised]
      have ended : (e.after memory cancelled (k + 1)).outcome ≠ none := by simp [next, Run.finish]
      exact Or.inl ((run_of_ended memory ended).trans next)
  · have ended' : (e.after memory cancelled k).outcome ≠ none := by simp [ended]
    exact Or.inr ⟨⟨_, ended, Or.inl rfl⟩, run_of_ended memory ended'⟩

/-- A signal that is raised before the run lets it publish the first pair. -/
theorem run_of_raised_before (room : 1 ≤ e.config.maxVisited) :
    e.run memory true = (e.accept ⟨Point.entry e.routine.entry, State.entry e.routine.id⟩ none
      (Run.start memory true)).finish .cancelled := by
  have entered : e.enter memory true =
      e.accept ⟨Point.entry e.routine.entry, State.entry e.routine.id⟩ none
        (Run.start memory true) :=
    e.publish_of_new rfl (by simp [Run.start]) room
  have waits := waits_accept (e := e) (r := Run.start memory true) rfl
    ⟨Point.entry e.routine.entry, State.entry e.routine.id⟩ none
  rw [run, entered]
  rcases waits.go (raised_accept rfl _ _) e.config.maxSteps with ⟨_, same⟩ | ⟨o, outcome, _⟩
  · exact same
  · rw [accept_outcome] at outcome
    cases outcome

end After

/-- Whatever the semantics and the checks are: where the signal is raised while the checks look at a
new pair, then no further step is taken and the run does not complete. It is cancelled and reports
nothing, unless what was left of that turn broke it off. Of the run that nobody interrupts but its
checks, all this can be said of the turns, and a signal that is raised before the run lets nothing
happen but the publication of the first pair. -/
theorem run_heeds (memory : σ) :
    (∀ l r p operation, e.Moment memory (.publish p operation :: l) r → r.outcome = none →
      p ∉ r.visited → r.visited.size < e.config.maxVisited →
      ∀ t, t = l.foldl e.play { e.accept p operation r with cancelled := true } →
      e.Moment memory [] t ∧ ∀ n, (e.go (n + 1) t).counters.steps = r.counters.steps ∧
        (((e.go (n + 1) t).report e.routine).outcome = .cancelled ∧
            ((e.go (n + 1) t).report e.routine).findings = [] ∨
          ∃ o, t.outcome = some o ∧ e.Breaks o ∧ e.go (n + 1) t = t)) ∧
    (∀ cancelled k, (cancelled = true → 1 ≤ e.config.maxVisited) →
      (e.after memory cancelled k).cancelled = true →
      (e.run memory cancelled).counters.steps = (e.after memory cancelled k).counters.steps ∧
        (((e.run memory cancelled).report e.routine).outcome = .cancelled ∧
            ((e.run memory cancelled).report e.routine).findings = [] ∨
          ∃ o, (e.after memory cancelled k).outcome = some o ∧ e.Breaks o ∧
            e.run memory cancelled = e.after memory cancelled k)) ∧
    (1 ≤ e.config.maxVisited →
      ((e.run memory true).report e.routine).outcome = .cancelled ∧
      ((e.run memory true).report e.routine).stats.steps = 0 ∧
      ((e.run memory true).report e.routine).stats.visited = 1 ∧
      ((e.run memory true).report e.routine).findings = []) := by
  have reported : ∀ {t : Run σ}, t.outcome = some .cancelled →
      (t.report e.routine).outcome = .cancelled ∧ (t.report e.routine).findings = [] := by
    intro t ended
    simp [Run.report, Run.result, ended]
  refine ⟨?_, ?_, ?_⟩
  · rintro l r p operation moment running new room t rfl
    have accepted : e.play r (.publish p operation) = e.accept p operation r := by
      rw [play_publish, e.publish_of_new running new room]
    have moment := (accepted ▸ moment.play).cancel.foldl
    have waits : e.Waits { e.accept p operation r with cancelled := true } := by
      obtain ⟨pending, breaks⟩ := waits_accept (e := e) running p operation
      exact ⟨pending, breaks⟩
    have raised := raised_foldl (e := e)
      (r := { e.accept p operation r with cancelled := true }) rfl l
    have steps := steps_foldl (e := e) l { e.accept p operation r with cancelled := true }
    rw [accept_counters] at steps
    refine ⟨moment, fun n => ?_⟩
    rcases (waits.foldl l).go raised n with ⟨_, same⟩ | ⟨o, outcome, breaks, same⟩
    · rw [same]
      exact ⟨steps, Or.inl (reported rfl)⟩
    · rw [same]
      exact ⟨steps, Or.inr ⟨o, outcome, breaks, rfl⟩⟩
  · intro cancelled k room raised
    rcases run_of_raised memory room raised with same | ⟨⟨o, outcome, ends⟩, same⟩
    · rw [same]
      exact ⟨rfl, Or.inl (reported rfl)⟩
    · rw [same]
      refine ⟨rfl, ends.imp ?_ ?_⟩
      · rintro rfl
        exact reported outcome
      · exact fun breaks => ⟨o, outcome, breaks, rfl⟩
  · intro room
    rw [run_of_raised_before memory room]
    obtain ⟨ended, findings⟩ := reported (t := (e.accept
      ⟨Point.entry e.routine.entry, State.entry e.routine.id⟩ none
        (Run.start memory true)).finish .cancelled) rfl
    exact ⟨ended, by simp [Run.report, Run.stats, Run.finish, Run.start],
      by simp [Run.report, Run.stats, Run.finish, Run.start], findings⟩

/-- A check that asks for the exploration to be cancelled when it is shown a call. -/
def stopping : Check Unit where
  name := "stopping"
  observe s m := ⟨[], m, (s.operation.map Operation.tag) = some .call⟩

/-- The first of two calls stops the exploration. -/
def stopped : Exploration Unit :=
  { dereferencing with checks := [.nullDereference, stopping], config := default }

/-- The finding at the first call is dropped, and the second call is not reached. Raised from
outside while the checks look at the first pair, the signal ends the run as well. -/
theorem run_heeds_stopped :
    ((stopped.run () false).report stopped.routine).outcome = .cancelled ∧
    ((stopped.run () false).report stopped.routine).findings = [] ∧
    (stopped.run () false).counters.steps = 2 ∧
    (stopped.run () false).findings.kept.size = 1 ∧
    ((stopped.run () true).report stopped.routine).stats.visited = 1 ∧
    (stopped.go 1 { stopped.accept ⟨Point.entry stopped.routine.entry,
      State.entry stopped.routine.id⟩ none (Run.start () false) with cancelled := true }).result =
        .cancelled := by
  obtain ⟨during, between, before⟩ := run_heeds (e := stopped) ()
  have raised : (stopped.after () false 2).cancelled = true := by decide +kernel
  have running : (stopped.after () false 2).outcome = none := by decide +kernel
  have taken : (stopped.after () false 2).counters.steps = 2 := by decide +kernel
  obtain ⟨steps, halted⟩ := between false 2 nofun raised
  have ended : ((stopped.run () false).report stopped.routine).outcome = .cancelled ∧
      ((stopped.run () false).report stopped.routine).findings = [] := by
    rcases halted with ended | ⟨o, outcome, _⟩
    · exact ended
    · simp [running] at outcome
  have new : ⟨Point.entry stopped.routine.entry, State.entry stopped.routine.id⟩ ∉
      (Run.start () false).visited := by simp [Run.start]
  obtain ⟨_, after⟩ := during [] _ _ none (.start false) rfl new (by decide +kernel) _ rfl
  refine ⟨ended.1, ended.2, steps.trans taken, by decide +kernel,
    (before (by decide +kernel)).2.2.1, ?_⟩
  rcases (after 0).2 with ended' | ⟨o, outcome, _⟩
  · exact ended'.1
  · simp [Run.start] at outcome

end Exploration

end SymbolicExecution
