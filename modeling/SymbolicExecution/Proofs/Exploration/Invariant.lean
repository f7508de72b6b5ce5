import SymbolicExecution.Proofs.Exploration.Move

/-!
# Turns and invariants

A turn ends the exploration or plays the moves of the pair that has waited longest, and between
turns the signal may be raised from outside. What holds at the start and is kept by all of this
holds of every run.
-/

namespace SymbolicExecution.Exploration

variable {σ : Type} (e : Exploration σ)

/-- The ways a run ends between expansions. -/
inductive Ends (r : Run σ) : Outcome → Prop
  | completed (done : r.pending = []) : Ends r .completed
  | cancelled (waits : r.pending ≠ []) (raised : r.cancelled = true) : Ends r .cancelled
  | spent (waits : r.pending ≠ []) (spent : e.config.maxSteps ≤ r.counters.steps) :
      Ends r (.incomplete (.steps e.config.maxSteps))

/-- A turn ends the run or plays the moves of the pair that has waited longest. -/
theorem advance_cases {r : Run σ} (running : r.outcome = none) :
    (∃ o, e.Ends r o ∧ e.advance r = r.finish o) ∨
    ∃ p rest, r.pending = p :: rest ∧ r.cancelled = false ∧
      r.counters.steps < e.config.maxSteps ∧
      e.advance r = (e.moves p r.numbering).foldl e.play (step rest r) := by
  cases pending : r.pending with
  | nil => exact Or.inl ⟨_, .completed pending, by simp [advance, pending]⟩
  | cons p rest =>
    have waits : r.pending ≠ [] := by simp [pending]
    cases raised : r.cancelled with
    | true => exact Or.inl ⟨_, .cancelled waits raised, by simp [advance, pending, raised]⟩
    | false =>
      by_cases spent : e.config.maxSteps ≤ r.counters.steps
      · exact Or.inl ⟨_, .spent waits spent, by simp [advance, pending, raised, spent]⟩
      · refine Or.inr ⟨p, rest, rfl, rfl, Nat.lt_of_not_le spent, ?_⟩
        have taken : e.advance r = e.expand p (step rest r) := by
          simp [advance, pending, raised, spent, step]
        rw [taken]
        exact e.expand_eq (r := step rest r) running p

/-- Show a new pair to the checks and let it wait. -/
def accept (p : Pair) (operation : Option Operation) (r : Run σ) : Run σ :=
  let r := { r with visited := r.visited.push p }
  let r := e.checks.foldl (Run.consult ⟨e.routine, e.symbols, p.point, operation, p.state⟩) r
  { r with pending := r.pending ++ [p] }

/-- To prove something of a publication, prove it for each way that it can go. -/
theorem publish_elim {P : Run σ → Prop} {p : Pair} {operation : Option Operation} {r : Run σ}
    (ended : r.outcome ≠ none → P r)
    (known : r.outcome = none → p ∈ r.visited → P r.countDuplicate)
    (full : r.outcome = none → p ∉ r.visited → e.config.maxVisited ≤ r.visited.size →
      P (r.finish (.incomplete (.visited e.config.maxVisited))))
    (new : r.outcome = none → p ∉ r.visited → r.visited.size < e.config.maxVisited →
      P (e.accept p operation r)) :
    P (e.publish p operation r) := by
  simp only [publish]
  split
  · rename_i halted
    exact ended (Option.isSome_iff_ne_none.mp halted)
  · rename_i running
    have running := Option.not_isSome_iff_eq_none.mp running
    split
    · rename_i old
      exact known running (Array.contains_iff_mem.mp old)
    · rename_i unknown
      have unknown : p ∉ r.visited := fun old => unknown (Array.contains_iff_mem.mpr old)
      split
      · rename_i spent
        exact full running unknown spent
      · rename_i room
        exact new running unknown (Nat.lt_of_not_le room)

theorem publish_of_new {p : Pair} {operation : Option Operation} {r : Run σ}
    (running : r.outcome = none) (new : p ∉ r.visited)
    (room : r.visited.size < e.config.maxVisited) :
    e.publish p operation r = e.accept p operation r := by
  rw [publish, if_neg (by simp [running]), if_neg (by simpa using new),
    if_neg (Nat.not_le.mpr room)]
  rfl

section Accept

variable (p : Pair) (operation : Option Operation) (r : Run σ)

/-- A new pair is appended twice, and only the checks change anything else. -/
theorem accept_frame : ∃ findings memory cancelled, e.accept p operation r =
    { r with
      visited := r.visited.push p
      pending := r.pending ++ [p]
      findings := findings
      memory := memory
      cancelled := cancelled } := by
  obtain ⟨findings, memory, cancelled, same⟩ := consult_frame
    ⟨e.routine, e.symbols, p.point, operation, p.state⟩ e.checks
    { r with visited := r.visited.push p }
  exact ⟨findings, memory, cancelled, by simp only [accept, same]⟩

@[simp] theorem accept_visited : (e.accept p operation r).visited = r.visited.push p := by
  obtain ⟨_, _, _, same⟩ := e.accept_frame p operation r
  rw [same]

@[simp] theorem accept_pending : (e.accept p operation r).pending = r.pending ++ [p] := by
  obtain ⟨_, _, _, same⟩ := e.accept_frame p operation r
  rw [same]

@[simp] theorem accept_counters : (e.accept p operation r).counters = r.counters := by
  obtain ⟨_, _, _, same⟩ := e.accept_frame p operation r
  rw [same]

@[simp] theorem accept_numbering : (e.accept p operation r).numbering = r.numbering := by
  obtain ⟨_, _, _, same⟩ := e.accept_frame p operation r
  rw [same]

@[simp] theorem accept_outcome : (e.accept p operation r).outcome = r.outcome := by
  obtain ⟨_, _, _, same⟩ := e.accept_frame p operation r
  rw [same]

end Accept

/-- The run is at hand after a number of turns, where the signal may be raised from outside before
each of them. -/
inductive Attains (memory : σ) : Nat → Run σ → Prop
  | enter (cancelled : Bool) : Attains memory 0 (e.enter memory cancelled)
  | turn {k : Nat} {r : Run σ} (before : Attains memory k r) (running : r.outcome = none) :
      Attains memory (k + 1) (e.advance r)
  | cancel {k : Nat} {r : Run σ} (before : Attains memory k r) :
      Attains memory k { r with cancelled := true }

theorem attains_after (memory : σ) (cancelled : Bool) (k : Nat) :
    ∃ j ≤ k, e.Attains memory j (e.after memory cancelled k) := by
  induction k with
  | zero => exact ⟨0, Nat.le_refl 0, .enter cancelled⟩
  | succ k ih =>
    obtain ⟨j, le, attains⟩ := ih
    rw [e.after_succ]
    split
    · rename_i running
      exact ⟨j + 1, Nat.succ_le_succ le, .turn attains running⟩
    · exact ⟨j, Nat.le_succ_of_le le, attains⟩

/-- The run that nobody interrupts is at hand in the end. -/
theorem attains_run (memory : σ) (cancelled : Bool) :
    ∃ k, e.Attains memory k (e.run memory cancelled) := by
  obtain ⟨k, _, attains⟩ := e.attains_after memory cancelled (e.config.maxSteps + 1)
  exact ⟨k, attains⟩

/-- `I` holds before the exploration begins and is kept by all that happens to a run, provided that
the moves of a pair that waits are among those of `A`. -/
structure Invariant (memory : σ) (A : Move → Prop) (I : Run σ → Prop) : Prop where
  start (cancelled : Bool) : I (Run.start memory cancelled)
  entry : A (.publish ⟨Point.entry e.routine.entry, State.entry e.routine.id⟩ none)
  waiting {r : Run σ} {p : Pair} {rest : List Pair} : I r → r.pending = p :: rest →
    ∀ m ∈ e.moves p r.numbering, A m
  take {r : Run σ} {p : Pair} {rest : List Pair} : I r → r.outcome = none →
    r.pending = p :: rest → r.counters.steps < e.config.maxSteps → I (step rest r)
  act {r : Run σ} {m : Move} : I r → r.outcome = none → A m → I (e.act r m)
  finish {r : Run σ} {o : Outcome} : I r → e.Ends r o → I (r.finish o)
  cancel {r : Run σ} : I r → I { r with cancelled := true }

variable {e} {memory : σ} {A : Move → Prop} {I : Run σ → Prop}

theorem Invariant.play (invariant : e.Invariant memory A I) {r : Run σ} {m : Move} (holds : I r)
    (allowed : A m) : I (e.play r m) := by
  cases running : r.outcome with
  | none =>
    rw [e.play_of_running running]
    exact invariant.act holds running allowed
  | some o =>
    rw [e.play_of_ended (by simp [running])]
    exact holds

theorem Invariant.foldl (invariant : e.Invariant memory A I) {l : List Move}
    (all : ∀ m ∈ l, A m) {r : Run σ} (holds : I r) : I (l.foldl e.play r) := by
  induction l generalizing r with
  | nil => exact holds
  | cons m rest ih =>
    exact ih (fun m' hm => all m' (List.mem_cons_of_mem m hm))
      (invariant.play holds (all m List.mem_cons_self))

/-- An invariant holds of every run. -/
theorem Invariant.attains (invariant : e.Invariant memory A I) {k : Nat} {r : Run σ}
    (attains : e.Attains memory k r) : I r := by
  induction attains with
  | enter cancelled =>
    rw [Exploration.enter, ← e.play_publish]
    exact invariant.play (invariant.start cancelled) invariant.entry
  | @turn k r _ running ih =>
    rcases e.advance_cases running with ⟨o, ends, same⟩ | ⟨p, rest, pending, _, budget, same⟩
    · rw [same]
      exact invariant.finish ih ends
    · rw [same]
      exact invariant.foldl (invariant.waiting ih pending)
        (invariant.take ih running pending budget)
  | cancel _ ih => exact invariant.cancel ih

section Pairs

variable {P : Pair → Prop}

/-- `P` holds of the pairs that were published. -/
structure Throughout (P : Pair → Prop) (r : Run σ) : Prop where
  visited : ∀ p ∈ r.visited, P p
  pending : ∀ p ∈ r.pending, P p

theorem Throughout.publish {r : Run σ} (throughout : Throughout P r) {p : Pair} (holds : P p)
    (operation : Option Operation) : Throughout P (e.publish p operation r) := by
  apply e.publish_elim
  case ended => exact fun _ => throughout
  case known => exact fun _ _ => ⟨throughout.visited, throughout.pending⟩
  case full => exact fun _ _ _ => ⟨throughout.visited, throughout.pending⟩
  case new =>
    intro _ _ _
    constructor
    · intro q hq
      rw [accept_visited] at hq
      rcases Array.mem_push.mp hq with hq | rfl
      · exact throughout.visited q hq
      · exact holds
    · intro q hq
      rw [accept_pending] at hq
      rcases List.mem_append.mp hq with hq | hq
      · exact throughout.pending q hq
      · rw [List.mem_singleton.mp hq]
        exact holds

variable (entry : P ⟨Point.entry e.routine.entry, State.entry e.routine.id⟩)
  (handed : ∀ {p q : Pair} {n : Numbering} {operation : Option Operation}, P p →
    .publish q operation ∈ e.moves p n → P q)

include entry handed

/-- What holds at the entry and is handed on by expansions holds of all published pairs. -/
theorem invariant_throughout (memory : σ) : e.Invariant memory
    (fun m => ∀ q operation, m = .publish q operation → P q) (Throughout P) where
  start _ := ⟨by simp [Run.start], by simp [Run.start]⟩
  entry := by
    rintro q operation ⟨⟩
    exact entry
  waiting throughout pending m hm q operation same :=
    handed (throughout.pending _ (pending ▸ List.mem_cons_self)) (same ▸ hm)
  take throughout _ pending _ := ⟨throughout.visited,
    fun q hq => throughout.pending q (pending ▸ List.mem_cons_of_mem _ hq)⟩
  act {r m} throughout _ allowed := by
    cases m with
    | publish p operation => exact throughout.publish (allowed p operation rfl) operation
    | renumber | discard | skip | terminate | fail =>
      exact ⟨throughout.visited, throughout.pending⟩
  finish throughout _ := ⟨throughout.visited, throughout.pending⟩
  cancel throughout := ⟨throughout.visited, throughout.pending⟩

theorem Attains.throughout {k : Nat} {r : Run σ} (attains : e.Attains memory k r) :
    Throughout P r := (invariant_throughout entry handed memory).attains attains

end Pairs

end SymbolicExecution.Exploration
