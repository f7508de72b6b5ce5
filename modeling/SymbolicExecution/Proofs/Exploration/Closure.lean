import SymbolicExecution.Proofs.Exploration.Growth

/-!
# Completed explorations are closed

The published pairs are a queue that is never shortened: the first `steps` of them have been
expanded, in order, and the others wait. So the turn number `k` expands the published pair number
`k`, and an exploration that completes has expanded all of them. Every expansion leaves its yields
published, hence a completed exploration has published all that its pairs yield.
-/

namespace SymbolicExecution.Exploration

variable {σ : Type} (e : Exploration σ)

/-- The run after `k` turns, or at its end if it ends before. -/
def after (memory : σ) (cancelled : Bool) (k : Nat) : Run σ := e.go k (e.enter memory cancelled)

/-- The pair that the next turn expands, if that turn takes a step. -/
def next? (r : Run σ) : Option Pair :=
  if r.outcome = none ∧ r.cancelled = false ∧ r.counters.steps < e.config.maxSteps then
    r.pending.head?
  else none

/-- Take the first waiting pair and count a step. -/
def step (rest : List Pair) (r : Run σ) : Run σ :=
  { r with pending := rest, counters := { r.counters with steps := r.counters.steps + 1 } }

theorem next?_eq_some {r : Run σ} {p : Pair} (h : e.next? r = some p) :
    r.outcome = none ∧ r.counters.steps < e.config.maxSteps ∧ ∃ rest, r.pending = p :: rest ∧
      e.advance r = e.expand p (step rest r) := by
  simp only [next?] at h
  split at h
  · rename_i going
    obtain ⟨running, uncancelled, budget⟩ := going
    obtain ⟨rest, pending⟩ := List.head?_eq_some_iff.mp h
    refine ⟨running, budget, rest, pending, ?_⟩
    simp [advance, pending, uncancelled, Nat.not_le.mpr budget, step]
  · cases h

/-- A turn without an expansion ends the run, as a completed one only if nothing waits. -/
theorem advance_of_next?_none {r : Run σ} (h : e.next? r = none) (running : r.outcome = none) :
    ∃ o, e.advance r = r.finish o ∧ (o = .completed → r.pending = []) := by
  simp only [advance]
  cases pending : r.pending with
  | nil => exact ⟨.completed, rfl, fun _ => rfl⟩
  | cons p rest =>
    by_cases stopped : r.cancelled
    · exact ⟨.cancelled, by simp [stopped], fun other => by cases other⟩
    by_cases spent : e.config.maxSteps ≤ r.counters.steps
    · exact ⟨.incomplete (.steps e.config.maxSteps), by simp [stopped, spent],
        fun other => by cases other⟩
    · simp [next?, running, pending, stopped, Nat.not_le.mp spent] at h

theorem go_succ (k : Nat) (r : Run σ) :
    e.go (k + 1) r = if (e.go k r).outcome = none then e.advance (e.go k r) else e.go k r := by
  induction k generalizing r with
  | zero =>
    cases ended : r.outcome with
    | none => simp [go, ended]
    | some o => simp [go, ended]
  | succ k ih =>
    cases ended : r.outcome with
    | none =>
      have unfolded : ∀ j, e.go (j + 1) r = e.go j (e.advance r) := by simp [go, ended]
      rw [unfolded (k + 1), ih, unfolded k]
    | some o => simp [go, ended]

theorem after_succ (memory : σ) (cancelled : Bool) (k : Nat) :
    e.after memory cancelled (k + 1) =
      if (e.after memory cancelled k).outcome = none then e.advance (e.after memory cancelled k)
      else e.after memory cancelled k :=
  e.go_succ k _

/-- The first published pairs have been expanded and the others wait. -/
structure Queued (r : Run σ) : Prop where
  waiting : r.pending = r.visited.toList.drop r.counters.steps
  enough : r.counters.steps ≤ r.visited.size
  distinct : r.visited.toList.Nodup
  within : ∀ p ∈ r.visited, e.Within p.point
  terminal : r.counters.terminal =
    (r.visited.toList.take r.counters.steps).countP fun p => e.endsAt p.point

theorem Queued.grow {e : Exploration σ} {r t : Run σ} (queued : e.Queued r)
    (grows : e.Grows r t) : e.Queued t := by
  obtain ⟨l, visited, pending, within⟩ := grows.published
  have enough : r.counters.steps ≤ r.visited.toList.length := by simpa using queued.enough
  refine ⟨?_, ?_, grows.distinct queued.distinct, ?_, ?_⟩
  · rw [pending, visited, grows.steps, List.drop_append_of_le_length enough, queued.waiting]
  · rw [grows.steps, ← Array.length_toList, visited, List.length_append]
    omega
  · intro p hp
    rw [← Array.mem_toList_iff, visited] at hp
    rcases List.mem_append.mp hp with hp | hp
    · exact queued.within p (Array.mem_toList_iff.mp hp)
    · exact within p hp
  · rw [grows.terminal, grows.steps, visited, List.take_append_of_le_length enough,
      queued.terminal]

/-- What waits has been published. -/
theorem Queued.mem_of_pending {e : Exploration σ} {r : Run σ} {p : Pair} {rest : List Pair}
    (queued : e.Queued r) (pending : r.pending = p :: rest) : p ∈ r.visited := by
  rw [← Array.mem_toList_iff]
  apply List.mem_of_mem_drop (i := r.counters.steps)
  rw [← queued.waiting, pending]
  exact List.mem_cons_self

/-- The queue after its first waiting pair was taken and, if a path ends there, counted. -/
theorem Queued.step {e : Exploration σ} {r : Run σ} {p : Pair} {rest : List Pair}
    (queued : e.Queued r) (pending : r.pending = p :: rest) :
    e.Queued (e.tally p.point (step rest r)) := by
  have waiting : r.visited.toList.drop r.counters.steps = p :: rest :=
    queued.waiting.symm.trans pending
  have more : r.counters.steps < r.visited.size := by
    have := congrArg List.length waiting
    simp only [List.length_drop, Array.length_toList, List.length_cons] at this
    omega
  have here : r.visited.toList[r.counters.steps]? = some p := by
    rw [← List.head?_drop, waiting]
    rfl
  have counted : ((r.visited.toList.take (r.counters.steps + 1)).countP fun p => e.endsAt p.point) =
      r.counters.terminal + if e.endsAt p.point then 1 else 0 := by
    rw [List.take_add_one, here, List.countP_append, queued.terminal]
    simp [List.countP_cons]
  have dropped : rest = r.visited.toList.drop (r.counters.steps + 1) := by
    rw [← List.tail_drop, waiting]
    rfl
  simp only [tally]
  cases ends : e.endsAt p.point with
  | false =>
    rw [ends] at counted
    exact ⟨dropped, more, queued.distinct, queued.within, counted.symm⟩
  | true =>
    rw [ends] at counted
    exact ⟨dropped, more, queued.distinct, queued.within, counted.symm⟩

theorem grows_expand {r : Run σ} {p : Pair} {rest : List Pair} (queued : e.Queued r)
    (pending : r.pending = p :: rest) :
    e.Grows (e.tally p.point (step rest r)) (e.expand p (step rest r)) ∧
    ((e.expand p (step rest r)).outcome = none →
      ∀ q, e.Yields r.numbering p q → q ∈ (e.expand p (step rest r)).visited) := by
  exact e.expand_grows (queued.within p (queued.mem_of_pending pending)) (step rest r)

theorem queued_enter (memory : σ) (cancelled : Bool) : e.Queued (e.enter memory cancelled) := by
  have start : e.Queued (Run.start memory cancelled) :=
    ⟨rfl, Nat.le_refl 0, List.nodup_nil, by simp [Run.start], rfl⟩
  exact start.grow (e.publish_grows (e.within_entry e.routine.entry) none _)

theorem Queued.finish {e : Exploration σ} {r : Run σ} (queued : e.Queued r) (o : Outcome) :
    e.Queued (r.finish o) :=
  ⟨queued.waiting, queued.enough, queued.distinct, queued.within, queued.terminal⟩

/-- A turn keeps the queue. -/
theorem Queued.advance {e : Exploration σ} {r : Run σ} (queued : e.Queued r)
    (running : r.outcome = none) : e.Queued (e.advance r) := by
  cases turn : e.next? r with
  | none =>
    obtain ⟨o, same, _⟩ := e.advance_of_next?_none turn running
    rw [same]
    exact queued.finish o
  | some p =>
    obtain ⟨_, _, rest, pending, same⟩ := e.next?_eq_some turn
    rw [same]
    exact (queued.step pending).grow (e.grows_expand queued pending).1

/-- Every run keeps the queue. -/
theorem queued_after (memory : σ) (cancelled : Bool) (k : Nat) :
    e.Queued (e.after memory cancelled k) := by
  induction k with
  | zero => exact e.queued_enter memory cancelled
  | succ k ih =>
    rw [e.after_succ]
    split
    · rename_i running
      exact ih.advance running
    · exact ih

theorem steps_expand {r : Run σ} {p : Pair} {rest : List Pair} (queued : e.Queued r)
    (pending : r.pending = p :: rest) :
    (e.expand p (step rest r)).counters.steps = r.counters.steps + 1 := by
  rw [(e.grows_expand queued pending).1.steps, tally]
  split
  · rfl
  · rfl

/-- While a run goes on, its turns are its steps. -/
theorem steps_after (memory : σ) (cancelled : Bool) (k : Nat) :
    (e.after memory cancelled k).counters.steps ≤ k ∧
    ((e.after memory cancelled k).outcome = none →
      (e.after memory cancelled k).counters.steps = k ∧ k ≤ e.config.maxSteps) := by
  induction k with
  | zero =>
    have start : (e.after memory cancelled 0).counters.steps = 0 :=
      (e.publish_grows (e.within_entry e.routine.entry) none (Run.start memory cancelled)).steps
    exact ⟨Nat.le_of_eq start, fun _ => ⟨start, Nat.zero_le _⟩⟩
  | succ k ih =>
    rw [e.after_succ]
    split
    · rename_i running
      obtain ⟨_, same⟩ := ih
      obtain ⟨count, _⟩ := same running
      cases turn : e.next? (e.after memory cancelled k) with
      | none =>
        obtain ⟨o, halted, _⟩ := e.advance_of_next?_none turn running
        rw [halted]
        refine ⟨?_, fun ended => by cases ended⟩
        change (e.after memory cancelled k).counters.steps ≤ k + 1
        omega
      | some p =>
        obtain ⟨_, budget, rest, pending, taken⟩ := e.next?_eq_some turn
        rw [taken, e.steps_expand (e.queued_after memory cancelled k) pending]
        exact ⟨by omega, fun _ => ⟨by omega, by omega⟩⟩
    · rename_i ended
      exact ⟨Nat.le_succ_of_le ih.1, fun running => absurd running ended⟩

/-- The turns suffice: every run ends. -/
theorem outcome_run_ne_none (memory : σ) (cancelled : Bool) :
    (e.run memory cancelled).outcome ≠ none := by
  intro running
  have := ((e.steps_after memory cancelled (e.config.maxSteps + 1)).2 running).2
  omega

/-- A later run keeps the published pairs of an earlier one and its numbers of steps grow. -/
theorem after_le (memory : σ) (cancelled : Bool) {j k : Nat} (le : j ≤ k) :
    (∃ l, (e.after memory cancelled k).visited.toList =
      (e.after memory cancelled j).visited.toList ++ l) ∧
    (e.after memory cancelled j).counters.steps ≤ (e.after memory cancelled k).counters.steps := by
  induction le with
  | refl => exact ⟨⟨[], by simp⟩, Nat.le_refl _⟩
  | @step k _ ih =>
    obtain ⟨⟨l, visited⟩, steps⟩ := ih
    rw [e.after_succ]
    split
    · rename_i running
      cases turn : e.next? (e.after memory cancelled k) with
      | none =>
        obtain ⟨o, halted, _⟩ := e.advance_of_next?_none turn running
        rw [halted]
        exact ⟨⟨l, visited⟩, steps⟩
      | some p =>
        obtain ⟨_, _, rest, pending, taken⟩ := e.next?_eq_some turn
        have queued := e.queued_after memory cancelled k
        obtain ⟨m, more, _, _⟩ := (e.grows_expand queued pending).1.published
        rw [taken, e.steps_expand queued pending, more]
        refine ⟨⟨l ++ m, ?_⟩, Nat.le_succ_of_le steps⟩
        have tallied : (e.tally p.point (step rest (e.after memory cancelled k))).visited =
            (e.after memory cancelled k).visited := by
          simp only [tally]
          split
          · rfl
          · rfl
        rw [tallied, visited, List.append_assoc]
    · exact ⟨⟨l, visited⟩, steps⟩

/-- Once ended, a run stays as it is. -/
theorem after_of_ended (memory : σ) (cancelled : Bool) {j k : Nat} (le : j ≤ k)
    (ended : (e.after memory cancelled j).outcome ≠ none) :
    e.after memory cancelled k = e.after memory cancelled j := by
  induction le with
  | refl => rfl
  | step _ ih => rw [e.after_succ, ih, if_neg ended]

/-- A turn without an expansion is the last one, so that the steps stay below its number. -/
theorem steps_run_le (memory : σ) (cancelled : Bool) {k : Nat}
    (idle : e.next? (e.after memory cancelled k) = none) :
    (e.run memory cancelled).counters.steps ≤ k := by
  have bound := (e.steps_after memory cancelled k).1
  have ended : (e.after memory cancelled (k + 1)).outcome ≠ none ∧
      (e.after memory cancelled (k + 1)).counters.steps ≤ k := by
    rw [e.after_succ]
    split
    · rename_i running
      obtain ⟨o, halted, _⟩ := e.advance_of_next?_none idle running
      rw [halted]
      exact ⟨Option.some_ne_none o, bound⟩
    · rename_i ended
      exact ⟨ended, bound⟩
  change (e.after memory cancelled (e.config.maxSteps + 1)).counters.steps ≤ k
  rcases Nat.le_total (k + 1) (e.config.maxSteps + 1) with le | le
  · rw [e.after_of_ended memory cancelled le ended.1]
    exact ended.2
  · exact Nat.le_trans (e.after_le memory cancelled le).2 ended.2

theorem visited_run_of_next? (memory : σ) (cancelled : Bool) {k : Nat} {p : Pair}
    (turn : e.next? (e.after memory cancelled k) = some p) :
    k < (e.run memory cancelled).counters.steps ∧
      (e.run memory cancelled).visited[k]? = some p := by
  obtain ⟨running, budget, rest, pending, taken⟩ := e.next?_eq_some turn
  have queued := e.queued_after memory cancelled k
  obtain ⟨count, _⟩ := (e.steps_after memory cancelled k).2 running
  have last : k + 1 ≤ e.config.maxSteps + 1 := by omega
  constructor
  · have following : (e.after memory cancelled (k + 1)).counters.steps = k + 1 := by
      rw [e.after_succ, if_pos running, taken, e.steps_expand queued pending, count]
    have := (e.after_le memory cancelled last).2
    rw [following] at this
    exact this
  · have waiting := queued.waiting
    rw [pending, count] at waiting
    have here : (e.after memory cancelled k).visited.toList[k]? = some p := by
      rw [← List.head?_drop, ← waiting]
      rfl
    obtain ⟨⟨l, visited⟩, _⟩ := e.after_le memory cancelled (Nat.le_of_succ_le last)
    obtain ⟨inside, _⟩ := List.getElem?_eq_some_iff.mp here
    change (e.after memory cancelled (e.config.maxSteps + 1)).visited[k]? = some p
    rw [← Array.getElem?_toList, visited, List.getElem?_append_left inside, here]

/-- The turn number `k` expands the published pair number `k`. -/
theorem next?_after_iff (memory : σ) (cancelled : Bool) (k : Nat) (p : Pair) :
    e.next? (e.after memory cancelled k) = some p ↔
      k < (e.run memory cancelled).counters.steps ∧
        (e.run memory cancelled).visited[k]? = some p := by
  constructor
  · exact e.visited_run_of_next? memory cancelled
  · rintro ⟨early, found⟩
    cases turn : e.next? (e.after memory cancelled k) with
    | some q => exact (e.visited_run_of_next? memory cancelled turn).2.symm.trans found
    | none =>
      have := e.steps_run_le memory cancelled turn
      omega

/-- An expansion does not complete a run. -/
theorem not_completed_of_next? (memory : σ) (cancelled : Bool) {k : Nat} {p : Pair}
    (turn : e.next? (e.after memory cancelled k) = some p) :
    (e.after memory cancelled (k + 1)).outcome ≠ some .completed := by
  intro completed
  obtain ⟨running, _, rest, pending, taken⟩ := e.next?_eq_some turn
  rw [e.after_succ, if_pos running, taken] at completed
  have before := (e.grows_expand (e.queued_after memory cancelled k) pending).1.completed completed
  have started : (e.tally p.point (step rest (e.after memory cancelled k))).outcome = none := by
    simp only [tally]
    split
    · exact running
    · exact running
  rw [started] at before
  cases before

/-- Nothing waits when a run completes. -/
theorem pending_of_completed (memory : σ) (cancelled : Bool) (k : Nat)
    (completed : (e.after memory cancelled k).outcome = some .completed) :
    (e.after memory cancelled k).pending = [] := by
  induction k with
  | zero =>
    have started := (e.publish_grows (e.within_entry e.routine.entry) none
      (Run.start memory cancelled)).completed completed
    cases started
  | succ k ih =>
    cases turn : e.next? (e.after memory cancelled k) with
    | some p => exact absurd completed (e.not_completed_of_next? memory cancelled turn)
    | none =>
      rw [e.after_succ] at completed ⊢
      split at completed
      · rename_i running
        rw [if_pos running]
        obtain ⟨o, halted, empty⟩ := e.advance_of_next?_none turn running
        rw [halted] at completed ⊢
        exact empty (Option.some.inj completed)
      · rename_i ended
        rw [if_neg ended]
        exact ih completed

/-- A run that goes on after expanding a pair has published all that the pair yields. -/
theorem yields_published (memory : σ) (cancelled : Bool) {k : Nat} {p q : Pair}
    (turn : e.next? (e.after memory cancelled k) = some p)
    (running : (e.after memory cancelled (k + 1)).outcome = none)
    (yields : e.Yields (e.after memory cancelled k).numbering p q) :
    q ∈ (e.after memory cancelled (k + 1)).visited := by
  obtain ⟨before, _, rest, pending, taken⟩ := e.next?_eq_some turn
  rw [e.after_succ, if_pos before, taken] at running ⊢
  exact (e.grows_expand (e.queued_after memory cancelled k) pending).2 running q yields

/-- The run is what is reached when the turns are used up. -/
theorem run_eq_after (memory : σ) (cancelled : Bool) :
    e.run memory cancelled = e.after memory cancelled (e.config.maxSteps + 1) := rfl

theorem mem_run_of_after (memory : σ) (cancelled : Bool) {k : Nat} {p : Pair}
    (le : k ≤ e.config.maxSteps + 1) (hp : p ∈ (e.after memory cancelled k).visited) :
    p ∈ (e.run memory cancelled).visited := by
  obtain ⟨⟨l, visited⟩, _⟩ := e.after_le memory cancelled le
  rw [run_eq_after]
  rw [← Array.mem_toList_iff] at hp ⊢
  rw [visited]
  exact List.mem_append_left l hp

theorem outcome_of_result {memory : σ} {cancelled : Bool}
    (result : (e.run memory cancelled).result = .completed) :
    (e.run memory cancelled).outcome = some .completed := by
  cases ended : (e.run memory cancelled).outcome with
  | none => exact absurd ended (e.outcome_run_ne_none memory cancelled)
  | some o => simpa [Run.result, ended] using result

/-- A completed run has taken as many steps as it has published pairs. -/
theorem size_le_steps_of_completed {memory : σ} {cancelled : Bool}
    (completed : (e.run memory cancelled).outcome = some .completed) :
    (e.run memory cancelled).visited.size ≤ (e.run memory cancelled).counters.steps := by
  have waiting := (e.queued_after memory cancelled (e.config.maxSteps + 1)).waiting
  rw [e.pending_of_completed memory cancelled (e.config.maxSteps + 1) completed,
    ← run_eq_after] at waiting
  simpa using List.drop_eq_nil_iff.mp waiting.symm

/-- A completed run has expanded each published pair in some turn, and went on after it. -/
theorem exists_turn_of_completed {memory : σ} {cancelled : Bool}
    (completed : (e.run memory cancelled).outcome = some .completed) {p : Pair}
    (hp : p ∈ (e.run memory cancelled).visited) :
    ∃ k, e.next? (e.after memory cancelled k) = some p ∧ k + 1 ≤ e.config.maxSteps + 1 ∧
      (e.after memory cancelled (k + 1)).outcome = none := by
  have all := e.size_le_steps_of_completed completed
  obtain ⟨k, inside, found⟩ := Array.mem_iff_getElem.mp hp
  have turn : e.next? (e.after memory cancelled k) = some p :=
    (e.next?_after_iff memory cancelled k p).mpr
      ⟨by omega, Array.getElem?_eq_some_iff.mpr ⟨inside, found⟩⟩
  have last : k + 1 ≤ e.config.maxSteps + 1 := by
    have := (e.next?_eq_some turn).2.1
    have := (e.steps_after memory cancelled k).2 (e.next?_eq_some turn).1
    omega
  refine ⟨k, turn, last, ?_⟩
  apply Classical.byContradiction
  intro ended
  have same := e.after_of_ended memory cancelled last ended
  rw [run_eq_after, same] at completed
  exact e.not_completed_of_next? memory cancelled turn completed

/-- The entry is the first pair that is published, or else the run does not complete. -/
theorem first_of_completed {memory : σ} {cancelled : Bool}
    (completed : (e.run memory cancelled).outcome = some .completed) :
    (e.run memory cancelled).visited[0]? =
      some ⟨Point.entry e.routine.entry, State.entry e.routine.id⟩ := by
  have last : 0 ≤ e.config.maxSteps + 1 := Nat.zero_le _
  obtain ⟨⟨l, more⟩, _⟩ := e.after_le memory cancelled last
  rcases e.publish_cases ⟨Point.entry e.routine.entry, State.entry e.routine.id⟩ none
    (Run.start memory cancelled) with
    ⟨ended, _⟩ | ⟨known, _⟩ | full | ⟨_, _, _, _, _, entered⟩
  · exact absurd rfl ended
  · exact absurd known (Array.not_mem_empty _)
  · have full : (e.after memory cancelled 0).outcome = some (.incomplete (.visited _)) :=
      congrArg Run.outcome full
    rw [run_eq_after, e.after_of_ended memory cancelled last (by simp [full]), full] at completed
    cases completed
  · have first : (e.after memory cancelled 0).visited =
        #[⟨Point.entry e.routine.entry, State.entry e.routine.id⟩] := congrArg Run.visited entered
    rw [run_eq_after, ← Array.getElem?_toList, more, first]
    rfl

/-- The turn number `k` expands the published pair number `k`, and no pair is published twice. A
completed run has published the entry first. It has expanded every published pair, has published
everything that its expansion yielded, and has counted the published pairs at which paths end. -/
theorem run_closed (memory : σ) (cancelled : Bool) :
    (∀ k p, e.next? (e.after memory cancelled k) = some p ↔
      k < (e.run memory cancelled).counters.steps ∧
        (e.run memory cancelled).visited[k]? = some p) ∧
    (∀ k p, e.next? (e.after memory cancelled k) = some p → ∃ rest,
      (e.after memory cancelled k).pending = p :: rest ∧
        e.after memory cancelled (k + 1) = e.expand p (step rest (e.after memory cancelled k))) ∧
    (e.run memory cancelled).visited.toList.Nodup ∧
    ((e.run memory cancelled).result = .completed →
      (e.run memory cancelled).visited[0]? =
        some ⟨Point.entry e.routine.entry, State.entry e.routine.id⟩ ∧
      (∀ p ∈ (e.run memory cancelled).visited, ∃ k,
        e.next? (e.after memory cancelled k) = some p ∧
        ∀ q, e.Yields (e.after memory cancelled k).numbering p q →
          q ∈ (e.run memory cancelled).visited) ∧
      (e.run memory cancelled).counters.terminal =
        (e.run memory cancelled).visited.toList.countP fun p => e.endsAt p.point) := by
  have queued : e.Queued (e.run memory cancelled) :=
    e.queued_after memory cancelled (e.config.maxSteps + 1)
  refine ⟨e.next?_after_iff memory cancelled, ?_, queued.distinct, ?_⟩
  · intro k p turn
    obtain ⟨running, _, rest, pending, taken⟩ := e.next?_eq_some turn
    exact ⟨rest, pending, by rw [e.after_succ, if_pos running, taken]⟩
  intro result
  have completed := e.outcome_of_result result
  refine ⟨e.first_of_completed completed, ?_, ?_⟩
  · intro p hp
    obtain ⟨k, turn, last, running⟩ := e.exists_turn_of_completed completed hp
    refine ⟨k, turn, ?_⟩
    intro q yields
    exact e.mem_run_of_after memory cancelled last
      (e.yields_published memory cancelled turn running yields)
  · have all := e.size_le_steps_of_completed completed
    have taken : (e.run memory cancelled).visited.toList.take
        (e.run memory cancelled).counters.steps = (e.run memory cancelled).visited.toList :=
      List.take_of_length_le (by simpa using all)
    rw [queued.terminal, taken]

/-- The result of a call decides between two blocks, after which the paths come together. -/
def rejoining : Outline where
  id := ⟨0⟩
  name := "rejoining"
  blocks := #[⟨⟨0⟩, [], .branch ⟨⟨0⟩, 0⟩ ⟨1⟩ ⟨2⟩, some ⟨3⟩⟩, ⟨⟨1⟩, [], .goTo ⟨3⟩, none⟩,
    ⟨⟨2⟩, [], .goTo ⟨3⟩, none⟩, ⟨⟨3⟩, [], .leave none, none⟩]
  operations := #[⟨⟨⟨0⟩, 0⟩, .call none "Choose" [], none⟩]
  closures := []

/-- Nothing that is evaluated is kept at the end of a block. -/
def rejoiningExploration : Exploration Unit where
  routine :=
    { id := ⟨0⟩
      name := "rejoining"
      blocks := rejoining.blocks
      operations := rejoining.operations
      closures := Table.empty
      orders := #[#[⟨⟨0⟩, 0⟩], #[], #[], #[]]
      written := [] }
  symbols := ⟨fun _ => none⟩
  semantics := .builtin
  checks := []
  config := { (default : Config) with resetAtBoundary := true }

/-- The paths that throw, that take one side and that take the other end in one and the same
pair. -/
theorem run_closed_rejoining : Routine.ofOutline rejoining = .ok rejoiningExploration.routine ∧
    (rejoiningExploration.run () false).result = .completed ∧
    (rejoiningExploration.run () false).visited.map Pair.point =
      #[⟨⟨0⟩, 0⟩, ⟨⟨3⟩, 0⟩, ⟨⟨0⟩, 1⟩, ⟨⟨1⟩, 0⟩, ⟨⟨2⟩, 0⟩] ∧
    (rejoiningExploration.run () false).visited[0]? = some ⟨⟨⟨0⟩, 0⟩, State.entry ⟨0⟩⟩ ∧
    (rejoiningExploration.run () false).counters = ⟨5, 2, 0, 0, 1⟩ ∧
    ∀ p ∈ (rejoiningExploration.run () false).visited, ∃ k,
      rejoiningExploration.next? (rejoiningExploration.after () false k) = some p ∧
      ∀ q, rejoiningExploration.Yields (rejoiningExploration.after () false k).numbering p q →
        q ∈ (rejoiningExploration.run () false).visited := by
  have completed : (rejoiningExploration.run () false).result = .completed := by decide +kernel
  obtain ⟨entered, expanded, _⟩ := (rejoiningExploration.run_closed () false).2.2.2 completed
  exact ⟨rfl, completed, by decide +kernel, entered, by decide +kernel, expanded⟩

end SymbolicExecution.Exploration
