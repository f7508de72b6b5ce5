import SymbolicExecution.Proofs.Exploration.Invariant

/-!
# Calls of the checks

To see which checks are called in a run, let every check write its calls down. The recorded run
differs from the plain one only in what the checks remember, and its record is made of one group for
each published pair: the checks in order, each called with the pair and with the operation that led
to it.
-/

namespace SymbolicExecution

/-- The check at a position of the list is shown a sighting. -/
structure Call where
  position : Nat
  sighting : Sighting

/-- The check, writing its calls down behind what it remembers. -/
def Check.recording {σ : Type} (c : Check σ) (position : Nat) : Check (σ × List Call) where
  name := c.name
  observe s m :=
    let seen := c.observe s m.1
    ⟨seen.findings, (seen.memory, m.2 ++ [⟨position, s⟩]), seen.cancels⟩

/-- The run without the record. -/
def Run.forget {σ : Type} (r : Run (σ × List Call)) : Run σ where
  visited := r.visited
  pending := r.pending
  numbering := r.numbering
  findings := r.findings
  counters := r.counters
  memory := r.memory.1
  cancelled := r.cancelled
  outcome := r.outcome

namespace Exploration

variable {σ : Type} (e : Exploration σ)

/-- The exploration with the calls of its checks recorded. -/
def recording : Exploration (σ × List Call) where
  routine := e.routine
  symbols := e.symbols
  semantics := e.semantics
  checks := e.checks.zipIdx.map fun c => c.1.recording c.2
  config := e.config

/-- The calls of the checks in a run. -/
def calls (memory : σ) (cancelled : Bool) : List Call :=
  (e.recording.run (memory, []) cancelled).memory.2

/-- The operation that leads to a point: none at the entry of a block. -/
def arrival? (p : Point) : Option Operation :=
  match p.index with
  | 0 => none
  | i + 1 => e.operationAt? ⟨p.block, i⟩

/-- What the checks are to be shown of a pair. -/
def sighting (p : Pair) : Sighting := ⟨e.routine, e.symbols, p.point, e.arrival? p.point, p.state⟩

/-- Every check is called once, in order. -/
def group (p : Pair) : List Call := (List.range e.checks.length).map (Call.mk · (e.sighting p))

section Projection

theorem forget_consult (s : Sighting) (c : Check σ) (position : Nat) (r : Run (σ × List Call)) :
    (r.consult s (c.recording position)).forget = r.forget.consult s c := rfl

theorem forget_foldl_consult (s : Sighting) (checks : List (Check σ)) (k : Nat)
    (r : Run (σ × List Call)) :
    (((checks.zipIdx k).map fun c => c.1.recording c.2).foldl (Run.consult s) r).forget =
      checks.foldl (Run.consult s) r.forget := by
  induction checks generalizing k r with
  | nil => rfl
  | cons c rest ih =>
    simp only [List.zipIdx_cons, List.map_cons, List.foldl_cons]
    rw [ih, forget_consult]

theorem forget_accept (p : Pair) (operation : Option Operation) (r : Run (σ × List Call)) :
    (e.recording.accept p operation r).forget = e.accept p operation r.forget := by
  have shown := forget_foldl_consult ⟨e.routine, e.symbols, p.point, operation, p.state⟩ e.checks 0
    { r with visited := r.visited.push p }
  exact congrArg (fun t : Run σ => { t with pending := t.pending ++ [p] }) shown

theorem forget_publish (p : Pair) (operation : Option Operation) (r : Run (σ × List Call)) :
    (e.recording.publish p operation r).forget = e.publish p operation r.forget := by
  have accepted := e.forget_accept p operation r
  simp only [accept] at accepted
  simp only [publish]
  change _ = if r.outcome.isSome then _ else if r.visited.contains p then _ else
    if e.config.maxVisited ≤ r.visited.size then _ else _
  split
  · rfl
  · split
    · rfl
    · split
      · rename_i full
        exact (if_pos full).symm
      · rename_i room
        exact accepted.trans (if_neg room).symm

theorem forget_play (r : Run (σ × List Call)) (m : Move) :
    (e.recording.play r m).forget = e.play r.forget m := by
  simp only [play]
  change _ = if r.outcome.isSome then _ else _
  split
  · rfl
  · cases m with
    | publish p operation => exact e.forget_publish p operation r
    | renumber | discard | skip | terminate | fail => rfl

theorem forget_foldl (l : List Move) (r : Run (σ × List Call)) :
    (l.foldl e.recording.play r).forget = l.foldl e.play r.forget := by
  induction l generalizing r with
  | nil => rfl
  | cons m rest ih => rw [List.foldl_cons, List.foldl_cons, ih, forget_play]

theorem forget_enter (memory : σ) (cancelled : Bool) :
    (e.recording.enter (memory, []) cancelled).forget = e.enter memory cancelled :=
  e.forget_publish _ none (Run.start (memory, []) cancelled)

theorem forget_expand (p : Pair) {r : Run (σ × List Call)} (running : r.outcome = none) :
    (e.recording.expand p r).forget = e.expand p r.forget := by
  rw [e.recording.expand_eq running p, e.expand_eq (r := r.forget) running p]
  exact e.forget_foldl (e.moves p r.numbering) r

theorem forget_advance {r : Run (σ × List Call)} (running : r.outcome = none) :
    (e.recording.advance r).forget = e.advance r.forget := by
  cases pending : r.pending with
  | nil =>
    have pending' : r.forget.pending = [] := pending
    simp only [advance, pending, pending']
    rfl
  | cons p rest =>
    have pending' : r.forget.pending = p :: rest := pending
    have raised : r.forget.cancelled = r.cancelled := rfl
    have steps : r.forget.counters = r.counters := rfl
    simp only [advance, pending, pending', raised, steps]
    change Run.forget (if r.cancelled then _ else
      if e.config.maxSteps ≤ r.counters.steps then _ else _) = _
    split
    · rfl
    · split
      · rfl
      · exact e.forget_expand p running

theorem forget_go (k : Nat) (r : Run (σ × List Call)) :
    (e.recording.go k r).forget = e.go k r.forget := by
  induction k generalizing r with
  | zero => rfl
  | succ k ih =>
    simp only [go]
    change Run.forget (if r.outcome.isSome then _ else _) = if r.outcome.isSome then _ else _
    split
    · rfl
    · rename_i running
      rw [ih, e.forget_advance (Option.not_isSome_iff_eq_none.mp running)]

/-- Recording changes nothing but what the checks remember. -/
theorem forget_run (memory : σ) (cancelled : Bool) :
    (e.recording.run (memory, []) cancelled).forget = e.run memory cancelled := by
  rw [run, forget_go, forget_enter]
  rfl

/-- Every run can be recorded, interrupted or not. -/
theorem Attains.recorded {e : Exploration σ} {memory : σ} {k : Nat} {t : Run σ}
    (attains : e.Attains memory k t) :
    ∃ r, e.recording.Attains (memory, []) k r ∧ r.forget = t := by
  induction attains with
  | enter cancelled => exact ⟨_, .enter cancelled, e.forget_enter memory cancelled⟩
  | turn _ running ih =>
    obtain ⟨r, attains, rfl⟩ := ih
    exact ⟨_, attains.turn running, e.forget_advance running⟩
  | cancel _ ih =>
    obtain ⟨r, attains, rfl⟩ := ih
    exact ⟨_, attains.cancel, rfl⟩

theorem Attains.forget {e : Exploration σ} {memory : σ} {k : Nat} {r : Run (σ × List Call)}
    (attains : e.recording.Attains (memory, []) k r) : e.Attains memory k r.forget := by
  induction attains with
  | enter cancelled =>
    rw [forget_enter]
    exact .enter cancelled
  | turn _ running ih =>
    rw [e.forget_advance running]
    exact ih.turn running
  | cancel _ ih => exact ih.cancel

end Projection

section Record

theorem record_foldl_consult (s : Sighting) (checks : List (Check σ)) (k : Nat)
    (r : Run (σ × List Call)) :
    (((checks.zipIdx k).map fun c => c.1.recording c.2).foldl (Run.consult s) r).memory.2 =
      r.memory.2 ++ (List.range' k checks.length).map (Call.mk · s) := by
  induction checks generalizing k r with
  | nil => simp
  | cons c rest ih =>
    have first : (r.consult s (c.recording k)).memory.2 = r.memory.2 ++ [⟨k, s⟩] := rfl
    simp only [List.zipIdx_cons, List.map_cons, List.foldl_cons, List.length_cons]
    rw [ih, first, List.range'_succ, List.map_cons, List.append_assoc, List.singleton_append]

/-- A move publishes a pair together with the operation that leads to it. -/
def Labels : Move → Prop
  | .publish p operation => operation = e.arrival? p.point ∧ (p.point.index = 0 ∨ operation.isSome)
  | _ => True

/-- Every pair is published together with the operation that leads to it. -/
theorem labels_moves (p : Pair) (n : Numbering) : ∀ m ∈ e.moves p n, e.Labels m := by
  have entering : ∀ b s, e.Labels (e.entering b s) := fun _ _ => ⟨rfl, Or.inl rfl⟩
  intro m hm
  cases makes_of_mem hm with
  | next operation => exact ⟨operation.symm, Or.inr rfl⟩
  | thrown | goTo | side | raised => exact entering _ _
  | _ => trivial

/-- The record has one group for each published pair, no pair is published twice, and an operation
leads to every pair that is not at the entry of a block. -/
structure Recorded (r : Run (σ × List Call)) : Prop where
  calls : r.memory.2 = r.visited.toList.flatMap e.group
  distinct : r.visited.toList.Nodup
  arrival {p : Pair} : p ∈ r.visited → p.point.index = 0 ∨ (e.arrival? p.point).isSome

variable {e}

theorem Recorded.accept {r : Run (σ × List Call)} (recorded : e.Recorded r) {p : Pair}
    {operation : Option Operation} (labels : e.Labels (.publish p operation))
    (new : p ∉ r.visited) : e.Recorded (e.recording.accept p operation r) := by
  obtain ⟨same, arrived⟩ := labels
  constructor
  · have record := record_foldl_consult ⟨e.routine, e.symbols, p.point, operation, p.state⟩
      e.checks 0 { r with visited := r.visited.push p }
    rw [← List.range_eq_range'] at record
    rw [accept_visited, Array.toList_push, List.flatMap_append, List.flatMap_singleton,
      ← recorded.calls, group, sighting, ← same]
    exact record
  · rw [accept_visited, Array.toList_push, List.nodup_append]
    refine ⟨recorded.distinct, by simp, ?_⟩
    rintro a ha b hb rfl
    rw [List.mem_singleton.mp hb] at ha
    exact new (Array.mem_toList_iff.mp ha)
  · intro q hq
    rw [accept_visited] at hq
    rcases Array.mem_push.mp hq with hq | rfl
    · exact recorded.arrival hq
    · rw [← same]
      exact arrived

theorem Recorded.publish {r : Run (σ × List Call)} (recorded : e.Recorded r) {p : Pair}
    {operation : Option Operation} (labels : e.Labels (.publish p operation)) :
    e.Recorded (e.recording.publish p operation r) := by
  apply e.recording.publish_elim
  case ended => exact fun _ => recorded
  case known => exact fun _ _ => ⟨recorded.calls, recorded.distinct, recorded.arrival⟩
  case full => exact fun _ _ _ => ⟨recorded.calls, recorded.distinct, recorded.arrival⟩
  case new => exact fun _ new _ => recorded.accept labels new

/-- The operation that leads to a pair behind an entry stands before it in the evaluation order. -/
theorem Recorded.arrived {r : Run (σ × List Call)} (recorded : e.Recorded r) {p : Pair}
    (hp : p ∈ r.visited) {i : Nat} (index : p.point.index = i + 1) :
    ∃ j o, (e.routine.order p.point.block)[i]? = some j ∧ e.routine.operation? j = some o ∧
      e.arrival? p.point = some o := by
  have arrival := recorded.arrival hp
  have same : e.arrival? p.point =
      (e.routine.order p.point.block)[i]?.bind e.routine.operation? := by
    simp [arrival?, index, operationAt?]
  simp only [index, Nat.succ_ne_zero, false_or] at arrival
  obtain ⟨o, known⟩ := Option.isSome_iff_exists.mp arrival
  obtain ⟨j, here, found⟩ := Option.bind_eq_some_iff.mp (same.symm.trans known)
  exact ⟨j, o, here, found, known⟩

variable (e)

theorem invariant_recorded (memory : σ) :
    e.recording.Invariant (memory, []) e.Labels e.Recorded where
  start _ := ⟨rfl, List.nodup_nil, by simp [Run.start]⟩
  entry := ⟨rfl, Or.inl rfl⟩
  waiting _ _ := e.labels_moves _ _
  take recorded _ _ _ := ⟨recorded.calls, recorded.distinct, recorded.arrival⟩
  act {r m} recorded _ labels := by
    cases m with
    | publish p operation => exact recorded.publish labels
    | renumber | discard | skip | terminate | fail =>
      exact ⟨recorded.calls, recorded.distinct, recorded.arrival⟩
  finish recorded _ := ⟨recorded.calls, recorded.distinct, recorded.arrival⟩
  cancel recorded := ⟨recorded.calls, recorded.distinct, recorded.arrival⟩

/-- The calls of a run are known from its published pairs. -/
theorem calls_eq (memory : σ) (cancelled : Bool) :
    e.calls memory cancelled = (e.run memory cancelled).visited.toList.flatMap e.group := by
  obtain ⟨k, attains⟩ := e.recording.attains_run (memory, []) cancelled
  rw [← e.forget_run]
  exact ((e.invariant_recorded memory).attains attains).calls

/-- Recording changes nothing but what the checks remember, and every run can be recorded. Whether a
run is interrupted or not, and however it ends, the calls of its checks are one group for each
published pair, in the order of publication: every check is called once, in order, with that pair.
No pair is published twice. At the entry of a block the calls carry no operation, and behind the
operation number `i` of a block they carry that one. -/
theorem checks_see_once (memory : σ) :
    (∀ cancelled, (e.recording.run (memory, []) cancelled).forget = e.run memory cancelled ∧
      ∃ k, e.recording.Attains (memory, []) k (e.recording.run (memory, []) cancelled)) ∧
    (∀ k t, e.Attains memory k t → ∃ r, e.recording.Attains (memory, []) k r ∧ r.forget = t) ∧
    ∀ k r, e.recording.Attains (memory, []) k r →
      e.Attains memory k r.forget ∧
      r.memory.2 = r.visited.toList.flatMap e.group ∧ r.visited.toList.Nodup ∧
      ∀ p ∈ r.visited, (p.point.index = 0 → (e.sighting p).operation = none) ∧
        ∀ i, p.point.index = i + 1 → ∃ j o, (e.routine.order p.point.block)[i]? = some j ∧
          e.routine.operation? j = some o ∧ (e.sighting p).operation = some o := by
  refine ⟨?_, fun k t attains => attains.recorded, ?_⟩
  · intro cancelled
    exact ⟨e.forget_run memory cancelled, e.recording.attains_run (memory, []) cancelled⟩
  · intro k r attains
    have recorded := (e.invariant_recorded memory).attains attains
    refine ⟨attains.forget, recorded.calls, recorded.distinct, ?_⟩
    intro p hp
    constructor
    · intro entry
      simp [sighting, arrival?, entry]
    · intro i index
      exact recorded.arrived hp index

end Record

end Exploration

end SymbolicExecution
