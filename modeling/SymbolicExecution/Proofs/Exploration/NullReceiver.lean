import SymbolicExecution.Check.UselessIncrement
import SymbolicExecution.Proofs.Exploration.Origin
import SymbolicExecution.Proofs.Exploration.Reporting
import SymbolicExecution.Proofs.Footprint.Receiver
import SymbolicExecution.Proofs.Routine.Acyclic

/-!
# Reported receivers

The check for null dereferences looks at a receiver after the operation that dereferences it. With
the built-in semantics the receiver is null then if it was null before, so that what is reported are
the receivers that are null at a published pair.
-/

namespace SymbolicExecution

theorem Routine.mem_evaluations_of_order {r : Routine} {b : BlockId} {k : Nat} {i : OpId}
    (here : (r.order b)[k]? = some i) : i ∈ r.evaluations := by
  simp only [order] at here
  cases found : r.orders[b.index]? with
  | none => simp [found] at here
  | some order =>
    rw [found, Option.getD_some] at here
    exact List.mem_flatMap.mpr ⟨order, Array.mem_toList_iff.mpr (Array.mem_of_getElem? found),
      Array.mem_toList_iff.mpr (Array.mem_of_getElem? here)⟩

theorem Form.mem_children_of_receiver? {f : Form} {i : OpId} (receiver : f.receiver? = some i) :
    i ∈ f.children := by
  cases f <;> simp_all [receiver?, children]

/-- The form dereferences the receiver and does not write to it. -/
structure Form.Dereferences (f : Form) (receiver : OpId) : Prop where
  receives : f.receiver? = some receiver
  kept : ∀ a ∈ f.arguments, a.isWritable → a.value ≠ receiver

theorem Form.Dereferences.not_renewed {f : Form} {i : OpId} (dereferences : f.Dereferences i) :
    i ∉ f.renewed := by
  obtain ⟨receives, kept⟩ := dereferences
  cases f with
  | call target method l =>
    intro renewed
    obtain ⟨a, ha, same⟩ := List.mem_map.mp renewed
    obtain ⟨ha, writable⟩ := List.mem_filter.mp ha
    exact kept a ha writable same
  | fieldRef | element => exact List.not_mem_nil
  | _ => cases receives

/-- The operation has a value in the state, which is known to be null. -/
def State.IsNull (s : State) (i : OpId) : Prop :=
  ∃ v, s.operation? i = some v ∧ s.nullness? v = some .null

theorem State.isNull_iff {s : State} {i : OpId} :
    s.IsNull i ↔ (s.operation? i).bind s.nullness? = some .null := Option.bind_eq_some_iff.symm

instance (s : State) (i : OpId) : Decidable (s.IsNull i) := decidable_of_iff _ State.isNull_iff.symm

/-- The check reports an operation if its receiver is null. -/
theorem NullDereference.find_iff {s : Sighting} {i : OpId} :
    (∃ f ∈ find s, f.check = name ∧ f.operation = some i) ↔
      ∃ o receiver, s.operation = some o ∧ o.id = i ∧ o.form.receiver? = some receiver ∧
        s.state.IsNull receiver := by
  constructor
  · rintro ⟨f, hf, _, here⟩
    simp only [find] at hf
    split at hf
    · rename_i receiver known
      obtain ⟨o, operation, receives⟩ := Option.bind_eq_some_iff.mp known
      split at hf
      · rename_i null
        rw [List.mem_singleton.mp hf, Sighting.finding, operation] at here
        exact ⟨o, receiver, operation, Option.some.inj here, receives, State.isNull_iff.mpr null⟩
      · cases hf
    · cases hf
  · rintro ⟨o, receiver, operation, rfl, receives, null⟩
    refine ⟨s.finding name .error (message (shown s receiver)), ?_, rfl, ?_⟩
    · simp [find, operation, receives, State.isNull_iff.mp null]
    · simp [Sighting.finding, operation]

/-- The check for useless increments reports under its own name. -/
theorem UselessIncrement.check_of_mem_find {s : Sighting} {f : Finding} (hf : f ∈ find s) :
    f.check = name := by
  simp only [find] at hf
  split at hf
  · split at hf
    · split at hf
      · split at hf
        · split at hf
          · rw [List.mem_singleton.mp hf]
            rfl
          · cases hf
        · cases hf
      · cases hf
    · cases hf
  · cases hf

namespace Exploration

variable {σ : Type} {e : Exploration σ}

section Receiver

variable {outline : Outline} (accepted : Routine.ofOutline outline = .ok e.routine)
  (builtin : e.semantics = .builtin) {n : Numbering} {p q : Pair} {i receiver : OpId}
  {o : Operation} (found : e.routine.operation? i = some o)
  (dereferences : o.form.Dereferences receiver)

include accepted builtin found dereferences

/-- Where the operation is evaluated it has one successor, in which the receiver is null if it was
null before. -/
theorem successors_of_dereferences (sound : e.Sound n p)
    (here : (e.routine.order p.point.block)[p.point.index]? = some i) :
    ∃ t, e.successors? p o n = some [t] ∧ (t.IsNull receiver ↔ p.state.IsNull receiver) := by
  have closed := Outline.closed accepted
  have own := sound.owns.routine_of_names (sound.owns.footprint closed found e.symbols)
  have other : receiver ≠ o.id := by
    -- it would be a circle below an evaluated operation
    rintro rfl
    have child : e.routine.Child o.id i :=
      ⟨o, found, Form.mem_children_of_receiver? dereferences.receives⟩
    rw [closed.label found] at child
    have acc := Outline.acc_of_evaluated accepted (Routine.mem_evaluations_of_order here)
    exact not_transGen_self_of_acc acc (.single child)
  obtain ⟨t, answered, null⟩ := Rule.process_receiver (c := ⟨o, p.state, e.routine, e.symbols⟩)
    dereferences.receives own sound.below other dereferences.not_renewed
  refine ⟨t, ?_, ?_⟩
  · simp only [successors?, builtin, answered]
  · rw [State.isNull_iff, State.isNull_iff]
    exact null

/-- A pair that the operation leads on to has a null receiver if the pair before has one. -/
theorem LeadsOn.isNull_iff (leads : e.LeadsOn n p o q)
    (here : (e.routine.order p.point.block)[p.point.index]? = some i) :
    q.state.IsNull receiver ↔ p.state.IsNull receiver := by
  obtain ⟨t, successors, null⟩ :=
    successors_of_dereferences accepted builtin found dereferences leads.sound here
  obtain ⟨states, successors', mem⟩ := leads.successors
  cases successors.symm.trans successors'
  rw [List.mem_singleton.mp mem]
  exact null

variable {memory : σ} {cancelled : Bool}

/-- What a check is shown of a null receiver was published with the receiver being null. -/
theorem exists_published_of_shown (shown : q ∈ (e.run memory cancelled).visited)
    (arrival : e.arrival? q.point = some o) (null : q.state.IsNull receiver) :
    ∃ p ∈ (e.run memory cancelled).visited,
      (e.routine.order p.point.block)[p.point.index]? = some i ∧ p.state.IsNull receiver := by
  have closed := Outline.closed accepted
  obtain ⟨p, hp, n, leads⟩ := exists_leadsOn_of_arrival closed builtin shown arrival
  obtain ⟨j, here, found'⟩ := Option.bind_eq_some_iff.mp leads.operation
  have here : (e.routine.order p.point.block)[p.point.index]? = some i := by
    rw [here, ← closed.label found', closed.label found]
  exact ⟨p, hp, here, (leads.isNull_iff accepted builtin found dereferences here).mp null⟩

/-- A completed run shows every null receiver that was published to the checks. -/
theorem exists_shown_of_published (completed : (e.run memory cancelled).result = .completed)
    (published : p ∈ (e.run memory cancelled).visited)
    (here : (e.routine.order p.point.block)[p.point.index]? = some i)
    (null : p.state.IsNull receiver) :
    ∃ q ∈ (e.run memory cancelled).visited,
      e.arrival? q.point = some o ∧ q.state.IsNull receiver := by
  have closed := Outline.closed accepted
  obtain ⟨k, turn, last, running⟩ :=
    e.exists_turn_of_completed (e.outcome_of_result completed) published
  obtain ⟨j, _, attains⟩ := e.attains_after memory cancelled k
  obtain ⟨_, _, rest, pending, _⟩ := e.next?_eq_some turn
  have sound := (attains.moment.orderly closed builtin).pending p (pending ▸ List.mem_cons_self)
  obtain ⟨t, successors, null'⟩ :=
    successors_of_dereferences accepted builtin found dereferences sound here
  have operation : e.operationAt? p.point = some o := by simp [operationAt?, here, found]
  have yields := e.yields_published memory cancelled turn running
    (.next operation successors List.mem_cons_self)
  exact ⟨_, e.mem_run_of_after memory cancelled last yields, operation, null'.mpr null⟩

end Receiver

/-- A completed run with the built-in semantics reports a null dereference at an operation exactly
if its receiver is null at a published pair before it, and then reports it once. This is said of the
operations that do not write to their receiver, and as long as no other check reports null
dereferences. -/
theorem run_reports_null_receivers {outline : Outline}
    (accepted : Routine.ofOutline outline = .ok e.routine) (builtin : e.semantics = .builtin)
    (registers : Registers e.checks NullDereference.name NullDereference.find) {memory : σ}
    {cancelled : Bool} (completed : (e.run memory cancelled).result = .completed)
    {i receiver : OpId} {o : Operation} (found : e.routine.operation? i = some o)
    (dereferences : o.form.Dereferences receiver) :
    ((∃ f ∈ ((e.run memory cancelled).report e.routine).findings,
        f.check = NullDereference.name ∧ f.operation = some i) ↔
      ∃ p ∈ (e.run memory cancelled).visited,
        (e.routine.order p.point.block)[p.point.index]? = some i ∧ p.state.IsNull receiver) ∧
    ((e.run memory cancelled).report e.routine).findings.countP
      (fun f => f.check = NullDereference.name ∧ f.operation = some i) ≤ 1 := by
  have closed := Outline.closed accepted
  obtain ⟨k, attains⟩ := e.attains_run memory cancelled
  have reports := (invariant_reports registers memory).attains attains
  have findings : ((e.run memory cancelled).report e.routine).findings =
      (e.run memory cancelled).findings.kept.toList := by
    simp [Run.report, completed]
  rw [findings]
  refine ⟨?_, reports.count_le_one i⟩
  simp only [Array.mem_toList_iff]
  rw [reports.reported_iff i]
  constructor
  · rintro ⟨q, hq, reported⟩
    obtain ⟨o', receiver', arrival, rfl, receives, null⟩ := NullDereference.find_iff.mp reported
    cases found.symm.trans (operation?_of_arrival closed arrival)
    cases dereferences.receives.symm.trans receives
    exact exists_published_of_shown accepted builtin found dereferences hq arrival null
  · rintro ⟨p, hp, here, null⟩
    obtain ⟨q, hq, arrival, null⟩ := exists_shown_of_published accepted builtin found dereferences
      completed hp here null
    exact ⟨q, hq, NullDereference.find_iff.mpr
      ⟨o, receiver, arrival, closed.label found, dereferences.receives, null⟩⟩

/-- A parameter is closed where it is null, with a variable, and flushed where it is not. -/
def closing : Outline where
  id := ⟨0⟩
  name := "closing"
  blocks := #[⟨⟨0⟩, [], .branch ⟨⟨0⟩, 1⟩ ⟨1⟩ ⟨2⟩, none⟩, ⟨⟨1⟩, [⟨⟨0⟩, 4⟩], .leave none, none⟩,
    ⟨⟨2⟩, [⟨⟨0⟩, 6⟩], .leave none, none⟩]
  operations := #[⟨⟨⟨0⟩, 0⟩, .paramRef ⟨0⟩, none⟩, ⟨⟨⟨0⟩, 1⟩, .isPattern ⟨⟨0⟩, 0⟩ .null, none⟩,
    ⟨⟨⟨0⟩, 2⟩, .paramRef ⟨0⟩, none⟩, ⟨⟨⟨0⟩, 3⟩, .localRef ⟨1⟩, none⟩,
    ⟨⟨⟨0⟩, 4⟩, .call (some ⟨⟨0⟩, 2⟩) "close" [⟨⟨⟨0⟩, 3⟩, .byRef⟩], none⟩,
    ⟨⟨⟨0⟩, 5⟩, .paramRef ⟨0⟩, none⟩, ⟨⟨⟨0⟩, 6⟩, .call (some ⟨⟨0⟩, 5⟩) "flush" [], none⟩]
  closures := []

def closingExploration : Exploration Unit where
  routine :=
    { id := ⟨0⟩
      name := "closing"
      blocks := closing.blocks
      operations := closing.operations
      closures := Table.empty
      orders := #[#[⟨⟨0⟩, 0⟩, ⟨⟨0⟩, 1⟩], #[⟨⟨0⟩, 2⟩, ⟨⟨0⟩, 3⟩, ⟨⟨0⟩, 4⟩],
        #[⟨⟨0⟩, 5⟩, ⟨⟨0⟩, 6⟩]]
      written := [] }
  symbols := ⟨fun _ => none⟩
  semantics := .builtin
  checks := [.nullDereference, .uselessIncrement]
  config := default

/-- The closing of a null parameter is reported, and the flushing of another one is not. -/
theorem run_reports_null_receivers_closing :
    (∃ f ∈ ((closingExploration.run () false).report closingExploration.routine).findings,
      f.check = NullDereference.name ∧ f.operation = some ⟨⟨0⟩, 4⟩) ∧
    (¬∃ f ∈ ((closingExploration.run () false).report closingExploration.routine).findings,
      f.check = NullDereference.name ∧ f.operation = some ⟨⟨0⟩, 6⟩) ∧
    ((closingExploration.run () false).report closingExploration.routine).findings.countP
      (fun f => f.check = NullDereference.name ∧ f.operation = some ⟨⟨0⟩, 4⟩) ≤ 1 := by
  have accepted : Routine.ofOutline closing = .ok closingExploration.routine := by rfl
  have registers :
      Registers closingExploration.checks NullDereference.name NullDereference.find := by
    refine ⟨List.mem_cons_self, ?_⟩
    intro c hc
    rcases List.mem_cons.mp hc with rfl | hc
    · exact Or.inl rfl
    · rw [List.mem_singleton.mp hc]
      refine Or.inr fun s m f hf => ?_
      rw [UselessIncrement.check_of_mem_find hf]
      decide
  have completed : (closingExploration.run () false).result = .completed := by decide +kernel
  obtain ⟨close, once⟩ := run_reports_null_receivers accepted rfl registers completed
    (i := ⟨⟨0⟩, 4⟩) (o := ⟨⟨⟨0⟩, 4⟩, .call (some ⟨⟨0⟩, 2⟩) "close" [⟨⟨⟨0⟩, 3⟩, .byRef⟩], none⟩)
    rfl ⟨rfl, by decide⟩
  obtain ⟨flush, _⟩ := run_reports_null_receivers accepted rfl registers completed
    (i := ⟨⟨0⟩, 6⟩) (o := ⟨⟨⟨0⟩, 6⟩, .call (some ⟨⟨0⟩, 5⟩) "flush" [], none⟩) rfl ⟨rfl, by decide⟩
  exact ⟨close.mpr (by decide +kernel),
    fun reported => absurd (flush.mp reported) (by decide +kernel), once⟩

end Exploration

end SymbolicExecution
