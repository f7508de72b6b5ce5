import SymbolicExecution.Proofs.Exploration.Invariant
import SymbolicExecution.Proofs.Footprint.Rule
import SymbolicExecution.Proofs.Routine.Closed
import SymbolicExecution.Report

/-!
# Explorations without faults

With the built-in semantics, an exploration of an accepted routine fails nowhere and skips nothing.
Rules and branches touch only what an operation names, what a routine names exists, and what a
state has recorded was named before.
-/

namespace SymbolicExecution

namespace Routine

/-- The operations that the state knows and those that it has recorded are of the routine. -/
structure Owns (r : Routine) (s : State) : Prop where
  routine : s.routine = r.id
  operation {i : OpId} {v : Value} : s.operation? i = some v → ∃ p, r.operation? i = some p
  capture {slot : CaptureId} {i : OpId} : s.capture? slot = some i → ∃ p, r.operation? i = some p

variable {r : Routine} {s t : State} {i : OpId} {o : Operation}

theorem owns_entry (r : Routine) : r.Owns (State.entry r.id) := by
  refine ⟨rfl, ?_, ?_⟩
  · intro i v known
    cases known
  · intro slot i captured
    cases captured

theorem Owns.becomes (owns : r.Owns s) {f : Footprint}
    (names : ∀ i, f.Names i → ∃ p, r.operation? i = some p) (becomes : s.Becomes f t) :
    r.Owns t := by
  refine ⟨becomes.routine.trans owns.routine, ?_, ?_⟩
  · intro i v known
    rcases becomes.operations i with same | gives | ⟨fills, _⟩
    · rw [same] at known
      exact owns.operation known
    · exact names i (Or.inl gives)
    · exact names i (Or.inr (Or.inl fills))
  · intro slot i captured
    rcases becomes.captures slot with same | ⟨j, captured', allowed⟩
    · rw [same] at captured
      exact owns.capture captured
    · rw [← Option.some.inj (captured'.symm.trans captured)]
      exact names j (Or.inr (Or.inr ⟨slot, allowed⟩))

theorem Owns.forgetOperations (owns : r.Owns s) : r.Owns s.forgetOperations :=
  ⟨owns.routine, fun known => owns.operation (State.operation?_of_forgetOperations known),
    owns.capture⟩

/-- The names of a footprint are of the routine of the state. -/
theorem Owns.routine_of_names (owns : r.Owns s) {f : Footprint}
    (names : ∀ i, f.Names i → ∃ p, r.operation? i = some p) :
    ∀ i, f.Names i → i.routine = s.routine := by
  intro i named
  obtain ⟨p, found⟩ := names i named
  exact (operation?_eq_some_iff.mp found).1.trans owns.routine.symm

/-- All that an operation touches exists. -/
theorem Owns.footprint (owns : r.Owns s) (closed : r.Closed) (found : r.operation? i = some o)
    (symbols : Symbols) : ∀ j, (Situation.footprint ⟨o, s, r, symbols⟩).Names j →
      ∃ p, r.operation? j = some p := by
  rintro j ((rfl | target) | (child | ⟨slot, _, captured⟩) | ⟨slot, form⟩)
  · rw [closed.label found]
    exact ⟨o, found⟩
  · exact closed.child found (Form.mem_children_of_renewed target)
  · exact closed.child found child
  · exact owns.capture captured
  · have form : o.form = .capture slot j := form
    exact closed.child found (by simp [form, Form.children])

/-- The built-in semantics gives every operation of the routine a meaning. -/
theorem Owns.process (owns : r.Owns s) (closed : r.Closed) (found : r.operation? i = some o)
    (symbols : Symbols) (n : Numbering) : ∃ t : Option State,
      (Semantics.builtin.process ⟨o, s, r, symbols⟩ n).1 = .ok t.toList ∧
        ∀ u, t = some u → r.Owns u := by
  have names := owns.footprint closed found symbols
  obtain ⟨t, answered, keeps⟩ := Rule.process_keeps (owns.routine_of_names names) n
  exact ⟨t, answered, fun u same => owns.becomes names (keeps u same)⟩

theorem Owns.split (owns : r.Owns s) {condition : OpId}
    (known : ∃ p, r.operation? condition = some p) (learning : Bool) :
    (r.split learning s condition).Ensures False fun sides => ∀ side ∈ sides, r.Owns side.2 := by
  have names : ∀ i, (Footprint.filling condition).Names i → ∃ p, r.operation? i = some p := by
    intro i named
    rw [Footprint.names_filling.mp named]
    exact known
  have own : condition.routine = s.routine :=
    owns.routine_of_names names condition (Footprint.names_filling.mpr rfl)
  intro n
  have ensured := State.ensures_split r learning own n
  generalize r.split learning s condition n = answer at ensured ⊢
  obtain ⟨verdict, m⟩ := answer
  cases ensured with
  | result becomes => exact .result fun side hside => owns.becomes names (becomes side hside)
  | infeasible => exact .infeasible
  | refused allowed => exact allowed.elim

end Routine

namespace Exploration

variable {σ : Type} (e : Exploration σ)

/-- The pair is at a block of the routine, with a state of the routine. -/
structure Places (p : Pair) : Prop where
  block : ∃ k, e.routine.block? p.point.block = some k
  owns : e.routine.Owns p.state

/-- The move neither fails nor skips, and publishes what belongs to the routine. -/
def Faultless : Move → Prop
  | .publish p _ => e.Places p
  | .skip | .fail _ => False
  | .renumber _ | .discard _ | .terminate => True

variable {e} {p : Pair} {s : State} {b : BlockId}

theorem faultless_entering (known : ∃ k, e.routine.block? b = some k) (owns : e.routine.Owns s) :
    e.Faultless (e.entering b s) := by
  refine ⟨known, ?_⟩
  simp only [crossing]
  split
  · exact owns.forgetOperations
  · exact owns

section Moves

variable (closed : e.routine.Closed) (builtin : e.semantics = .builtin) (places : e.Places p)
  {n : Numbering} {o : Operation} {k : Block}

include places closed

/-- The condition of a branch is split, and the sides belong to the routine. -/
theorem Places.sides (left : e.leftAt? p.point = some k) {condition : OpId}
    {whenTrue whenFalse : BlockId} (exit : k.exit = .branch condition whenTrue whenFalse) :
    Verdict.Ensures False (fun sides => ∀ side ∈ sides, e.routine.Owns side.2)
      (e.sides p condition n).1 := by
  have found := e.block?_of_leftAt? left
  have evaluated : condition ∈ k.evaluated := by simp [Block.evaluated, exit, Exit.value?]
  exact places.owns.split (closed.evaluated found evaluated) e.config.learnAtBranches n

include builtin

/-- An operation is answered by at most one state, which belongs to the routine. -/
theorem Places.answer (operation : e.operationAt? p.point = some o) :
    ∃ t : Option State, (e.answer p o n).1 = .ok t.toList ∧
      ∀ u, t = some u → e.routine.Owns u := by
  obtain ⟨i, _, found⟩ := Option.bind_eq_some_iff.mp operation
  rw [Exploration.answer, builtin]
  exact places.owns.process closed found e.symbols n

/-- Nothing is refused, so the successors are the answer. -/
theorem Places.answered (operation : e.operationAt? p.point = some o) {states : List State}
    (successors : e.successors? p o n = some states) :
    (Semantics.builtin.process ⟨o, p.state, e.routine, e.symbols⟩ n).1 = .ok states := by
  obtain ⟨t, answered, _⟩ := places.answer closed builtin operation (n := n)
  simp only [successors?, answered, Option.some.injEq] at successors
  rw [← successors, ← answered, Exploration.answer, builtin]

theorem Places.successors (operation : e.operationAt? p.point = some o) {states : List State}
    (successors : e.successors? p o n = some states) : ∀ u ∈ states, e.routine.Owns u := by
  obtain ⟨i, _, found⟩ := Option.bind_eq_some_iff.mp operation
  obtain ⟨t, answered, owns⟩ := places.owns.process closed found e.symbols n
  cases answered.symm.trans (places.answered closed builtin operation successors)
  intro u hu
  exact owns u (Option.mem_toList.mp hu)

/-- Nothing is missing where a pair of the routine is expanded. -/
theorem faultless_moves : ∀ m ∈ e.moves p n, e.Faultless m := by
  intro m hm
  cases makes_of_mem hm with
  | evaluated | infeasible | forked | dropped | contradicted | ended => trivial
  | skipped operation refused | foreign operation refused =>
    obtain ⟨t, answered, _⟩ := places.answer closed builtin operation (n := n)
    rw [answered] at refused
    cases refused
  | next operation successors mem =>
    exact ⟨places.block, places.successors closed builtin operation successors _ mem⟩
  | thrown operation _ handles successors mem =>
    obtain ⟨k, found, handler⟩ := Option.bind_eq_some_iff.mp handles
    exact faultless_entering (closed.handler found handler)
      (places.successors closed builtin operation successors _ mem)
  | unknown here missing =>
    obtain ⟨q, found⟩ := closed.ordered here
    rw [found] at missing
    cases missing
  | goTo left exit =>
    have found := e.block?_of_leftAt? left
    exact faultless_entering (closed.target found (by simp [exit, Exit.targets])) places.owns
  | @side k condition whenTrue whenFalse sides side left exit split mem =>
    have found := e.block?_of_leftAt? left
    have ensured := places.sides closed left exit (n := n)
    rw [split] at ensured
    cases ensured with
    | result owns =>
      apply faultless_entering ?_ (owns side mem)
      split
      · exact closed.target found (by simp [exit, Exit.targets])
      · exact closed.target found (by simp [exit, Exit.targets])
  | refused left exit split =>
    have ensured := places.sides closed left exit (n := n)
    rw [split] at ensured
    cases ensured with
    | refused allowed => exact allowed.elim
  | raised left exit handler =>
    have found := e.block?_of_leftAt? left
    exact faultless_entering (closed.handler found handler) places.owns
  | lost _ missing =>
    obtain ⟨k, found⟩ := places.block
    rw [found] at missing
    cases missing

end Moves

variable (e) in
/-- Nothing was skipped, nothing failed, and what was published belongs to the routine. -/
structure Unharmed (r : Run σ) : Prop where
  skipped : r.counters.skipped = 0
  unfailed (message : String) : r.outcome ≠ some (.failed message)
  visited : ∀ p ∈ r.visited, e.Places p
  pending : ∀ p ∈ r.pending, e.Places p

theorem Unharmed.publish {r : Run σ} (unharmed : e.Unharmed r) (places : e.Places p)
    (operation : Option Operation) : e.Unharmed (e.publish p operation r) := by
  apply e.publish_elim
  case ended => exact fun _ => unharmed
  case known =>
    exact fun _ _ => ⟨unharmed.skipped, unharmed.unfailed, unharmed.visited, unharmed.pending⟩
  case full =>
    exact fun _ _ _ => ⟨unharmed.skipped, by simp [Run.finish], unharmed.visited, unharmed.pending⟩
  case new =>
    intro _ _ _
    constructor
    · simpa using unharmed.skipped
    · simpa using unharmed.unfailed
    · intro q hq
      rw [accept_visited] at hq
      rcases Array.mem_push.mp hq with hq | rfl
      · exact unharmed.visited q hq
      · exact places
    · intro q hq
      rw [accept_pending] at hq
      rcases List.mem_append.mp hq with hq | hq
      · exact unharmed.pending q hq
      · rw [List.mem_singleton.mp hq]
        exact places

theorem invariant_unharmed (closed : e.routine.Closed) (builtin : e.semantics = .builtin)
    (memory : σ) : e.Invariant memory e.Faultless e.Unharmed where
  start _ := ⟨rfl, nofun, by simp [Run.start], by simp [Run.start]⟩
  entry := ⟨closed.entry, e.routine.owns_entry⟩
  waiting unharmed pending :=
    faultless_moves closed builtin (unharmed.pending _ (pending ▸ List.mem_cons_self))
  take unharmed _ pending _ := ⟨unharmed.skipped, unharmed.unfailed, unharmed.visited,
    fun q hq => unharmed.pending q (pending ▸ List.mem_cons_of_mem _ hq)⟩
  act {r m} unharmed running faultless := by
    cases m with
    | publish p operation => exact unharmed.publish faultless operation
    | skip | fail => exact faultless.elim
    | renumber | discard | terminate =>
      exact ⟨unharmed.skipped, unharmed.unfailed, unharmed.visited, unharmed.pending⟩
  finish unharmed ends := by
    refine ⟨unharmed.skipped, ?_, unharmed.visited, unharmed.pending⟩
    cases ends <;> simp [Run.finish]
  cancel unharmed := ⟨unharmed.skipped, unharmed.unfailed, unharmed.visited, unharmed.pending⟩

/-- The exploration of an accepted routine with the built-in semantics never fails and skips no
operation, however it is interrupted. Nothing that can be expanded fails or is skipped: no operation
and no block is missing, and no state is given an operation of another routine. Every published
state knows and has recorded operations of the routine only. -/
theorem run_faultless {o : Outline} (accepted : Routine.ofOutline o = .ok e.routine)
    (builtin : e.semantics = .builtin) (memory : σ) :
    (∀ cancelled, (∀ message,
        ((e.run memory cancelled).report e.routine).outcome ≠ .failed message) ∧
      ((e.run memory cancelled).report e.routine).stats.skipped = 0) ∧
    ∀ k r, e.Attains memory k r →
      (∀ message, r.outcome ≠ some (.failed message)) ∧ r.counters.skipped = 0 ∧
      ∀ p ∈ r.visited,
        (∀ n, .skip ∉ e.moves p n ∧ ∀ message, .fail message ∉ e.moves p n) ∧
        (∀ i v, p.state.operation? i = some v → ∃ q, e.routine.operation? i = some q) ∧
        ∀ slot i, p.state.capture? slot = some i → ∃ q, e.routine.operation? i = some q := by
  have closed := Outline.closed accepted
  have unharmed : ∀ {k r}, e.Attains memory k r → e.Unharmed r :=
    (invariant_unharmed closed builtin memory).attains
  constructor
  · intro cancelled
    obtain ⟨k, attains⟩ := e.attains_run memory cancelled
    refine ⟨?_, (unharmed attains).skipped⟩
    intro message failed
    have ended := (unharmed attains).unfailed message
    cases outcome : (e.run memory cancelled).outcome with
    | none => simp [Run.report, Run.result, outcome] at failed
    | some o =>
      simp only [Run.report, Run.result, outcome, Option.getD_some] at failed
      exact ended (by rw [outcome, failed])
  · intro k r attains
    refine ⟨(unharmed attains).unfailed, (unharmed attains).skipped, ?_⟩
    intro p hp
    have places := (unharmed attains).visited p hp
    refine ⟨?_, fun i v known => places.owns.operation known,
      fun slot i captured => places.owns.capture captured⟩
    intro n
    have faultless := faultless_moves closed builtin places (n := n)
    exact ⟨fun skips => faultless _ skips, fun message fails => faultless _ fails⟩

/-- A parameter is captured and tested for null. If it is null, a call follows, which may throw. -/
def coalescing : Outline where
  id := ⟨0⟩
  name := "coalescing"
  blocks := #[⟨⟨0⟩, [⟨⟨0⟩, 1⟩], .branch ⟨⟨0⟩, 3⟩ ⟨1⟩ ⟨2⟩, none⟩,
    ⟨⟨1⟩, [⟨⟨0⟩, 4⟩], .goTo ⟨2⟩, some ⟨2⟩⟩, ⟨⟨2⟩, [], .leave none, none⟩]
  operations := #[⟨⟨⟨0⟩, 0⟩, .paramRef ⟨0⟩, none⟩, ⟨⟨⟨0⟩, 1⟩, .capture ⟨0⟩ ⟨⟨0⟩, 0⟩, none⟩,
    ⟨⟨⟨0⟩, 2⟩, .captureRef ⟨0⟩, none⟩, ⟨⟨⟨0⟩, 3⟩, .isPattern ⟨⟨0⟩, 2⟩ .null, none⟩,
    ⟨⟨⟨0⟩, 4⟩, .call none "fallback" [], none⟩]
  closures := []

def coalescingExploration : Exploration Unit where
  routine :=
    { id := ⟨0⟩
      name := "coalescing"
      blocks := coalescing.blocks
      operations := coalescing.operations
      closures := Table.empty
      orders := #[#[⟨⟨0⟩, 0⟩, ⟨⟨0⟩, 1⟩, ⟨⟨0⟩, 2⟩, ⟨⟨0⟩, 3⟩], #[⟨⟨0⟩, 4⟩], #[]]
      written := [] }
  symbols := ⟨fun _ => none⟩
  semantics := .builtin
  checks := []
  config := default

theorem run_faultless_coalescing :
    (∀ message, ((coalescingExploration.run () false).report
      coalescingExploration.routine).outcome ≠ .failed message) ∧
    ((coalescingExploration.run () false).report coalescingExploration.routine).stats.skipped = 0 ∧
    (∀ p ∈ (coalescingExploration.run () false).visited, ∀ slot i, p.state.capture? slot = some i →
      ∃ q, coalescingExploration.routine.operation? i = some q) ∧
    (coalescingExploration.run () false).result = .completed ∧
    (coalescingExploration.run () false).visited.size = 9 := by
  have accepted : Routine.ofOutline coalescing = .ok coalescingExploration.routine := by rfl
  obtain ⟨reported, attained⟩ := run_faultless accepted rfl ()
  obtain ⟨k, attains⟩ := coalescingExploration.attains_run () false
  obtain ⟨_, _, published⟩ := attained k _ attains
  exact ⟨(reported false).1, (reported false).2, fun p hp => (published p hp).2.2,
    by decide +kernel, by decide +kernel⟩

end Exploration

end SymbolicExecution
