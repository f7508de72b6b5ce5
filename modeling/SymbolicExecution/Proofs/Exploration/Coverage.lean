import SymbolicExecution.Proofs.Exploration.Feasible
import SymbolicExecution.Proofs.Machine.Settled
import SymbolicExecution.Proofs.Model.Rule

/-!
# Completed explorations cover every run

Follow a run of the machine. The pair that describes its store was expanded in some turn, when fewer
values were numbered than at the end. A model of the numbering of that turn is taken along the rule,
and what it leads to was published; then the model is extended to all that was numbered afterwards.
So each point that the run comes by was published with a state that describes the store there.
-/

namespace SymbolicExecution

theorem Model.Describes.restrict {types : TypeTest} {M : Model types} {r : Routine}
    {symbols : Symbols} {m : Store} {s : State} (describes : M.Describes r symbols m s)
    {n : Numbering} (made : Numbering.start.Grows Numbering.InScope n)
    (grows : n.Grows Numbering.InScope M.numbering)
    (below : s.Below n.created) : (M.restrict made grows).Describes r symbols m s :=
  ⟨below, describes.holds, describes.routine, describes.operation, describes.symbol,
    describes.unbound⟩

namespace Exploration

variable {σ : Type} (e : Exploration σ) (memory : σ) (cancelled : Bool) (types : TypeTest)

/-- A pair that was published at the point describes the store. -/
def Covers (c : Point × Store) : Prop :=
  ∃ (s : State) (M : Model types), ⟨c.1, s⟩ ∈ (e.run memory cancelled).visited ∧
    M.numbering = (e.run memory cancelled).numbering ∧ M.Describes e.routine e.symbols c.2 s

/-- The turn number `k` expands a pair that describes the store, and is not the last one. -/
structure Meets (k : Nat) (p : Point) (m : Store) (s : State) (M : Model types) : Prop where
  turn : e.next? (e.after memory cancelled k) = some ⟨p, s⟩
  more : k + 1 ≤ e.config.maxSteps + 1
  running : (e.after memory cancelled (k + 1)).outcome = none
  numbering : M.numbering = (e.after memory cancelled k).numbering
  describes : M.Describes e.routine e.symbols m s

variable {e memory cancelled types} {p q : Point} {m m' : Store} {s t : State}

theorem Covers.meets (closed : e.routine.Closed) (builtin : e.semantics = .builtin)
    (completed : (e.run memory cancelled).outcome = some .completed)
    (covers : e.Covers memory cancelled types (p, m)) :
    ∃ k s M, e.Meets memory cancelled types k p m s M := by
  obtain ⟨s, M, visited, final, describes⟩ := covers
  obtain ⟨k, turn, more, running⟩ := e.exists_turn_of_completed completed visited
  have orderly := orderly_after closed builtin memory cancelled k
  have grows := after_grows closed builtin memory cancelled (Nat.le_of_succ_le more)
  rw [← run_eq_after, ← final] at grows
  obtain ⟨_, _, rest, pending, _⟩ := e.next?_eq_some turn
  have waiting := orderly.pending ⟨p, s⟩ (pending ▸ List.mem_cons_self)
  exact ⟨k, s, M.restrict orderly.made grows, turn, more, running, rfl,
    describes.restrict orderly.made grows waiting.below⟩

/-- What the turn yields was published. -/
theorem Meets.covers (closed : e.routine.Closed) (builtin : e.semantics = .builtin) {k : Nat}
    {M N : Model types} (meets : e.Meets memory cancelled types k p m s M)
    (yields : e.Yields M.numbering ⟨p, s⟩ ⟨q, t⟩)
    (same : N.numbering = (e.after memory cancelled (k + 1)).numbering)
    (described : N.Describes e.routine e.symbols m' t) :
    e.Covers memory cancelled types (q, m') := by
  rw [meets.numbering] at yields
  have published := e.yields_published memory cancelled meets.turn meets.running yields
  have grows := after_grows closed builtin memory cancelled meets.more
  rw [← same, ← run_eq_after] at grows
  obtain ⟨K, le, final⟩ := N.extend grows
  exact ⟨t, K, e.mem_run_of_after memory cancelled meets.more published, final, described.mono le⟩

theorem Meets.after_succ {k : Nat} {M : Model types}
    (meets : e.Meets memory cancelled types k p m s M) :
    ∃ r : Run σ, r.numbering = M.numbering ∧
      e.after memory cancelled (k + 1) = e.expand ⟨p, s⟩ r := by
  obtain ⟨running, _, rest, _, taken⟩ := e.next?_eq_some meets.turn
  refine ⟨step rest (e.after memory cancelled k), meets.numbering.symm, ?_⟩
  rw [e.after_succ, if_pos running, taken]

theorem Covers.execute (closed : e.routine.Closed) (tree : e.routine.Treelike)
    (plain : e.routine.closures = Table.empty) (builtin : e.semantics = .builtin)
    (completed : (e.run memory cancelled).outcome = some .completed) {i : OpId} {o : Operation}
    (here : (e.routine.order p.block)[p.index]? = some i)
    (found : e.routine.operation? i = some o)
    (executes : e.routine.Executes e.symbols types o m m')
    (covers : e.Covers memory cancelled types (p, m)) :
    e.Covers memory cancelled types (p.next, m') := by
  obtain ⟨k, s, M, meets⟩ := covers.meets closed builtin completed
  have operation : e.operationAt? p = some o := by simp [operationAt?, here, found]
  have label : o.id = i := tree.label found
  have evaluates : e.routine.Evaluates o := by
    refine ⟨tree, plain, ⟨p.block, p.index, ?_⟩, ?_⟩
    · rw [label]
      exact here
    · rw [label]
      exact found
  obtain ⟨N, t, le, answer, described⟩ :=
    Model.follows_execution meets.describes evaluates executes
  rw [← builtin] at answer
  have successors : e.successors? ⟨p, s⟩ o M.numbering = some [t] := by
    simp [successors?, answer]
  apply meets.covers closed builtin (.next operation successors (List.mem_singleton_self t)) ?_
    described
  obtain ⟨r, same, after⟩ := meets.after_succ
  have expanded : e.expand ⟨p, s⟩ r = e.evaluate ⟨p, s⟩ o r := by
    simp only [Exploration.expand, here, found]
  rw [← same] at answer
  rw [after, expanded, numbering_evaluate, answer]

theorem Meets.expand_exit {k : Nat} {M : Model types}
    (meets : e.Meets memory cancelled types k p m s M) {b : Block}
    (left : e.exitAt? p = some b) :
    ∃ r : Run σ, r.numbering = M.numbering ∧
      e.after memory cancelled (k + 1) = e.leave ⟨p, s⟩ r := by
  obtain ⟨r, same, after⟩ := meets.after_succ
  refine ⟨r, same, ?_⟩
  have atEnd := (e.exitAt?_eq_some_iff.mp left).1
  have outside : (e.routine.order p.block)[p.index]? = none :=
    Array.getElem?_eq_none (Nat.le_of_eq atEnd.symm)
  rw [after]
  simp only [Exploration.expand, outside]

theorem describes_crossing {M : Model types} (describes : M.Describes e.routine e.symbols m s) :
    M.Describes e.routine e.symbols m (e.crossing s) := by
  simp only [crossing]
  split
  · exact describes.forgetOperations
  · exact describes

theorem Covers.goTo (closed : e.routine.Closed) (builtin : e.semantics = .builtin)
    (completed : (e.run memory cancelled).outcome = some .completed) {b : Block}
    (left : e.exitAt? p = some b) {target : BlockId} (exit : b.exit = .goTo target)
    (covers : e.Covers memory cancelled types (p, m)) :
    e.Covers memory cancelled types (Point.entry target, m) := by
  obtain ⟨k, s, M, meets⟩ := covers.meets closed builtin completed
  apply meets.covers closed builtin (.goTo left exit) ?_ (describes_crossing meets.describes)
  obtain ⟨r, same, after⟩ := meets.expand_exit left
  rw [after, leave, (e.exitAt?_eq_some_iff.mp left).2]
  simp only [exit]
  rw [numbering_jump, same]

/-- The side that the machine takes is kept. -/
theorem split_of_describes {r : Routine} (tree : r.Treelike) {symbols : Symbols} {M : Model types}
    (describes : M.Describes r symbols m s) (settled : r.Settled types p m) (learning : Bool)
    {condition : OpId} {outcome : Bool} (passed : r.Passed p condition)
    (came : m.values condition = some (.bool outcome)) :
    ∃ (N : Model types) (sides : List (Bool × State)) (t : State), M ≤ N ∧
      r.split learning s condition M.numbering = (.result sides, N.numbering) ∧
      (outcome, t) ∈ sides ∧ N.Describes r symbols m t := by
  have own : condition.routine = r.id := by
    obtain ⟨⟨j, _, here⟩, _⟩ := passed
    obtain ⟨o, found⟩ := tree.known here
    exact (Routine.operation?_eq_some_iff.mp found).1
  obtain ⟨N, ⟨u, v⟩, le, evaluated, described, stands⟩ := describes.gives_operand came own
  have reads := settled.reads tree fun i w known => described.operation known
  have came' : Routine.data m condition = .bool outcome := by simp [Routine.data, came]
  obtain ⟨sides, t, split, mem, holds, same⟩ := Routine.split_of_operand learning evaluated reads
    described.holds passed came' stands.datum
  have scope := (r.split_scoped learning condition M.made describes.below).2 sides
  rw [split] at scope
  exact ⟨N, sides, t, le, split, mem, described.of_same same (scope rfl _ mem) holds⟩

theorem Covers.branch (closed : e.routine.Closed) (tree : e.routine.Treelike)
    (builtin : e.semantics = .builtin)
    (completed : (e.run memory cancelled).outcome = some .completed)
    (settled : e.routine.Settled types p m) {b : Block} (left : e.exitAt? p = some b)
    {condition : OpId} {whenTrue whenFalse : BlockId} {outcome : Bool}
    (exit : b.exit = .branch condition whenTrue whenFalse)
    (came : m.values condition = some (.bool outcome))
    (covers : e.Covers memory cancelled types (p, m)) :
    e.Covers memory cancelled types (Point.entry (if outcome then whenTrue else whenFalse), m) := by
  obtain ⟨k, s, M, meets⟩ := covers.meets closed builtin completed
  obtain ⟨done, found⟩ := e.exitAt?_eq_some_iff.mp left
  have passed : e.routine.Passed p condition := by
    apply tree.passed_root done found
    simp [Block.evaluated, exit, Exit.value?]
  obtain ⟨N, sides, t, le, split, mem, described⟩ := split_of_describes tree
    meets.describes settled e.config.learnAtBranches passed came
  have answered := congrArg Prod.fst split
  apply meets.covers closed builtin (.branch left exit answered mem) ?_
    (describes_crossing described)
  obtain ⟨r, same, after⟩ := meets.expand_exit left
  rw [← same] at split
  rw [after, leave, found]
  simp only [exit]
  rw [numbering_fork, split]

/-- Every point that a run of the machine comes by was published with a state that describes the
store there. -/
theorem covers_of_reaches (closed : e.routine.Closed) (tree : e.routine.Treelike)
    (plain : e.routine.closures = Table.empty) (builtin : e.semantics = .builtin)
    (completed : (e.run memory cancelled).outcome = some .completed) {c : Point × Store}
    (reaches : e.routine.Reaches e.symbols types c) : e.Covers memory cancelled types c := by
  induction reaches with
  | start admitted =>
    have entry := Array.mem_of_getElem? (e.first_of_completed completed)
    have grows := (orderly_after closed builtin memory cancelled (e.config.maxSteps + 1)).made
    obtain ⟨M, _, final⟩ := (Model.start types).extend grows
    exact ⟨_, M, entry, final, Model.describes_entry e.routine admitted⟩
  | move reaches moves ih =>
    cases moves with
    | execute here found executes =>
      exact ih.execute closed tree plain builtin completed here found executes
    | goTo done found exit =>
      exact ih.goTo closed builtin completed (e.exitAt?_eq_some_iff.mpr ⟨done, found⟩) exit
    | branch done found exit came =>
      exact ih.branch closed tree builtin completed (reaches.settled tree)
        (e.exitAt?_eq_some_iff.mpr ⟨done, found⟩) exit came

/-- A completed exploration covers every run. Take a routine without closures that evaluates every
operation once, and any values of the symbols that their types admit. Wherever the machine comes by
from there, a state was published at the point, and its facts hold of data for its values that agree
with what the machine has computed for the operations and symbols that the state knows. -/
theorem run_covers {o : Outline} (accepted : Routine.ofOutline o = .ok e.routine)
    (once : e.routine.EvaluatesOnce) (plain : o.closures = []) (builtin : e.semantics = .builtin)
    (completed : (e.run memory cancelled).result = .completed)
    (reaches : e.routine.Reaches e.symbols types (p, m)) :
    ∃ (s : State) (ρ : Valuation), ⟨p, s⟩ ∈ (e.run memory cancelled).visited ∧ s.Holds ρ ∧
      (∀ i v, s.operation? i = some v → m.values i = some (ρ v)) ∧
      ∀ x v, s.symbol? x = some v → m.env x = ρ v := by
  have tree := Outline.treelike accepted once
  have unshared : e.routine.closures = Table.empty := by
    obtain ⟨_, _, _, _, _, _, closures, _⟩ := Outline.accepted_cases accepted
    rw [closures, plain]
    rfl
  obtain ⟨s, M, visited, _, describes⟩ :=
    covers_of_reaches (Outline.closed accepted) tree unshared builtin
      (e.outcome_of_result completed) reaches
  exact ⟨s, M.valuation, visited, describes.holds, fun i v known => describes.operation known,
    fun x v bound => (describes.symbol bound).symm⟩

/-- A parameter is tested for null, and a local variable is set if it is null. -/
def defaulting : Outline where
  id := ⟨0⟩
  name := "defaulting"
  blocks := #[⟨⟨0⟩, [], .branch ⟨⟨0⟩, 1⟩ ⟨1⟩ ⟨2⟩, none⟩, ⟨⟨1⟩, [⟨⟨0⟩, 4⟩], .goTo ⟨2⟩, none⟩,
    ⟨⟨2⟩, [], .leave none, none⟩]
  operations := #[⟨⟨⟨0⟩, 0⟩, .paramRef ⟨0⟩, none⟩, ⟨⟨⟨0⟩, 1⟩, .isPattern ⟨⟨0⟩, 0⟩ .null, none⟩,
    ⟨⟨⟨0⟩, 2⟩, .localRef ⟨1⟩, none⟩, ⟨⟨⟨0⟩, 3⟩, .literal (.bool true), none⟩,
    ⟨⟨⟨0⟩, 4⟩, .assign ⟨⟨0⟩, 2⟩ ⟨⟨0⟩, 3⟩, none⟩]
  closures := []

def defaultingExploration : Exploration Unit where
  routine :=
    { id := ⟨0⟩
      name := "defaulting"
      blocks := defaulting.blocks
      operations := defaulting.operations
      closures := Table.empty
      orders := #[#[⟨⟨0⟩, 0⟩, ⟨⟨0⟩, 1⟩], #[⟨⟨0⟩, 2⟩, ⟨⟨0⟩, 3⟩, ⟨⟨0⟩, 4⟩], #[]]
      written := [⟨⟨0⟩, 2⟩] }
  symbols := ⟨fun _ => none⟩
  semantics := .builtin
  checks := []
  config := default

/-- The store after a run on a parameter that is null. -/
def defaulted : Store :=
  ((((((⟨fun _ => .null, fun _ => none⟩ : Store).give ⟨⟨0⟩, 0⟩ .null).give ⟨⟨0⟩, 1⟩
    (.bool true)).give ⟨⟨0⟩, 3⟩ (.bool true)).give ⟨⟨0⟩, 2⟩ (.bool true)).give ⟨⟨0⟩, 4⟩
    (.bool true)).write ⟨1⟩ (.bool true)

theorem reaches_defaulted : defaultingExploration.routine.Reaches defaultingExploration.symbols
    ⟨fun _ _ => false, fun _ => rfl⟩ (⟨⟨2⟩, 0⟩, defaulted) := by
  have start : defaultingExploration.routine.Reaches defaultingExploration.symbols
      ⟨fun _ _ => false, fun _ => rfl⟩ (⟨⟨0⟩, 0⟩, ⟨fun _ => .null, fun _ => none⟩) := by
    apply Routine.Reaches.start
    intro x excluded
    cases excluded
  have parameter := start.move (.execute rfl rfl (.read (Or.inr rfl) rfl))
  have test := parameter.move (.execute rfl rfl (.test rfl rfl))
  have side := test.move (.branch rfl rfl rfl (show _ = some (Datum.bool true) from rfl))
  have target := side.move (.execute rfl rfl (.location rfl rfl))
  have value := target.move (.execute rfl rfl (.literal rfl))
  have assigned := value.move (.execute rfl rfl (.assign rfl (.symbol rfl (Or.inl rfl)) rfl))
  exact assigned.move (.goTo rfl rfl rfl)

theorem run_covers_defaulting : ∃ (s : State) (ρ : Valuation),
    ⟨⟨⟨2⟩, 0⟩, s⟩ ∈ (defaultingExploration.run () false).visited ∧ s.Holds ρ ∧
      (∀ i v, s.operation? i = some v → defaulted.values i = some (ρ v)) ∧
      ∀ x v, s.symbol? x = some v → defaulted.env x = ρ v := by
  have accepted : Routine.ofOutline defaulting = .ok defaultingExploration.routine := by rfl
  have once : defaultingExploration.routine.EvaluatesOnce := by decide +kernel
  have completed : (defaultingExploration.run () false).result = .completed := by decide +kernel
  exact run_covers accepted once rfl rfl completed reaches_defaulted

end Exploration

end SymbolicExecution
