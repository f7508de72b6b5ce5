import SymbolicExecution.Proofs.Branch
import SymbolicExecution.Proofs.Fact.Order
import SymbolicExecution.Proofs.Footprint.Evaluation

/-!
# The sides of a branch

A state refines another one if it differs in its facts only and says all that the other one says.
Whatever is learned refines. So the sides of a condition that is not known refine the state that
they come from, and a side that learns about operands refines the one that does not.
-/

namespace SymbolicExecution

namespace Facts

variable {f g h : Facts} {a : Fact} {b : Bool}

/-- All that `f` says is said by `g`. -/
structure Refines (g f : Facts) : Prop where
  truth {b : Bool} : f.truth = some b → g.truth = some b
  nullness {n : Nullness} : f.nullness = some n → g.nullness = some n
  interval {r : Interval} : f.interval = some r →
    ∃ t, g.interval = some t ∧ ∀ k, t.Spans k → r.Spans k

theorem Refines.refl (f : Facts) : f.Refines f :=
  ⟨id, id, fun known => ⟨_, known, fun _ => id⟩⟩

theorem Refines.trans (second : h.Refines g) (first : g.Refines f) : h.Refines f := by
  refine ⟨fun known => second.truth (first.truth known),
    fun known => second.nullness (first.nullness known), ?_⟩
  intro r known
  obtain ⟨t, narrowed, inside⟩ := first.interval known
  obtain ⟨u, narrowed', inside'⟩ := second.interval narrowed
  exact ⟨u, narrowed', fun k spans => inside k (inside' k spans)⟩

theorem refines_of_learn (learned : f.learn? a = some g) : g.Refines f := by
  cases a with
  | truth b =>
    obtain ⟨allowed, ⟨⟩⟩ := Option.ite_none_left_eq_some.mp learned
    refine ⟨?_, id, fun known => ⟨_, known, fun _ => id⟩⟩
    intro c known
    have agrees : f.truth ≠ some (!b) := fun other => allowed (Or.inl other)
    cases b <;> cases c <;> simp_all
  | nullness n =>
    obtain ⟨allowed, ⟨⟩⟩ := Option.ite_none_left_eq_some.mp learned
    refine ⟨id, ?_, fun known => ⟨_, known, fun _ => id⟩⟩
    intro m known
    cases m <;> cases n <;> simp_all [nullness?, Nullness.opposite]
  | within r =>
    obtain ⟨present, _⟩ := Option.ite_none_left_eq_some.mp learned
    rw [learn?_within_of_present present] at learned
    obtain ⟨t, met, rfl⟩ := Option.map_eq_some_iff.mp learned
    refine ⟨id, id, ?_⟩
    intro s known
    rw [known] at met
    exact ⟨t, rfl, fun k spans => ((Interval.spans_of_meet? met).mp spans).1⟩

/-- The truth value of what is not null can be learned as long as it is not known. -/
theorem learn?_truth_of_unknown (unknown : f.truth = none) : f.learn? (.truth b) =
    if f.nullness? = some .null then none else some { f with truth := some b } := by
  simp only [learn?, unknown, nullness?_eq_null_iff, reduceCtorEq, false_or]

end Facts

/-- Nothing may be touched. -/
def Footprint.nothing : Footprint :=
  ⟨fun _ => False, fun _ => False, fun _ _ => False, fun _ => False⟩

namespace State

variable {s t u : State} {v : Value} {a : Fact}

/-- The states differ in their facts only, and all that `s` says is said by `t`. -/
structure Refines (t s : State) : Prop where
  same : s.SameButFacts t
  facts (v : Value) : (t.factsOf v).Refines (s.factsOf v)

theorem Refines.refl (s : State) : s.Refines s := ⟨.refl s, fun _ => .refl _⟩

theorem Refines.trans (second : u.Refines t) (first : t.Refines s) : u.Refines s :=
  ⟨first.same.trans second.same, fun v => (second.facts v).trans (first.facts v)⟩

theorem Refines.truth? (refines : t.Refines s) {b : Bool} (known : s.truth? v = some b) :
    t.truth? v = some b := (refines.facts v).truth known

theorem refines_of_learn (learned : s.learn? v a = some t) : t.Refines s := by
  refine ⟨sameButFacts_of_learn learned, ?_⟩
  rw [learn?_eq] at learned
  obtain ⟨g, narrowed, rfl⟩ := Option.map_eq_some_iff.mp learned
  intro w
  by_cases here : w = v
  · rw [here, factsOf_know_self]
    exact Facts.refines_of_learn narrowed
  · rw [factsOf_know s g here]
    exact .refl _

/-- Where nothing is touched, all that happens is learning. -/
theorem Becomes.refines (becomes : s.Becomes .nothing t) : t.Refines s := by
  induction becomes with
  | refl => exact .refl s
  | @tail t u _ touches ih =>
    refine Refines.trans ?_ ih
    cases touches with
    | learn learned => exact refines_of_learn learned
    | give allowed | fill allowed | capture allowed => exact allowed.elim
    | @bind symbols allowed =>
      have same : symbols = t.symbols :=
        Table.ext_get? fun x => (allowed x).resolve_left id
      rw [same]
      exact .refl t

theorem truth?_of_learn {b : Bool} (learned : s.learn? v (.truth b) = some t) :
    t.truth? v = some b := by
  rw [learn?_eq] at learned
  obtain ⟨g, narrowed, rfl⟩ := Option.map_eq_some_iff.mp learned
  rw [truth?, factsOf_know_self]
  obtain ⟨_, ⟨⟩⟩ := Option.ite_none_left_eq_some.mp narrowed
  rfl

/-- The value that an operation has or, where it has none, the next new one. -/
def valueAt (s : State) (i : OpId) (n : Numbering) : Value := (s.operation? i).getD ⟨n.created⟩

/-- The state in which the operation has this value. -/
def evaluated (s : State) (i : OpId) (n : Numbering) : State :=
  match s.operation? i with
  | some _ => s
  | none => { s with operations := s.operations.insert i ⟨n.created⟩ }

@[simp] theorem factsOf_evaluated (s : State) (i : OpId) (n : Numbering) (v : Value) :
    (s.evaluated i n).factsOf v = s.factsOf v := by
  simp only [evaluated]
  split <;> rfl

theorem exists_operand_eq {i : OpId} (own : i.routine = s.routine) (n : Numbering) :
    ∃ m, operand s i n = (.result (s.evaluated i n, s.valueAt i n), m) := by
  simp only [evaluated, valueAt]
  cases known : s.operation? i with
  | some v => exact ⟨_, operand_of_known known⟩
  | none => exact ⟨_, operand_of_unknown known own⟩

/-- Of a new value nothing is known. -/
theorem Below.truth?_valueAt {n : Numbering} (below : s.Below n.created) {i : OpId}
    (undecided : ∀ v, s.operation? i = some v → s.truth? v = none) :
    s.truth? (s.valueAt i n) = none := by
  simp only [valueAt]
  cases known : s.operation? i with
  | some v => exact undecided v known
  | none =>
    rw [Option.getD_none, truth?, below.factsOf (Nat.le_refl _)]
    rfl

/-- What a split of the state may answer where the condition has the value `v`: at most one side for
each outcome, true before false, which says that the value came out so, and apart from that what the
state says, if not more. -/
structure Sides (s : State) (v : Value) (sides : List (Bool × State)) : Prop where
  order : (sides.map Prod.fst).Sublist [true, false]
  refines {b : Bool} {t : State} : (b, t) ∈ sides → t.Refines s
  outcome {b : Bool} {t : State} : (b, t) ∈ sides → t.truth? v = some b

end State

namespace Routine

variable {r : Routine} {s t : State} {i : OpId} {v : Value} {learning b : Bool}

theorem side?_of_not_learning : r.side? false s i v b = s.learn? v (.truth b) := by
  simp [side?]

/-- A side that learns about operands learns the outcome first. -/
theorem exists_refined_side (taken : r.side? learning s i v b = some t) :
    ∃ u, s.learn? v (.truth b) = some u ∧ t.Refines u := by
  obtain ⟨u, learned, taken⟩ := Option.bind_eq_some_iff.mp taken
  refine ⟨u, learned, ?_⟩
  split at taken
  · exact ((State.Becomes.refl u).learnFrom taken).refines
  · cases taken
    exact .refl _

theorem sublist_sides {side? : Bool → Option State} :
    (([true, false].filterMap fun b => (side? b).map fun s => (b, s)).map Prod.fst).Sublist
      [true, false] := by
  cases yes : side? true <;> cases no : side? false <;> simp [yes, no]

theorem sides_of_open : s.Sides v ([true, false].filterMap fun b =>
    (r.side? learning s i v b).map fun s => (b, s)) := by
  refine ⟨sublist_sides, ?_, ?_⟩
  · intro b t mem
    obtain ⟨u, learned, refines⟩ := exists_refined_side (mem_sides.mp mem)
    exact refines.trans (State.refines_of_learn learned)
  · intro b t mem
    obtain ⟨u, learned, refines⟩ := exists_refined_side (mem_sides.mp mem)
    exact refines.truth? (State.truth?_of_learn learned)

/-- Without learning about operands, a side is lost only where the condition is null. -/
theorem outcomes_of_open (undecided : s.truth? v = none) :
    ([true, false].filterMap fun b => (r.side? false s i v b).map fun s => (b, s)).map Prod.fst =
      if s.nullness? v = some .null then [] else [true, false] := by
  have learned (b : Bool) : s.learn? v (.truth b) = if s.nullness? v = some .null then none
      else some (s.know v { s.factsOf v with truth := some b }) := by
    rw [State.learn?_eq, Facts.learn?_truth_of_unknown undecided, State.nullness?]
    split <;> rfl
  simp only [side?_of_not_learning, learned]
  split <;> rfl

/-- A condition with a known truth value takes its side, and nothing changes. Any other one has at
most one side for each outcome, true before false. A side refines the state, in which the condition
has got a new value if it had none, and says that the condition came out so. Without learning about
operands there are both sides, or none if the condition is null. With it there is no side that is
not there without it, and each of them refines that one. Looking for what to learn comes to an end
if the condition is a tree. -/
theorem split_shape (r : Routine) {s : State} {condition : OpId} {n : Numbering}
    (own : condition.routine = s.routine) (below : s.Below n.created) :
    (∀ v b, s.operation? condition = some v → s.truth? v = some b →
      ∀ learning, r.split learning s condition n = (.result [(b, s)], n)) ∧
    ((∀ v, s.operation? condition = some v → s.truth? v = none) →
      ∃ off on m, r.split false s condition n = (.result off, m) ∧
        r.split true s condition n = (.result on, m) ∧
        (s.evaluated condition n).Sides (s.valueAt condition n) off ∧
        (s.evaluated condition n).Sides (s.valueAt condition n) on ∧
        off.map Prod.fst =
          (if s.nullness? (s.valueAt condition n) = some .null then [] else [true, false]) ∧
        ∀ b t, (b, t) ∈ on → ∃ u, (b, u) ∈ off ∧ t.Refines u) ∧
    (r.IsTree condition → r.Fathoms condition) := by
  refine ⟨?_, ?_, IsTree.fathoms⟩
  · intro v b known decided learning
    exact split_of_decided (operand_of_known known) decided
  · intro undecided
    obtain ⟨m, evaluated⟩ := State.exists_operand_eq own n
    have undecided : (s.evaluated condition n).truth? (s.valueAt condition n) = none := by
      rw [State.truth?, State.factsOf_evaluated]
      exact below.truth?_valueAt undecided
    refine ⟨_, _, m, split_of_open evaluated undecided, split_of_open evaluated undecided,
      sides_of_open, sides_of_open, ?_, ?_⟩
    · rw [outcomes_of_open undecided, State.nullness?, State.factsOf_evaluated, State.nullness?]
    · intro b t mem
      obtain ⟨u, learned, refines⟩ := exists_refined_side (mem_sides.mp mem)
      exact ⟨u, mem_sides.mpr (side?_of_not_learning.trans learned), refines⟩

/-- The parameter is known not to be null. Only with learning about operands there is no side on
which it is. -/
theorem split_shape_nullTest : nullTest.Fathoms ⟨⟨0⟩, 1⟩ ∧ ∃ s off on,
    { State.entry ⟨0⟩ with operations := Table.empty.insert ⟨⟨0⟩, 0⟩ ⟨0⟩ }.learn? ⟨0⟩
      (.nullness .notNull) = some s ∧
    (nullTest.split false s ⟨⟨0⟩, 1⟩ ⟨1, []⟩).1 = .result off ∧
    (nullTest.split true s ⟨⟨0⟩, 1⟩ ⟨1, []⟩).1 = .result on ∧
    off.map Prod.fst = [true, false] ∧ on.map Prod.fst = [false] ∧
    ∀ b t, (b, t) ∈ on → ∃ u, (b, u) ∈ off ∧ t.Refines u := by
  have entered : State.Below { State.entry ⟨0⟩ with
      operations := Table.empty.insert ⟨⟨0⟩, 0⟩ ⟨0⟩ } 1 :=
    (State.below_entry ⟨0⟩ 1).setOperation (i := ⟨⟨0⟩, 0⟩) (v := ⟨0⟩) Nat.one_pos rfl
  obtain ⟨s, learned⟩ : ∃ s, { State.entry ⟨0⟩ with
      operations := Table.empty.insert ⟨⟨0⟩, 0⟩ ⟨0⟩ }.learn? ⟨0⟩ (.nullness .notNull) = some s :=
    ⟨_, rfl⟩
  have below : s.Below 1 := entered.learn Nat.one_pos learned
  have own : (⟨⟨0⟩, 1⟩ : OpId).routine = s.routine := by
    rw [(State.sameButFacts_of_learn learned).routine]
    rfl
  have unevaluated : s.operation? ⟨⟨0⟩, 1⟩ = none := by
    rw [(State.sameButFacts_of_learn learned).operation?]
    rfl
  have possible : s.nullness? (s.valueAt ⟨⟨0⟩, 1⟩ ⟨1, []⟩) ≠ some .null := by
    cases learned
    nofun
  obtain ⟨_, sides, fathoms⟩ := split_shape nullTest (n := ⟨1, []⟩) own below
  obtain ⟨off, on, m, splitOff, splitOn, _, _, outcomes, refined⟩ := sides fun v known => by
    cases unevaluated.symm.trans known
  rw [if_neg possible] at outcomes
  have pruned : on.map Prod.fst = [false] := by
    obtain ⟨kept, computed, only⟩ : ∃ kept,
        nullTest.split true s ⟨⟨0⟩, 1⟩ ⟨1, []⟩ = (.result kept, ⟨2, []⟩) ∧
          kept.map Prod.fst = [false] := by
      cases learned
      exact ⟨_, rfl, rfl⟩
    cases computed.symm.trans splitOn
    exact only
  exact ⟨fathoms isTree_nullTest, s, off, on, learned, by rw [splitOff], by rw [splitOn], outcomes,
    pruned, refined⟩

end Routine

end SymbolicExecution
