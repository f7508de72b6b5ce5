import SymbolicExecution.Check.NullDereference
import SymbolicExecution.Proofs.Footprint.Rule

/-!
# Receivers

A receiver is given a value if it has none and is dereferenced before the rule goes on. So it is
null afterwards only if it was null before, and the rule leaves a state whatever it is.
-/

namespace SymbolicExecution

namespace Eval

variable {α β : Type}

/-- The evaluation does not find that the path is infeasible. -/
def Steady (x : Eval α) : Prop := ∀ n, (x n).1 ≠ .infeasible

theorem steady_pure (a : α) : (pure a : Eval α).Steady :=
  fun _ infeasible => nomatch infeasible

theorem steady_fresh : Eval.fresh.Steady := fun _ infeasible => nomatch infeasible

theorem steady_owned (x : Except Foreign α) : (Eval.owned x).Steady := by
  cases x with
  | ok a => exact steady_pure a
  | error f => exact fun _ infeasible => nomatch infeasible

theorem Steady.bind {x : Eval α} {f : α → Eval β} (first : x.Steady) (next : ∀ a, (f a).Steady) :
    (x >>= f).Steady := by
  intro n
  cases start : x n with
  | mk verdict m =>
    cases verdict with
    | result a =>
      rw [bind_of_result start]
      exact next a m
    | infeasible => exact absurd (congrArg Prod.fst start) (first n)
    | refused r =>
      rw [bind_of_refused start]
      exact fun infeasible => nomatch infeasible

end Eval

namespace State

variable {s t : State} {i : OpId} {v : Value} {n m : Numbering}

theorem sameButFacts_dereference (s : State) (v : Value) : s.SameButFacts (s.dereference v) := by
  cases learned : s.learn? v (.nullness .notNull) with
  | none =>
    rw [dereference, learned]
    exact .refl s
  | some t =>
    rw [dereference, learned]
    exact sameButFacts_of_learn learned

theorem operation?_dereference (s : State) (v : Value) (i : OpId) :
    (s.dereference v).operation? i = s.operation? i :=
  (s.sameButFacts_dereference v).operation? i

theorem factsOf_of_learn {f : Fact} {g : Facts} (narrowed : (s.factsOf v).learn? f = some g)
    (learned : s.learn? v f = some t) : t.factsOf v = g := by
  simp only [learn?, narrowed, Option.map_some, Option.some.injEq] at learned
  split at learned
  · rename_i already
    rw [← learned, already]
  · rw [← learned, factsOf, Table.get?_insert, if_pos rfl]
    rfl

/-- What may be something else than null is not null once it is dereferenced. -/
theorem nullness?_dereference (other : s.nullness? v ≠ some .null) :
    (s.dereference v).nullness? v = some .notNull := by
  have narrowed : (s.factsOf v).learn? (.nullness .notNull) =
      some { s.factsOf v with nullness := some .notNull } := if_neg other
  cases learned : s.learn? v (.nullness .notNull) with
  | none => simp [learn?, narrowed] at learned
  | some t =>
    rw [dereference, learned, Option.getD_some, State.nullness?, factsOf_of_learn narrowed learned]
    rfl

theorem Below.dereference {k : Nat} (below : s.Below k) (inside : v.index < k) :
    (s.dereference v).Below k := by
  cases learned : s.learn? v (.nullness .notNull) with
  | none =>
    rw [State.dereference, learned]
    exact below
  | some t =>
    rw [State.dereference, learned]
    exact below.learn inside learned

/-- A value is dereferenced once. -/
theorem dereference_dereference (s : State) (v : Value) :
    (s.dereference v).dereference v = s.dereference v := by
  cases learned : s.learn? v (.nullness .notNull) with
  | none => simp [dereference, learned]
  | some t =>
    have same : s.dereference v = t := by simp [dereference, learned]
    have learned' : t.learn? v (.nullness .notNull) = some t := by
      obtain ⟨g, narrowed, _⟩ := Option.map_eq_some_iff.mp learned
      have again : g.learn? (.nullness .notNull) = some g := by
        obtain ⟨_, ⟨⟩⟩ := Option.ite_none_left_eq_some.mp narrowed
        rfl
      simp only [learn?, factsOf_of_learn narrowed learned, again, Option.map_some, if_true]
    rw [same, dereference, learned']
    rfl

/-- An operand is fetched: it has a value afterwards, and nothing else is new. -/
structure Fetches (s : State) (i : OpId) (n : Numbering) (t : State) (v : Value) (m : Numbering) :
    Prop where
  evaluated : operand s i n = (.result (t, v), m)
  known : t.operation? i = some v
  kept {j : OpId} {w : Value} : s.operation? j = some w → t.operation? j = some w
  routine : t.routine = s.routine
  facts : t.facts = s.facts
  nullness : t.nullness? v = (s.operation? i).bind s.nullness?
  below : t.Below m.created
  inside : v.index < m.created

theorem exists_fetches (own : i.routine = s.routine) (below : s.Below n.created) :
    ∃ t v m, s.Fetches i n t v m := by
  cases known : s.operation? i with
  | some v =>
    exact ⟨s, v, n, operand_of_known known, known, id, rfl, rfl, by rw [known]; rfl, below,
      below.operation known⟩
  | none =>
    have set : s.setOperation i ⟨n.created⟩ =
        .ok { s with operations := s.operations.insert i ⟨n.created⟩ } := if_pos own
    refine ⟨_, _, _, operand_of_unknown known own, ?_, ?_, rfl, rfl, ?_, ?_, Nat.lt_succ_self _⟩
    · rw [operation?, Table.get?_insert, if_pos rfl]
    · intro j w known'
      rw [operation?, Table.get?_insert, if_neg]
      · exact known'
      · rintro rfl
        rw [known] at known'
        cases known'
    · rw [known, State.nullness?, factsOf]
      change ((s.facts.get? _).getD _).nullness? = none
      rw [below.facts_fresh]
      rfl
    · exact (below.mono (Nat.le_succ _)).setOperation (Nat.lt_succ_self _) set

end State

namespace Rule

open Eval

theorem steady_renewArguments (r : Routine) (l : List Argument) (s : State) :
    (renewArguments r l s).Steady := by
  induction l generalizing s with
  | nil => exact steady_pure s
  | cons a rest ih =>
    simp only [renewArguments]
    split
    · exact steady_fresh.bind fun v => (steady_owned _).bind fun t => ih t
    · exact ih s

theorem steady_invalidate (c : Situation) (s : State) (l : List Argument) :
    (invalidate c s l).Steady :=
  (steady_renewArguments c.routine _ s).bind fun _ => steady_pure _

theorem steady_operand (s : State) (i : OpId) : (operand s i).Steady := by
  simp only [operand]
  split
  · exact steady_pure _
  · exact steady_fresh.bind fun v => (steady_owned _).bind fun t => steady_pure _

/-- A value of which nothing is known may be other than null. -/
theorem steady_learn {s : State} {v : Value} (unknown : s.facts.get? v = none) :
    (Eval.feasible (s.learn? v (.nullness .notNull))).Steady := by
  have learned : ((s.factsOf v).learn? (.nullness .notNull)).isSome := by
    rw [State.factsOf, unknown]
    rfl
  obtain ⟨known, narrowed⟩ := Option.isSome_iff_exists.mp learned
  simp only [State.learn?, narrowed, Option.map_some]
  exact steady_pure _

/-- Nothing is known of a value that is new, so that the declared type does not contradict it. -/
theorem steady_learnDeclared {c : Situation} {s : State} {v : Value}
    (unknown : s.facts.get? v = none) (x : SymbolId) : (learnDeclared c s x v).Steady := by
  simp only [learnDeclared]
  split
  · exact steady_learn unknown
  · exact steady_pure s

/-- Giving the operation its value leaves the facts alone. -/
theorem steady_bind {c : Situation} {s : State} {v : Value} {g : State → Eval State}
    (next : ∀ t, t.facts = s.facts → (g t).Steady) : (do let t ← c.bind s v; g t).Steady := by
  simp only [Situation.bind]
  cases set : s.setOperation c.operation.id v with
  | ok t =>
    obtain ⟨_, same⟩ := State.setOperation_eq_ok_iff.mp set
    have facts : t.facts = s.facts := by rw [← same]
    exact next t facts
  | error f => exact fun _ infeasible => nomatch infeasible

/-- What is read for the first time is unknown. -/
theorem feasible_readStorage {c : Situation} {s : State} {n : Numbering}
    (below : s.Below n.created) (x : SymbolId) : (readStorage c s x n).1 ≠ .infeasible := by
  have unknown : s.facts.get? ⟨n.created⟩ = none := below.facts_fresh
  have first : Eval.fresh n = (.result ⟨n.created⟩, n.fresh.2) := rfl
  simp only [readStorage]
  cases s.storage? c.routine c.operation.id with
  | some tracked =>
    simp only [readSymbol]
    cases s.symbol? tracked with
    | some v => exact steady_owned _ n
    | none =>
      have rest := steady_bind (c := c) (v := ⟨n.created⟩) (g := fun t =>
        learnDeclared c (t.setSymbol tracked ⟨n.created⟩) tracked ⟨n.created⟩) fun t same =>
          steady_learnDeclared (s := t.setSymbol tracked ⟨n.created⟩) (same ▸ unknown) tracked
      exact rest n.fresh.2
  | none =>
    have rest := steady_bind (c := c) (v := ⟨n.created⟩) (g := fun t =>
      learnDeclared c t x ⟨n.created⟩) fun t same => steady_learnDeclared (same ▸ unknown) x
    exact rest n.fresh.2

section Receiver

variable {c : Situation} {i : OpId} {n m k : Numbering} {s t : State} {v w : Value}

/-- The situation in which the receiver was dereferenced before. -/
abbrev received (c : Situation) (s : State) (v : Value) : Situation :=
  { c with state := s.dereference v }

/-- A call goes on as if its receiver had been dereferenced before. -/
theorem call_eq {method : String} {l : List Argument} (fetches : c.state.Fetches i n t v m)
    (form : c.operation.form = .call (some i) method l) : call c n = call (received c t v) m := by
  have known : (t.dereference v).operation? i = some v :=
    (t.operation?_dereference v i).trans fetches.known
  simp only [call, form]
  rw [bind_of_result fetches.evaluated, bind_of_result (operand_of_known known)]
  dsimp only
  rw [State.dereference_dereference]
  rfl

theorem fieldRef_eq {x : SymbolId} (fetches : c.state.Fetches i n t v m)
    (form : c.operation.form = .fieldRef (some i) x) :
    fieldRef c n = fieldRef (received c t v) m := by
  have known : (t.dereference v).operation? i = some v :=
    (t.operation?_dereference v i).trans fetches.known
  simp only [fieldRef, form]
  rw [bind_of_result fetches.evaluated, bind_of_result (operand_of_known known)]
  dsimp only
  rw [State.dereference_dereference]
  rfl

/-- An array is dereferenced when its index has a value, too. -/
theorem element_eq {index : OpId} (fetches : c.state.Fetches i n s v m)
    (fetches' : s.Fetches index m t w k) (form : c.operation.form = .element i index) :
    element c n = element (received c t v) k := by
  have array : (t.dereference v).operation? i = some v :=
    (t.operation?_dereference v i).trans (fetches'.kept fetches.known)
  have other : (t.dereference v).operation? index = some w :=
    (t.operation?_dereference v index).trans fetches'.known
  simp only [element, form]
  rw [bind_of_result fetches.evaluated, bind_of_result (operand_of_known array)]
  dsimp only
  rw [bind_of_result fetches'.evaluated, bind_of_result (operand_of_known other)]
  dsimp only
  rw [State.dereference_dereference]
  rfl

theorem steady_call {receiver : Option OpId} {method : String} {l : List Argument}
    (form : c.operation.form = .call receiver method l) : (call c).Steady := by
  have rest : ∀ s, (do
      let s ← invalidate c s l
      let v ← Eval.fresh
      c.bind s v).Steady := fun s =>
    (steady_invalidate c s l).bind fun _ => steady_fresh.bind fun _ => steady_owned _
  simp only [call, form]
  cases receiver with
  | none => exact (steady_pure _).bind rest
  | some i => exact (steady_operand _ i).bind fun _ => (steady_pure _).bind rest

theorem steady_element {index : OpId} (form : c.operation.form = .element i index) :
    (element c).Steady := by
  simp only [element, form]
  refine (steady_operand _ _).bind fun _ => (steady_operand _ _).bind fun _ => ?_
  split
  · exact steady_pure _
  · exact steady_fresh.bind fun _ => steady_owned _

theorem feasible_fieldRef {x : SymbolId} (form : c.operation.form = .fieldRef (some i) x)
    (known : c.state.operation? i = some v) (below : c.state.Below n.created) :
    (fieldRef c n).1 ≠ .infeasible := by
  simp only [fieldRef, form]
  rw [bind_of_result (operand_of_known known)]
  change ((if c.isWritten then pure (c.state.dereference v)
    else readStorage c (c.state.dereference v) x : Eval State) n).1 ≠ .infeasible
  split
  · exact steady_pure _ n
  · exact feasible_readStorage (below.dereference (below.operation known)) x

/-- The rule for the form goes on as if the receiver had been dereferenced before, and leaves a
state. -/
structure Receives (c : Situation) (i : OpId) (n : Numbering) (f : Situation → Eval State)
    (s : State) (v : Value) (m : Numbering) : Prop where
  meaning : Rule.builtin c.operation.tag = ofEval f
  known : s.operation? i = some v
  routine : s.routine = c.state.routine
  nullness : s.nullness? v = (c.state.operation? i).bind c.state.nullness?
  goesOn : f c n = f (received c s v) m
  feasible : (f (received c s v) m).1 ≠ .infeasible

theorem exists_receives (receiver : c.operation.form.receiver? = some i)
    (own : ∀ i, c.footprint.Names i → i.routine = c.state.routine)
    (below : c.state.Below n.created) : ∃ f s v m, Receives c i n f s v m := by
  have child : ∀ {j}, j ∈ c.operation.form.children → j.routine = c.state.routine :=
    fun child => own _ (Or.inr (Or.inl (Or.inl child)))
  cases form : c.operation.form with
  | call target method l =>
    simp only [form, Form.receiver?] at receiver
    subst receiver
    have owned : i.routine = c.state.routine := child (by simp [form, Form.children])
    obtain ⟨t, v, m, fetches⟩ := State.exists_fetches owned below
    refine ⟨call, t, v, m, Model.builtin_tag form, fetches.known, fetches.routine, fetches.nullness,
      call_eq fetches form, ?_⟩
    exact steady_call (c := received c t v) form m
  | fieldRef target x =>
    simp only [form, Form.receiver?] at receiver
    subst receiver
    have owned : i.routine = c.state.routine := child (by simp [form, Form.children])
    obtain ⟨t, v, m, fetches⟩ := State.exists_fetches owned below
    refine ⟨fieldRef, t, v, m, Model.builtin_tag form, fetches.known, fetches.routine,
      fetches.nullness, fieldRef_eq fetches form, ?_⟩
    have known : (t.dereference v).operation? i = some v :=
      (t.operation?_dereference v i).trans fetches.known
    exact feasible_fieldRef form known (fetches.below.dereference fetches.inside)
  | element array index =>
    simp only [form, Form.receiver?, Option.some.injEq] at receiver
    subst receiver
    have owned : array.routine = c.state.routine := child (by simp [form, Form.children])
    obtain ⟨s, v, m, fetches⟩ := State.exists_fetches owned below
    have owned' : index.routine = s.routine :=
      (child (by simp [form, Form.children])).trans fetches.routine.symm
    obtain ⟨t, w, k, fetches'⟩ := State.exists_fetches owned' fetches.below
    have nullness : t.nullness? v = s.nullness? v := by
      simp only [State.nullness?, State.factsOf, fetches'.facts]
    refine ⟨element, t, v, k, Model.builtin_tag form, fetches'.kept fetches.known,
      fetches'.routine.trans fetches.routine, nullness.trans fetches.nullness,
      element_eq fetches fetches' form, ?_⟩
    exact steady_element (c := received c t v) form k
  | _ => simp [form, Form.receiver?] at receiver

/-- A rule that finds the path feasible leaves a state within the footprint. -/
theorem process_feasible (own : ∀ i, c.footprint.Names i → i.routine = c.state.routine)
    {f : Situation → Eval State} (meaning : Rule.builtin c.operation.tag = ofEval f)
    (feasible : (f c n).1 ≠ .infeasible) : ∃ t,
      (Semantics.builtin.process c n).1 = .ok [t] ∧ c.state.Becomes c.footprint t := by
  obtain ⟨t, answered, keeps⟩ := process_keeps own n
  cases t with
  | some t => exact ⟨t, answered, keeps t rfl⟩
  | none =>
    rw [Semantics.process_builtin, meaning] at answered
    simp only [ofEval] at answered
    generalize f c n = answer at answered feasible
    obtain ⟨verdict, m⟩ := answer
    cases verdict with
    | result s => cases answered
    | infeasible => exact absurd rfl feasible
    | refused r => cases answered

/-- A call, a read of a field or of an element leaves a state, in which its receiver is null if it
was null before and not otherwise. -/
theorem process_receiver (receiver : c.operation.form.receiver? = some i)
    (own : ∀ i, c.footprint.Names i → i.routine = c.state.routine)
    (below : c.state.Below n.created) (other : i ≠ c.operation.id)
    (kept : i ∉ c.operation.form.renewed) : ∃ t,
      (Semantics.builtin.process c n).1 = .ok [t] ∧
      ((t.operation? i).bind t.nullness? = some .null ↔
        (c.state.operation? i).bind c.state.nullness? = some .null) := by
  obtain ⟨f, s, v, m, receives⟩ := exists_receives receiver own below
  have routine : (s.dereference v).routine = c.state.routine :=
    (s.sameButFacts_dereference v).routine.trans receives.routine
  have names : ∀ j, (received c s v).footprint.Names j → j.routine = (s.dereference v).routine := by
    rintro j (gives | (child | ⟨slot, form, _⟩) | captures)
    · exact (own j (Or.inl gives)).trans routine.symm
    · exact (own j (Or.inr (Or.inl (Or.inl child)))).trans routine.symm
    · have form : c.operation.form = .captureRef slot := form
      simp [form, Form.receiver?] at receiver
    · exact (own j (Or.inr (Or.inr captures))).trans routine.symm
  obtain ⟨t, answered, becomes⟩ := process_feasible names receives.meaning receives.feasible
  refine ⟨t, ?_, ?_⟩
  · rw [Semantics.process_builtin, receives.meaning] at answered ⊢
    simp only [ofEval] at answered ⊢
    rw [receives.goesOn]
    exact answered
  · -- the rule neither gives the receiver its value nor renews it
    have before : (s.dereference v).operation? i = some v :=
      (s.operation?_dereference v i).trans receives.known
    have after : t.operation? i = some v := by
      rcases becomes.operations i with same | (here | target) | ⟨_, unknown⟩
      · exact same.trans before
      · exact absurd here other
      · exact absurd target kept
      · exact absurd (before.symm.trans unknown) (Option.some_ne_none v)
    rw [after, Option.bind_some, ← receives.nullness]
    by_cases null : s.nullness? v = some .null
    · have dereferenced := (State.Becomes.refl (f := c.footprint) s).dereference v
      exact iff_of_true (becomes.nullness? (dereferenced.nullness? null)) null
    · have present := becomes.nullness? (State.nullness?_dereference null)
      exact iff_of_false (by simp [present]) null

end Receiver

end Rule

end SymbolicExecution
