import SymbolicExecution.Proofs.Footprint.Write
import SymbolicExecution.Proofs.Routine.Closed

/-!
# Reading back what was written

A write computes a value from those of its operands, binds the symbol that its target reaches to it
and leaves the other symbols alone; where the target reaches no symbol, nothing is bound. From then
on a reference that reaches the symbol has the value that was written.
-/

namespace SymbolicExecution

/-- The form names a place where a value is stored. -/
def Form.isReference : Form → Bool
  | .localRef _ | .paramRef _ | .fieldRef _ _ => true
  | _ => false

namespace Rule

open Eval

variable {c : Situation} {s t : State} {n m : Numbering} {x : SymbolId} {v : Value}
  {target : OpId} {f : Situation → Eval State}

/-- What a write computes while the numbering goes from `n` to `m`: the value that it writes, and
the value that the operation itself gets. In `u` its operands have been evaluated. -/
inductive Computes (c : Situation) (n m : Numbering) : Value → Value → Prop
  | assign {target value : OpId} {u : State} {v : Value}
      (form : c.operation.form = .assign target value) (supplied : c.state.Supplies n u)
      (right : u.operation? value = some v) : Computes c n m v v
  | compound {operator : BinOp} {target value : OpId} {u : State} {old a v : Value}
      (form : c.operation.form = .compound operator target value)
      (supplied : c.state.Supplies n u) (left : u.operation? target = some old)
      (right : u.operation? value = some a)
      (derived : m.find? (.binary operator old a) = some v) : Computes c n m v v
  | step {target : OpId} {down postfixed : Bool} {u : State} {old one v : Value}
      (form : c.operation.form = .step target down postfixed) (supplied : c.state.Supplies n u)
      (left : u.operation? target = some old) (unit : m.find? (.literal (.int 1)) = some one)
      (derived : m.find? (.binary (if down then .subtract else .add) old one) = some v) :
      Computes c n m v (if postfixed then old else v)

theorem Computes.assign_cases {value : OpId} {w : Value} (computes : Computes c n m v w)
    (form : c.operation.form = .assign target value) :
    ∃ u, c.state.Supplies n u ∧ u.operation? value = some v := by
  cases computes with
  | @assign _ _ u _ form' supplied right =>
    cases form.symm.trans form'
    exact ⟨u, supplied, right⟩
  | compound form' | step form' => cases form.symm.trans form'

/-- What a postfixed step computes from the value that it gives. -/
theorem Computes.step_cases {location : OpId} {down : Bool} {new old : Value}
    (computes : Computes c n m new old)
    (form : c.operation.form = .step location down true) : ∃ u one, c.state.Supplies n u ∧
      u.operation? location = some old ∧
      m.find? (.binary (if down then .subtract else .add) old one) = some new := by
  cases computes with
  | assign form' | compound form' => cases form.symm.trans form'
  | @step _ _ _ u _ one _ form' supplied left _ derived =>
    cases form.symm.trans form'
    exact ⟨u, one, supplied, left, derived⟩

section Write

/-- In `t` the operation has the value that goes with the computed one. -/
def Lands (c : Situation) (n : Numbering) (t : State) (m : Numbering) : Prop :=
  ∃ s v w, (computed c n).1 = .result (s, v) ∧ Computes c n m v w ∧
    t.operation? c.operation.id = some w ∧ t.routine = c.operation.id.routine

theorem leaves_computed_assign {value : OpId} (form : c.operation.form = .assign target value) :
    (computed c).Leaves n fun a m => Computes c n m a.2 a.2 := by
  simp only [computed, form]
  refine (State.leaves_operand c.state value n).imp ?_
  rintro ⟨s, v⟩ m ⟨_, right, _, supplied⟩
  exact .assign form supplied right

theorem leaves_computed_compound {operator : BinOp} {value : OpId}
    (form : c.operation.form = .compound operator target value) :
    (computed c).Leaves n fun a m => Computes c n m a.2 a.2 := by
  simp only [computed, form]
  refine (State.leaves_operand c.state target n).bind ?_
  rintro ⟨s, old⟩ m ⟨stays, left, _, supplied⟩
  refine (State.leaves_operand s value m).bind ?_
  rintro ⟨t, a⟩ k ⟨_, right, _, supplied'⟩
  refine (State.leaves_binaryValue t operator old a k).imp ?_
  rintro ⟨u, v⟩ m' ⟨_, derived, _⟩
  exact .compound form (supplied.trans stays.created supplied') (supplied'.kept left) right derived

theorem leaves_stored (same : f c = computed c >>= fun (s, v) => store c s target v)
    (computes : (computed c).Leaves n fun a m => Computes c n m a.2 a.2) :
    (f c).Leaves n (Lands c n) := by
  rw [same]
  refine ((leaves_self _ n).and computes).bind ?_
  rintro ⟨s, v⟩ m ⟨value, computes⟩
  refine (leaves_store c s target v m).imp ?_
  rintro t _ ⟨_, given, own, rfl⟩
  exact ⟨s, v, v, congrArg Prod.fst value, computes, given, own⟩

theorem lands_step {down postfixed : Bool}
    (form : c.operation.form = .step target down postfixed) : (step c).Leaves n (Lands c n) := by
  simp only [step, form]
  refine ((leaves_self _ n).and (State.leaves_operand c.state target n)).bind ?_
  rintro ⟨s, old⟩ m ⟨first, _, left, _, supplied⟩
  refine ((leaves_self _ m).and (State.leaves_literalValue s _ m)).bind ?_
  rintro ⟨t, one⟩ m' ⟨second, _, unit, _⟩
  refine ((leaves_self _ m').and (State.leaves_binaryValue t _ old one m')).bind ?_
  rintro ⟨u, new⟩ k ⟨third, _, derived, grows⟩
  have value : computed c n = (.result (u, new), k) := by
    simp only [computed, form]
    rw [bind_of_result first, bind_of_result second, third]
  refine (leaves_bind c _ _ k).imp ?_
  rintro _ k ⟨own, rfl, rfl⟩
  -- the literal keeps its value while the result is numbered
  have computes := Computes.step form supplied left (grows.find? unit) derived
  refine ⟨u, new, _, congrArg Prod.fst value, computes, ?_, own⟩
  rw [State.operation?, Table.get?_insert, if_pos rfl]

/-- What a write leaves: the computed value is bound, and the operation has its value. -/
theorem leaves_landed (writes : c.operation.form.target? = some target) :
    ∃ f, Rule.builtin c.operation.tag = ofEval f ∧
      (f c).Leaves n fun t m => Writes c n target t ∧ Lands c n t m := by
  cases form : c.operation.form with
  | assign =>
    simp only [form, Form.target?, Option.some.injEq] at writes
    subst writes
    have lands := leaves_stored (n := n) (assign_eq form) (leaves_computed_assign form)
    exact ⟨assign, Model.builtin_tag form, (leaves_assign form).and lands⟩
  | compound =>
    simp only [form, Form.target?, Option.some.injEq] at writes
    subst writes
    have lands := leaves_stored (n := n) (compound_eq form) (leaves_computed_compound form)
    exact ⟨compound, Model.builtin_tag form, (leaves_compound form).and lands⟩
  | step =>
    simp only [form, Form.target?, Option.some.injEq] at writes
    subst writes
    exact ⟨step, Model.builtin_tag form, (leaves_step form).and (lands_step form)⟩
  | _ => simp [form, Form.target?] at writes

end Write

section Read

/-- An operand of the routine of the state always has a value. -/
theorem exists_operand {i : OpId} (own : i.routine = s.routine) (n : Numbering) : ∃ t v m,
    operand s i n = (.result (t, v), m) ∧ t.routine = s.routine ∧ Stays s n t m := by
  have stays := State.leaves_operand s i n
  cases known : s.operation? i with
  | some v => exact ⟨s, v, n, operand_of_known known, rfl, .refl s n⟩
  | none =>
    have evaluated := operand_of_unknown (n := n) known own
    exact ⟨_, _, _, evaluated, rfl, (stays _ _ evaluated).1⟩

/-- A bound symbol is read without a change to any symbol. -/
theorem readStorage_of_bound (own : c.operation.id.routine = s.routine)
    (reached : s.storage? c.routine c.operation.id = some x) (bound : s.symbol? x = some v)
    (y : SymbolId) (n : Numbering) : readStorage c s y n =
      (.result { s with operations := s.operations.insert c.operation.id v }, n) := by
  simp only [readStorage, reached, readSymbol, bound, Situation.bind, State.setOperation,
    if_pos own]
  rfl

/-- The symbol is bound to what was read of it. -/
theorem leaves_readStorage_bound (reached : s.storage? c.routine c.operation.id = some x)
    (y : SymbolId) : (readStorage c s y).Leaves n fun t _ =>
      ∃ v, t.operation? c.operation.id = some v ∧ t.symbol? x = some v := by
  simp only [readStorage, reached, readSymbol]
  split
  · rename_i v bound
    refine (State.leaves_setOperation s c.operation.id v n).imp ?_
    rintro t m ⟨stays, given, _⟩
    exact ⟨v, given, (stays.symbol? x).trans bound⟩
  · refine (State.leaves_fresh n).bind ?_
    intro v m _
    refine (State.leaves_setOperation s c.operation.id v m).bind ?_
    rintro t k ⟨_, given, _⟩
    refine (leaves_learnDeclared c (t.setSymbol x v) x v k).imp ?_
    intro u _ same
    refine ⟨v, (same.operation? _).trans given, ?_⟩
    rw [State.symbol?, same.symbols]
    exact (Table.get?_insert _ _ _ _).trans (if_pos rfl)

/-- A reference that is read has the value that its symbol is bound to from then on. -/
theorem leaves_reference (reference : c.operation.form.isReference) (read : c.isWritten = false)
    (reached : c.state.storage? c.routine c.operation.id = some x) :
    ∃ f, Rule.builtin c.operation.tag = ofEval f ∧ (f c).Leaves n fun t _ =>
      ∃ v, t.operation? c.operation.id = some v ∧ t.symbol? x = some v := by
  cases form : c.operation.form with
  | localRef y =>
    refine ⟨symbolRef, Model.builtin_tag form, ?_⟩
    simp only [symbolRef, form, read]
    exact leaves_readStorage_bound reached y
  | paramRef y =>
    refine ⟨symbolRef, Model.builtin_tag form, ?_⟩
    simp only [symbolRef, form, read]
    exact leaves_readStorage_bound reached y
  | fieldRef receiver y =>
    refine ⟨fieldRef, Model.builtin_tag form, ?_⟩
    simp only [fieldRef, form, read]
    exact leaves_receiver fun s m stays =>
      leaves_readStorage_bound ((stays.storage? _ _).trans reached) y
  | _ => simp [form, Form.isReference] at reference

/-- Parentheses and conversions have the value of what they enclose, and nothing else is new. -/
theorem leaves_passThrough {inner : OpId}
    (form : c.operation.form = .paren inner ∨ c.operation.form = .convert inner)
    (read : c.isWritten = false) (known : c.state.operation? inner = some v) :
    (passThrough c).Leaves n fun t _ => t = { c.state with
      operations := c.state.operations.insert c.operation.id v } := by
  have copied : (do let (s, v) ← operand c.state inner; c.bind s v).Leaves n fun t _ =>
      t = { c.state with operations := c.state.operations.insert c.operation.id v } := by
    intro t m result
    rw [bind_of_result (operand_of_known known)] at result
    exact (leaves_bind c c.state v n t m result).2.1
  rcases form with form | form
  · simp only [passThrough, form, read]
    exact copied
  · simp only [passThrough, form, read]
    exact copied

variable (closed : c.routine.Closed)
  (found : c.routine.operation? c.operation.id = some c.operation)
  (reference : c.operation.form.isReference) (read : c.isWritten = false)
  (own : c.state.routine = c.routine.id)

include closed found reference read own

/-- A reference to a bound symbol has the value of the symbol, and binds nothing. -/
theorem process_of_bound (reached : c.state.storage? c.routine c.operation.id = some x)
    (bound : c.state.symbol? x = some v) (n : Numbering) :
    ∃ u m, Semantics.builtin.process c n = (.ok [u], m) ∧
      u.operation? c.operation.id = some v ∧ u.symbols = c.state.symbols := by
  have own' : c.operation.id.routine = c.state.routine :=
    (Routine.operation?_eq_some_iff.mp found).1.trans own.symm
  have given : ∀ s : State, ({ s with operations := s.operations.insert c.operation.id v } :
      State).operation? c.operation.id = some v := by
    intro s
    rw [State.operation?, Table.get?_insert, if_pos rfl]
  -- a receiver may get a value and become known not to be null, which changes no symbol
  have reads : ∀ {s m}, s.routine = c.state.routine → Stays c.state n s m → ∀ y, readStorage c s y m
      = (.result { s with operations := s.operations.insert c.operation.id v }, m) := by
    intro s m same stays y
    exact readStorage_of_bound (own'.trans same.symm) ((stays.storage? _ _).trans reached)
      ((stays.symbol? x).trans bound) y m
  cases form : c.operation.form with
  | localRef y =>
    refine ⟨_, n, process_of_result (f := symbolRef) (Model.builtin_tag form) ?_, given _, rfl⟩
    simp only [symbolRef, form, read]
    exact reads rfl (.refl _ n) y
  | paramRef y =>
    refine ⟨_, n, process_of_result (f := symbolRef) (Model.builtin_tag form) ?_, given _, rfl⟩
    simp only [symbolRef, form, read]
    exact reads rfl (.refl _ n) y
  | fieldRef receiver y =>
    cases receiver with
    | none =>
      refine ⟨_, n, process_of_result (f := fieldRef) (Model.builtin_tag form) ?_, given _, rfl⟩
      simp only [fieldRef, form, read]
      exact reads rfl (.refl _ n) y
    | some i =>
      obtain ⟨p, known⟩ := closed.child (c := i) found (by simp [form, Form.children])
      have inside : i.routine = c.state.routine :=
        (Routine.operation?_eq_some_iff.mp known).1.trans own.symm
      obtain ⟨s, w, m, evaluated, same, stays⟩ := exists_operand inside n
      have facts := s.sameButFacts_dereference w
      have stays' : Stays c.state n (s.dereference w) m :=
        stays.trans (.ofFacts facts (Nat.le_refl _))
      refine ⟨_, m, process_of_result (f := fieldRef) (Model.builtin_tag form) ?_, given _,
        stays'.symbols⟩
      simp only [fieldRef, form, read]
      rw [bind_of_result evaluated]
      exact reads (facts.routine.trans same) stays' y
  | _ => simp [form, Form.isReference] at reference

end Read

/-- After a write in the situation `c`, `x` is bound to `v` and the other symbols are as before.
Every reference that reaches `x` in `t` gives `v` then, and binds nothing. -/
structure ReadsBack (c : Situation) (x : SymbolId) (v : Value) (t : State) : Prop where
  bound : t.symbol? x = some v
  others {y : SymbolId} : y ≠ x → t.symbol? y = c.state.symbol? y
  read {q : Operation} (found : c.routine.operation? q.id = some q) (reference : q.form.isReference)
    (read : c.routine.isWritten q.id = false) (reached : t.storage? c.routine q.id = some x)
    (k : Numbering) : ∃ u l,
      Semantics.builtin.process ⟨q, t, c.routine, c.symbols⟩ k = (.ok [u], l) ∧
      u.operation? q.id = some v ∧ u.symbols = t.symbols

/-- A write is read back, and a write that is not tracked changes nothing. Where the target of an
assignment, a compound assignment or an increment reaches a symbol, every successor binds it to the
computed value and gives the operation its own. Where it reaches none, no symbol changes. -/
theorem process_reads_back {outline : Outline} {r : Routine}
    (accepted : Routine.ofOutline outline = .ok r) {i : OpId} {o : Operation}
    (found : r.operation? i = some o) (writes : o.form.target? = some target) (symbols : Symbols)
    {states : List State}
    (answered : Semantics.builtin.process ⟨o, s, r, symbols⟩ n = (.ok states, m))
    (mem : t ∈ states) :
    (∀ x, s.storage? r target = some x → ∃ v w, Computes ⟨o, s, r, symbols⟩ n m v w ∧
      t.operation? i = some w ∧ ReadsBack ⟨o, s, r, symbols⟩ x v t) ∧
    (s.storage? r target = none → t.symbols = s.symbols) := by
  have closed := Outline.closed accepted
  obtain ⟨f, meaning, leaves⟩ := leaves_landed (c := ⟨o, s, r, symbols⟩) (n := n) writes
  obtain ⟨written, u, v, w, value, computes, given, own⟩ :=
    leaves_of_process meaning leaves answered t mem
  constructor
  · intro x reached
    obtain ⟨_, v', value', symbol⟩ := written.symbol?
    cases value.symm.trans value'
    have label := closed.label found
    refine ⟨v, w, computes, label ▸ given, ?_, ?_, ?_⟩
    · rw [symbol, if_pos reached]
    · intro y other
      rw [symbol, if_neg fun again => other (Option.some.inj (again.symm.trans reached))]
    · intro q here reference read reached' k
      have inside : t.routine = r.id :=
        own.trans (label ▸ (Routine.operation?_eq_some_iff.mp found).1)
      have bound : t.symbol? x = some v := by rw [symbol, if_pos reached]
      exact process_of_bound (c := ⟨q, t, r, symbols⟩) closed here reference read inside reached'
        bound k
  · intro unreached
    obtain ⟨_, _, _, symbols⟩ := written
    rw [symbols, State.write, unreached]

/-- A captured symbol is incremented through parentheses, and the outer symbol is read. -/
def capturing : Outline where
  id := ⟨0⟩
  name := "capturing"
  blocks := #[⟨⟨0⟩, [⟨⟨0⟩, 2⟩, ⟨⟨0⟩, 3⟩], .leave none, none⟩]
  operations := #[⟨⟨⟨0⟩, 0⟩, .localRef ⟨0⟩, none⟩, ⟨⟨⟨0⟩, 1⟩, .paren ⟨⟨0⟩, 0⟩, none⟩,
    ⟨⟨⟨0⟩, 2⟩, .step ⟨⟨0⟩, 1⟩ false true, none⟩, ⟨⟨⟨0⟩, 3⟩, .localRef ⟨1⟩, none⟩]
  closures := [(⟨0⟩, ⟨1⟩)]

/-- The outer symbol is bound to the sum. The operation has the old value, as has its operand. -/
def capturingState : State where
  routine := ⟨0⟩
  operations := (Table.empty.insert ⟨⟨0⟩, 1⟩ ⟨0⟩).insert ⟨⟨0⟩, 2⟩ ⟨0⟩
  symbols := Table.empty.insert ⟨1⟩ ⟨2⟩
  facts := Table.empty.insert ⟨1⟩ ⟨none, some .notNull, some (.exact 1)⟩
  captures := Table.empty

theorem process_reads_back_capturing : ∃ r m, Routine.ofOutline capturing = .ok r ∧
    Semantics.builtin.process ⟨⟨⟨⟨0⟩, 2⟩, .step ⟨⟨0⟩, 1⟩ false true, none⟩, State.entry ⟨0⟩, r,
      ⟨fun _ => none⟩⟩ ⟨0, []⟩ = (.ok [capturingState], m) ∧
    ∃ u k, Semantics.builtin.process ⟨⟨⟨⟨0⟩, 3⟩, .localRef ⟨1⟩, none⟩, capturingState, r,
      ⟨fun _ => none⟩⟩ m = (.ok [u], k) ∧ u.operation? ⟨⟨0⟩, 3⟩ = some ⟨2⟩ := by
  refine ⟨_, _, rfl, rfl, ?_⟩
  have accepted : Routine.ofOutline capturing = .ok _ := rfl
  have reads := process_reads_back accepted (i := ⟨⟨0⟩, 2⟩) rfl rfl ⟨fun _ => none⟩
    (s := State.entry ⟨0⟩) (n := ⟨0, []⟩) (t := capturingState) rfl List.mem_cons_self
  obtain ⟨v, _, _, _, back⟩ := reads.1 ⟨1⟩ rfl
  have value : v = ⟨2⟩ := Option.some.inj (back.bound.symm.trans rfl)
  obtain ⟨u, k, answered, given, _⟩ :=
    back.read (q := ⟨⟨⟨0⟩, 3⟩, .localRef ⟨1⟩, none⟩) rfl rfl rfl rfl _
  exact ⟨u, k, answered, value ▸ given⟩

end Rule

end SymbolicExecution
