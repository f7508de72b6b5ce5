import SymbolicExecution.Proofs.Footprint.Call

/-!
# What calls leave

A call or a creation leaves one state. The fields are unbound; what writable arguments reach is
bound to new values, each symbol to its own; the operation itself has yet another new value. All
else is as before, except that the receiver is known not to be null if it may be something else.
-/

namespace SymbolicExecution

namespace State

variable {s t : State} {v w : Value} {n : Numbering}

theorem factsOf_of_learn_ne {f : Fact} (learned : s.learn? v f = some t) (other : w ≠ v) :
    t.factsOf w = s.factsOf w := by
  obtain ⟨known, _, same⟩ := Option.map_eq_some_iff.mp learned
  split at same
  · rw [← same]
  · rw [← same, factsOf, Table.get?_insert, if_neg other]
    rfl

/-- To dereference a value changes what is known of that value, unless it is known to be null. -/
theorem factsOf_dereference (s : State) (v w : Value) : (s.dereference v).factsOf w =
    if v = w ∧ s.nullness? w ≠ some .null then { s.factsOf w with nullness := some .notNull }
    else s.factsOf w := by
  by_cases null : s.nullness? v = some .null
  · have narrowed : (s.factsOf v).learn? (.nullness .notNull) = none := if_pos null
    have same : s.dereference v = s := by
      rw [dereference, learn?, narrowed]
      rfl
    rw [same, if_neg]
    rintro ⟨rfl, other⟩
    exact other null
  · have narrowed : (s.factsOf v).learn? (.nullness .notNull) =
        some { s.factsOf v with nullness := some .notNull } := if_neg null
    obtain ⟨t, learned⟩ : ∃ t, s.learn? v (.nullness .notNull) = some t := by
      rw [learn?, narrowed]
      exact ⟨_, rfl⟩
    have same : s.dereference v = t := by rw [dereference, learned, Option.getD_some]
    rw [same]
    by_cases here : v = w
    · rw [if_pos ⟨here, here ▸ null⟩, ← here, factsOf_of_learn narrowed learned]
    · rw [if_neg fun both => here both.1, factsOf_of_learn_ne learned (Ne.symm here)]

theorem symbol?_of_forgetFields {symbols : Symbols} {x : SymbolId}
    (bound : (Rule.forgetFields symbols s).symbol? x = some v) : s.symbol? x = some v := by
  rw [symbol?_forgetFields] at bound
  split at bound
  · cases bound
  · exact bound

theorem Below.forgetFields {k : Nat} (below : s.Below k) (symbols : Symbols) :
    (Rule.forgetFields symbols s).Below k :=
  ⟨below.operation, fun bound => below.symbol (symbol?_of_forgetFields bound), below.fact⟩

theorem Below.leaves_setOperation (below : s.Below n.created) (inside : v.index < n.created)
    (i : OpId) : (Eval.owned (s.setOperation i v)).Leaves n fun t m => t.Below m.created :=
  Eval.leaves_owned fun _ set => below.setOperation inside set

theorem Below.leaves_operand (below : s.Below n.created) (i : OpId) :
    (operand s i).Leaves n fun a m => a.1.Below m.created ∧ a.2.index < m.created := by
  simp only [operand]
  split
  · rename_i v known
    exact Eval.leaves_pure ⟨below, below.operation known⟩
  · refine (leaves_fresh n).bind ?_
    rintro v m ⟨rfl, created⟩
    have inside : n.created < m.created := by omega
    have more : s.Below m.created := below.mono (Nat.le_of_lt inside)
    refine ((State.leaves_setOperation s i _ m).and (more.leaves_setOperation inside i)).bind ?_
    rintro t k ⟨⟨_, _, _, _, rfl⟩, below'⟩
    exact Eval.leaves_pure ⟨below', inside⟩

end State

/-- What is known afterwards of a value that was there before: the receiver was dereferenced. -/
def Situation.factsAfter (c : Situation) (v : Value) : Facts :=
  if c.operation.form.receiver?.bind c.state.operation? = some v ∧
      c.state.nullness? v ≠ some .null then
    { c.state.factsOf v with nullness := some .notNull }
  else c.state.factsOf v

/-- What is known of the value of a call or a creation. -/
def Form.resultFacts : Form → Facts
  | .create _ _ => ⟨none, some .notNull, none⟩
  | _ => Facts.empty

namespace Rule

open Eval

variable {r : Routine} {c : Situation} {s t u : State} {n m k : Numbering} {x : SymbolId}
  {l : List Argument}

section Argument

/-- From `s` and `n` to `t` and `m`, symbols got values that are new, each its own. -/
structure Numbers (s : State) (n : Numbering) (t : State) (m : Numbering) : Prop where
  below : t.Below m.created
  captures : t.captures = s.captures
  old {x : SymbolId} {v : Value} : t.symbol? x = some v → v.index < n.created →
    s.symbol? x = some v
  distinct {x y : SymbolId} {v : Value} : t.symbol? x = some v → t.symbol? y = some v →
    n.created ≤ v.index → x = y

theorem Numbers.refl (below : s.Below n.created) : Numbers s n s n := by
  refine ⟨below, rfl, fun bound _ => bound, ?_⟩
  intro x y v bound _ new
  exact absurd (below.symbol bound) (Nat.not_lt.mpr new)

/-- One symbol is bound to the next value. -/
theorem Numbers.cons (below : s.Below n.created)
    (bound : ∀ y, u.symbol? y = if y = x then some ⟨n.created⟩ else s.symbol? y)
    (captures : u.captures = s.captures) (created : k.created = n.created + 1)
    (others : Numbers u k t m) : Numbers s n t m := by
  -- the next value belongs to the symbol that gets it, also when the others have theirs
  have first : ∀ {y v}, t.symbol? y = some v → v.index = n.created → y = x := by
    intro y v known same
    have before := others.old known (by omega)
    rw [bound] at before
    by_contra other
    rw [if_neg other] at before
    exact Nat.ne_of_lt (below.symbol before) same
  refine ⟨others.below, others.captures.trans captures, ?_, ?_⟩
  · intro y v known old
    have before := others.old known (by omega)
    rw [bound] at before
    split at before
    · cases before
      exact absurd old (Nat.lt_irrefl _)
    · exact before
  · intro y z v known known' new
    rcases Nat.eq_or_lt_of_le new with same | later
    · rw [first known same.symm, first known' same.symm]
    · exact others.distinct known known' (by omega)

theorem leaves_numbers (below : s.Below n.created) (r : Routine) (l : List Argument) :
    (renewArguments r l s).Leaves n fun t m => Numbers s n t m := by
  induction l generalizing s n with
  | nil => exact leaves_pure (.refl below)
  | cons a rest ih =>
    simp only [renewArguments]
    split
    · rename_i x _
      refine (State.leaves_fresh n).bind ?_
      rintro v m ⟨rfl, created⟩
      have inside : n.created < m.created := by omega
      have more : (s.setSymbol x ⟨n.created⟩).Below m.created :=
        (below.mono (Nat.le_of_lt inside)).setSymbol inside
      refine ((State.leaves_setOperation _ _ _ m).and
        (more.leaves_setOperation inside a.value)).bind ?_
      rintro u k ⟨⟨stays, _, _, _, rfl⟩, below'⟩
      refine (ih below').imp ?_
      intro t m' others
      refine others.cons (x := x) below ?_ stays.captures created
      intro y
      rw [stays.symbol?]
      exact Table.get?_insert _ _ _ _
    · exact ih below

end Argument

/-- The receiver, if there is one, has a value and is dereferenced; the rest is as before. -/
structure Received (c : Situation) (n : Numbering) (s : State) (m : Numbering) : Prop where
  stays : Stays c.state n s m
  below : s.Below m.created
  facts {v : Value} : v.index < n.created → s.factsOf v = c.factsAfter v

/-- What writable arguments reach has got new values and the fields are unbound. The operation
itself has no value yet. -/
structure Invalidated (c : Situation) (n : Numbering) (t : State) (m : Numbering) : Prop where
  forgets : Forgets c n t
  below : t.Below m.created
  created : n.created ≤ m.created
  captures : t.captures = c.state.captures
  distinct {x y : SymbolId} {v : Value} : t.symbol? x = some v → t.symbol? y = some v →
    n.created ≤ v.index → x = y
  unknown {x : SymbolId} {v : Value} : t.symbol? x = some v → n.created ≤ v.index →
    t.factsOf v = Facts.empty
  facts {v : Value} : v.index < n.created → t.factsOf v = c.factsAfter v

/-- What a call or a creation leaves. -/
structure Invalidates (c : Situation) (n : Numbering) (t : State) (m : Numbering) : Prop where
  field {x : SymbolId} : c.symbols.isField x = true → t.symbol? x = none
  renewed {x : SymbolId} {a : Argument} : c.symbols.isField x = false →
    a ∈ c.operation.form.arguments → a.isWritable → c.state.storage? c.routine a.value = some x →
    ∃ v, t.symbol? x = some v ∧ n.created ≤ v.index ∧ v.index < m.created ∧
      t.factsOf v = Facts.empty
  distinct {x y : SymbolId} {v : Value} : t.symbol? x = some v → t.symbol? y = some v →
    n.created ≤ v.index → x = y
  kept {x : SymbolId} : c.symbols.isField x = false → (∀ a ∈ c.operation.form.arguments,
    a.isWritable → c.state.storage? c.routine a.value ≠ some x) → t.symbol? x = c.state.symbol? x
  own : ∃ v, t.operation? c.operation.id = some v ∧ n.created ≤ v.index ∧ v.index < m.created ∧
    (∀ x, t.symbol? x ≠ some v) ∧ t.factsOf v = c.operation.form.resultFacts
  captures : t.captures = c.state.captures
  facts {v : Value} : v.index < n.created → t.factsOf v = c.factsAfter v

section Receiver

variable (below : c.state.Below n.created)

include below

theorem Received.refl (none : c.operation.form.receiver? = none) :
    Received c n c.state n := by
  refine ⟨.refl _ _, below, ?_⟩
  intro v _
  simp [Situation.factsAfter, none]

omit below in
/-- A value that was there before is that of the receiver if it was so before. -/
theorem factsOf_received {i : OpId} {v w : Value} (form : c.operation.form.receiver? = some i)
    (known : s.operation? i = some v) (facts : s.facts = c.state.facts)
    (supplied : c.state.Supplies n s) (old : w.index < n.created) :
    (s.dereference v).factsOf w = c.factsAfter w := by
  have same : s.factsOf w = c.state.factsOf w := by rw [State.factsOf, State.factsOf, facts]
  have receiver : v = w ↔ c.state.operation? i = some w := by
    cases before : c.state.operation? i with
    | none =>
      have new := supplied.new before known
      simp only [reduceCtorEq, iff_false]
      rintro rfl
      omega
    | some u =>
      cases known.symm.trans (supplied.kept before)
      simp
  simp only [s.factsOf_dereference, Situation.factsAfter, form, Option.bind_some, receiver,
    State.nullness?, same]

/-- The receiver of a call is dereferenced before the call goes on. -/
theorem leaves_received {g : State → Eval State} {receiver : Option OpId}
    (form : c.operation.form.receiver? = receiver) {P : State → Numbering → Prop}
    (next : ∀ s m, Received c n s m → (g s).Leaves m P) :
    (match receiver with
      | some i => do
        let (s, v) ← operand c.state i
        let s ← pure (s.dereference v)
        g s
      | none => do
        let s ← pure c.state
        g s).Leaves n P := by
  cases receiver with
  | none =>
    have start : (pure c.state : Eval State).Leaves n fun s m => Received c n s m :=
      leaves_pure (.refl below form)
    exact start.bind next
  | some i =>
    refine ((State.leaves_operand c.state i n).and (below.leaves_operand i)).bind ?_
    rintro ⟨s, v⟩ m ⟨⟨stays, known, facts, supplied⟩, below', inside⟩
    have start : (pure (s.dereference v) : Eval State).Leaves m fun s m => Received c n s m := by
      apply leaves_pure
      exact ⟨stays.trans (.ofFacts (s.sameButFacts_dereference v) (Nat.le_refl _)),
        below'.dereference inside, factsOf_received form known facts supplied⟩
    exact start.bind next

end Receiver

section Rule

theorem Numbers.forgetFields (numbers : Numbers s n t m) (symbols : Symbols) :
    Numbers s n (Rule.forgetFields symbols t) m :=
  ⟨numbers.below.forgetFields symbols, numbers.captures,
    fun bound => numbers.old (State.symbol?_of_forgetFields bound),
    fun bound bound' => numbers.distinct (State.symbol?_of_forgetFields bound)
      (State.symbol?_of_forgetFields bound')⟩

theorem leaves_invalidated (below : c.state.Below n.created) (received : Received c n s m)
    (args : c.operation.form.arguments = l) : (invalidate c s l).Leaves m (Invalidated c n) := by
  have numbers : (invalidate c s l).Leaves m fun t k => Numbers s m t k := by
    simp only [invalidate]
    refine (leaves_numbers received.below c.routine (l.filter Argument.isWritable)).bind ?_
    exact fun t k numbers => leaves_pure (numbers.forgetFields c.symbols)
  refine ((leaves_invalidate received.stays args).and numbers).imp ?_
  rintro t k ⟨⟨forgets, facts, created⟩, numbers⟩
  have same : ∀ v, t.factsOf v = s.factsOf v := fun v => by
    rw [State.factsOf, State.factsOf, facts]
  -- what is bound to a new value got it from the arguments, not from the receiver
  have later : ∀ {x v}, t.symbol? x = some v → n.created ≤ v.index → m.created ≤ v.index := by
    intro x v bound new
    by_contra earlier
    have before := numbers.old bound (Nat.lt_of_not_le earlier)
    rw [received.stays.symbol?] at before
    exact Nat.not_lt.mpr new (below.symbol before)
  exact {
    forgets := forgets
    below := numbers.below
    created := Nat.le_trans received.stays.created created
    captures := numbers.captures.trans received.stays.captures
    distinct := fun bound bound' new => numbers.distinct bound bound' (later bound new)
    unknown := fun bound new => (same _).trans (received.below.factsOf (later bound new))
    facts := fun old => (same _).trans (received.facts old) }

/-- The operation gets the next value. -/
theorem Invalidated.give (invalidated : Invalidated c n t k) (created : m.created = k.created + 1)
    (symbols : u.symbols = t.symbols) (captures : u.captures = t.captures)
    (own : u.operation? c.operation.id = some ⟨k.created⟩)
    (result : u.factsOf ⟨k.created⟩ = c.operation.form.resultFacts)
    (others : ∀ v, v.index < k.created → u.factsOf v = t.factsOf v) : Invalidates c n u m := by
  have symbol : ∀ x, u.symbol? x = t.symbol? x := fun x => by
    rw [State.symbol?, State.symbol?, symbols]
  have bounded : ∀ {x v}, u.symbol? x = some v → v.index < k.created :=
    fun bound => invalidated.below.symbol ((symbol _).symm.trans bound)
  have started := invalidated.created
  refine ⟨?_, ?_, ?_, ?_, ?_, captures.trans invalidated.captures, ?_⟩
  · intro x field
    exact (symbol x).trans (invalidated.forgets.field field)
  · intro x a other ha writable reached
    obtain ⟨v, bound, new⟩ := invalidated.forgets.renewed other ha writable reached
    have inside := invalidated.below.symbol bound
    exact ⟨v, (symbol x).trans bound, new, by omega,
      (others v inside).trans (invalidated.unknown bound new)⟩
  · intro x y v bound bound'
    exact invalidated.distinct ((symbol x).symm.trans bound) ((symbol y).symm.trans bound')
  · intro x other unreached
    exact (symbol x).trans (invalidated.forgets.kept other unreached)
  · have inside : k.created < m.created := by omega
    refine ⟨⟨k.created⟩, own, started, inside, ?_, result⟩
    intro x bound
    exact Nat.lt_irrefl _ (bounded bound)
  · intro v old
    exact (others v (Nat.lt_of_lt_of_le old started)).trans (invalidated.facts old)

variable (below : c.state.Below n.created)

include below

theorem invalidates_call {receiver : Option OpId} {method : String}
    (form : c.operation.form = .call receiver method l) :
    (call c).Leaves n (Invalidates c n) := by
  have named : c.operation.form.receiver? = receiver := by rw [form, Form.receiver?]
  simp only [call, form]
  refine leaves_received below named ?_
  intro s m received
  refine (leaves_invalidated below received (by simp [form, Form.arguments])).bind ?_
  intro t k invalidated
  refine (State.leaves_fresh k).bind ?_
  rintro v k' ⟨rfl, created⟩
  refine (State.leaves_setOperation t _ _ k').imp ?_
  rintro u m' ⟨stays, own, facts, _, rfl⟩
  have same : ∀ v, u.factsOf v = t.factsOf v := fun v => by
    rw [State.factsOf, State.factsOf, facts]
  refine invalidated.give created stays.symbols stays.captures own ?_ fun v _ => same v
  rw [same, form]
  exact invalidated.below.factsOf (Nat.le_refl _)

/-- What is created is known not to be null, which is all that is known of it. -/
theorem invalidates_create {typeName : String} (form : c.operation.form = .create typeName l) :
    (create c).Leaves n (Invalidates c n) := by
  have received : Received c n c.state n := .refl below (by simp [form, Form.receiver?])
  simp only [create, form]
  refine (leaves_invalidated below received (by simp [form, Form.arguments])).bind ?_
  intro t k invalidated
  refine (State.leaves_fresh k).bind ?_
  rintro v k' ⟨rfl, created⟩
  refine (State.leaves_setOperation t _ _ k').bind ?_
  rintro u m' ⟨stays, own, facts, _, rfl⟩
  have same : ∀ v, u.factsOf v = t.factsOf v := fun v => by
    rw [State.factsOf, State.factsOf, facts]
  have unknown : u.factsOf ⟨k.created⟩ = Facts.empty :=
    (same _).trans (invalidated.below.factsOf (Nat.le_refl _))
  apply leaves_feasible
  intro w learned
  have frame := State.sameButFacts_of_learn learned
  refine invalidated.give created (frame.symbols.trans stays.symbols)
    (frame.captures.trans stays.captures) ((frame.operation? _).trans own) ?_ ?_
  · have narrowed : (u.factsOf ⟨k.created⟩).learn? (.nullness .notNull) =
        some ⟨none, some .notNull, none⟩ := by
      rw [unknown]
      rfl
    rw [State.factsOf_of_learn narrowed learned, form]
    rfl
  · intro v inside
    have other : v ≠ ⟨k.created⟩ := by
      rintro rfl
      exact Nat.lt_irrefl _ inside
    exact (State.factsOf_of_learn_ne learned other).trans (same v)

theorem invalidates_of_mayThrow (calls : c.operation.form.mayThrow) :
    ∃ f, Rule.builtin c.operation.tag = ofEval f ∧ (f c).Leaves n (Invalidates c n) := by
  cases form : c.operation.form with
  | call => exact ⟨call, Model.builtin_tag form, invalidates_call below form⟩
  | create => exact ⟨create, Model.builtin_tag form, invalidates_create below form⟩
  | _ => simp [form, Form.mayThrow] at calls

end Rule

/-- A call or a creation has exactly one successor, whatever describes the symbols. There the fields
are unbound, what other writable arguments reach is bound to new values of which nothing is known,
and the operation has a new value of its own. Nothing else changes, except that the receiver is
dereferenced. The writable arguments have to be trees, as are all evaluated operations: then looking
for what they reach comes to an end. -/
theorem process_invalidates {outline : Outline} (accepted : Routine.ofOutline outline = .ok r)
    {i : OpId} {o : Operation} (found : r.operation? i = some o) (calls : o.form.mayThrow)
    (grounded : ∀ a ∈ o.form.arguments, a.isWritable → s.Grounded r a.value)
    (symbols : Symbols) (own : s.routine = r.id) (below : s.Below n.created) :
    (∀ a ∈ o.form.arguments, a.isWritable → s.Resolves r a.value) ∧
    ∃ t m, Semantics.builtin.process ⟨o, s, r, symbols⟩ n = (.ok [t], m) ∧
      Invalidates ⟨o, s, r, symbols⟩ n t m := by
  refine ⟨fun a ha writable => (grounded a ha writable).resolves, ?_⟩
  obtain ⟨f, meaning, _, feasible⟩ :=
    leaves_of_mayThrow (c := ⟨o, s, r, symbols⟩) (n := n) calls
  have names := routine_of_names_of_mayThrow (Outline.closed accepted) found calls symbols own
  obtain ⟨t, answered, _⟩ := process_feasible names meaning (feasible below)
  obtain ⟨g, meaning', leaves⟩ :=
    invalidates_of_mayThrow (c := ⟨o, s, r, symbols⟩) (n := n) below calls
  have process : Semantics.builtin.process ⟨o, s, r, symbols⟩ n = (.ok [t], _) :=
    Prod.ext answered rfl
  exact ⟨t, _, process, leaves_of_process meaning' leaves process t List.mem_cons_self⟩

/-- A local is passed by reference, twice, to a method of another one, and with it a field. -/
def exchanging : Outline where
  id := ⟨0⟩
  name := "exchanging"
  blocks := #[⟨⟨0⟩, [⟨⟨0⟩, 6⟩], .leave none, none⟩]
  operations := #[⟨⟨⟨0⟩, 0⟩, .localRef ⟨0⟩, none⟩, ⟨⟨⟨0⟩, 1⟩, .localRef ⟨1⟩, none⟩,
    ⟨⟨⟨0⟩, 2⟩, .paren ⟨⟨0⟩, 1⟩, none⟩, ⟨⟨⟨0⟩, 3⟩, .this, none⟩, ⟨⟨⟨0⟩, 4⟩, .paren ⟨⟨0⟩, 3⟩, none⟩,
    ⟨⟨⟨0⟩, 5⟩, .fieldRef (some ⟨⟨0⟩, 4⟩) ⟨2⟩, none⟩,
    ⟨⟨⟨0⟩, 6⟩, .call (some ⟨⟨0⟩, 0⟩) "Exchange"
      [⟨⟨⟨0⟩, 1⟩, .byRef⟩, ⟨⟨⟨0⟩, 2⟩, .out⟩, ⟨⟨⟨0⟩, 5⟩, .byRef⟩], none⟩]
  closures := []

/-- The receiver was evaluated, and a field is bound besides the locals. -/
def exchangingState : State where
  routine := ⟨0⟩
  operations := Table.empty.insert ⟨⟨0⟩, 0⟩ ⟨0⟩
  symbols := ((Table.empty.insert ⟨0⟩ ⟨0⟩).insert ⟨1⟩ ⟨1⟩).insert ⟨2⟩ ⟨2⟩
  facts := Table.empty
  captures := Table.empty

/-- The third symbol is a field. -/
def exchangingSymbols : Symbols :=
  ⟨fun x => if x = ⟨2⟩ then some ⟨x, "count", .field false, true⟩ else none⟩

theorem process_invalidates_exchanging : ∃ r t m, Routine.ofOutline exchanging = .ok r ∧
    exchangingState.Resolves r ⟨⟨0⟩, 5⟩ ∧
    Semantics.builtin.process ⟨⟨⟨⟨0⟩, 6⟩, .call (some ⟨⟨0⟩, 0⟩) "Exchange"
      [⟨⟨⟨0⟩, 1⟩, .byRef⟩, ⟨⟨⟨0⟩, 2⟩, .out⟩, ⟨⟨⟨0⟩, 5⟩, .byRef⟩], none⟩, exchangingState, r,
      exchangingSymbols⟩ ⟨3, []⟩ = (.ok [t], m) ∧
    t.symbol? ⟨0⟩ = some ⟨0⟩ ∧ t.symbol? ⟨2⟩ = none ∧ t.factsOf ⟨0⟩ = ⟨none, some .notNull, none⟩ ∧
    ∃ v, t.symbol? ⟨1⟩ = some v ∧ 3 ≤ v.index ∧ t.operation? ⟨⟨0⟩, 6⟩ ≠ some v := by
  have below : exchangingState.Below 3 := by
    have entered : (State.entry ⟨0⟩).Below 3 := State.below_entry ⟨0⟩ 3
    have evaluated := entered.setOperation (i := ⟨⟨0⟩, 0⟩) (v := ⟨0⟩) (by decide) rfl
    exact ((evaluated.setSymbol (by decide)).setSymbol (by decide)).setSymbol (by decide)
  have accepted : Routine.ofOutline exchanging = .ok _ := rfl
  have grounded {i : OpId} (evaluated : i ∈ Routine.evaluations _) :
      exchangingState.Grounded _ i :=
    Outline.grounded_of_evaluated accepted (by rintro _ _ ⟨⟩) evaluated
  obtain ⟨resolves, t, m, answered, left⟩ := process_invalidates accepted (i := ⟨⟨0⟩, 6⟩) rfl rfl
    (fun a ha _ => grounded (by revert a; decide)) exchangingSymbols (s := exchangingState)
    (n := ⟨3, []⟩) rfl below
  obtain ⟨v, bound, new, _⟩ := left.renewed (x := ⟨1⟩) (a := ⟨⟨⟨0⟩, 2⟩, .out⟩) rfl
    (by decide) rfl rfl
  obtain ⟨w, own, _, _, apart, _⟩ := left.own
  have dereferenced := left.facts (v := ⟨0⟩) (by decide)
  refine ⟨_, t, m, accepted, resolves ⟨⟨⟨0⟩, 5⟩, .byRef⟩ (by decide) rfl, answered, ?_,
    left.field rfl, dereferenced, v, bound, new, ?_⟩
  · refine left.kept rfl ?_
    decide
  · intro same
    exact apart _ (bound.trans (same.symm.trans own))

end Rule

end SymbolicExecution
