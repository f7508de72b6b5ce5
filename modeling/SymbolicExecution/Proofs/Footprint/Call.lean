import SymbolicExecution.Proofs.Exploration.Faultless
import SymbolicExecution.Proofs.Footprint.Result
import SymbolicExecution.Proofs.Storage.Resolution

/-!
# What calls forget

A call or a creation unbinds the symbols that are described as fields, and binds those that its
writable arguments reach to new values. Every other symbol keeps its value, also one that occurs as
a field but is not described as one.
-/

namespace SymbolicExecution

/-- The symbol occurs as the field of a reference. -/
def Routine.HasField (r : Routine) (x : SymbolId) : Prop :=
  ∃ p ∈ r.operations, ∃ receiver, p.form = .fieldRef receiver x

theorem symbol?_forgetFields (symbols : Symbols) (s : State) (x : SymbolId) :
    (Rule.forgetFields symbols s).symbol? x = if symbols.isField x then none else s.symbol? x := by
  have filtered : (Rule.forgetFields symbols s).symbol? x =
      (s.symbol? x).filter fun _ => !symbols.isField x := Table.get?_filter _ _ _
  rw [filtered]
  cases s.symbol? x <;> cases symbols.isField x <;> rfl

namespace Rule

open Eval

variable {r : Routine} {c : Situation} {s t u : State} {n m k : Numbering} {l rest : List Argument}
  {a : Argument} {x : SymbolId}

/-- From `s` and `n` to `t` and `m`, what the arguments reach is bound to new values. -/
structure Renews (r : Routine) (l : List Argument) (s : State) (n : Numbering) (t : State)
    (m : Numbering) : Prop where
  facts : t.facts = s.facts
  created : n.created ≤ m.created
  kept {x : SymbolId} : (∀ a ∈ l, s.storage? r a.value ≠ some x) → t.symbol? x = s.symbol? x
  renewed {x : SymbolId} {a : Argument} : a ∈ l → s.storage? r a.value = some x →
    ∃ v, t.symbol? x = some v ∧ n.created ≤ v.index

/-- What one argument reaches is bound before the others are looked at, which leaves alone what
these reach. -/
theorem Renews.cons (reached : s.storage? r a.value = some x)
    (bound : ∀ y, u.symbol? y = if y = x then some ⟨n.created⟩ else s.symbol? y)
    (captures : u.captures = s.captures) (facts : u.facts = s.facts)
    (created : k.created = n.created + 1) (others : Renews r rest u k t m) :
    Renews r (a :: rest) s n t m := by
  have same : ∀ i, u.storage? r i = s.storage? r i := by
    intro i
    apply State.storage?_congr
    intro slot
    rw [State.capture?, State.capture?, captures]
  have more : n.created ≤ k.created := by omega
  refine ⟨others.facts.trans facts, Nat.le_trans more others.created, ?_, ?_⟩
  · intro y unreached
    have other : y ≠ x := by
      rintro rfl
      exact unreached a List.mem_cons_self reached
    rw [others.kept fun b hb => same b.value ▸ unreached b (List.mem_cons_of_mem a hb), bound,
      if_neg other]
  · intro y b hb here
    by_cases again : ∃ b' ∈ rest, u.storage? r b'.value = some y
    · obtain ⟨b', hb', here'⟩ := again
      obtain ⟨v, new, le⟩ := others.renewed hb' here'
      exact ⟨v, new, Nat.le_trans more le⟩
    · have first : b = a := by
        rcases List.mem_cons.mp hb with first | hb
        · exact first
        · exact absurd ⟨b, hb, (same b.value).trans here⟩ again
      rw [first, reached] at here
      cases here
      refine ⟨⟨n.created⟩, ?_, Nat.le_refl _⟩
      rw [others.kept fun b' hb' here' => again ⟨b', hb', here'⟩, bound, if_pos rfl]

theorem leaves_renewArguments (r : Routine) (l : List Argument) (s : State) (n : Numbering) :
    (renewArguments r l s).Leaves n fun t m => Renews r l s n t m := by
  induction l generalizing s n with
  | nil => exact leaves_pure ⟨rfl, Nat.le_refl _, fun _ => rfl, fun ha => by cases ha⟩
  | cons a rest ih =>
    simp only [renewArguments]
    split
    · rename_i x reached
      refine (State.leaves_fresh n).bind ?_
      rintro v m ⟨rfl, created⟩
      refine (State.leaves_setOperation _ _ _ m).bind ?_
      rintro u k ⟨stays, _, facts, _, rfl⟩
      refine (ih u k).imp ?_
      intro t m' others
      refine others.cons reached ?_ stays.captures facts created
      intro y
      rw [stays.symbol?]
      exact Table.get?_insert _ _ _ _
    · rename_i unreached
      refine (ih s n).imp ?_
      intro t m others
      refine ⟨others.facts, others.created, ?_, ?_⟩
      · exact fun other => others.kept fun b hb => other b (List.mem_cons_of_mem a hb)
      · intro x b hb here
        rcases List.mem_cons.mp hb with rfl | hb
        · cases unreached.symm.trans here
        · exact others.renewed hb here

/-- What becomes of the symbols in `t`: those that are described as fields are unbound, those that
writable arguments reach are bound to new values, and the others stay. -/
structure Forgets (c : Situation) (n : Numbering) (t : State) : Prop where
  field {x : SymbolId} : c.symbols.isField x = true → t.symbol? x = none
  kept {x : SymbolId} : c.symbols.isField x = false → (∀ a ∈ c.operation.form.arguments,
    a.isWritable → c.state.storage? c.routine a.value ≠ some x) → t.symbol? x = c.state.symbol? x
  renewed {x : SymbolId} {a : Argument} : c.symbols.isField x = false →
    a ∈ c.operation.form.arguments → a.isWritable → c.state.storage? c.routine a.value = some x →
    ∃ v, t.symbol? x = some v ∧ n.created ≤ v.index

theorem Forgets.congr (forgets : Forgets c n s) (same : t.symbols = s.symbols) :
    Forgets c n t := by
  have symbol : ∀ x, t.symbol? x = s.symbol? x := fun x => by
    rw [State.symbol?, State.symbol?, same]
  exact ⟨fun field => (symbol _).trans (forgets.field field),
    fun other unreached => (symbol _).trans (forgets.kept other unreached),
    fun other ha writable reached => (symbol _).symm ▸ forgets.renewed other ha writable reached⟩

/-- A symbol keeps its value exactly if it is not described as a field and not reached. -/
theorem Forgets.kept_iff (forgets : Forgets c n t) (below : c.state.Below n.created) {v : Value}
    (bound : c.state.symbol? x = some v) : t.symbol? x = some v ↔
      c.symbols.isField x = false ∧ ∀ a ∈ c.operation.form.arguments, a.isWritable →
        c.state.storage? c.routine a.value ≠ some x := by
  constructor
  · intro kept
    have other : c.symbols.isField x = false := by
      by_contra field
      have unbound := forgets.field (by simpa using field)
      cases unbound.symm.trans kept
    refine ⟨other, ?_⟩
    intro a ha writable reached
    obtain ⟨w, renewed, new⟩ := forgets.renewed other ha writable reached
    cases renewed.symm.trans kept
    exact absurd (below.symbol bound) (Nat.not_lt.mpr new)
  · rintro ⟨other, unreached⟩
    rw [forgets.kept other unreached, bound]

section Rule

theorem leaves_invalidate (stays : Stays c.state n s m) (args : c.operation.form.arguments = l) :
    (invalidate c s l).Leaves m fun t k =>
      Forgets c n t ∧ t.facts = s.facts ∧ m.created ≤ k.created := by
  simp only [invalidate]
  refine (leaves_renewArguments c.routine (l.filter Argument.isWritable) s m).bind ?_
  intro t k renews
  apply leaves_pure
  refine ⟨⟨?_, ?_, ?_⟩, renews.facts, renews.created⟩
  · intro x field
    rw [symbol?_forgetFields, if_pos field]
  · intro x other unreached
    rw [symbol?_forgetFields, if_neg (by simp [other]), renews.kept, stays.symbol?]
    intro a ha
    obtain ⟨ha, writable⟩ := List.mem_filter.mp ha
    rw [stays.storage?]
    exact unreached a (args ▸ ha) writable
  · intro x a other ha writable reached
    rw [symbol?_forgetFields, if_neg (by simp [other])]
    obtain ⟨v, bound, new⟩ := renews.renewed
      (List.mem_filter.mpr ⟨args ▸ ha, writable⟩) ((stays.storage? _ _).trans reached)
    exact ⟨v, bound, Nat.le_trans stays.created new⟩

theorem leaves_call {receiver : Option OpId} {method : String}
    (form : c.operation.form = .call receiver method l) :
    (call c).Leaves n fun t _ => Forgets c n t := by
  have args : c.operation.form.arguments = l := by simp [form, Form.arguments]
  simp only [call, form]
  apply leaves_receiver
  intro s m stays
  refine (leaves_invalidate stays args).bind ?_
  rintro t k ⟨forgets, _⟩
  refine (State.leaves_fresh k).bind ?_
  rintro v k' _
  exact (State.leaves_setOperation t _ v k').imp fun u _ set => forgets.congr set.1.symbols

theorem leaves_create {typeName : String} (form : c.operation.form = .create typeName l) :
    (create c).Leaves n fun t _ => Forgets c n t := by
  simp only [create, form]
  refine (leaves_invalidate (.refl c.state n) (by simp [form, Form.arguments])).bind ?_
  rintro t k ⟨forgets, _⟩
  refine (State.leaves_fresh k).bind ?_
  rintro v k' _
  refine (State.leaves_setOperation t _ v k').bind ?_
  rintro u k'' ⟨stays, _⟩
  apply leaves_feasible
  intro w learned
  exact forgets.congr ((State.sameButFacts_of_learn learned).symbols.trans stays.symbols)

/-- Nothing is known of what is created. -/
theorem feasible_create {typeName : String} (form : c.operation.form = .create typeName l)
    (below : c.state.Below n.created) : (create c n).1 ≠ .infeasible := by
  simp only [create, form]
  refine (leaves_invalidate (.refl c.state n) (by simp [form, Form.arguments])).feasible_bind
    (steady_invalidate c c.state l) ?_
  rintro t k ⟨_, facts, created⟩
  have unknown : t.facts.get? ⟨k.created⟩ = none := by
    rw [facts]
    exact (below.mono created).facts_fresh
  have rest := steady_bind (c := c) (s := t) (v := ⟨k.created⟩)
    (g := fun u => Eval.feasible (u.learn? ⟨k.created⟩ (.nullness .notNull)))
    fun u same => steady_learn (same ▸ unknown)
  exact rest k.fresh.2

theorem leaves_of_mayThrow (calls : c.operation.form.mayThrow) :
    ∃ f, Rule.builtin c.operation.tag = ofEval f ∧ ((f c).Leaves n fun t _ => Forgets c n t) ∧
      (c.state.Below n.created → (f c n).1 ≠ .infeasible) := by
  cases form : c.operation.form with
  | call => exact ⟨call, Model.builtin_tag form, leaves_call form, fun _ => steady_call form n⟩
  | create => exact ⟨create, Model.builtin_tag form, leaves_create form, feasible_create form⟩
  | _ => simp [form, Form.mayThrow] at calls

end Rule

/-- An operation that refers to no capture slot touches operations of the routine only. -/
theorem routine_of_names {i : OpId} {o : Operation} (closed : r.Closed)
    (found : r.operation? i = some o) (slotless : ∀ slot, o.form ≠ .captureRef slot)
    (symbols : Symbols) (own : s.routine = r.id) :
    ∀ j, (Situation.footprint ⟨o, s, r, symbols⟩).Names j → j.routine = s.routine := by
  have known : ∀ {j p}, r.operation? j = some p → j.routine = s.routine := fun known =>
    (Routine.operation?_eq_some_iff.mp known).1.trans own.symm
  have below : ∀ {j}, j ∈ o.form.children → j.routine = s.routine := by
    intro j child
    obtain ⟨p, there⟩ := closed.child found child
    exact known there
  rintro j ((rfl | target) | (child | ⟨slot, form, _⟩) | ⟨slot, form⟩)
  · rw [closed.label found]
    exact known found
  · exact below (Form.mem_children_of_renewed target)
  · exact below child
  · exact absurd form (slotless slot)
  · have form : o.form = .capture slot j := form
    exact below (by simp [form, Form.children])

/-- A call touches operations of the routine only. -/
theorem routine_of_names_of_mayThrow {i : OpId} {o : Operation} (closed : r.Closed)
    (found : r.operation? i = some o) (calls : o.form.mayThrow) (symbols : Symbols)
    (own : s.routine = r.id) : ∀ j, (Situation.footprint ⟨o, s, r, symbols⟩).Names j →
      j.routine = s.routine := by
  refine routine_of_names closed found ?_ symbols own
  intro slot form
  simp [form, Form.mayThrow] at calls

/-- A call or a creation leaves no symbol bound that is described as a field. So if all symbols that
occur as fields are described as fields, none of them keeps its value. A call or a creation has one
successor where its values are new, and there a symbol keeps its value exactly if it is not
described as a field and no writable argument reaches it. Looking for what the arguments reach comes
to an end if they are trees, as are all evaluated operations. -/
theorem process_forgets_fields {outline : Outline} (accepted : Routine.ofOutline outline = .ok r)
    {i : OpId} {o : Operation} (found : r.operation? i = some o) (calls : o.form.mayThrow)
    (symbols : Symbols) {s : State} (own : s.routine = r.id) (n : Numbering) :
    (∀ states, (Semantics.builtin.process ⟨o, s, r, symbols⟩ n).1 = .ok states → ∀ t ∈ states,
      (∀ x, symbols.isField x → t.symbol? x = none) ∧
      ((∀ x, r.HasField x → symbols.isField x) → ∀ x v, r.HasField x → s.symbol? x = some v →
        t.symbol? x ≠ some v)) ∧
    (s.Below n.created → ∃ t, (Semantics.builtin.process ⟨o, s, r, symbols⟩ n).1 = .ok [t] ∧
      ∀ x v, s.symbol? x = some v → (t.symbol? x = some v ↔ symbols.isField x = false ∧
        ∀ a ∈ o.form.arguments, a.isWritable → s.storage? r a.value ≠ some x)) ∧
    ∀ a ∈ o.form.arguments, a.isWritable → s.Grounded r a.value → s.Resolves r a.value := by
  obtain ⟨f, meaning, leaves, feasible⟩ :=
    leaves_of_mayThrow (c := ⟨o, s, r, symbols⟩) (n := n) calls
  have forgets : ∀ states, (Semantics.builtin.process ⟨o, s, r, symbols⟩ n).1 = .ok states →
      ∀ t ∈ states, Forgets ⟨o, s, r, symbols⟩ n t :=
    fun states answered => leaves_of_process meaning leaves (Prod.ext answered rfl)
  refine ⟨?_, ?_, fun a _ _ grounded => grounded.resolves⟩
  · intro states answered t mem
    have unbound : ∀ x, symbols.isField x → t.symbol? x = none :=
      fun x field => (forgets states answered t mem).field field
    refine ⟨unbound, ?_⟩
    intro described x v occurs _ kept
    cases (unbound x (described x occurs)).symm.trans kept
  · intro below
    have names := routine_of_names_of_mayThrow (Outline.closed accepted) found calls symbols own
    obtain ⟨t, answered, _⟩ := process_feasible names meaning (feasible below)
    refine ⟨t, answered, ?_⟩
    intro x v bound
    exact (forgets [t] answered t List.mem_cons_self).kept_iff below bound

/-- A field is read, and then something is called. -/
def mutating : Outline where
  id := ⟨0⟩
  name := "mutating"
  blocks := #[⟨⟨0⟩, [⟨⟨0⟩, 1⟩, ⟨⟨0⟩, 2⟩], .leave none, none⟩]
  operations := #[⟨⟨⟨0⟩, 0⟩, .this, none⟩, ⟨⟨⟨0⟩, 1⟩, .fieldRef (some ⟨⟨0⟩, 0⟩) ⟨0⟩, none⟩,
    ⟨⟨⟨0⟩, 2⟩, .call none "Mutate" [], none⟩]
  closures := []

/-- The field was read. -/
def mutatingState : State :=
  { State.entry ⟨0⟩ with symbols := Table.empty.insert ⟨0⟩ ⟨0⟩ }

/-- The call forgets the field if it is described as one. -/
theorem process_forgets_fields_mutating : ∃ r t, Routine.ofOutline mutating = .ok r ∧
    r.HasField ⟨0⟩ ∧ mutatingState.symbol? ⟨0⟩ = some ⟨0⟩ ∧
    (Semantics.builtin.process ⟨⟨⟨⟨0⟩, 2⟩, .call none "Mutate" [], none⟩, mutatingState, r,
      ⟨fun x => some ⟨x, "count", .field false, true⟩⟩⟩ ⟨1, []⟩).1 = .ok [t] ∧
    t.symbol? ⟨0⟩ ≠ some ⟨0⟩ := by
  refine ⟨_, _, rfl, ⟨_, Array.mem_of_getElem? (i := 1) rfl, _, rfl⟩, rfl, rfl, ?_⟩
  have accepted : Routine.ofOutline mutating = .ok _ := rfl
  have forgets := process_forgets_fields accepted (i := ⟨⟨0⟩, 2⟩) rfl rfl
    ⟨fun x => some ⟨x, "count", .field false, true⟩⟩ (s := mutatingState) rfl ⟨1, []⟩
  refine (forgets.1 _ rfl _ List.mem_cons_self).2 (fun _ _ => rfl) ⟨0⟩ ⟨0⟩ ?_ rfl
  exact ⟨_, Array.mem_of_getElem? (i := 1) rfl, _, rfl⟩

/-- The call keeps the field if nothing describes it. -/
theorem process_keeps_undescribed_field : ∃ r t, Routine.ofOutline mutating = .ok r ∧
    r.HasField ⟨0⟩ ∧ mutatingState.symbol? ⟨0⟩ = some ⟨0⟩ ∧
    (Semantics.builtin.process ⟨⟨⟨⟨0⟩, 2⟩, .call none "Mutate" [], none⟩, mutatingState, r,
      ⟨fun _ => none⟩⟩ ⟨1, []⟩).1 = .ok [t] ∧
    t.symbol? ⟨0⟩ = some ⟨0⟩ :=
  ⟨_, _, rfl, ⟨_, Array.mem_of_getElem? (i := 1) rfl, _, rfl⟩, rfl, rfl, rfl⟩

end Rule

end SymbolicExecution
