import SymbolicExecution.Proofs.Footprint.Result

/-!
# What writes store and reads give

An assignment, a compound assignment or an increment computes a value and binds the symbol that its
target reaches to it; no other symbol changes. A reference that is read gives the value that its
symbol is bound to, or a new one.
-/

namespace SymbolicExecution

/-- The location that the form writes. -/
def Form.target? : Form → Option OpId
  | .assign target _ | .compound _ target _ | .step target _ _ => some target
  | _ => none

namespace State

variable {s t : State} {r : Routine} {i target : OpId} {v : Value} {n m : Numbering}

theorem symbol?_write (s : State) (r : Routine) (target : OpId) (v : Value) (x : SymbolId) :
    (s.write r target v).symbol? x =
      if s.storage? r target = some x then some v else s.symbol? x := by
  simp only [write]
  cases s.storage? r target with
  | none => rfl
  | some y =>
    have inserted : (s.setSymbol y v).symbol? x = if x = y then some v else s.symbol? x :=
      Table.get?_insert _ _ _ _
    rw [inserted]
    simp only [Option.some.injEq, eq_comm]

theorem operation?_write (s : State) (r : Routine) (target : OpId) (v : Value) (i : OpId) :
    (s.write r target v).operation? i = s.operation? i := by
  simp only [write]
  split
  · rfl
  · rfl

theorem routine_write (s : State) (r : Routine) (target : OpId) (v : Value) :
    (s.write r target v).routine = s.routine := by
  simp only [write]
  split
  · rfl
  · rfl

/-- An operation that passes its storage on to none reaches the owner of the symbol it names. -/
theorem storage?_of_last (last : s.passedTo? r i = none) :
    s.storage? r i = (r.namedSymbol? i).bind r.owner? := by
  have reached : follow? (s.passedTo? r) r.hops i = some i := by
    simp only [Routine.hops, follow?, last]
  simp only [storage?, reached]
  rfl

/-- A reference to a field reaches the symbol of the field if it goes through `this`. -/
theorem storage?_of_fieldRef {p : Operation} {receiver : OpId} {x : SymbolId}
    (found : r.operation? i = some p) (form : p.form = .fieldRef (some receiver) x) :
    s.storage? r i = if r.isThis receiver then r.owner? x else none := by
  rw [storage?_of_last (by simp [passedTo?, found, form])]
  cases direct : r.isThis receiver with
  | false => simp [Routine.namedSymbol?, found, form, direct]
  | true => simp [Routine.namedSymbol?, found, form, direct]

/-- A local reference reaches the owner of the symbol that it names. -/
theorem storage?_of_localRef {p : Operation} {x : SymbolId} (found : r.operation? i = some p)
    (form : p.form = .localRef x) : s.storage? r i = r.owner? x := by
  rw [storage?_of_last (by simp [passedTo?, found, form])]
  simp [Routine.namedSymbol?, found, form]

end State

theorem Stays.write {s t : State} {n m : Numbering} (stays : Stays s n t m) (r : Routine)
    (target : OpId) (v : Value) : (t.write r target v).symbols = (s.write r target v).symbols := by
  simp only [State.write, stays.storage?]
  cases s.storage? r target with
  | none => exact stays.symbols
  | some x => exact congrArg (Table.insert · x v) stays.symbols

namespace Rule

open Eval

variable {c : Situation} {s : State} {n m : Numbering} {target : OpId}

/-- The value that is written, and the state that it is written to. -/
def computed (c : Situation) : Eval (State × Value) :=
  match c.operation.form with
  | .assign _ value => operand c.state value
  | .compound operator target value => do
    let (s, old) ← operand c.state target
    let (s, v) ← operand s value
    binaryValue s operator old v
  | .step target down _ => do
    let (s, old) ← operand c.state target
    let (s, one) ← literalValue s (.int 1)
    binaryValue s (if down then .subtract else .add) old one
  | _ => c.refuse "expected a write"

theorem leaves_computed (c : Situation) (n : Numbering) :
    (computed c).Leaves n fun a m => Stays c.state n a.1 m := by
  simp only [computed]
  split
  · exact (State.leaves_operand c.state _ n).imp fun _ _ left => left.1
  · refine (State.leaves_operand c.state _ n).bind ?_
    rintro ⟨s, old⟩ m ⟨stays, _, _⟩
    refine (State.leaves_operand s _ m).bind ?_
    rintro ⟨t, v⟩ k ⟨stays', _, _⟩
    refine (State.leaves_binaryValue t _ old v k).imp ?_
    rintro _ _ ⟨same, _, grows⟩
    exact (stays.trans stays').trans (.ofFacts same grows.created_le)
  · refine (State.leaves_operand c.state _ n).bind ?_
    rintro ⟨s, old⟩ m ⟨stays, _, _⟩
    refine (State.leaves_literalValue s _ m).bind ?_
    rintro ⟨t, one⟩ k ⟨same, _, grows⟩
    refine (State.leaves_binaryValue t _ old one k).imp ?_
    rintro _ _ ⟨same', _, grows'⟩
    exact stays.trans (.ofFacts (same.trans same') (grows.trans grows').created_le)
  · exact fun _ _ same => nomatch same

/-- In `t` the symbol that the target reaches is bound to the computed value, the others stay. -/
def Writes (c : Situation) (n : Numbering) (target : OpId) (t : State) : Prop :=
  ∃ s v, (computed c n).1 = .result (s, v) ∧
    t.symbols = (c.state.write c.routine target v).symbols

theorem Writes.symbol? {t : State} (writes : Writes c n target t) : ∃ s v,
    (computed c n).1 = .result (s, v) ∧ ∀ x, t.symbol? x =
      if c.state.storage? c.routine target = some x then some v else c.state.symbol? x := by
  obtain ⟨s, v, value, symbols⟩ := writes
  refine ⟨s, v, value, ?_⟩
  intro x
  rw [← State.symbol?_write, State.symbol?, State.symbol?, symbols]

/-- What is computed is written if the rest of the evaluation writes it. -/
theorem leaves_write {g : State × Value → Eval State} (next : ∀ s v m, (g (s, v)).Leaves m
      fun t _ => t.symbols = (s.write c.routine target v).symbols) :
    (computed c >>= g).Leaves n fun t _ => Writes c n target t := by
  refine (leaves_self _ n).bind ?_
  rintro ⟨s, v⟩ m value
  have stays := leaves_computed c n _ _ value
  refine (next s v m).imp ?_
  intro t _ written
  exact ⟨s, v, congrArg Prod.fst value, written.trans (stays.write c.routine target v)⟩

/-- What is stored is the value of the operation, too. -/
theorem leaves_store (c : Situation) (s : State) (target : OpId) (v : Value) (n : Numbering) :
    (store c s target v).Leaves n fun t m =>
      t.symbols = (s.write c.routine target v).symbols ∧
      t.operation? c.operation.id = some v ∧ t.routine = c.operation.id.routine ∧ m = n := by
  simp only [store]
  refine (State.leaves_setOperation s target v n).bind ?_
  rintro t m ⟨stays, _, _, _, rfl⟩
  refine (leaves_bind c t v m).bind ?_
  rintro _ k ⟨own, rfl, rfl⟩
  have given : Stays s k { t with operations := t.operations.insert c.operation.id v } k :=
    ⟨stays.symbols, stays.captures, Nat.le_refl _⟩
  apply leaves_pure
  refine ⟨given.write c.routine target v, ?_, ?_, rfl⟩
  · rw [State.operation?_write, State.operation?, Table.get?_insert, if_pos rfl]
  · exact (State.routine_write _ _ _ _).trans own

theorem assign_eq {value : OpId} (form : c.operation.form = .assign target value) :
    assign c = computed c >>= fun (s, v) => store c s target v := by
  simp only [assign, computed, form]

theorem compound_eq {operator : BinOp} {value : OpId}
    (form : c.operation.form = .compound operator target value) :
    compound c = computed c >>= fun (s, v) => store c s target v := by
  simp only [compound, computed, form, bind_assoc]

theorem leaves_assign {value : OpId} (form : c.operation.form = .assign target value) :
    (assign c).Leaves n fun t _ => Writes c n target t := by
  rw [assign_eq form]
  exact leaves_write fun s v m => (leaves_store c s target v m).imp fun _ _ stored => stored.1

theorem leaves_compound {operator : BinOp} {value : OpId}
    (form : c.operation.form = .compound operator target value) :
    (compound c).Leaves n fun t _ => Writes c n target t := by
  rw [compound_eq form]
  exact leaves_write fun s v m => (leaves_store c s target v m).imp fun _ _ stored => stored.1

/-- What is written is the new value, also where the operation itself gets the old one. -/
theorem leaves_step {down postfixed : Bool}
    (form : c.operation.form = .step target down postfixed) :
    (step c).Leaves n fun t _ => Writes c n target t := by
  simp only [step, form]
  refine (leaves_self _ n).bind ?_
  rintro ⟨s, old⟩ m first
  refine (leaves_self _ m).bind ?_
  rintro ⟨t, one⟩ m' second
  refine (leaves_self _ m').bind ?_
  rintro ⟨u, new⟩ k third
  have value : computed c n = (.result (u, new), k) := by
    simp only [computed, form]
    rw [bind_of_result first, bind_of_result second, third]
  have stays := leaves_computed c n _ _ value
  refine (State.leaves_setOperation _ _ _ k).imp ?_
  rintro w _ ⟨kept, _⟩
  exact ⟨u, new, congrArg Prod.fst value, kept.symbols.trans (stays.write c.routine target new)⟩

/-- The successors of a write bind the symbol that its target reaches to the computed value. -/
theorem leaves_target (writes : c.operation.form.target? = some target) :
    ∃ f, Rule.builtin c.operation.tag = ofEval f ∧
      (f c).Leaves n fun t _ => Writes c n target t := by
  cases form : c.operation.form with
  | assign =>
    simp only [form, Form.target?, Option.some.injEq] at writes
    subst writes
    exact ⟨assign, Model.builtin_tag form, leaves_assign form⟩
  | compound =>
    simp only [form, Form.target?, Option.some.injEq] at writes
    subst writes
    exact ⟨compound, Model.builtin_tag form, leaves_compound form⟩
  | step =>
    simp only [form, Form.target?, Option.some.injEq] at writes
    subst writes
    exact ⟨step, Model.builtin_tag form, leaves_step form⟩
  | _ => simp [form, Form.target?] at writes

section Read

/-- The value that the symbol of the operation is bound to. -/
def bound? (c : Situation) : Option Value :=
  (c.state.storage? c.routine c.operation.id).bind c.state.symbol?

/-- In `t` the operation has the value of its symbol or, where that is unbound, a new one. -/
def Reads (c : Situation) (n : Numbering) (t : State) : Prop :=
  ∃ w, t.operation? c.operation.id = some w ∧
    (bound? c = some w ∨ bound? c = none ∧ n.created ≤ w.index)

theorem leaves_learnDeclared (c : Situation) (s : State) (x : SymbolId) (v : Value)
    (n : Numbering) : (learnDeclared c s x v).Leaves n fun t _ => s.SameButFacts t := by
  simp only [learnDeclared]
  apply leaves_ite
  · exact fun _ => leaves_feasible fun t learned => State.sameButFacts_of_learn learned
  · exact fun _ => leaves_pure (.refl s)

theorem leaves_readStorage (stays : Stays c.state n s m) (x : SymbolId) :
    (readStorage c s x).Leaves m fun t _ => Reads c n t := by
  have storage := stays.storage? c.routine c.operation.id
  have unbound : bound? c = none → ∀ (g : State → Value → State) y,
      (∀ t v, (g t v).operations = t.operations) → (do
        let v ← Eval.fresh
        let t ← c.bind s v
        learnDeclared c (g t v) y v).Leaves m fun t _ => Reads c n t := by
    intro none g y kept
    refine (State.leaves_fresh m).bind ?_
    rintro v k ⟨rfl, _⟩
    refine (State.leaves_setOperation s c.operation.id _ k).bind ?_
    rintro t k' ⟨_, known, _⟩
    refine (leaves_learnDeclared c (g t _) y _ k').imp ?_
    intro u _ same
    refine ⟨⟨m.created⟩, ?_, Or.inr ⟨none, stays.created⟩⟩
    rw [same.operation?, State.operation?, kept]
    exact known
  simp only [readStorage]
  split
  · rename_i tracked reached
    rw [storage] at reached
    simp only [readSymbol]
    split
    · rename_i v known
      rw [stays.symbol?] at known
      refine (State.leaves_setOperation s c.operation.id v m).imp ?_
      rintro t k ⟨_, given, _⟩
      exact ⟨v, given, Or.inl (by rw [bound?, reached]; exact known)⟩
    · rename_i none
      rw [stays.symbol?] at none
      exact unbound (by rw [bound?, reached]; exact none)
        (fun t v => t.setSymbol tracked v) tracked fun _ _ => rfl
  · rename_i untracked
    rw [storage] at untracked
    exact unbound (by rw [bound?, untracked]; rfl) (fun t _ => t) x fun _ _ => rfl

theorem leaves_fieldRef {receiver : Option OpId} {x : SymbolId}
    (form : c.operation.form = .fieldRef receiver x) (read : c.isWritten = false) :
    (fieldRef c).Leaves n fun t _ => Reads c n t := by
  simp only [fieldRef, form, read]
  exact leaves_receiver fun s m stays => leaves_readStorage stays x

end Read

end Rule

end SymbolicExecution
