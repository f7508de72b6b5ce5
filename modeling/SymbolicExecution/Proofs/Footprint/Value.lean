import SymbolicExecution.Proofs.Footprint.Result

/-!
# What gets a value

A rule that comes to a state has given its operation a value there, unless the operation is only
written or declares a symbol without an initial value. What has a value keeps one.
-/

namespace SymbolicExecution

/-- The form declares a symbol without an initial value. -/
def Form.isBare : Form → Bool
  | .declare _ none => true
  | _ => false

namespace State

variable {f : Footprint} {s t : State} {i : OpId}

/-- The operation has a value in the state. -/
def Knows (s : State) (i : OpId) : Prop := ∃ v, s.operation? i = some v

theorem knows_iff : s.Knows i ↔ (s.operation? i).isSome := Option.isSome_iff_exists.symm

instance (s : State) (i : OpId) : Decidable (s.Knows i) := decidable_of_iff _ knows_iff.symm

theorem knows_congr (same : t.operation? i = s.operation? i) : t.Knows i ↔ s.Knows i := by
  rw [Knows, Knows, same]

theorem knows_insert (s : State) (i j : OpId) (v : Value) :
    State.Knows { s with operations := s.operations.insert i v } j ↔ j = i ∨ s.Knows j := by
  by_cases same : j = i
  · simp [Knows, operation?, Table.get?_insert, same]
  · simp [Knows, operation?, Table.get?_insert, same]

/-- No change takes a value from an operation. -/
theorem Becomes.knows (becomes : s.Becomes f t) (known : s.Knows i) : t.Knows i := by
  induction becomes with
  | refl => exact known
  | tail _ touches ih =>
    cases touches with
    | give | fill => exact (knows_insert _ _ _ _).mpr (Or.inr ih)
    | capture | bind => exact ih
    | learn learned => exact (knows_congr ((sameButFacts_of_learn learned).operation? i)).mpr ih

/-- The operations that are recorded keep their values across a reset. -/
theorem Knows.forgetOperations {slot : CaptureId} (known : s.Knows i)
    (captured : s.capture? slot = some i) : s.forgetOperations.Knows i := by
  obtain ⟨v, known⟩ := known
  have mem : s.captures.values.contains i = true := Table.contains_values.mpr ⟨slot, captured⟩
  refine ⟨v, ?_⟩
  simp only [operation?, State.forgetOperations, Table.get?_filter, Option.filter_eq_some_iff]
  exact ⟨known, mem⟩

end State

namespace Rule

open Eval

variable {α : Type} {c : Situation} {s : State} {i : OpId} {v : Value}

/-- Where the evaluation comes to a state, it gives the operation a value. -/
def Values (c : Situation) (x : Eval State) : Prop :=
  ∀ n, x.Leaves n fun t _ => t.Knows c.operation.id

section Part

theorem values_pure (known : s.Knows c.operation.id) : Values c (pure s) :=
  fun _ => leaves_pure known

theorem values_of_learn (known : s.Knows c.operation.id) (fact : Fact) :
    Values c (Eval.feasible (s.learn? v fact)) := by
  intro n
  apply leaves_feasible
  intro t learned
  exact (State.knows_congr ((State.sameButFacts_of_learn learned).operation? _)).mpr known

theorem values_of_settle (known : s.Knows c.operation.id) (fact : Option Fact) :
    Values c (Eval.feasible (s.settle? v fact)) := by
  cases fact with
  | none => exact values_pure known
  | some fact => exact values_of_learn known fact

theorem Values.after {x : Eval α} {f : α → Eval State} (next : ∀ a, Values c (f a)) :
    Values c (x >>= f) := by
  intro n
  have any : x.Leaves n fun _ _ => True := fun _ _ _ => trivial
  exact any.bind fun a m _ => next a m

/-- Once the operation has its value, the rest has to keep it. -/
theorem values_bind_then {g : State → Eval State}
    (next : ∀ t, t.Knows c.operation.id → Values c (g t)) :
    Values c (do let t ← c.bind s v; g t) := by
  intro n
  refine (State.leaves_setOperation s c.operation.id v n).bind ?_
  rintro t m ⟨_, known, _, _⟩
  exact next t ⟨v, known⟩ m

theorem values_bind (s : State) (v : Value) : Values c (c.bind s v) := by
  have last := values_bind_then (c := c) (s := s) (v := v) fun t known => values_pure known
  intro n t m result
  exact last n t m (by rw [bind_of_result result]; rfl)

theorem values_unknown (s : State) : Values c (do let v ← Eval.fresh; c.bind s v) :=
  .after fun v => values_bind s v

theorem values_copy (s : State) (i : OpId) :
    Values c (do let (s, v) ← operand s i; c.bind s v) :=
  .after fun (t, v) => values_bind t v

theorem values_derived (s : State) (i : OpId) (term : Value → Term)
    (decided : State → Value → Option Fact) :
    Values c (do
      let (s, a) ← operand s i
      let v ← Eval.intern (term a)
      let s ← c.bind s v
      Eval.feasible (s.settle? v (decided s a))) := by
  apply Values.after
  rintro ⟨t, a⟩
  apply Values.after
  intro v
  exact values_bind_then fun u known => values_of_settle known (decided u a)

theorem values_learnDeclared (known : s.Knows c.operation.id) (x : SymbolId) (v : Value) :
    Values c (learnDeclared c s x v) := by
  simp only [learnDeclared]
  split
  · exact values_of_learn known _
  · exact values_pure known

theorem values_readStorage (s : State) (x : SymbolId) : Values c (readStorage c s x) := by
  simp only [readStorage]
  split
  · rename_i tracked _
    simp only [readSymbol]
    split
    · exact values_bind s _
    · apply Values.after
      intro v
      exact values_bind_then fun t known =>
        values_learnDeclared (s := t.setSymbol tracked v) known tracked v
  · simp only [readUntracked]
    apply Values.after
    intro v
    exact values_bind_then fun t known => values_learnDeclared known x v

theorem values_store (s : State) (target : OpId) (v : Value) : Values c (store c s target v) := by
  simp only [store]
  apply Values.after
  intro t
  apply values_bind_then
  intro u known
  apply values_pure
  simp only [State.write]
  split
  · exact known
  · exact known

end Part

section Location

variable (read : c.isWritten = false)

include read

theorem values_symbolRef {x : SymbolId}
    (form : c.operation.form = .localRef x ∨ c.operation.form = .paramRef x) :
    Values c (symbolRef c) := by
  rcases form with form | form
  · simp only [symbolRef, form, read]
    exact values_readStorage c.state x
  · simp only [symbolRef, form, read]
    exact values_readStorage c.state x

theorem values_fieldRef {receiver : Option OpId} {x : SymbolId}
    (form : c.operation.form = .fieldRef receiver x) : Values c (fieldRef c) := by
  simp only [fieldRef, form, read]
  cases receiver with
  | none => exact .after fun t => values_readStorage t x
  | some i => exact .after fun _ => .after fun t => values_readStorage t x

theorem values_element {array index : OpId} (form : c.operation.form = .element array index) :
    Values c (element c) := by
  simp only [element, form, read]
  exact .after fun _ => .after fun _ => values_unknown _

theorem values_passThrough {inner : OpId}
    (form : c.operation.form = .paren inner ∨ c.operation.form = .convert inner) :
    Values c (passThrough c) := by
  rcases form with form | form
  · simp only [passThrough, form, read]
    exact values_copy c.state inner
  · simp only [passThrough, form, read]
    exact values_copy c.state inner

theorem values_captureRef {slot : CaptureId} (form : c.operation.form = .captureRef slot) :
    Values c (captureRef c) := by
  simp only [captureRef, form, read, Bool.false_eq_true, if_false]
  split
  · exact values_copy c.state _
  · exact values_unknown c.state

end Location

section Other

theorem values_capture {slot : CaptureId} {value : OpId}
    (form : c.operation.form = .capture slot value) (read : c.routine.isWritten value = false) :
    Values c (capture c) := by
  simp only [capture, form, read]
  exact .after fun t => values_copy t value

theorem values_assign {target value : OpId} (form : c.operation.form = .assign target value) :
    Values c (assign c) := by
  simp only [assign, form]
  apply Values.after
  rintro ⟨s, v⟩
  exact values_store s target v

theorem values_compound {operator : BinOp} {target value : OpId}
    (form : c.operation.form = .compound operator target value) : Values c (compound c) := by
  simp only [compound, form]
  refine .after fun _ => .after fun _ => .after ?_
  rintro ⟨s, new⟩
  exact values_store s target new

theorem values_step {target : OpId} {down postfixed : Bool}
    (form : c.operation.form = .step target down postfixed) : Values c (step c) := by
  simp only [step, form]
  refine .after fun _ => .after fun _ => .after ?_
  rintro ⟨s, new⟩
  exact values_bind _ _

theorem values_declare {x : SymbolId} {initial : OpId}
    (form : c.operation.form = .declare x (some initial)) : Values c (declare c) := by
  simp only [declare, form]
  apply Values.after
  rintro ⟨s, v⟩
  exact values_bind_then fun t known => values_pure (s := t.setSymbol x v) known

theorem values_literal {l : Literal} (form : c.operation.form = .literal l) :
    Values c (literal c) := by
  simp only [literal, form]
  apply Values.after
  rintro ⟨s, v⟩
  exact values_bind s v

theorem values_this : Values c (this c) := by
  simp only [this]
  exact .after fun v => values_bind_then fun t known => values_of_learn known _

theorem values_binary {operator : BinOp} {left right : OpId}
    (form : c.operation.form = .binary operator left right) : Values c (binary c) := by
  simp only [binary, form]
  refine .after fun _ => .after fun _ => .after ?_
  rintro ⟨s, v⟩
  exact values_bind s v

theorem values_unary {operator : UnOp} (form : c.operation.form = .unary operator i) :
    Values c (unary c) := by
  simp only [unary, form]
  exact values_derived c.state i (Term.unary operator) fun s a => s.foldUnary? operator a

theorem values_isType {typeName : String} (form : c.operation.form = .isType i typeName) :
    Values c (isType c) := by
  simp only [isType, form]
  exact values_derived c.state i (Term.isType typeName)
    fun s a => if s.nullness? a = some .null then some (.truth false) else none

theorem values_isPattern {p : Pattern} (form : c.operation.form = .isPattern i p) :
    Values c (isPattern c) := by
  simp only [isPattern, form]
  exact values_derived c.state i (Term.isPattern p) fun s a => (s.matches? a p).map Fact.truth

theorem values_call {receiver : Option OpId} {method : String} {l : List Argument}
    (form : c.operation.form = .call receiver method l) : Values c (call c) := by
  simp only [call, form]
  cases receiver with
  | none => exact .after fun _ => .after fun t => values_unknown t
  | some i => exact .after fun _ => .after fun _ => .after fun t => values_unknown t

theorem values_create {typeName : String} {l : List Argument}
    (form : c.operation.form = .create typeName l) : Values c (create c) := by
  simp only [create, form]
  exact .after fun _ => .after fun v => values_bind_then fun t known => values_of_learn known _

end Other

/-- The operation leaves a value: it is not only written, and neither does it declare a symbol
without an initial value nor capture what is only written. -/
structure Leaving (r : Routine) (o : Operation) : Prop where
  read : r.isWritten o.id = false
  initial : o.form.isBare = false
  captured {slot : CaptureId} {value : OpId} : o.form = .capture slot value →
    r.isWritten value = false

theorem values_builtin (leaving : Leaving c.routine c.operation) :
    ∃ f, Rule.builtin c.operation.tag = Rule.ofEval f ∧ Values c (f c) := by
  have read : c.isWritten = false := leaving.read
  have initial := leaving.initial
  cases form : c.operation.form with
  | literal => exact ⟨literal, Model.builtin_tag form, values_literal form⟩
  | localRef => exact ⟨symbolRef, Model.builtin_tag form, values_symbolRef read (Or.inl form)⟩
  | paramRef => exact ⟨symbolRef, Model.builtin_tag form, values_symbolRef read (Or.inr form)⟩
  | fieldRef => exact ⟨fieldRef, Model.builtin_tag form, values_fieldRef read form⟩
  | this => exact ⟨this, Model.builtin_tag form, values_this⟩
  | element => exact ⟨element, Model.builtin_tag form, values_element read form⟩
  | paren => exact ⟨passThrough, Model.builtin_tag form, values_passThrough read (Or.inl form)⟩
  | convert => exact ⟨passThrough, Model.builtin_tag form, values_passThrough read (Or.inr form)⟩
  | capture => exact ⟨capture, Model.builtin_tag form, values_capture form (leaving.captured form)⟩
  | captureRef => exact ⟨captureRef, Model.builtin_tag form, values_captureRef read form⟩
  | assign => exact ⟨assign, Model.builtin_tag form, values_assign form⟩
  | compound => exact ⟨compound, Model.builtin_tag form, values_compound form⟩
  | step => exact ⟨step, Model.builtin_tag form, values_step form⟩
  | declare x initial =>
    cases initial with
    | none => simp [form, Form.isBare] at initial
    | some i => exact ⟨declare, Model.builtin_tag form, values_declare form⟩
  | binary => exact ⟨binary, Model.builtin_tag form, values_binary form⟩
  | unary => exact ⟨unary, Model.builtin_tag form, values_unary form⟩
  | call => exact ⟨call, Model.builtin_tag form, values_call form⟩
  | create => exact ⟨create, Model.builtin_tag form, values_create form⟩
  | isType => exact ⟨isType, Model.builtin_tag form, values_isType form⟩
  | isPattern => exact ⟨isPattern, Model.builtin_tag form, values_isPattern form⟩
  | other => exact ⟨unknown, Model.builtin_tag form, values_unknown c.state⟩

/-- In every successor the operation has a value. -/
theorem process_knows (leaving : Leaving c.routine c.operation) {n : Numbering}
    {states : List State} (answered : (Semantics.builtin.process c n).1 = .ok states) :
    ∀ t ∈ states, t.Knows c.operation.id := by
  obtain ⟨f, meaning, values⟩ := values_builtin leaving
  exact leaves_of_process meaning (values n) (Prod.ext answered rfl)

end Rule

end SymbolicExecution
