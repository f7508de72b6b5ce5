import SymbolicExecution.Proofs.Footprint.Evaluation
import SymbolicExecution.Proofs.Model.Rule

/-!
# What rules touch

A built-in rule touches the operation that it evaluates and those that the form of the operation
names. It refuses nothing as long as these are operations of the routine of the state; where they
are not, what it does not refuse is still within the same bounds.
-/

namespace SymbolicExecution

/-- The operations, besides itself, that an operation of the form gives a value. -/
def Form.renewed : Form → List OpId
  | .assign target _ | .compound _ target _ => [target]
  | .call _ _ arguments | .create _ arguments =>
    (arguments.filter Argument.isWritable).map Argument.value
  | _ => []

theorem Form.mem_children_of_renewed {f : Form} {i : OpId} (target : i ∈ f.renewed) :
    i ∈ f.children := by
  have written : ∀ arguments : List Argument,
      i ∈ (arguments.filter Argument.isWritable).map Argument.value →
      i ∈ arguments.map Argument.value :=
    fun _ passed => (List.filter_sublist.map Argument.value).mem passed
  cases f with
  | assign | compound =>
    rw [List.mem_singleton.mp target]
    exact List.mem_cons_self
  | call receiver method arguments => exact List.mem_append_right _ (written arguments target)
  | create typeName arguments => exact written arguments target
  | _ => cases target

namespace Situation

/-- The symbols that an operation binds or unbinds: an unbound one that it reads, one that its
target reaches, the one that it declares, and all that a call can reach. -/
def Rebinds (c : Situation) (x : SymbolId) : Prop :=
  match c.operation.form with
  | .localRef _ | .paramRef _ | .fieldRef _ _ =>
    c.state.storage? c.routine c.operation.id = some x ∧ c.state.symbol? x = none
  | .assign target _ | .compound _ target _ | .step target _ _ =>
    c.state.storage? c.routine target = some x
  | .declare y _ => x = y
  | .call _ _ arguments | .create _ arguments =>
    c.symbols.isField x ∨
      ∃ a ∈ arguments, a.isWritable ∧ c.state.storage? c.routine a.value = some x
  | _ => False

def footprint (c : Situation) : Footprint where
  gives i := i = c.operation.id ∨ i ∈ c.operation.form.renewed
  fills i := i ∈ c.operation.form.children ∨
    ∃ slot, c.operation.form = .captureRef slot ∧ c.state.capture? slot = some i
  captures slot i := c.operation.form = .capture slot i
  binds x := c.Rebinds x

end Situation

namespace Rule

open Eval

variable {lenient : Prop} {c : Situation} {s : State} {i : OpId}

/-- The rule comes to a state within the footprint. -/
abbrev Keeps (lenient : Prop) (c : Situation) (x : Eval State) : Prop :=
  x.Ensures lenient (c.state.Becomes c.footprint)

variable (own : ∀ i, c.footprint.Names i → lenient ∨ i.routine = c.state.routine)
  (before : c.state.Becomes c.footprint s)

section Part

include own before

theorem keeps_bind (v : Value) : Keeps lenient c (c.bind s v) :=
  before.setOperation (own _ (Or.inl (Or.inl rfl))) (Or.inl rfl) v

theorem keeps_unknown : Keeps lenient c (do let v ← Eval.fresh; c.bind s v) := by
  apply ensures_fresh.bind
  intro v _
  exact keeps_bind own before v

theorem ensures_child (child : i ∈ c.operation.form.children) :
    (operand s i).Ensures lenient fun a => c.state.Becomes c.footprint a.1 :=
  before.operand (own _ (Or.inr (Or.inl (Or.inl child)))) (Or.inr (Or.inl child))

/-- The operation gets the value of a child. -/
theorem keeps_copy (child : i ∈ c.operation.form.children) :
    Keeps lenient c (do let (s, v) ← operand s i; c.bind s v) := by
  apply (ensures_child own before child).bind
  rintro ⟨t, v⟩ becomes
  exact keeps_bind own becomes v

/-- The operation gets a value that is derived from that of a child. -/
theorem keeps_derived (child : i ∈ c.operation.form.children) (term : Value → Term)
    (decided : State → Value → Option Fact)
    (proper : ∀ t a fact, decided t a = some fact → fact.Proper) :
    Keeps lenient c (do
      let (s, a) ← operand s i
      let v ← Eval.intern (term a)
      let s ← c.bind s v
      Eval.feasible (s.settle? v (decided s a))) := by
  apply (ensures_child own before child).bind
  rintro ⟨t, a⟩ becomes
  apply (ensures_intern (term a)).bind
  intro v _
  apply (keeps_bind own becomes v).bind
  intro t' becomes'
  exact ensures_feasible fun u learned => becomes'.settle learned (proper t' a)

end Part

section Read

variable (still : ∀ slot i, ¬c.footprint.captures slot i)
  (reads : ∀ x, c.state.storage? c.routine c.operation.id = some x → c.state.symbol? x = none →
    c.footprint.binds x)

theorem keeps_learnDeclared (before : c.state.Becomes c.footprint s) (x : SymbolId) (v : Value) :
    Keeps lenient c (learnDeclared c s x v) :=
  ensures_ite (fun _ => ensures_feasible fun _ learned => before.learn learned trivial)
    fun _ => ensures_pure before

include own before still reads

theorem keeps_readStorage (x : SymbolId) : Keeps lenient c (readStorage c s x) := by
  simp only [readStorage]
  split
  · rename_i tracked reached
    rw [before.storage? still] at reached
    simp only [readSymbol]
    split
    · exact keeps_bind own before _
    · rename_i unbound
      have allowed : c.footprint.binds tracked := by
        rcases before.symbols tracked with same | bound
        · exact reads tracked reached (same ▸ unbound)
        · exact bound
      apply ensures_fresh.bind
      intro v _
      apply (keeps_bind own before v).bind
      intro t becomes
      exact keeps_learnDeclared (becomes.setSymbol allowed v) tracked v
  · simp only [readUntracked]
    apply ensures_fresh.bind
    intro v _
    apply (keeps_bind own before v).bind
    intro t becomes
    exact keeps_learnDeclared becomes x v

end Read

section Reference

include own

theorem keeps_symbolRef {x : SymbolId}
    (form : c.operation.form = .localRef x ∨ c.operation.form = .paramRef x) :
    Keeps lenient c (symbolRef c) := by
  have still : ∀ slot i, ¬c.footprint.captures slot i := by
    rcases form with form | form <;> simp [Situation.footprint, form]
  have read : Keeps lenient c (readStorage c c.state x) := by
    apply keeps_readStorage own (.refl _) still
    intro y reached unbound
    rcases form with form | form
    · simpa [Situation.footprint, Situation.Rebinds, form] using ⟨reached, unbound⟩
    · simpa [Situation.footprint, Situation.Rebinds, form] using ⟨reached, unbound⟩
  rcases form with form | form
  · simp only [symbolRef, form]
    exact ensures_ite (fun _ => ensures_pure (.refl _)) fun _ => read
  · simp only [symbolRef, form]
    exact ensures_ite (fun _ => ensures_pure (.refl _)) fun _ => read

/-- The receiver of an access, if there is one, is dereferenced before the evaluation goes on. -/
theorem keeps_receiver {g : State → Eval State} {receiver : Option OpId}
    (next : ∀ t, c.state.Becomes c.footprint t → Keeps lenient c (g t)) :
    (∀ i, receiver = some i → i ∈ c.operation.form.children) → Keeps lenient c
      (match receiver with
        | some i => do
          let (s, v) ← operand c.state i
          let s ← pure (s.dereference v)
          g s
        | none => do
          let s ← pure c.state
          g s) := by
  intro child
  cases receiver with
  | none =>
    apply (ensures_pure (P := c.state.Becomes c.footprint) (.refl _)).bind
    exact next
  | some i =>
    apply (ensures_child own (.refl _) (child i rfl)).bind
    rintro ⟨t, v⟩ becomes
    apply (ensures_pure (P := c.state.Becomes c.footprint) (becomes.dereference v)).bind
    exact next

theorem keeps_fieldRef {receiver : Option OpId} {x : SymbolId}
    (form : c.operation.form = .fieldRef receiver x) : Keeps lenient c (fieldRef c) := by
  simp only [fieldRef, form]
  refine keeps_receiver own ?_ (by simp [form, Form.children])
  intro t becomes
  apply ensures_ite (fun _ => ensures_pure becomes)
  intro _
  apply keeps_readStorage own becomes
  · simp [Situation.footprint, form]
  · intro y reached unbound
    simpa [Situation.footprint, Situation.Rebinds, form] using ⟨reached, unbound⟩

theorem keeps_element {array index : OpId} (form : c.operation.form = .element array index) :
    Keeps lenient c (element c) := by
  simp only [element, form]
  apply (ensures_child own (.refl _) (by simp [form, Form.children])).bind
  rintro ⟨s₁, v⟩ becomes
  apply (ensures_child own becomes (by simp [form, Form.children])).bind
  rintro ⟨s₂, w⟩ becomes'
  exact ensures_ite (fun _ => ensures_pure (becomes'.dereference v))
    fun _ => keeps_unknown own (becomes'.dereference v)

theorem keeps_passThrough {inner : OpId}
    (form : c.operation.form = .paren inner ∨ c.operation.form = .convert inner) :
    Keeps lenient c (passThrough c) := by
  have child : inner ∈ c.operation.form.children := by
    rcases form with form | form <;> simp [form, Form.children]
  rcases form with form | form
  · simp only [passThrough, form]
    exact ensures_ite (fun _ => ensures_pure (.refl _)) fun _ => keeps_copy own (.refl _) child
  · simp only [passThrough, form]
    exact ensures_ite (fun _ => ensures_pure (.refl _)) fun _ => keeps_copy own (.refl _) child

theorem keeps_capture {slot : CaptureId} {value : OpId}
    (form : c.operation.form = .capture slot value) : Keeps lenient c (capture c) := by
  have child : value ∈ c.operation.form.children := by simp [form, Form.children]
  have own' : lenient ∨ value.routine = c.state.routine := own _ (Or.inr (Or.inl (Or.inl child)))
  have captures : c.footprint.captures slot value := form
  simp only [capture, form]
  apply ((State.Becomes.refl c.state).setCapture own' captures).bind
  intro t becomes
  exact ensures_ite (fun _ => ensures_pure becomes) fun _ => keeps_copy own becomes child

theorem keeps_captureRef {slot : CaptureId} (form : c.operation.form = .captureRef slot) :
    Keeps lenient c (captureRef c) := by
  simp only [captureRef, form]
  apply ensures_ite (fun _ => ensures_pure (.refl _))
  intro _
  split
  · rename_i i captured
    have fills : c.footprint.fills i := Or.inr ⟨slot, form, captured⟩
    apply ((State.Becomes.refl c.state).operand (own i (Or.inr (Or.inl fills))) (Or.inr fills)).bind
    rintro ⟨t, v⟩ becomes
    exact keeps_bind own becomes v
  · exact keeps_unknown own (.refl _)

end Reference

section Assignment

include own

/-- A write gives its value to the target, to the operation and to the symbol that the target
reaches. -/
theorem keeps_store (before : c.state.Becomes c.footprint s)
    (still : ∀ slot i, ¬c.footprint.captures slot i) {target : OpId}
    (given : target ∈ c.operation.form.renewed)
    (binds : ∀ x, c.state.storage? c.routine target = some x → c.footprint.binds x) (v : Value) :
    Keeps lenient c (store c s target v) := by
  have gives : c.footprint.gives target := Or.inr given
  simp only [store]
  apply (before.setOperation (own target (Or.inl gives)) gives v).bind
  intro s₁ before₁
  apply (keeps_bind own before₁ v).bind
  intro s₂ before₂
  apply ensures_pure
  apply before₂.write
  intro x reached
  rw [before₂.storage? still] at reached
  exact binds x reached

theorem keeps_assign {target value : OpId} (form : c.operation.form = .assign target value) :
    Keeps lenient c (assign c) := by
  simp only [assign, form]
  apply (ensures_child own (.refl _) (by simp [form, Form.children])).bind
  rintro ⟨s₁, v⟩ before₁
  apply keeps_store own before₁
  · simp [Situation.footprint, form]
  · simp [form, Form.renewed]
  · simp [Situation.footprint, Situation.Rebinds, form]

theorem keeps_compound {operator : BinOp} {target value : OpId}
    (form : c.operation.form = .compound operator target value) : Keeps lenient c (compound c) := by
  simp only [compound, form]
  apply (ensures_child own (.refl _) (by simp [form, Form.children])).bind
  rintro ⟨s₁, old⟩ before₁
  apply (ensures_child own before₁ (by simp [form, Form.children])).bind
  rintro ⟨s₂, v⟩ before₂
  apply (before₂.binaryValue operator old v).bind
  rintro ⟨s₃, new⟩ before₃
  apply keeps_store own before₃
  · simp [Situation.footprint, form]
  · simp [form, Form.renewed]
  · simp [Situation.footprint, Situation.Rebinds, form]

theorem keeps_step {target : OpId} {down postfixed : Bool}
    (form : c.operation.form = .step target down postfixed) : Keeps lenient c (step c) := by
  simp only [step, form]
  apply (ensures_child own (.refl _) (by simp [form, Form.children])).bind
  rintro ⟨s₁, old⟩ before₁
  apply (before₁.literalValue (.int 1)).bind
  rintro ⟨s₂, one⟩ before₂
  apply (before₂.binaryValue (if down then .subtract else .add) old one).bind
  rintro ⟨s₃, new⟩ before₃
  have written : c.state.Becomes c.footprint (s₃.write c.routine target new) := by
    apply before₃.write
    intro x reached
    rw [before₃.storage? (by simp [Situation.footprint, form])] at reached
    simpa [Situation.footprint, Situation.Rebinds, form] using reached
  exact keeps_bind own written (if postfixed then old else new)

theorem keeps_declare {x : SymbolId} {initial : Option OpId}
    (form : c.operation.form = .declare x initial) : Keeps lenient c (declare c) := by
  have binds : c.footprint.binds x := by simp [Situation.footprint, Situation.Rebinds, form]
  cases initial with
  | none =>
    simp only [declare, form]
    exact ensures_pure ((State.Becomes.refl c.state).clearSymbol binds)
  | some i =>
    simp only [declare, form]
    apply (ensures_child own (.refl _) (by simp [form, Form.children])).bind
    rintro ⟨s₁, v⟩ before₁
    apply (keeps_bind own before₁ v).bind
    intro s₂ before₂
    exact ensures_pure (before₂.setSymbol binds v)

end Assignment

section Computation

include own

theorem keeps_literal {l : Literal} (form : c.operation.form = .literal l) :
    Keeps lenient c (literal c) := by
  simp only [literal, form]
  apply ((State.Becomes.refl c.state).literalValue l).bind
  rintro ⟨s₁, v⟩ before₁
  exact keeps_bind own before₁ v

theorem keeps_this : Keeps lenient c (this c) := by
  simp only [this]
  apply (ensures_intern .this).bind
  intro v _
  apply (keeps_bind own (.refl _) v).bind
  intro s₁ before₁
  exact ensures_feasible fun _ learned => before₁.learn learned trivial

theorem keeps_binary {operator : BinOp} {left right : OpId}
    (form : c.operation.form = .binary operator left right) : Keeps lenient c (binary c) := by
  simp only [binary, form]
  apply (ensures_child own (.refl _) (by simp [form, Form.children])).bind
  rintro ⟨s₁, a⟩ before₁
  apply (ensures_child own before₁ (by simp [form, Form.children])).bind
  rintro ⟨s₂, b⟩ before₂
  apply (before₂.binaryValue operator a b).bind
  rintro ⟨s₃, v⟩ before₃
  exact keeps_bind own before₃ v

theorem keeps_unary {operator : UnOp} (form : c.operation.form = .unary operator i) :
    Keeps lenient c (unary c) := by
  simp only [unary, form]
  exact keeps_derived own (.refl _) (by simp [form, Form.children]) (Term.unary operator)
    (fun s a => s.foldUnary? operator a) fun _ _ _ folded => Fact.proper_of_foldUnary? folded

theorem keeps_isType {typeName : String} (form : c.operation.form = .isType i typeName) :
    Keeps lenient c (isType c) := by
  simp only [isType, form]
  refine keeps_derived own (.refl _) (by simp [form, Form.children]) (Term.isType typeName)
    (fun s a => if s.nullness? a = some .null then some (.truth false) else none) ?_
  intro t a fact decided
  obtain ⟨_, ⟨⟩⟩ := Option.ite_none_right_eq_some.mp decided
  trivial

theorem keeps_isPattern {p : Pattern} (form : c.operation.form = .isPattern i p) :
    Keeps lenient c (isPattern c) := by
  simp only [isPattern, form]
  exact keeps_derived own (.refl _) (by simp [form, Form.children]) (Term.isPattern p)
    (fun s a => (s.matches? a p).map Fact.truth)
    fun _ _ _ decided => Fact.proper_of_map_truth decided

end Computation

section Call

/-- What a writable argument reaches is renewed, argument by argument. -/
theorem keeps_renewArguments
    (own : ∀ i, c.footprint.Names i → lenient ∨ i.routine = c.state.routine)
    (before : c.state.Becomes c.footprint s) (still : ∀ slot i, ¬c.footprint.captures slot i)
    {l : List Argument} (given : ∀ a ∈ l, a.value ∈ c.operation.form.renewed)
    (binds : ∀ a ∈ l, ∀ x, c.state.storage? c.routine a.value = some x → c.footprint.binds x) :
    Keeps lenient c (renewArguments c.routine l s) := by
  induction l generalizing s with
  | nil => exact ensures_pure before
  | cons a rest ih =>
    have later : ∀ {t}, c.state.Becomes c.footprint t →
        Keeps lenient c (renewArguments c.routine rest t) :=
      fun becomes => ih becomes (fun b hb => given b (List.mem_cons_of_mem a hb))
        (fun b hb => binds b (List.mem_cons_of_mem a hb))
    simp only [renewArguments]
    split
    · rename_i x reached
      rw [before.storage? still] at reached
      have gives : c.footprint.gives a.value := Or.inr (given a List.mem_cons_self)
      apply ensures_fresh.bind
      intro v _
      have bound := before.setSymbol (binds a List.mem_cons_self x reached) v
      apply (bound.setOperation (own a.value (Or.inl gives)) gives v).bind
      intro t becomes
      exact later becomes
    · exact later before

theorem keeps_invalidate (own : ∀ i, c.footprint.Names i → lenient ∨ i.routine = c.state.routine)
    (before : c.state.Becomes c.footprint s) {l : List Argument}
    (form : (∃ receiver method, c.operation.form = .call receiver method l) ∨
      ∃ typeName, c.operation.form = .create typeName l) :
    Keeps lenient c (invalidate c s l) := by
  have still : ∀ slot i, ¬c.footprint.captures slot i := by
    rcases form with ⟨_, _, form⟩ | ⟨_, form⟩ <;> simp [Situation.footprint, form]
  have targets : c.operation.form.renewed = (l.filter Argument.isWritable).map Argument.value := by
    rcases form with ⟨_, _, form⟩ | ⟨_, form⟩ <;> simp [form, Form.renewed]
  have rebinds : ∀ x, c.footprint.binds x ↔ c.symbols.isField x ∨
      ∃ a ∈ l, a.isWritable ∧ c.state.storage? c.routine a.value = some x := by
    rcases form with ⟨_, _, form⟩ | ⟨_, form⟩ <;>
      simp [Situation.footprint, Situation.Rebinds, form]
  simp only [invalidate]
  have renewed : Keeps lenient c (renewArguments c.routine (l.filter Argument.isWritable) s) := by
    apply keeps_renewArguments own before still
    · intro a ha
      rw [targets]
      exact List.mem_map_of_mem ha
    · intro a ha x reached
      obtain ⟨ha, writable⟩ := List.mem_filter.mp ha
      exact (rebinds x).mpr (Or.inr ⟨a, ha, writable, reached⟩)
  apply renewed.bind
  intro t becomes
  exact ensures_pure (becomes.forgetFields fun x field => (rebinds x).mpr (Or.inl field))

include own

theorem keeps_call {receiver : Option OpId} {method : String} {l : List Argument}
    (form : c.operation.form = .call receiver method l) : Keeps lenient c (call c) := by
  simp only [call, form]
  refine keeps_receiver own ?_ fun i same => by simp [form, Form.children, same]
  intro s₁ before₁
  apply (keeps_invalidate own before₁ (Or.inl ⟨receiver, method, form⟩)).bind
  intro s₂ before₂
  exact keeps_unknown own before₂

theorem keeps_create {typeName : String} {l : List Argument}
    (form : c.operation.form = .create typeName l) : Keeps lenient c (create c) := by
  simp only [create, form]
  apply (keeps_invalidate own (.refl _) (Or.inr ⟨typeName, form⟩)).bind
  intro s₁ before₁
  apply ensures_fresh.bind
  intro v _
  apply (keeps_bind own before₁ v).bind
  intro s₂ before₂
  exact ensures_feasible fun _ learned => before₂.learn learned trivial

end Call

section Builtin

include own

/-- Every built-in rule keeps to the footprint of its operation. -/
theorem keeps_builtin :
    ∃ f, Rule.builtin c.operation.tag = Rule.ofEval f ∧ Keeps lenient c (f c) := by
  cases form : c.operation.form with
  | literal => exact ⟨literal, Model.builtin_tag form, keeps_literal own form⟩
  | localRef => exact ⟨symbolRef, Model.builtin_tag form, keeps_symbolRef own (Or.inl form)⟩
  | paramRef => exact ⟨symbolRef, Model.builtin_tag form, keeps_symbolRef own (Or.inr form)⟩
  | fieldRef => exact ⟨fieldRef, Model.builtin_tag form, keeps_fieldRef own form⟩
  | this => exact ⟨this, Model.builtin_tag form, keeps_this own⟩
  | element => exact ⟨element, Model.builtin_tag form, keeps_element own form⟩
  | paren => exact ⟨passThrough, Model.builtin_tag form, keeps_passThrough own (Or.inl form)⟩
  | convert => exact ⟨passThrough, Model.builtin_tag form, keeps_passThrough own (Or.inr form)⟩
  | capture => exact ⟨capture, Model.builtin_tag form, keeps_capture own form⟩
  | captureRef => exact ⟨captureRef, Model.builtin_tag form, keeps_captureRef own form⟩
  | assign => exact ⟨assign, Model.builtin_tag form, keeps_assign own form⟩
  | compound => exact ⟨compound, Model.builtin_tag form, keeps_compound own form⟩
  | step => exact ⟨step, Model.builtin_tag form, keeps_step own form⟩
  | declare => exact ⟨declare, Model.builtin_tag form, keeps_declare own form⟩
  | binary => exact ⟨binary, Model.builtin_tag form, keeps_binary own form⟩
  | unary => exact ⟨unary, Model.builtin_tag form, keeps_unary own form⟩
  | call => exact ⟨call, Model.builtin_tag form, keeps_call own form⟩
  | create => exact ⟨create, Model.builtin_tag form, keeps_create own form⟩
  | isType => exact ⟨isType, Model.builtin_tag form, keeps_isType own form⟩
  | isPattern => exact ⟨isPattern, Model.builtin_tag form, keeps_isPattern own form⟩
  | other => exact ⟨unknown, Model.builtin_tag form, keeps_unknown own (.refl _)⟩

/-- The built-in semantics answers with at most one state, which keeps to the footprint, unless one
is lenient and it refuses. -/
theorem process_ensures (n : Numbering) :
    (∃ t : Option State, (Semantics.builtin.process c n).1 = .ok t.toList ∧
      ∀ s, t = some s → c.state.Becomes c.footprint s) ∨
    lenient ∧ ∃ refusal, (Semantics.builtin.process c n).1 = .error refusal := by
  obtain ⟨f, meaning, keeps⟩ := keeps_builtin own
  have kept := keeps n
  rw [Semantics.process_builtin, meaning]
  simp only [ofEval]
  generalize f c n = answer at kept
  obtain ⟨verdict, m⟩ := answer
  cases kept with
  | @result s becomes =>
    exact Or.inl ⟨some s, rfl, fun _ same => Option.some.inj same ▸ becomes⟩
  | infeasible => exact Or.inl ⟨none, rfl, fun _ same => by cases same⟩
  | refused allowed => exact Or.inr ⟨allowed, _, rfl⟩

end Builtin

/-- Nothing is refused where the operations are of the routine of the state. -/
theorem process_keeps (own : ∀ i, c.footprint.Names i → i.routine = c.state.routine)
    (n : Numbering) : ∃ t : Option State, (Semantics.builtin.process c n).1 = .ok t.toList ∧
      ∀ s, t = some s → c.state.Becomes c.footprint s := by
  rcases process_ensures (fun i named => Or.inr (own i named)) n with kept | ⟨allowed, _⟩
  · exact kept
  · exact (allowed : False).elim

/-- An answer is at most one state, which keeps to the footprint, in whatever situation it is
given. -/
theorem process_answers {n : Numbering} {states : List State}
    (answered : (Semantics.builtin.process c n).1 = .ok states) : ∃ t : Option State,
      states = t.toList ∧ ∀ s, t = some s → c.state.Becomes c.footprint s := by
  rcases process_ensures (fun _ _ => Or.inl trivial) n with ⟨t, answered', keeps⟩ | ⟨_, _, refused⟩
  · cases answered'.symm.trans answered
    exact ⟨t, rfl, keeps⟩
  · cases refused.symm.trans answered

end Rule

end SymbolicExecution
