import SymbolicExecution.Proofs.Renaming.Evaluation
import SymbolicExecution.Semantics

/-!
# Rules on renamed states

Every rule goes alike on a state and its image: it looks at values only through what the state knows
of them, and it names new values only by numbering.
-/

namespace SymbolicExecution.Correspondence

open Rule

variable {c : Correspondence} {z : Situation} {s t : State} {v w : Value}

/-- The situation with the image of its state. -/
abbrev image (z : Situation) (t : State) : Situation := { z with state := t }

theorem States.tracks_bind (states : c.States s t) (values : c.Values v w) (z : Situation)
    (u : State) : c.Tracks States (z.bind s v) ((image z u).bind t w) :=
  states.tracks_setOperation values z.operation.id

/-- The operation gets a new value. -/
theorem States.tracks_unknown (states : c.States s t) (z : Situation) (u : State) :
    c.Tracks States (do let v ← Eval.fresh; z.bind s v)
      (do let w ← Eval.fresh; (image z u).bind t w) := by
  apply c.tracks_fresh.bind
  intro d v w le values
  exact (states.mono le).tracks_bind values z u

/-- The operation gets the value of another one. -/
theorem States.tracks_copy (states : c.States s t) (z : Situation) (u : State) (i : OpId) :
    c.Tracks States
      (do let (s, v) ← operand s i; z.bind s v)
      (do let (t, w) ← operand t i; (image z u).bind t w) := by
  apply (states.tracks_operand i).bind
  rintro d ⟨s', v⟩ ⟨t', w⟩ le ⟨states', values⟩
  exact states'.tracks_bind values z u

/-- The receiver of an access, if there is one, is dereferenced before the evaluation goes on. -/
theorem States.tracks_receiver (states : c.States s t) {f g : State → Eval State}
    (next : ∀ {d s' t'}, c ≤ d → d.States s' t' → d.Tracks States (f s') (g t'))
    (receiver : Option OpId) :
    c.Tracks States
      (match receiver with
        | some i => do
          let (s, v) ← operand s i
          let s ← pure (s.dereference v)
          f s
        | none => do
          let s ← pure s
          f s)
      (match receiver with
        | some i => do
          let (t, w) ← operand t i
          let t ← pure (t.dereference w)
          g t
        | none => do
          let t ← pure t
          g t) := by
  cases receiver with
  | none =>
    apply (tracks_pure (R := States) states).bind
    intro d s' t' le states'
    exact next le states'
  | some i =>
    apply (states.tracks_operand i).bind
    rintro d ⟨s₁, v⟩ ⟨t₁, w⟩ le ⟨states₁, values⟩
    apply (tracks_pure (R := States) (states₁.dereference values)).bind
    intro e s' t' le' states'
    exact next (le_trans le le') states'

section Reference

theorem States.tracks_learnDeclared (states : c.States s t) (values : c.Values v w)
    (z : Situation) (u : State) (x : SymbolId) :
    c.Tracks States (learnDeclared z s x v) (learnDeclared (image z u) t x w) := by
  simp only [learnDeclared]
  exact tracks_ite (tracks_feasible (states.learn values _)) (tracks_pure states)

theorem States.tracks_readStorage (states : c.States s t) (z : Situation) (u : State)
    (x : SymbolId) :
    c.Tracks States (readStorage z s x) (readStorage (image z u) t x) := by
  simp only [readStorage]
  rw [states.storage z.routine z.operation.id]
  cases s.storage? z.routine z.operation.id with
  | some tracked =>
    simp only [readSymbol]
    cases bound : s.symbol? tracked with
    | some v =>
      obtain ⟨w, bound', values⟩ := states.symbol bound
      rw [bound']
      exact states.tracks_bind values z u
    | none =>
      rw [states.symbol_none bound]
      apply c.tracks_fresh.bind
      intro d v w le values
      apply ((states.mono le).tracks_bind values z u).bind
      intro e s' t' le' states'
      have values' := values.mono le'
      exact (states'.setSymbol values' tracked).tracks_learnDeclared values' z u tracked
  | none =>
    simp only [readUntracked]
    apply c.tracks_fresh.bind
    intro d v w le values
    apply ((states.mono le).tracks_bind values z u).bind
    intro e s' t' le' states'
    exact states'.tracks_learnDeclared (values.mono le') z u x

theorem tracks_symbolRef (states : c.States z.state t) :
    c.Tracks States (symbolRef z) (symbolRef (image z t)) := by
  have read : ∀ x, c.Tracks States
      (if z.isWritten then pure z.state else readStorage z z.state x)
      (if z.isWritten then pure t else readStorage (image z t) t x) := by
    intro x
    exact tracks_ite (tracks_pure states) (states.tracks_readStorage z t x)
  simp only [symbolRef, image]
  cases z.operation.form with
  | localRef x | paramRef x => exact read x
  | _ => exact tracks_refuse _

theorem tracks_fieldRef (states : c.States z.state t) :
    c.Tracks States (fieldRef z) (fieldRef (image z t)) := by
  simp only [fieldRef, image]
  cases z.operation.form with
  | fieldRef receiver x =>
    apply states.tracks_receiver
    intro d s' t' le states'
    exact tracks_ite (tracks_pure states') (states'.tracks_readStorage z t x)
  | _ => exact tracks_refuse _

theorem tracks_element (states : c.States z.state t) :
    c.Tracks States (element z) (element (image z t)) := by
  simp only [element, image]
  cases z.operation.form with
  | element array index =>
    apply (states.tracks_operand array).bind
    rintro d ⟨s₁, v⟩ ⟨t₁, w⟩ le ⟨states₁, values⟩
    apply (states₁.tracks_operand index).bind
    rintro e ⟨s₂, _⟩ ⟨t₂, _⟩ le' ⟨states₂, _⟩
    have states₃ := states₂.dereference (values.mono le')
    exact tracks_ite (tracks_pure states₃) (states₃.tracks_unknown z t)
  | _ => exact tracks_refuse _

theorem tracks_passThrough (states : c.States z.state t) :
    c.Tracks States (passThrough z) (passThrough (image z t)) := by
  have pass : ∀ i, c.Tracks States
      (if z.isWritten then pure z.state else do
        let (s, v) ← operand z.state i
        z.bind s v)
      (if z.isWritten then pure t else do
        let (s, v) ← operand t i
        (image z t).bind s v) := by
    intro i
    exact tracks_ite (tracks_pure states) (states.tracks_copy z t i)
  simp only [passThrough, image]
  cases z.operation.form with
  | paren inner | convert inner => exact pass inner
  | _ => exact tracks_refuse _

theorem tracks_capture (states : c.States z.state t) :
    c.Tracks States (capture z) (capture (image z t)) := by
  simp only [capture, image]
  cases z.operation.form with
  | capture slot value =>
    apply (tracks_owned (R := States) (states.setCapture slot value)).bind
    intro d s' t' le states'
    exact tracks_ite (tracks_pure states') (states'.tracks_copy z t value)
  | _ => exact tracks_refuse _

theorem tracks_captureRef (states : c.States z.state t) :
    c.Tracks States (captureRef z) (captureRef (image z t)) := by
  have same : ∀ slot, t.capture? slot = z.state.capture? slot := by
    intro slot
    rw [State.capture?, State.capture?, states.renames.captures]
  simp only [captureRef, image]
  cases z.operation.form with
  | captureRef slot =>
    simp only [same]
    apply tracks_ite (tracks_pure states)
    cases z.state.capture? slot with
    | some captured => exact states.tracks_copy z t captured
    | none => exact states.tracks_unknown z t
  | _ => exact tracks_refuse _

end Reference

section Assignment

theorem States.tracks_store (states : c.States s t) (values : c.Values v w) (z : Situation)
    (u : State) (target : OpId) :
    c.Tracks States (store z s target v) (store (image z u) t target w) := by
  simp only [store]
  apply (states.tracks_setOperation values target).bind
  intro d s₁ t₁ le states₁
  apply (states₁.tracks_bind (values.mono le) z u).bind
  intro e s₂ t₂ le' states₂
  exact tracks_pure (states₂.write ((values.mono le).mono le') z.routine target)

theorem tracks_assign (states : c.States z.state t) :
    c.Tracks States (assign z) (assign (image z t)) := by
  simp only [assign, image]
  cases z.operation.form with
  | assign target value =>
    apply (states.tracks_operand value).bind
    rintro d ⟨s', v⟩ ⟨t', w⟩ le ⟨states', values⟩
    exact states'.tracks_store values z t target
  | _ => exact tracks_refuse _

theorem tracks_compound (states : c.States z.state t) :
    c.Tracks States (compound z) (compound (image z t)) := by
  simp only [compound, image]
  cases z.operation.form with
  | compound operator target value =>
    apply (states.tracks_operand target).bind
    rintro d₁ ⟨s₁, a⟩ ⟨t₁, a'⟩ le₁ ⟨states₁, old⟩
    apply (states₁.tracks_operand value).bind
    rintro d₂ ⟨s₂, b⟩ ⟨t₂, b'⟩ le₂ ⟨states₂, values⟩
    apply (states₂.tracks_binaryValue (old.mono le₂) values operator).bind
    rintro d₃ ⟨s₃, v⟩ ⟨t₃, w⟩ le₃ ⟨states₃, new⟩
    exact states₃.tracks_store new z t target
  | _ => exact tracks_refuse _

theorem tracks_step (states : c.States z.state t) :
    c.Tracks States (step z) (step (image z t)) := by
  simp only [step, image]
  cases z.operation.form with
  | step target down postfixed =>
    apply (states.tracks_operand target).bind
    rintro d₁ ⟨s₁, a⟩ ⟨t₁, a'⟩ le₁ ⟨states₁, old⟩
    apply (states₁.tracks_literalValue (.int 1)).bind
    rintro d₂ ⟨s₂, b⟩ ⟨t₂, b'⟩ le₂ ⟨states₂, one⟩
    apply (states₂.tracks_binaryValue (old.mono le₂) one _).bind
    rintro d₃ ⟨s₃, v⟩ ⟨t₃, w⟩ le₃ ⟨states₃, new⟩
    have written := states₃.write new z.routine target
    cases postfixed with
    | true => exact written.tracks_bind ((old.mono le₂).mono le₃) z t
    | false => exact written.tracks_bind new z t
  | _ => exact tracks_refuse _

theorem States.clearSymbol (states : c.States s t) (x : SymbolId) :
    c.States (s.clearSymbol x) (t.clearSymbol x) :=
  states.filterSymbols fun y => y ≠ x

theorem tracks_declare (states : c.States z.state t) :
    c.Tracks States (declare z) (declare (image z t)) := by
  simp only [declare, image]
  cases z.operation.form with
  | declare x initial =>
    cases initial with
    | some i =>
      apply (states.tracks_operand i).bind
      rintro d ⟨s₁, v⟩ ⟨t₁, w⟩ le ⟨states₁, values⟩
      apply (states₁.tracks_bind values z t).bind
      intro e s₂ t₂ le' states₂
      exact tracks_pure (states₂.setSymbol (values.mono le') x)
    | none => exact tracks_pure (states.clearSymbol x)
  | _ => exact tracks_refuse _

end Assignment

section Computation

theorem tracks_literal (states : c.States z.state t) :
    c.Tracks States (literal z) (literal (image z t)) := by
  simp only [literal, image]
  cases z.operation.form with
  | literal l =>
    apply (states.tracks_literalValue l).bind
    rintro d ⟨s₁, v⟩ ⟨t₁, w⟩ le ⟨states₁, values⟩
    exact states₁.tracks_bind values z t
  | _ => exact tracks_refuse _

theorem tracks_binary (states : c.States z.state t) :
    c.Tracks States (binary z) (binary (image z t)) := by
  simp only [binary, image]
  cases z.operation.form with
  | binary operator left right =>
    apply (states.tracks_operand left).bind
    rintro d₁ ⟨s₁, a⟩ ⟨t₁, a'⟩ le₁ ⟨states₁, first⟩
    apply (states₁.tracks_operand right).bind
    rintro d₂ ⟨s₂, b⟩ ⟨t₂, b'⟩ le₂ ⟨states₂, second⟩
    apply (states₂.tracks_binaryValue (first.mono le₂) second operator).bind
    rintro d₃ ⟨s₃, v⟩ ⟨t₃, w⟩ le₃ ⟨states₃, values⟩
    exact states₃.tracks_bind values z t
  | _ => exact tracks_refuse _

/-- The operation gets the value of a term on one operand, and learns what decides it. -/
theorem States.tracks_derived (states : c.States s t) (z : Situation) (u : State) (i : OpId)
    (term : Value → Term) (decided : State → Value → Option Fact)
    (operands : ∀ a, (term a).operands = [a])
    (renamed : ∀ (π : Renaming) a, (term a).rename π = term (π a))
    (same : ∀ {d : Correspondence} {s t : State} {v w : Value}, d.States s t → d.Values v w →
      decided t w = decided s v) :
    c.Tracks States
      (do
        let (s, a) ← operand s i
        let v ← Eval.intern (term a)
        let s ← z.bind s v
        Eval.feasible (s.settle? v (decided s a)))
      (do
        let (t, a) ← operand t i
        let v ← Eval.intern (term a)
        let t ← (image z u).bind t v
        Eval.feasible (t.settle? v (decided t a))) := by
  apply (states.tracks_operand i).bind
  rintro d ⟨s₁, a⟩ ⟨t₁, b⟩ le ⟨states₁, first⟩
  have inScope : (term a).Below d.left.created := by
    intro x hx
    rw [operands, List.mem_singleton] at hx
    rw [hx]
    exact first.below
  have interned := tracks_intern inScope
  rw [renamed, ← first.renames] at interned
  apply interned.bind
  intro e v w le' values
  apply ((states₁.mono le').tracks_bind values z u).bind
  intro f s₂ t₂ le'' states₂
  rw [same states₂ ((first.mono le').mono le'')]
  exact tracks_feasible (states₂.settle (values.mono le'') _)

theorem tracks_unary (states : c.States z.state t) :
    c.Tracks States (unary z) (unary (image z t)) := by
  simp only [unary, image]
  cases z.operation.form with
  | unary operator i =>
    exact states.tracks_derived z t i (Term.unary operator)
      (fun s a => s.foldUnary? operator a) (fun _ => rfl) (fun _ _ => rfl)
      fun states values => states.foldUnary values operator
  | _ => exact tracks_refuse _

theorem tracks_isType (states : c.States z.state t) :
    c.Tracks States (isType z) (isType (image z t)) := by
  simp only [isType, image]
  cases z.operation.form with
  | isType i typeName =>
    refine states.tracks_derived z t i (Term.isType typeName)
      (fun s a => if s.nullness? a = some .null then some (.truth false) else none)
      (fun _ => rfl) (fun _ _ => rfl) ?_
    intro d s' t' v w states' values
    simp only [states'.nullness values]
  | _ => exact tracks_refuse _

theorem tracks_isPattern (states : c.States z.state t) :
    c.Tracks States (isPattern z) (isPattern (image z t)) := by
  simp only [isPattern, image]
  cases z.operation.form with
  | isPattern i pattern =>
    refine states.tracks_derived z t i (Term.isPattern pattern)
      (fun s a => (s.matches? a pattern).map Fact.truth) (fun _ => rfl) (fun _ _ => rfl) ?_
    intro d s' t' v w states' values
    simp only [states'.matches values]
  | _ => exact tracks_refuse _

theorem tracks_this (states : c.States z.state t) :
    c.Tracks States (this z) (this (image z t)) := by
  simp only [this]
  apply (tracks_intern (t := .this) (by simp [Term.Below, Term.operands])).bind
  intro d v w le values
  apply ((states.mono le).tracks_bind values z t).bind
  intro e s₁ t₁ le' states₁
  exact tracks_feasible (states₁.learn (values.mono le') _)

end Computation

section Call

theorem States.tracks_renewArguments (states : c.States s t) (r : Routine) (l : List Argument) :
    c.Tracks States (renewArguments r l s) (renewArguments r l t) := by
  induction l generalizing c s t with
  | nil => exact tracks_pure states
  | cons a rest ih =>
    simp only [renewArguments]
    rw [states.storage r a.value]
    cases s.storage? r a.value with
    | none => exact ih states
    | some x =>
      apply c.tracks_fresh.bind
      intro d v w le values
      apply (((states.mono le).setSymbol values x).tracks_setOperation values a.value).bind
      intro e s₁ t₁ le' states₁
      exact ih states₁

theorem States.tracks_invalidate (states : c.States s t) (z : Situation) (u : State)
    (l : List Argument) : c.Tracks States (invalidate z s l) (invalidate (image z u) t l) := by
  simp only [invalidate]
  apply (states.tracks_renewArguments z.routine _).bind
  intro d s₁ t₁ le states₁
  exact tracks_pure (states₁.filterSymbols fun x => !z.symbols.isField x)

theorem tracks_call (states : c.States z.state t) :
    c.Tracks States (call z) (call (image z t)) := by
  simp only [call, image]
  cases z.operation.form with
  | call receiver method arguments =>
    apply states.tracks_receiver
    intro d s₁ t₁ le states₁
    apply (states₁.tracks_invalidate z t arguments).bind
    intro e s₂ t₂ le' states₂
    exact states₂.tracks_unknown z t
  | _ => exact tracks_refuse _

theorem tracks_create (states : c.States z.state t) :
    c.Tracks States (create z) (create (image z t)) := by
  simp only [create, image]
  cases z.operation.form with
  | create typeName arguments =>
    apply (states.tracks_invalidate z t arguments).bind
    intro d s₁ t₁ le states₁
    apply d.tracks_fresh.bind
    intro e v w le' values
    apply ((states₁.mono le').tracks_bind values z t).bind
    intro f s₂ t₂ le'' states₂
    exact tracks_feasible (states₂.learn (values.mono le'') _)
  | _ => exact tracks_refuse _

end Call

end SymbolicExecution.Correspondence
