import SymbolicExecution.Proofs.Footprint.Write
import SymbolicExecution.Proofs.Meaning
import SymbolicExecution.Proofs.Routine.Closed
import SymbolicExecution.Proofs.Storage.Resolution

/-!
# Operators are evaluated soundly

Take a valuation under which the facts of a state hold, and which respects the numbering that the
evaluation of an operator leaves. The evaluation finds the path feasible, and the facts of the state
that it leaves hold under the valuation, too.
-/

namespace SymbolicExecution

/-- The form computes its value from those of its operands, or from none. -/
def Form.isComputation : Form → Bool
  | .literal _ | .this | .binary _ _ _ | .unary _ _ | .compound _ _ _ | .step _ _ _ | .isType _ _
  | .isPattern _ _ => true
  | _ => false

variable {types : TypeTest} {ρ : Valuation}

namespace State

open Eval

variable {s t : State} {k : RoutineId} {i : OpId}

/-- The state is one of the routine, and its facts hold. -/
structure Fits (ρ : Valuation) (k : RoutineId) (s : State) : Prop where
  routine : s.routine = k
  holds : s.Holds ρ

theorem Fits.learns (fits : s.Fits ρ k) {x : Option State} (learns : s.Learns ρ x) :
    ∃ t, x = some t ∧ t.Fits ρ k := by
  obtain ⟨t, found, holds, same⟩ := learns
  exact ⟨t, found, same.routine.trans fits.routine, holds⟩

theorem Fits.write (fits : s.Fits ρ k) (r : Routine) (target : OpId) (v : Value) :
    (s.write r target v).Fits ρ k := by
  simp only [State.write]
  split
  · exact ⟨fits.routine, fits.holds⟩
  · exact fits

theorem maintains_setOperation (own : i.routine = k) (v : Value) :
    Maintains types ρ (s.Fits ρ k) (Eval.owned (s.setOperation i v)) (Fits ρ k) := by
  apply maintains_owned
  intro fits
  refine ⟨_, if_pos (own.trans fits.routine.symm), ?_⟩
  exact ⟨fits.routine, fits.holds⟩

theorem maintains_operand (own : i.routine = k) :
    Maintains types ρ (s.Fits ρ k) (operand s i) fun a => a.1.Fits ρ k := by
  simp only [operand]
  split
  · exact maintains_pure id
  · apply maintains_fresh.bind
    intro v
    apply (maintains_setOperation own v).bind
    intro t
    exact maintains_pure id

/-- A term is numbered, and what decides it is learned. -/
theorem maintains_term {t : Term} {learned : Value → Option State}
    (decides : ∀ v, s.Holds ρ → t.Means types ρ (ρ v) → s.Learns ρ (learned v)) :
    Maintains types ρ (s.Fits ρ k) (do
      let v ← Eval.intern t
      let u ← Eval.feasible (learned v)
      return (u, v)) fun a => a.1.Fits ρ k := by
  apply (maintains_intern t).bind
  intro v
  refine Maintains.bind (P := Fits ρ k) (maintains_feasible ?_) ?_
  · rintro ⟨fits, means⟩
    exact fits.learns (decides v fits.holds means)
  · intro u
    exact maintains_pure id

theorem maintains_literalValue (l : Literal) :
    Maintains types ρ (s.Fits ρ k) (literalValue s l) fun a => a.1.Fits ρ k :=
  maintains_term fun _ holds means => holds.learnAll_of_means means

theorem maintains_binaryValue (operator : BinOp) (a b : Value) :
    Maintains types ρ (s.Fits ρ k) (binaryValue s operator a b) fun x => x.1.Fits ρ k :=
  maintains_term fun _ holds means =>
    holds.settle_of_means means fun _ decided => holds.determined_of_fold decided

end State

namespace Rule

open Eval State

variable {c : Situation} {k : RoutineId} {i : OpId}

/-- The evaluation by `f` maintains that the facts of the state hold. -/
abbrev Sound (types : TypeTest) (ρ : Valuation) (k : RoutineId) (c : Situation)
    (f : Situation → Eval State) : Prop :=
  Maintains types ρ (c.state.Fits ρ k) (f c) (Fits ρ k)

section Form

variable (own : c.operation.id.routine = k)

include own

theorem sound_literal {l : Literal} (form : c.operation.form = .literal l) :
    Sound types ρ k c literal := by
  simp only [Sound, literal, form]
  apply (maintains_literalValue l).bind
  rintro ⟨s, v⟩
  exact maintains_setOperation own v

theorem sound_this : Sound types ρ k c this := by
  simp only [Sound, this]
  apply (maintains_intern .this).bind
  intro v
  apply ((maintains_setOperation own v).frame _).bind
  intro s
  apply maintains_feasible
  rintro ⟨fits, means⟩
  exact fits.learns (fits.holds.learn (means.present rfl))

variable (children : ∀ i ∈ c.operation.form.children, i.routine = k)

include children

theorem sound_binary {operator : BinOp} {left right : OpId}
    (form : c.operation.form = .binary operator left right) : Sound types ρ k c binary := by
  have first : left.routine = k := children left (by simp [form, Form.children])
  have second : right.routine = k := children right (by simp [form, Form.children])
  simp only [Sound, binary, form]
  apply (maintains_operand first).bind
  rintro ⟨s, a⟩
  apply (maintains_operand second).bind
  rintro ⟨t, b⟩
  apply (maintains_binaryValue operator a b).bind
  rintro ⟨u, v⟩
  exact maintains_setOperation own v

/-- The operation gets a value that is derived from that of a child. -/
theorem maintains_derived (child : i ∈ c.operation.form.children) (term : Value → Term)
    (decided : State → Value → Option Fact) (decides : ∀ s a f, s.Holds ρ → decided s a = some f →
      ∃ d, (term a).determined? types ρ = some d ∧ f.Holds d) :
    Maintains types ρ (c.state.Fits ρ k) (do
      let (s, a) ← operand c.state i
      let v ← Eval.intern (term a)
      let s ← c.bind s v
      Eval.feasible (s.settle? v (decided s a))) (Fits ρ k) := by
  apply (maintains_operand (children i child)).bind
  rintro ⟨s, a⟩
  apply (maintains_intern (term a)).bind
  intro v
  apply ((maintains_setOperation own v).frame _).bind
  intro t
  apply maintains_feasible
  rintro ⟨fits, means⟩
  exact fits.learns (fits.holds.settle_of_means means fun f found => decides t a f fits.holds found)

theorem sound_unary {operator : UnOp} (form : c.operation.form = .unary operator i) :
    Sound types ρ k c unary := by
  simp only [Sound, unary, form]
  exact maintains_derived own children (by simp [form, Form.children]) (Term.unary operator)
    (fun s a => s.foldUnary? operator a) fun _ _ _ holds decided =>
      holds.determined_of_foldUnary decided

theorem sound_isType {typeName : String} (form : c.operation.form = .isType i typeName) :
    Sound types ρ k c isType := by
  simp only [Sound, isType, form]
  refine maintains_derived own children (by simp [form, Form.children]) (Term.isType typeName)
    (fun s a => if s.nullness? a = some .null then some (.truth false) else none) ?_
  intro s a f holds decided
  obtain ⟨null, ⟨⟩⟩ := Option.ite_none_right_eq_some.mp decided
  have absent : ρ a = .null := holds.nullness? null
  refine ⟨_, rfl, ?_⟩
  rw [absent, types.not_null]
  rfl

theorem sound_isPattern {p : Pattern} (form : c.operation.form = .isPattern i p) :
    Sound types ρ k c isPattern := by
  simp only [Sound, isPattern, form]
  refine maintains_derived own children (by simp [form, Form.children]) (Term.isPattern p)
    (fun s a => (s.matches? a p).map Fact.truth) ?_
  intro s a f holds decided
  obtain ⟨e, found, rfl⟩ := Option.map_eq_some_iff.mp decided
  exact ⟨_, rfl, congrArg Datum.bool (holds.matches found)⟩

theorem sound_compound {operator : BinOp} {target value : OpId}
    (form : c.operation.form = .compound operator target value) : Sound types ρ k c compound := by
  have first : target.routine = k := children target (by simp [form, Form.children])
  have second : value.routine = k := children value (by simp [form, Form.children])
  simp only [Sound, compound, form]
  apply (maintains_operand first).bind
  rintro ⟨s, a⟩
  apply (maintains_operand second).bind
  rintro ⟨t, b⟩
  apply (maintains_binaryValue operator a b).bind
  rintro ⟨u, v⟩
  simp only [store]
  apply (maintains_setOperation first v).bind
  intro w
  apply (maintains_setOperation own v).bind
  intro w'
  exact maintains_pure fun fits => fits.write _ _ _

theorem sound_step {target : OpId} {down postfixed : Bool}
    (form : c.operation.form = .step target down postfixed) : Sound types ρ k c step := by
  have first : target.routine = k := children target (by simp [form, Form.children])
  simp only [Sound, step, form]
  apply (maintains_operand first).bind
  rintro ⟨s, a⟩
  apply (maintains_literalValue _).bind
  rintro ⟨t, one⟩
  apply (maintains_binaryValue _ a one).bind
  rintro ⟨u, v⟩
  exact (maintains_setOperation own _).weaken fun fits => fits.write _ _ _

theorem sound_of_isComputation (computation : c.operation.form.isComputation) :
    ∃ f, Rule.builtin c.operation.tag = ofEval f ∧ Sound types ρ k c f := by
  cases form : c.operation.form with
  | literal => exact ⟨literal, Model.builtin_tag form, sound_literal own form⟩
  | this => exact ⟨this, Model.builtin_tag form, sound_this own⟩
  | binary => exact ⟨binary, Model.builtin_tag form, sound_binary own children form⟩
  | unary => exact ⟨unary, Model.builtin_tag form, sound_unary own children form⟩
  | compound => exact ⟨compound, Model.builtin_tag form, sound_compound own children form⟩
  | step => exact ⟨step, Model.builtin_tag form, sound_step own children form⟩
  | isType => exact ⟨isType, Model.builtin_tag form, sound_isType own children form⟩
  | isPattern => exact ⟨isPattern, Model.builtin_tag form, sound_isPattern own children form⟩
  | _ => simp [form, Form.isComputation] at computation

end Form

/-- Literals, `this`, operators and tests neither misconstrain nor wrongly prune. A valuation may
satisfy the facts of a state and respect the numbering that the evaluation leaves. Then the
evaluation has exactly one successor, whose facts it satisfies. What is written, if anything is, has
to be a tree, as are all evaluated operations: then looking for its storage comes to an end. -/
theorem process_sound {outline : Outline} {r : Routine}
    (accepted : Routine.ofOutline outline = .ok r) {o : Operation} (found : r.operation? i = some o)
    (computation : o.form.isComputation) (symbols : Symbols) {s : State} (own : s.routine = r.id)
    (grounded : ∀ target, o.form.target? = some target → s.Grounded r target)
    (n : Numbering) (holds : s.Holds ρ)
    (respected : (Semantics.builtin.process ⟨o, s, r, symbols⟩ n).2.Respected types ρ) :
    (∀ target, o.form.target? = some target → s.Resolves r target) ∧
    ∃ t, (Semantics.builtin.process ⟨o, s, r, symbols⟩ n).1 = .ok [t] ∧ t.Holds ρ := by
  refine ⟨fun target writes => (grounded target writes).resolves, ?_⟩
  have closed := Outline.closed accepted
  have here : o.id.routine = r.id := by
    rw [closed.label found]
    exact (Routine.operation?_eq_some_iff.mp found).1
  have children : ∀ j ∈ o.form.children, j.routine = r.id := by
    intro j child
    obtain ⟨p, there⟩ := closed.child found child
    exact (Routine.operation?_eq_some_iff.mp there).1
  let c : Situation := ⟨o, s, r, symbols⟩
  obtain ⟨f, meaning, sound⟩ : ∃ f, Rule.builtin c.operation.tag = ofEval f ∧
      Sound types ρ r.id c f := sound_of_isComputation here children computation
  rw [snd_process meaning] at respected
  obtain ⟨t, result, fits⟩ := (sound n).2 ⟨own, holds⟩ respected
  exact ⟨t, congrArg Prod.fst (process_of_result meaning (Prod.ext result rfl)), fits.holds⟩

/-- One is added to a field of `this`, which is in parentheses. -/
def raising : Outline where
  id := ⟨0⟩
  name := "raising"
  blocks := #[⟨⟨0⟩, [⟨⟨0⟩, 4⟩], .leave none, none⟩]
  operations := #[⟨⟨⟨0⟩, 0⟩, .this, none⟩, ⟨⟨⟨0⟩, 1⟩, .paren ⟨⟨0⟩, 0⟩, none⟩,
    ⟨⟨⟨0⟩, 2⟩, .fieldRef (some ⟨⟨0⟩, 1⟩) ⟨0⟩, none⟩, ⟨⟨⟨0⟩, 3⟩, .literal (.int 1), none⟩,
    ⟨⟨⟨0⟩, 4⟩, .compound .add ⟨⟨0⟩, 2⟩ ⟨⟨0⟩, 3⟩, none⟩]
  closures := []

/-- The field is 41. -/
def raisingState : State where
  routine := ⟨0⟩
  operations := (Table.empty.insert ⟨⟨0⟩, 2⟩ ⟨0⟩).insert ⟨⟨0⟩, 3⟩ ⟨1⟩
  symbols := Table.empty.insert ⟨0⟩ ⟨0⟩
  facts := (Table.empty.insert ⟨0⟩ ⟨none, none, some (.exact 41)⟩).insert ⟨1⟩
    ⟨none, none, some (.exact 1)⟩
  captures := Table.empty

/-- The values stand for the field, for one and for their sum. -/
def raisingValuation (v : Value) : Datum :=
  if v = ⟨0⟩ then .int 41 else if v = ⟨1⟩ then .int 1 else .int 42

/-- The sum is stored in the field. -/
theorem process_sound_raising : ∃ r t, Routine.ofOutline raising = .ok r ∧
    raisingState.Resolves r ⟨⟨0⟩, 2⟩ ∧
    (Semantics.builtin.process ⟨⟨⟨⟨0⟩, 4⟩, .compound .add ⟨⟨0⟩, 2⟩ ⟨⟨0⟩, 3⟩, none⟩, raisingState,
      r, ⟨fun _ => none⟩⟩ ⟨2, []⟩).1 = .ok [t] ∧ t.symbol? ⟨0⟩ = some ⟨2⟩ ∧
    t.factsOf ⟨2⟩ = ⟨none, none, some (.exact 42)⟩ ∧ t.Holds raisingValuation := by
  have holds : raisingState.Holds raisingValuation := by
    have entered : (State.entry ⟨0⟩).Holds raisingValuation := fun v => Facts.hold_empty _
    obtain ⟨_, ⟨⟩, field, _⟩ := entered.learn (v := ⟨0⟩) (f := .within (.exact 41))
      ⟨41, rfl, rfl⟩
    obtain ⟨_, ⟨⟩, both, _⟩ := field.learn (v := ⟨1⟩) (f := .within (.exact 1)) ⟨1, rfl, rfl⟩
    exact both
  have respected : ((⟨2, []⟩ : Numbering).intern (.binary .add ⟨0⟩ ⟨1⟩)).2.Respected
      ⟨fun _ _ => false, fun _ => rfl⟩ raisingValuation := by
    intro t v known
    rw [Numbering.find?_intern_of_new rfl] at known
    split at known
    · rename_i sum
      cases known
      rw [sum]
      exact ⟨fun determined => Option.some.inj determined, nofun⟩
    · cases known
  have accepted : Routine.ofOutline raising = .ok _ := rfl
  have grounded : raisingState.Grounded _ ⟨⟨0⟩, 2⟩ :=
    Outline.grounded_of_evaluated accepted (by rintro _ _ ⟨⟩) (by decide)
  obtain ⟨resolves, t, answered, sound⟩ := process_sound accepted (i := ⟨⟨0⟩, 4⟩) rfl rfl
    ⟨fun _ => none⟩ (s := raisingState) rfl (fun _ writes => Option.some.inj writes ▸ grounded)
    ⟨2, []⟩ holds respected
  refine ⟨_, t, accepted, resolves _ rfl, answered, ?_, ?_, sound⟩
  · cases answered
    rfl
  · cases answered
    rfl

end Rule

end SymbolicExecution
