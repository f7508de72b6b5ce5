import SymbolicExecution.Proofs.Model.State
import SymbolicExecution.Proofs.Renaming.Expansion

/-!
# Rules follow the machine

Where the machine executes an operation, its rule has one successor. If the incoming state describes
the store before the execution, then the successor describes the store after it.
-/

namespace SymbolicExecution

/-- The operation is evaluated by a block of a routine without closures and without sharing. -/
structure Routine.Evaluates (r : Routine) (o : Operation) : Prop where
  tree : r.Treelike
  plain : r.closures = Table.empty
  here : ∃ (b : BlockId) (k : Nat), (r.order b)[k]? = some o.id
  found : r.operation? o.id = some o

namespace Routine.Evaluates

variable {r : Routine} {o : Operation} {i : OpId} {x : SymbolId}

theorem own (evaluates : r.Evaluates o) : o.id.routine = r.id :=
  (operation?_eq_some_iff.mp evaluates.found).1

theorem own_child (evaluates : r.Evaluates o) (child : i ∈ o.form.children) :
    i.routine = r.id := by
  obtain ⟨b, k, here⟩ := evaluates.here
  obtain ⟨j, _, earlier⟩ := evaluates.tree.before here evaluates.found i child
  obtain ⟨p, found⟩ := evaluates.tree.known earlier
  exact (operation?_eq_some_iff.mp found).1

theorem storage? (evaluates : r.Evaluates o) (denotes : r.Denotes o.id x) (s : State) :
    s.storage? r o.id = some x := by
  obtain ⟨b, k, here⟩ := evaluates.here
  exact storage?_of_denotes evaluates.tree evaluates.plain s here denotes

theorem storage?_child (evaluates : r.Evaluates o) (child : i ∈ o.form.children)
    (denotes : r.Denotes i x) (s : State) : s.storage? r i = some x := by
  obtain ⟨b, k, here⟩ := evaluates.here
  obtain ⟨j, _, earlier⟩ := evaluates.tree.before here evaluates.found i child
  exact storage?_of_denotes evaluates.tree evaluates.plain s earlier denotes

end Routine.Evaluates

namespace Model

open Rule

variable {types : TypeTest} {M N : Model types} {r : Routine} {symbols : Symbols} {m m' : Store}
  {s : State} {o : Operation} {i : OpId} {x : SymbolId} {v : Value} {d : Datum}

/-- The evaluation leads to a state that describes the store. -/
abbrev Leads (M : Model types) (r : Routine) (symbols : Symbols) (m : Store) (x : Eval State) :
    Prop :=
  M.Gives (fun N t => N.Describes r symbols m t) x

theorem Describes.leads_set (describes : M.Describes r symbols m s) (stands : Stands d M v)
    (own : i.routine = r.id) :
    M.Leads r symbols (m.give i d) (Eval.owned (s.setOperation i v)) := by
  obtain ⟨t, set, described⟩ := describes.give stands own
  exact gives_owned set described

theorem Describes.gives_child (describes : M.Describes r symbols m s) (evaluates : r.Evaluates o)
    (child : i ∈ o.form.children) (known : m.values i = some d) :
    M.Gives (Knows r symbols m d) (operand s i) :=
  describes.gives_operand known (evaluates.own_child child)

/-- A first read binds the symbol to an unknown value that stands for what the store has there. -/
theorem Describes.leads_read (describes : M.Describes r symbols m s) (evaluates : r.Evaluates o)
    (denotes : r.Denotes o.id x) (y : SymbolId) :
    M.Leads r symbols (m.give o.id (m.env x)) (readStorage ⟨o, s, r, symbols⟩ s y) := by
  simp only [readStorage, evaluates.storage? denotes s, readSymbol]
  cases bound : s.symbol? x with
  | some v =>
    have stands : Stands (m.env x) M v := ⟨describes.below.symbol bound, describes.symbol bound⟩
    exact describes.leads_set stands evaluates.own
  | none =>
    apply (gives_fresh M (m.env x)).bind
    intro N v le stands
    apply ((describes.mono le).leads_set stands evaluates.own).bind
    intro K t le' described
    have stands' := stands.mono le'
    have written := described.write stands' x
    rw [Store.write_of_bound (by rw [Store.env_give])] at written
    simp only [learnDeclared]
    by_cases excluded : symbols.excludesNull x
    · rw [if_pos excluded]
      have present : Fact.Holds (.nullness .notNull) (K.valuation v) := by
        rw [stands'.datum]
        exact describes.unbound bound excluded
      obtain ⟨t', learned, described'⟩ := written.learn stands'.below present
      exact gives_feasible learned described'
    · rw [if_neg excluded]
      exact gives_pure written

/-- The operation gets the value of a term, and the fact that decides it is learned. -/
theorem Describes.leads_derived (describes : M.Describes r symbols m s)
    (evaluates : r.Evaluates o) {term : Term} (inScope : term.Below M.numbering.created)
    (computes : term.result? types M.valuation = some d) {deciding : State → Option Fact}
    (sound : ∀ (N : Model types) (t : State), M ≤ N → N.Describes r symbols (m.give o.id d) t →
      ∀ f, deciding t = some f → f.Holds d) (u : State) :
    M.Leads r symbols (m.give o.id d) (do
      let v ← Eval.intern term
      let t ← (Situation.mk o u r symbols).bind s v
      Eval.feasible (t.settle? v (deciding t))) := by
  apply (gives_intern inScope computes).bind
  intro N v le stands
  apply ((describes.mono le).leads_set stands evaluates.own).bind
  intro K t le' described
  obtain ⟨t', settled, described'⟩ := described.settle (stands.mono le').below fun f decided =>
    (stands.mono le').datum ▸ sound K t (le_trans le le') described f decided
  exact gives_feasible settled described'

/-- A write gives the value to both operations and to the symbol. -/
theorem Describes.leads_store (describes : M.Describes r symbols m s) (stands : Stands d M v)
    (evaluates : r.Evaluates o) {target : OpId} (child : target ∈ o.form.children)
    (denotes : r.Denotes target x) (u : State) :
    M.Leads r symbols (((m.give target d).give o.id d).write x d)
      (store ⟨o, u, r, symbols⟩ s target v) := by
  simp only [store]
  apply (describes.leads_set stands (evaluates.own_child child)).bind
  intro N t le described
  apply (described.leads_set (stands.mono le) evaluates.own).bind
  intro K t' le' described'
  simp only [State.write, evaluates.storage?_child child denotes t']
  exact gives_pure (described'.write ((stands.mono le).mono le') x)

theorem builtin_tag {f : Form} (form : o.form = f) :
    Rule.builtin o.tag = Rule.builtin f.tag := by
  rw [Operation.tag, form]

/-- A location that is only written is not read. -/
theorem Describes.leads_location (describes : M.Describes r symbols m s)
    (location : o.form.isLocation) (written : r.isWritten o.id = true) :
    ∃ f, Rule.builtin o.tag = Rule.ofEval f ∧ M.Leads r symbols m (f ⟨o, s, r, symbols⟩) := by
  cases form : o.form with
  | localRef | paramRef =>
    refine ⟨symbolRef, builtin_tag form, ?_⟩
    simp only [symbolRef, form, Situation.isWritten, written]
    exact gives_pure describes
  | paren =>
    refine ⟨passThrough, builtin_tag form, ?_⟩
    simp only [passThrough, form, Situation.isWritten, written]
    exact gives_pure describes
  | _ => simp [form, Form.isLocation] at location

section Form

variable (describes : M.Describes r symbols m s) (evaluates : r.Evaluates o)

include describes evaluates

theorem leads_literal {l : Literal} (form : o.form = .literal l) :
    M.Leads r symbols (m.give o.id l.datum) (Rule.literal ⟨o, s, r, symbols⟩) := by
  simp only [Rule.literal, form]
  apply (describes.gives_literal l).bind
  rintro N ⟨t, v⟩ _ ⟨described, stands⟩
  exact described.leads_set stands evaluates.own

theorem leads_symbolRef (form : o.form = .localRef x ∨ o.form = .paramRef x)
    (read : r.isWritten o.id = false) :
    M.Leads r symbols (m.give o.id (m.env x)) (symbolRef ⟨o, s, r, symbols⟩) := by
  have reads := describes.leads_read evaluates (.symbol evaluates.found form) x
  rcases form with form | form
  · simp only [symbolRef, form, Situation.isWritten, read]
    exact reads
  · simp only [symbolRef, form, Situation.isWritten, read]
    exact reads

theorem leads_paren {inner : OpId} (form : o.form = .paren inner)
    (read : r.isWritten o.id = false) (known : m.values inner = some d) :
    M.Leads r symbols (m.give o.id d) (passThrough ⟨o, s, r, symbols⟩) := by
  simp only [passThrough, form, Situation.isWritten, read]
  apply (describes.gives_child evaluates (by simp [form, Form.children]) known).bind
  rintro N ⟨t, v⟩ _ ⟨described, stands⟩
  exact described.leads_set stands evaluates.own

theorem leads_assign {target value : OpId} (form : o.form = .assign target value)
    (denotes : r.Denotes target x) (known : m.values value = some d) :
    M.Leads r symbols (((m.give target d).give o.id d).write x d)
      (assign ⟨o, s, r, symbols⟩) := by
  simp only [assign, form]
  apply (describes.gives_child evaluates (by simp [form, Form.children]) known).bind
  rintro N ⟨t, v⟩ _ ⟨described, stands⟩
  exact described.leads_store stands evaluates (by simp [form, Form.children]) denotes s

theorem leads_compound {operator : BinOp} {target value : OpId} {a b : Datum}
    (form : o.form = .compound operator target value) (denotes : r.Denotes target x)
    (old : m.values target = some a) (known : m.values value = some b)
    (result : operator.result? a b = some d) :
    M.Leads r symbols (((m.give target d).give o.id d).write x d)
      (compound ⟨o, s, r, symbols⟩) := by
  simp only [compound, form]
  apply (describes.gives_child evaluates (by simp [form, Form.children]) old).bind
  rintro N ⟨t, v⟩ _ ⟨described, stands⟩
  apply (described.gives_child evaluates (by simp [form, Form.children]) known).bind
  rintro N' ⟨t', v'⟩ le' ⟨described', stands'⟩
  apply (described'.gives_binary (stands.mono le') stands' result).bind
  rintro K ⟨t'', w⟩ _ ⟨described'', stands''⟩
  exact described''.leads_store stands'' evaluates (by simp [form, Form.children]) denotes s

theorem leads_step {target : OpId} {down postfixed : Bool} {a : Datum}
    (form : o.form = .step target down postfixed) (denotes : r.Denotes target x)
    (old : m.values target = some a)
    (result : BinOp.result? (if down then .subtract else .add) a (.int 1) = some d) :
    M.Leads r symbols ((m.write x d).give o.id (if postfixed then a else d))
      (step ⟨o, s, r, symbols⟩) := by
  have child : target ∈ o.form.children := by simp [form, Form.children]
  simp only [step, form]
  apply (describes.gives_child evaluates child old).bind
  rintro N ⟨t, v⟩ _ ⟨described, stands⟩
  apply (described.gives_literal (.int 1)).bind
  rintro N' ⟨t', one⟩ le' ⟨described', stands'⟩
  apply (described'.gives_binary (stands.mono le') stands' result).bind
  rintro K ⟨t'', new⟩ le'' ⟨described'', stands''⟩
  have written := described''.write stands'' x
  simp only [State.write, evaluates.storage?_child child denotes t'']
  cases postfixed with
  | true => exact written.leads_set ((stands.mono le').mono le'') evaluates.own
  | false => exact written.leads_set stands'' evaluates.own

theorem leads_declare {initial : OpId} (form : o.form = .declare x (some initial))
    (known : m.values initial = some d) :
    M.Leads r symbols ((m.give o.id d).write x d) (declare ⟨o, s, r, symbols⟩) := by
  simp only [declare, form]
  apply (describes.gives_child evaluates (by simp [form, Form.children]) known).bind
  rintro N ⟨t, v⟩ _ ⟨described, stands⟩
  apply (described.leads_set stands evaluates.own).bind
  intro K t' le' described'
  exact gives_pure (described'.write (stands.mono le') x)

theorem leads_binary {operator : BinOp} {left right : OpId} {a b : Datum}
    (form : o.form = .binary operator left right) (first : m.values left = some a)
    (second : m.values right = some b) (result : operator.result? a b = some d) :
    M.Leads r symbols (m.give o.id d) (Rule.binary ⟨o, s, r, symbols⟩) := by
  simp only [Rule.binary, form]
  apply (describes.gives_child evaluates (by simp [form, Form.children]) first).bind
  rintro N ⟨t, v⟩ _ ⟨described, stands⟩
  apply (described.gives_child evaluates (by simp [form, Form.children]) second).bind
  rintro N' ⟨t', v'⟩ le' ⟨described', stands'⟩
  apply (described'.gives_binary (stands.mono le') stands' result).bind
  rintro K ⟨t'', w⟩ _ ⟨described'', stands''⟩
  exact described''.leads_set stands'' evaluates.own

theorem leads_unary {operator : UnOp} {a : Datum} (form : o.form = .unary operator i)
    (known : m.values i = some a) (result : operator.result? a = some d) :
    M.Leads r symbols (m.give o.id d) (Rule.unary ⟨o, s, r, symbols⟩) := by
  simp only [Rule.unary, form]
  apply (describes.gives_child evaluates (by simp [form, Form.children]) known).bind
  rintro N ⟨t, v⟩ _ ⟨described, stands⟩
  have inScope : (Term.unary operator v).Below N.numbering.created := by
    simp [Term.Below, Term.operands, stands.below]
  have computes : (Term.unary operator v).result? types N.valuation = some d := by
    rw [Term.result?, stands.datum, result]
  apply described.leads_derived evaluates inScope computes
  intro K u le described' f decided
  apply described'.holds.foldUnary ?_ decided
  rw [(stands.mono le).datum, result]

theorem leads_isPattern {p : Pattern} {a : Datum} (form : o.form = .isPattern i p)
    (known : m.values i = some a) :
    M.Leads r symbols (m.give o.id (.bool (p.admits types a)))
      (Rule.isPattern ⟨o, s, r, symbols⟩) := by
  simp only [Rule.isPattern, form]
  apply (describes.gives_child evaluates (by simp [form, Form.children]) known).bind
  rintro N ⟨t, v⟩ _ ⟨described, stands⟩
  have inScope : (Term.isPattern p v).Below N.numbering.created := by
    simp [Term.Below, Term.operands, stands.below]
  have computes : (Term.isPattern p v).result? types N.valuation =
      some (.bool (p.admits types a)) := by
    rw [Term.result?, stands.datum]
  apply described.leads_derived evaluates inScope computes
  intro K u le described' f decided
  obtain ⟨e, matched, rfl⟩ := Option.map_eq_some_iff.mp decided
  have outcome : p.admits types (K.valuation v) = e := described'.holds.matches matched
  rw [(stands.mono le).datum] at outcome
  exact congrArg Datum.bool outcome

/-- Whatever the machine executes, the rule of the operation leads to the new store. -/
theorem leads_execution (executes : r.Executes symbols types o m m') :
    ∃ f, Rule.builtin o.tag = Rule.ofEval f ∧ M.Leads r symbols m' (f ⟨o, s, r, symbols⟩) := by
  cases executes with
  | literal form =>
    exact ⟨Rule.literal, builtin_tag form,
      leads_literal describes evaluates form⟩
  | read form read =>
    refine ⟨symbolRef, ?_, leads_symbolRef describes evaluates form read⟩
    rcases form with form | form
    · exact builtin_tag form
    · exact builtin_tag form
  | paren form read value =>
    exact ⟨passThrough, builtin_tag form,
      leads_paren describes evaluates form read value⟩
  | location form written => exact describes.leads_location form written
  | assign form denotes known =>
    exact ⟨Rule.assign, builtin_tag form,
      leads_assign describes evaluates form denotes known⟩
  | compound form denotes old known result =>
    exact ⟨Rule.compound, builtin_tag form,
      leads_compound describes evaluates form denotes old known result⟩
  | step form denotes old result =>
    exact ⟨Rule.step, builtin_tag form,
      leads_step describes evaluates form denotes old result⟩
  | declare form known =>
    exact ⟨Rule.declare, builtin_tag form,
      leads_declare describes evaluates form known⟩
  | undefined form admitted =>
    refine ⟨Rule.declare, builtin_tag form, ?_⟩
    simp only [Rule.declare, form]
    exact gives_pure (describes.clear admitted)
  | binary form first second result =>
    exact ⟨Rule.binary, builtin_tag form,
      leads_binary describes evaluates form first second result⟩
  | unary form known result =>
    exact ⟨Rule.unary, builtin_tag form,
      leads_unary describes evaluates form known result⟩
  | test form known =>
    exact ⟨Rule.isPattern, builtin_tag form,
      leads_isPattern describes evaluates form known⟩

/-- The built-in semantics follows an execution with one successor. -/
theorem follows_execution (executes : r.Executes symbols types o m m') :
    ∃ (N : Model types) (t : State), M ≤ N ∧
      Semantics.builtin.process ⟨o, s, r, symbols⟩ M.numbering = (.ok [t], N.numbering) ∧
      N.Describes r symbols m' t := by
  obtain ⟨f, meaning, N, t, le, result, described⟩ :=
    leads_execution describes evaluates executes
  have meaning' : Rule.builtin (Situation.mk o s r symbols).operation.tag = Rule.ofEval f := meaning
  refine ⟨N, t, le, ?_, described⟩
  rw [Semantics.process_builtin, meaning']
  simp only [Rule.ofEval, result]

end Form

end Model

end SymbolicExecution
