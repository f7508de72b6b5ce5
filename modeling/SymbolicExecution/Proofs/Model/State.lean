import SymbolicExecution.Proofs.Machine
import SymbolicExecution.Proofs.Model
import SymbolicExecution.Proofs.Routine.Order

/-!
# States that describe stores

A state describes a store under a model if its facts hold, and if the values that it knows of
operations and symbols stand for what the store has there. Of an unbound symbol it says only that
the symbol has a value of its type.
-/

namespace SymbolicExecution

namespace Routine

variable {r : Routine}

/-- The way from a location to its symbol goes down in the evaluation order. -/
theorem follow?_of_denotes (tree : r.Treelike) (s : State) {b : BlockId} {k hops : Nat} {i : OpId}
    {x : SymbolId} (here : (r.order b)[k]? = some i) (enough : k < hops)
    (denotes : r.Denotes i x) :
    ∃ last, follow? (s.passedTo? r) hops i = some last ∧ r.namedSymbol? last = some x := by
  induction denotes generalizing k hops with
  | @symbol i p x found form =>
    obtain ⟨n, rfl⟩ := Nat.exists_eq_succ_of_ne_zero (Nat.ne_of_gt (Nat.zero_lt_of_lt enough))
    have stays : s.passedTo? r i = none := by
      rcases form with form | form <;> simp [State.passedTo?, found, form]
    refine ⟨i, by simp [follow?, stays], ?_⟩
    rcases form with form | form <;> simp [namedSymbol?, found, form]
  | @paren i inner p x found form _ ih =>
    obtain ⟨n, rfl⟩ := Nat.exists_eq_succ_of_ne_zero (Nat.ne_of_gt (Nat.zero_lt_of_lt enough))
    obtain ⟨j, lt, earlier⟩ := tree.before here found inner (by simp [form, Form.children])
    have enough' : j < n := by omega
    obtain ⟨last, follows, named⟩ := ih earlier enough'
    have passes : s.passedTo? r i = some inner := by simp [State.passedTo?, found, form]
    exact ⟨last, by simp [follow?, passes, follows], named⟩

/-- Without closures, a write through a location reaches the symbol that it denotes. -/
theorem storage?_of_denotes (tree : r.Treelike) (plain : r.closures = Table.empty) (s : State)
    {b : BlockId} {k : Nat} {i : OpId} {x : SymbolId} (here : (r.order b)[k]? = some i)
    (denotes : r.Denotes i x) : s.storage? r i = some x := by
  have inside := (Array.getElem?_eq_some_iff.mp here).1
  have enough : k < r.hops := by
    have := tree.order_size_le b
    simp only [hops]
    omega
  obtain ⟨last, follows, named⟩ := follow?_of_denotes tree s here enough denotes
  have owner : r.owner? x = some x := by
    simp [owner?, plain, follow?]
  simp [State.storage?, follows, named, owner]

end Routine

namespace Model

variable {types : TypeTest} {M N : Model types} {r : Routine} {symbols : Symbols} {m : Store}
  {s t : State} {i : OpId} {x : SymbolId} {v : Value} {d : Datum}

/-- What the state says about the store is true. -/
structure Describes (M : Model types) (r : Routine) (symbols : Symbols) (m : Store) (s : State) :
    Prop where
  below : s.Below M.numbering.created
  holds : s.Holds M.valuation
  routine : s.routine = r.id
  operation {i : OpId} {v : Value} : s.operation? i = some v → m.values i = some (M.valuation v)
  symbol {x : SymbolId} {v : Value} : s.symbol? x = some v → M.valuation v = m.env x
  unbound {x : SymbolId} : s.symbol? x = none → symbols.excludesNull x → m.env x ≠ .null

theorem Describes.mono (describes : M.Describes r symbols m s) (le : M ≤ N) :
    N.Describes r symbols m s := by
  refine ⟨describes.below.mono le.grows.created_le, ?_, describes.routine, ?_, ?_,
    describes.unbound⟩
  · apply describes.holds.congr
    intro v f known
    exact le.agrees (describes.below.fact known)
  · intro i v known
    rw [le.agrees (describes.below.operation known)]
    exact describes.operation known
  · intro x v bound
    rw [le.agrees (describes.below.symbol bound)]
    exact describes.symbol bound

theorem describes_entry (r : Routine) {env : SymbolId → Datum}
    (admitted : ∀ x, symbols.excludesNull x → env x ≠ .null) :
    M.Describes r symbols ⟨env, fun _ => none⟩ (.entry r.id) := by
  refine ⟨State.below_entry _ _, fun v => Facts.hold_empty _, rfl, ?_, ?_, fun {x} _ => admitted x⟩
  · intro i v known
    cases known
  · intro x v bound
    cases bound

/-- The operation gets a value in state and store. -/
theorem Describes.give (describes : M.Describes r symbols m s) (stands : Stands d M v)
    (own : i.routine = r.id) :
    ∃ t, s.setOperation i v = .ok t ∧ M.Describes r symbols (m.give i d) t := by
  have set := State.setOperation_eq_ok_iff (v := v).mpr ⟨own.trans describes.routine.symm, rfl⟩
  refine ⟨_, set, describes.below.setOperation stands.below set, describes.holds, describes.routine,
    ?_, describes.symbol, describes.unbound⟩
  intro j w known
  rw [State.operation?, Table.get?_insert] at known
  split at known
  · rename_i same
    cases known
    rw [same, stands.datum, Store.values_give_self]
  · rename_i other
    rw [Store.values_give_of_ne other]
    exact describes.operation known

/-- The symbol gets a value in state and store. -/
theorem Describes.write (describes : M.Describes r symbols m s) (stands : Stands d M v)
    (x : SymbolId) : M.Describes r symbols (m.write x d) (s.setSymbol x v) := by
  refine ⟨describes.below.setSymbol stands.below, describes.holds, describes.routine,
    describes.operation, ?_, ?_⟩
  · intro y w bound
    rw [State.symbol?, State.setSymbol, Table.get?_insert] at bound
    split at bound
    · rename_i same
      cases bound
      rw [same, stands.datum, Store.env_write_self]
    · rename_i other
      rw [Store.env_write_of_ne other]
      exact describes.symbol bound
  · intro y unbound excluded
    rw [State.symbol?, State.setSymbol, Table.get?_insert] at unbound
    split at unbound
    · cases unbound
    · rename_i other
      rw [Store.env_write_of_ne other]
      exact describes.unbound unbound excluded

/-- An unbound symbol may have any value that its type admits. -/
theorem Describes.clear (describes : M.Describes r symbols m s)
    (admitted : symbols.excludesNull x → d ≠ .null) :
    M.Describes r symbols (m.write x d) (s.clearSymbol x) := by
  refine ⟨describes.below.clearSymbol x, describes.holds, describes.routine, describes.operation,
    ?_, ?_⟩
  · intro y w bound
    rw [State.symbol?_clearSymbol] at bound
    split at bound
    · cases bound
    · rename_i other
      rw [Store.env_write_of_ne other]
      exact describes.symbol bound
  · intro y unbound excluded
    by_cases same : y = x
    · rw [same] at excluded ⊢
      rw [Store.env_write_self]
      exact admitted excluded
    · rw [State.symbol?_clearSymbol, if_neg same] at unbound
      rw [Store.env_write_of_ne same]
      exact describes.unbound unbound excluded

theorem Describes.of_same (describes : M.Describes r symbols m s) (same : s.SameButFacts t)
    (below : t.Below M.numbering.created) (holds : t.Holds M.valuation) :
    M.Describes r symbols m t := by
  refine ⟨below, holds, same.routine.trans describes.routine, ?_, ?_, ?_⟩
  · intro i v known
    rw [same.operation?] at known
    exact describes.operation known
  · intro x v bound
    rw [State.symbol?, same.symbols] at bound
    exact describes.symbol bound
  · intro x unbound excluded
    rw [State.symbol?, same.symbols] at unbound
    exact describes.unbound unbound excluded

theorem Describes.learn (describes : M.Describes r symbols m s)
    (below : v.index < M.numbering.created) {f : Fact} (fact : f.Holds (M.valuation v)) :
    ∃ t, s.learn? v f = some t ∧ M.Describes r symbols m t := by
  obtain ⟨t, learned, holds, same⟩ := describes.holds.learn fact
  exact ⟨t, learned, describes.of_same same (describes.below.learn below learned) holds⟩

theorem Describes.learnAll (describes : M.Describes r symbols m s)
    (below : v.index < M.numbering.created) {l : List Fact}
    (facts : ∀ f ∈ l, f.Holds (M.valuation v)) :
    ∃ t, s.learnAll? v l = some t ∧ M.Describes r symbols m t := by
  induction l generalizing s with
  | nil => exact ⟨s, rfl, describes⟩
  | cons f rest ih =>
    obtain ⟨t, learned, describes'⟩ := describes.learn below (facts f List.mem_cons_self)
    obtain ⟨u, learned', described⟩ := ih describes' fun g hg => facts g (List.mem_cons_of_mem f hg)
    refine ⟨u, ?_, described⟩
    rw [State.learnAll?, List.foldlM_cons, learned]
    exact learned'

theorem Describes.settle (describes : M.Describes r symbols m s)
    (below : v.index < M.numbering.created) {x : Option Fact}
    (fact : ∀ f, x = some f → f.Holds (M.valuation v)) :
    ∃ t, s.settle? v x = some t ∧ M.Describes r symbols m t := by
  cases x with
  | none => exact ⟨s, rfl, describes⟩
  | some f => exact describes.learn below (fact f rfl)

/-- A state says less when it has forgotten its operations. -/
theorem Describes.forgetOperations (describes : M.Describes r symbols m s) :
    M.Describes r symbols m s.forgetOperations := by
  refine ⟨describes.below.forgetOperations, ?_, describes.routine,
    fun known => describes.operation (State.operation?_of_forgetOperations known),
    describes.symbol, describes.unbound⟩
  intro v
  cases known : s.forgetOperations.facts.get? v with
  | none =>
    have nothing : s.forgetOperations.factsOf v = Facts.empty := by simp [State.factsOf, known]
    rw [nothing]
    exact Facts.hold_empty _
  | some f =>
    have same : s.forgetOperations.factsOf v = s.factsOf v := by
      simp [State.factsOf, known, State.facts_of_forgetOperations known]
    rw [same]
    exact describes.holds v

/-- A state that describes the store, and a value that stands for the datum. -/
structure Knows (r : Routine) (symbols : Symbols) (m : Store) (d : Datum) (M : Model types)
    (a : State × Value) : Prop where
  describes : M.Describes r symbols m a.1
  stands : Stands d M a.2

theorem Describes.gives_operand (describes : M.Describes r symbols m s)
    (known : m.values i = some d) (own : i.routine = r.id) :
    M.Gives (Knows r symbols m d) (operand s i) := by
  simp only [operand]
  cases evaluated : s.operation? i with
  | some v =>
    refine gives_pure ⟨describes, describes.below.operation evaluated, ?_⟩
    exact Option.some.inj ((describes.operation evaluated).symm.trans known)
  | none =>
    apply (gives_fresh M d).bind
    intro N v le stands
    obtain ⟨t, set, described⟩ := (describes.mono le).give stands own
    rw [Store.give_of_known known] at described
    apply (gives_owned (Q := fun N t => N.Describes r symbols m t) set described).bind
    intro K t le' described
    exact gives_pure ⟨described, stands.mono le'⟩

theorem Describes.gives_literal (describes : M.Describes r symbols m s) (l : Literal) :
    M.Gives (Knows r symbols m l.datum) (literalValue s l) := by
  simp only [literalValue]
  apply (gives_intern (t := .literal l) (by simp [Term.Below, Term.operands]) rfl).bind
  intro N v le stands
  obtain ⟨t, learned, described⟩ := (describes.mono le).learnAll stands.below
    (fun f hf => stands.datum ▸ Literal.holds_of_mem_facts hf)
  apply (gives_feasible (Q := fun N t => N.Describes r symbols m t) learned described).bind
  intro K t le' described
  exact gives_pure ⟨described, stands.mono le'⟩

theorem Describes.gives_binary (describes : M.Describes r symbols m s) {operator : BinOp}
    {a b : Value} {e f : Datum} (left : Stands e M a) (right : Stands f M b)
    (result : operator.result? e f = some d) :
    M.Gives (Knows r symbols m d) (binaryValue s operator a b) := by
  simp only [binaryValue]
  have inScope : (Term.binary operator a b).Below M.numbering.created := by
    simp [Term.Below, Term.operands, left.below, right.below]
  have computes : (Term.binary operator a b).result? types M.valuation = some d := by
    rw [Term.result?, left.datum, right.datum, result]
  apply (gives_intern inScope computes).bind
  intro N v le stands
  have result' : operator.result? (N.valuation a) (N.valuation b) = some d := by
    rw [(left.mono le).datum, (right.mono le).datum, result]
  obtain ⟨t, settled, described⟩ := (describes.mono le).settle stands.below fun g decided =>
    stands.datum ▸ (describes.mono le).holds.fold result' decided
  apply (gives_feasible (Q := fun N t => N.Describes r symbols m t) settled described).bind
  intro K t le' described
  exact gives_pure ⟨described, stands.mono le'⟩

end Model

end SymbolicExecution
