import SymbolicExecution.Derivation
import SymbolicExecution.Proofs.Renaming.Correspondence
import SymbolicExecution.Proofs.Scope

/-!
# Renamed states

A state and its image under a renaming know the same of corresponding values, so whatever is asked
of both is answered alike, and whatever is changed in both leaves a state and its image.
-/

namespace SymbolicExecution

/-- `t` is the image of `s`: the values are renamed and all else is kept. -/
structure State.Renames (π : Value → Value) (s t : State) : Prop where
  routine : t.routine = s.routine
  operation (i : OpId) : t.operation? i = (s.operation? i).map π
  symbol (x : SymbolId) : t.symbol? x = (s.symbol? x).map π
  fact (v : Value) : t.facts.get? (π v) = s.facts.get? v
  captures : t.captures = s.captures

/-- A state and a renaming have one image. -/
theorem State.Renames.unique {π : Renaming} {s t u : State} (left : s.Renames π t)
    (right : s.Renames π u) : t = u := by
  have operations : t.operations = u.operations :=
    Table.ext_get? fun i => (left.operation i).trans (right.operation i).symm
  have symbols : t.symbols = u.symbols :=
    Table.ext_get? fun x => (left.symbol x).trans (right.symbol x).symm
  have facts : t.facts = u.facts := by
    apply Table.ext_get?
    intro w
    rw [← π.apply_symm_apply w, left.fact, right.fact]
  have routine := left.routine.trans right.routine.symm
  have captures := left.captures.trans right.captures.symm
  cases t
  cases u
  simp_all

namespace Correspondence

variable {c d : Correspondence} {s t : State} {a b v w : Value}

/-- Corresponding states: the second is the image of the first, whose values exist. -/
structure States (c : Correspondence) (s t : State) : Prop where
  below : s.Below c.left.created
  renames : s.Renames c.rename t

/-- Corresponding values: the second renames the first, which exists. -/
structure Values (c : Correspondence) (v w : Value) : Prop where
  below : v.index < c.left.created
  renames : w = c.rename v

theorem States.mono (states : c.States s t) (le : c ≤ d) : d.States s t := by
  have more := le.grows.created_le
  have kept : ∀ {o : Option Value}, (∀ v, o = some v → v.index < c.left.created) →
      o.map d.rename = o.map c.rename := by
    intro o old
    cases o with
    | none => rfl
    | some v => rw [Option.map_some, Option.map_some, le.agrees (old v rfl)]
  refine ⟨states.below.mono more, states.renames.routine, ?_, ?_, ?_, states.renames.captures⟩
  · intro i
    rw [kept fun v known => states.below.operation known]
    exact states.renames.operation i
  · intro x
    rw [kept fun v known => states.below.symbol known]
    exact states.renames.symbol x
  · intro v
    -- the constrained values of the image rename old ones
    obtain ⟨u, image⟩ := c.rename.surjective (d.rename v)
    rw [← image, states.renames.fact]
    cases here : s.facts.get? u with
    | some f =>
      have same : u = v := by
        apply d.rename.injective
        rw [le.agrees (states.below.fact here), image]
      rw [← same, here]
    | none =>
      cases there : s.facts.get? v with
      | none => rfl
      | some f =>
        have same : u = v := by
          apply c.rename.injective
          rw [image, le.agrees (states.below.fact there)]
        rw [same, there] at here
        cases here

theorem Values.mono (values : c.Values v w) (le : c ≤ d) : d.Values v w := by
  refine ⟨Nat.lt_of_lt_of_le values.below le.grows.created_le, ?_⟩
  rw [le.agrees values.below]
  exact values.renames

theorem States.operation (states : c.States s t) {i : OpId} (known : s.operation? i = some v) :
    ∃ w, t.operation? i = some w ∧ c.Values v w := by
  refine ⟨c.rename v, ?_, states.below.operation known, rfl⟩
  rw [states.renames.operation, known, Option.map_some]

theorem States.operation_none (states : c.States s t) {i : OpId} (known : s.operation? i = none) :
    t.operation? i = none := by
  rw [states.renames.operation, known, Option.map_none]

theorem States.symbol (states : c.States s t) {x : SymbolId} (bound : s.symbol? x = some v) :
    ∃ w, t.symbol? x = some w ∧ c.Values v w := by
  refine ⟨c.rename v, ?_, states.below.symbol bound, rfl⟩
  rw [states.renames.symbol, bound, Option.map_some]

theorem States.symbol_none (states : c.States s t) {x : SymbolId} (bound : s.symbol? x = none) :
    t.symbol? x = none := by
  rw [states.renames.symbol, bound, Option.map_none]

theorem States.storage (states : c.States s t) (r : Routine) (i : OpId) :
    t.storage? r i = s.storage? r i := by
  have passed : t.passedTo? r = s.passedTo? r := by
    funext j
    simp only [State.passedTo?, State.capture?, states.renames.captures]
  simp only [State.storage?, passed]

section Knowledge

theorem States.factsOf (states : c.States s t) (values : c.Values v w) :
    t.factsOf w = s.factsOf v := by
  rw [State.factsOf, values.renames, states.renames.fact]
  rfl

theorem States.truth (states : c.States s t) (values : c.Values v w) : t.truth? w = s.truth? v := by
  rw [State.truth?, states.factsOf values]
  rfl

theorem States.nullness (states : c.States s t) (values : c.Values v w) :
    t.nullness? w = s.nullness? v := by
  rw [State.nullness?, states.factsOf values]
  rfl

theorem States.interval (states : c.States s t) (values : c.Values v w) :
    t.interval? w = s.interval? v := by
  rw [State.interval?, states.factsOf values]
  rfl

theorem States.integer (states : c.States s t) (values : c.Values v w) :
    t.integer? w = s.integer? v := by
  rw [State.integer?, states.interval values]
  rfl

theorem Values.eq_iff (left : c.Values a v) (right : c.Values b w) : v = w ↔ a = b := by
  rw [left.renames, right.renames]
  exact c.rename.injective.eq_iff

theorem States.equal (states : c.States s t) (left : c.Values a v) (right : c.Values b w) :
    t.equal? v w = s.equal? a b := by
  simp only [State.equal?, State.equal?.apart?, State.equal?.sameTruth?, left.eq_iff right,
    states.nullness left, states.nullness right, states.interval left, states.interval right,
    states.truth left, states.truth right]

theorem States.fold (states : c.States s t) (left : c.Values a v) (right : c.Values b w)
    (operator : BinOp) : t.fold? operator v w = s.fold? operator a b := by
  simp only [State.fold?, states.equal left right, states.integer left, states.integer right,
    states.interval left, states.interval right, states.truth left, states.truth right]

theorem States.foldUnary (states : c.States s t) (values : c.Values v w) (operator : UnOp) :
    t.foldUnary? operator w = s.foldUnary? operator v := by
  simp only [State.foldUnary?, states.truth values, states.integer values]

theorem States.matches (states : c.States s t) (values : c.Values v w) (p : Pattern) :
    t.matches? w p = s.matches? v p := by
  simp only [State.matches?]
  simp only [states.nullness values, states.interval values, states.truth values]

end Knowledge

section Change

theorem States.setOperation (states : c.States s t) (values : c.Values v w) (i : OpId) :
    (∃ f, s.setOperation i v = .error f ∧ t.setOperation i w = .error f) ∨
    ∃ s' t', s.setOperation i v = .ok s' ∧ t.setOperation i w = .ok t' ∧ c.States s' t' := by
  by_cases own : i.routine = s.routine
  · have set := State.setOperation_eq_ok_iff (v := v).mpr ⟨own, rfl⟩
    have set' := State.setOperation_eq_ok_iff (v := w).mpr
      ⟨own.trans states.renames.routine.symm, rfl⟩
    refine Or.inr ⟨_, _, set, set', states.below.setOperation values.below set,
      states.renames.routine, ?_, states.renames.symbol, states.renames.fact,
      states.renames.captures⟩
    intro j
    simp only [State.operation?, Table.get?_insert]
    split
    · rw [values.renames, Option.map_some]
    · exact states.renames.operation j
  · refine Or.inl ⟨⟨i, s.routine⟩, by rw [State.setOperation, if_neg own], ?_⟩
    rw [State.setOperation, states.renames.routine, if_neg own]

theorem States.setCapture (states : c.States s t) (slot : CaptureId) (i : OpId) :
    (∃ f, s.setCapture slot i = .error f ∧ t.setCapture slot i = .error f) ∨
    ∃ s' t', s.setCapture slot i = .ok s' ∧ t.setCapture slot i = .ok t' ∧ c.States s' t' := by
  by_cases own : i.routine = s.routine
  · refine Or.inr ⟨{ s with captures := s.captures.insert slot i },
      { t with captures := t.captures.insert slot i }, ?_, ?_,
      ⟨states.below.operation, states.below.symbol, states.below.fact⟩,
      states.renames.routine, states.renames.operation, states.renames.symbol, states.renames.fact,
      ?_⟩
    · rw [State.setCapture, if_pos own]
    · rw [State.setCapture, if_pos (own.trans states.renames.routine.symm)]
    · rw [states.renames.captures]
  · refine Or.inl ⟨⟨i, s.routine⟩, by rw [State.setCapture, if_neg own], ?_⟩
    rw [State.setCapture, states.renames.routine, if_neg own]

theorem States.setSymbol (states : c.States s t) (values : c.Values v w) (x : SymbolId) :
    c.States (s.setSymbol x v) (t.setSymbol x w) := by
  refine ⟨states.below.setSymbol values.below, states.renames.routine, states.renames.operation, ?_,
    states.renames.fact, states.renames.captures⟩
  intro y
  simp only [State.symbol?, State.setSymbol, Table.get?_insert]
  split
  · rw [values.renames, Option.map_some]
  · exact states.renames.symbol y

theorem States.filterSymbols (states : c.States s t) (p : SymbolId → Bool) :
    c.States { s with symbols := s.symbols.filter fun x _ => p x }
      { t with symbols := t.symbols.filter fun x _ => p x } := by
  refine ⟨⟨states.below.operation, ?_, states.below.fact⟩, states.renames.routine,
    states.renames.operation, ?_, states.renames.fact, states.renames.captures⟩
  · intro x v bound
    simp only [State.symbol?, Table.get?_filter, Option.filter_eq_some_iff] at bound
    exact states.below.symbol bound.1
  · intro x
    have image := states.renames.symbol x
    simp only [State.symbol?, Table.get?_filter] at image ⊢
    rw [image]
    cases s.symbols.get? x with
    | none => rfl
    | some v => simp [Option.filter]

theorem States.learn (states : c.States s t) (values : c.Values v w) (f : Fact) :
    Option.Rel c.States (s.learn? v f) (t.learn? w f) := by
  simp only [State.learn?]
  rw [states.factsOf values]
  cases learned : (s.factsOf v).learn? f with
  | none => exact .none
  | some known =>
    simp only [Option.map_some]
    split
    · exact .some states
    · rename_i changed
      have outcome : s.learn? v f = some { s with facts := s.facts.insert v known } := by
        simp [State.learn?, learned, changed]
      refine .some ⟨states.below.learn values.below outcome, states.renames.routine,
        states.renames.operation, states.renames.symbol, ?_, states.renames.captures⟩
      intro u
      simp only [Table.get?_insert, values.renames, c.rename.injective.eq_iff, states.renames.fact]

theorem rel_cases {α β : Type} {R : α → β → Prop} {x : Option α} {y : Option β}
    (related : Option.Rel R x y) :
    (x = none ∧ y = none) ∨ ∃ a b, x = some a ∧ y = some b ∧ R a b := by
  cases related with
  | none => exact Or.inl ⟨rfl, rfl⟩
  | some holds => exact Or.inr ⟨_, _, rfl, rfl, holds⟩

theorem States.learnAll (states : c.States s t) (values : c.Values v w) (l : List Fact) :
    Option.Rel c.States (s.learnAll? v l) (t.learnAll? w l) := by
  induction l generalizing s t with
  | nil => exact .some states
  | cons f rest ih =>
    simp only [State.learnAll?, List.foldlM_cons]
    rcases rel_cases (states.learn values f) with ⟨left, right⟩ | ⟨s', t', left, right, states'⟩
    · rw [left, right]
      exact .none
    · rw [left, right]
      exact ih states'

theorem States.settle (states : c.States s t) (values : c.Values v w) (x : Option Fact) :
    Option.Rel c.States (s.settle? v x) (t.settle? w x) := by
  cases x with
  | none => exact .some states
  | some f => exact states.learn values f

theorem States.dereference (states : c.States s t) (values : c.Values v w) :
    c.States (s.dereference v) (t.dereference w) := by
  simp only [State.dereference]
  rcases rel_cases (states.learn values (.nullness .notNull)) with
    ⟨left, right⟩ | ⟨s', t', left, right, states'⟩
  · rw [left, right]
    exact states
  · rw [left, right]
    exact states'

/-- Leaving a block drops corresponding values and facts. -/
theorem States.forgetOperations (states : c.States s t) :
    c.States s.forgetOperations t.forgetOperations := by
  have kept : ∀ i, t.forgetOperations.operations.get? i =
      (s.forgetOperations.operations.get? i).map c.rename := by
    intro i
    have image := states.renames.operation i
    simp only [State.operation?] at image
    simp only [State.forgetOperations, Table.get?_filter, states.renames.captures, image]
    cases s.operations.get? i with
    | none => rfl
    | some v => simp [Option.filter]
  refine ⟨states.below.forgetOperations, states.renames.routine, kept, states.renames.symbol, ?_,
    states.renames.captures⟩
  intro v
  have sameOperations : t.forgetOperations.operations.values.contains (c.rename v) =
      s.forgetOperations.operations.values.contains v := by
    rw [Bool.eq_iff_iff, Table.contains_values, Table.contains_values]
    simp only [kept, Option.map_eq_some_iff, c.rename.injective.eq_iff, exists_eq_right]
  have sameSymbols : t.symbols.values.contains (c.rename v) = s.symbols.values.contains v := by
    rw [Bool.eq_iff_iff, Table.contains_values, Table.contains_values]
    have image := states.renames.symbol
    simp only [State.symbol?] at image
    simp only [image, Option.map_eq_some_iff, c.rename.injective.eq_iff, exists_eq_right]
  have facts : ∀ (u : State) (x : Value), u.forgetOperations.facts.get? x =
      (u.facts.get? x).filter fun _ => u.forgetOperations.operations.values.contains x ||
        u.symbols.values.contains x := by
    intro u x
    exact Table.get?_filter _ _ _
  rw [facts, facts, sameOperations, sameSymbols, states.renames.fact]

end Change

end Correspondence

end SymbolicExecution
