import SymbolicExecution.Proofs.Footprint.Receiver

/-!
# Results

What holds of the result of an evaluation if it comes to one. The parts of which the rules are made
leave the symbols and the slots alone and number values from where they start.
-/

namespace SymbolicExecution

namespace Eval

variable {α β : Type} {n : Numbering} {x : Eval α} {f : α → Eval β}

/-- If the evaluation has a result from `n`, the result and the numbering after it satisfy `P`. -/
def Leaves (x : Eval α) (n : Numbering) (P : α → Numbering → Prop) : Prop :=
  ∀ a m, x n = (.result a, m) → P a m

variable {P : α → Numbering → Prop} {Q : β → Numbering → Prop}

theorem leaves_self (x : Eval α) (n : Numbering) : x.Leaves n fun a m => x n = (.result a, m) :=
  fun _ _ result => result

theorem leaves_pure {a : α} (holds : P a n) : (pure a : Eval α).Leaves n P := by
  intro b m same
  cases same
  exact holds

theorem leaves_feasible {x : Option α} (holds : ∀ a, x = some a → P a n) :
    (Eval.feasible x).Leaves n P := by
  cases x with
  | none => exact fun _ _ same => nomatch same
  | some a => exact leaves_pure (holds a rfl)

theorem leaves_owned {x : Except Foreign α} (holds : ∀ a, x = .ok a → P a n) :
    (Eval.owned x).Leaves n P := by
  cases x with
  | ok a => exact leaves_pure (holds a rfl)
  | error f => exact fun _ _ same => nomatch same

theorem leaves_ite {p : Prop} [Decidable p] {x y : Eval α} (yes : p → x.Leaves n P)
    (no : ¬p → y.Leaves n P) : (if p then x else y).Leaves n P := by
  by_cases holds : p
  · rw [if_pos holds]
    exact yes holds
  · rw [if_neg holds]
    exact no holds

theorem Leaves.imp {P' : α → Numbering → Prop} (leaves : x.Leaves n P)
    (weaker : ∀ a m, P a m → P' a m) : x.Leaves n P' :=
  fun a m result => weaker a m (leaves a m result)

theorem Leaves.and {P' : α → Numbering → Prop} (first : x.Leaves n P) (second : x.Leaves n P') :
    x.Leaves n fun a m => P a m ∧ P' a m :=
  fun a m result => ⟨first a m result, second a m result⟩

theorem Leaves.bind (first : x.Leaves n P) (next : ∀ a m, P a m → (f a).Leaves m Q) :
    (x >>= f).Leaves n Q := by
  intro b k result
  cases start : x n with
  | mk verdict m =>
    cases verdict with
    | result a =>
      rw [bind_of_result start] at result
      exact next a m (first a m start) b k result
    | infeasible =>
      rw [bind_of_infeasible start] at result
      cases result
    | refused r =>
      rw [bind_of_refused start] at result
      cases result

/-- An evaluation goes on where it can if that follows from what its first part leaves. -/
theorem Leaves.feasible_bind (first : x.Leaves n P) (steady : x.Steady)
    (next : ∀ a m, P a m → (f a m).1 ≠ .infeasible) : ((x >>= f) n).1 ≠ .infeasible := by
  cases start : x n with
  | mk verdict m =>
    cases verdict with
    | result a =>
      rw [bind_of_result start]
      exact next a m (first a m start)
    | infeasible => exact absurd (congrArg Prod.fst start) (steady n)
    | refused r =>
      rw [bind_of_refused start]
      exact fun infeasible => nomatch infeasible

theorem bind_assoc {γ : Type} (x : Eval α) (f : α → Eval β) (g : β → Eval γ) :
    x >>= f >>= g = x >>= fun a => f a >>= g := by
  funext n
  cases start : x n with
  | mk verdict m =>
    cases verdict with
    | result a =>
      rw [bind_of_result start]
      cases second : f a m with
      | mk verdict k =>
        have both : (x >>= f) n = (verdict, k) := (bind_of_result start).trans second
        cases verdict with
        | result b => rw [bind_of_result both, bind_of_result second]
        | infeasible => rw [bind_of_infeasible both, bind_of_infeasible second]
        | refused r => rw [bind_of_refused both, bind_of_refused second]
    | infeasible => rw [bind_of_infeasible start, bind_of_infeasible (bind_of_infeasible start)]
    | refused r => rw [bind_of_refused start, bind_of_refused (bind_of_refused start)]

end Eval

/-- From `s` and `n` to `t` and `m` nothing was bound or recorded, and the numbering went on. -/
structure Stays (s : State) (n : Numbering) (t : State) (m : Numbering) : Prop where
  symbols : t.symbols = s.symbols
  captures : t.captures = s.captures
  created : n.created ≤ m.created

namespace Stays

variable {s t u : State} {n m k : Numbering}

theorem refl (s : State) (n : Numbering) : Stays s n s n := ⟨rfl, rfl, Nat.le_refl _⟩

theorem trans (first : Stays s n t m) (second : Stays t m u k) : Stays s n u k :=
  ⟨second.symbols.trans first.symbols, second.captures.trans first.captures,
    Nat.le_trans first.created second.created⟩

theorem ofFacts (same : State.SameButFacts s t) (created : n.created ≤ m.created) : Stays s n t m :=
  ⟨same.symbols, same.captures, created⟩

theorem symbol? (stays : Stays s n t m) (x : SymbolId) : t.symbol? x = s.symbol? x := by
  rw [State.symbol?, State.symbol?, stays.symbols]

theorem storage? (stays : Stays s n t m) (r : Routine) (i : OpId) :
    t.storage? r i = s.storage? r i := by
  apply State.storage?_congr
  intro slot
  rw [State.capture?, State.capture?, stays.captures]

end Stays

namespace State

/-- In `t` the operations have the values that they have in `s`. Those that have none there may have
got new ones, numbered from `n` on. -/
structure Supplies (s : State) (n : Numbering) (t : State) : Prop where
  kept {i : OpId} {v : Value} : s.operation? i = some v → t.operation? i = some v
  new {i : OpId} {v : Value} : s.operation? i = none → t.operation? i = some v →
    n.created ≤ v.index

namespace Supplies

variable {s t u : State} {n m : Numbering}

theorem refl (s : State) (n : Numbering) : s.Supplies n s := by
  refine ⟨id, ?_⟩
  intro i v unknown known
  cases unknown.symm.trans known

theorem trans (first : s.Supplies n t) (later : n.created ≤ m.created) (second : t.Supplies m u) :
    s.Supplies n u := by
  refine ⟨fun known => second.kept (first.kept known), ?_⟩
  intro i v unknown given
  cases known : t.operation? i with
  | some w =>
    cases (second.kept known).symm.trans given
    exact first.new unknown known
  | none => exact Nat.le_trans later (second.new known given)

end Supplies

variable {s : State} {i : OpId} {v : Value} {n : Numbering}

theorem sameButFacts_of_settle {t : State} {fact : Option Fact}
    (learned : s.settle? v fact = some t) : s.SameButFacts t := by
  cases fact with
  | none =>
    cases learned
    exact .refl s
  | some fact => exact sameButFacts_of_learn learned

theorem sameButFacts_of_learnAll {t : State} {l : List Fact}
    (learned : s.learnAll? v l = some t) : s.SameButFacts t := by
  induction l generalizing s with
  | nil =>
    cases learned
    exact .refl _
  | cons fact rest ih =>
    obtain ⟨u, first, others⟩ := Option.bind_eq_some_iff.mp learned
    exact (sameButFacts_of_learn first).trans (ih others)

theorem leaves_setOperation (s : State) (i : OpId) (v : Value) (n : Numbering) :
    (Eval.owned (s.setOperation i v)).Leaves n fun t m => Stays s n t m ∧
      t.operation? i = some v ∧ t.facts = s.facts ∧
      (∀ j, j ≠ i → t.operation? j = s.operation? j) ∧ m = n := by
  apply Eval.leaves_owned
  intro t set
  obtain ⟨_, rfl⟩ := setOperation_eq_ok_iff.mp set
  refine ⟨⟨rfl, rfl, Nat.le_refl _⟩, ?_, rfl, ?_, rfl⟩
  · rw [operation?, Table.get?_insert, if_pos rfl]
  · intro j other
    rw [operation?, Table.get?_insert, if_neg other]
    rfl

theorem leaves_fresh (n : Numbering) : Eval.fresh.Leaves n fun v m =>
    v = ⟨n.created⟩ ∧ m.created = n.created + 1 := by
  intro v m same
  cases same
  exact ⟨rfl, rfl⟩

/-- An operand that has a value keeps it, and one without gets a new one. -/
theorem leaves_operand (s : State) (i : OpId) (n : Numbering) :
    (operand s i).Leaves n fun a m => Stays s n a.1 m ∧ a.1.operation? i = some a.2 ∧
      a.1.facts = s.facts ∧ s.Supplies n a.1 := by
  simp only [operand]
  split
  · rename_i v known
    exact Eval.leaves_pure ⟨.refl s n, known, rfl, .refl s n⟩
  · rename_i unknown
    refine (leaves_fresh n).bind ?_
    rintro v m ⟨rfl, created⟩
    refine (leaves_setOperation s i _ m).bind ?_
    rintro t k ⟨stays, known, facts, others, rfl⟩
    apply Eval.leaves_pure
    refine ⟨⟨stays.symbols, stays.captures, by omega⟩, known, facts, ?_, ?_⟩
    · intro j w given
      have other : j ≠ i := by
        rintro rfl
        cases unknown.symm.trans given
      exact (others j other).trans given
    · intro j w unknown' given
      by_cases same : j = i
      · rw [same, known] at given
        cases given
        exact Nat.le_refl _
      · rw [others j same, unknown'] at given
        cases given

/-- A term is numbered, and facts about its value may be learned. -/
theorem leaves_term {t : Term} {learned : Value → Option State}
    (facts : ∀ v u, learned v = some u → s.SameButFacts u) :
    (do
      let v ← Eval.intern t
      let u ← Eval.feasible (learned v)
      return (u, v)).Leaves n fun a m => s.SameButFacts a.1 ∧ m.find? t = some a.2 ∧
        n.Grows Numbering.Any m := by
  refine (Eval.leaves_self (Eval.intern t) n).bind ?_
  intro v m interned
  cases interned
  have learns : (Eval.feasible (learned (n.intern t).1)).Leaves (n.intern t).2 fun u m =>
      s.SameButFacts u ∧ m = (n.intern t).2 :=
    Eval.leaves_feasible fun u same => ⟨facts _ u same, rfl⟩
  refine learns.bind ?_
  rintro u m ⟨same, rfl⟩
  exact Eval.leaves_pure ⟨same, n.find?_intern_self t, .intern .refl trivial⟩

theorem leaves_literalValue (s : State) (l : Literal) (n : Numbering) :
    (literalValue s l).Leaves n fun a m => s.SameButFacts a.1 ∧
      m.find? (.literal l) = some a.2 ∧ n.Grows Numbering.Any m :=
  leaves_term fun _ _ learned => sameButFacts_of_learnAll learned

theorem leaves_binaryValue (s : State) (operator : BinOp) (a b : Value) (n : Numbering) :
    (binaryValue s operator a b).Leaves n fun x m => s.SameButFacts x.1 ∧
      m.find? (.binary operator a b) = some x.2 ∧ n.Grows Numbering.Any m :=
  leaves_term fun _ _ learned => sameButFacts_of_settle learned

end State

namespace Rule

variable {c : Situation} {n : Numbering}

/-- The operation gets its value, which only the states of its own routine allow. -/
theorem leaves_bind (c : Situation) (s : State) (v : Value) (n : Numbering) :
    (c.bind s v).Leaves n fun t m => t.routine = c.operation.id.routine ∧
      t = { s with operations := s.operations.insert c.operation.id v } ∧ m = n := by
  apply Eval.leaves_owned
  intro t set
  obtain ⟨own, rfl⟩ := State.setOperation_eq_ok_iff.mp set
  exact ⟨own.symm, rfl, rfl⟩

/-- The receiver of an access, if there is one, is dereferenced before the evaluation goes on. -/
theorem leaves_receiver {g : State → Eval State} {receiver : Option OpId}
    {P : State → Numbering → Prop}
    (next : ∀ s m, Stays c.state n s m → (g s).Leaves m P) :
    (match receiver with
      | some i => do
        let (s, v) ← operand c.state i
        let s ← pure (s.dereference v)
        g s
      | none => do
        let s ← pure c.state
        g s).Leaves n P := by
  cases receiver with
  | none =>
    have start : (pure c.state : Eval State).Leaves n fun s m => Stays c.state n s m :=
      Eval.leaves_pure (.refl _ _)
    exact start.bind next
  | some i =>
    refine (State.leaves_operand c.state i n).bind ?_
    rintro ⟨s, v⟩ m ⟨stays, _, _⟩
    have same := s.sameButFacts_dereference v
    have start : (pure (s.dereference v) : Eval State).Leaves m fun s m => Stays c.state n s m :=
      Eval.leaves_pure (stays.trans (.ofFacts same (Nat.le_refl _)))
    exact start.bind next

theorem process_of_result {f : Situation → Eval State} {t : State} {m : Numbering}
    (meaning : Rule.builtin c.operation.tag = ofEval f) (result : f c n = (.result t, m)) :
    Semantics.builtin.process c n = (.ok [t], m) := by
  rw [Semantics.process_builtin, meaning]
  simp only [ofEval, result]

theorem snd_process {f : Situation → Eval State} (meaning : Rule.builtin c.operation.tag = ofEval f)
    (n : Numbering) : (Semantics.builtin.process c n).2 = (f c n).2 := by
  rw [Semantics.process_builtin, meaning, ofEval]
  cases f c n with
  | mk verdict m => cases verdict <;> rfl

/-- What holds of the results of a rule holds of the answer. -/
theorem leaves_of_process {f : Situation → Eval State} {P : State → Numbering → Prop}
    (meaning : Rule.builtin c.operation.tag = ofEval f) (leaves : (f c).Leaves n P)
    {states : List State} {m : Numbering}
    (answered : Semantics.builtin.process c n = (.ok states, m)) : ∀ t ∈ states, P t m := by
  rw [Semantics.process_builtin, meaning] at answered
  simp only [ofEval] at answered
  cases start : f c n with
  | mk verdict k =>
    rw [start] at answered
    cases verdict with
    | result t =>
      cases answered
      intro u hu
      rw [List.mem_singleton.mp hu]
      exact leaves t m start
    | infeasible =>
      cases answered
      intro u hu
      cases hu
    | refused r => cases answered

end Rule

end SymbolicExecution
