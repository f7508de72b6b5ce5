import SymbolicExecution.Proofs.Boundary
import SymbolicExecution.Proofs.Branch.Shape
import SymbolicExecution.Proofs.Interval.Comparison

/-!
# What a comparison with a known integer teaches

Where one operand of a comparison is a known integer, the side of an outcome leaves exactly those
words of the other operand's interval for which the comparison comes out so, and there is no side
where that is none of them. A comparison that comes out so for no word whatever teaches nothing,
though: less than the least word and more than the greatest one have no bound of their own.
-/

namespace SymbolicExecution

namespace Word

variable {m n : Int64}

/-- All integers between two words are words. -/
theorem exists_word? {k : Int} (above : m.toInt ≤ k) (below : k ≤ n.toInt) :
    ∃ w, word? k = some w := by
  have low := Int64.le_toInt m
  have high := Int64.toInt_lt n
  refine ⟨_, if_pos ?_⟩
  rw [Int64.toInt_minValue, Int64.toInt_maxValue]
  omega

/-- Only the greatest word has none after it. -/
theorem not_lt_of_next? (last : next? n = none) : ¬n < m := by
  intro less
  rw [Int64.lt_iff_toInt_lt] at less
  obtain ⟨k, after⟩ := exists_word? (m := n) (n := m) (k := n.toInt + 1) (by omega) (by omega)
  cases last.symm.trans after

/-- Only the least word has none before it. -/
theorem not_lt_of_prev? (first : prev? n = none) : ¬m < n := by
  intro less
  rw [Int64.lt_iff_toInt_lt] at less
  obtain ⟨k, before⟩ := exists_word? (m := m) (n := n) (k := n.toInt - 1) (by omega) (by omega)
  cases first.symm.trans before

end Word

namespace BinOp

variable {operator holding : BinOp} {outcome : Bool} {m n : Int64}

/-- What comes out is a comparison of order, or else that two operands are equal. -/
def Tells (operator : BinOp) (outcome : Bool) : Prop :=
  operator.isOrder ∨ operator = .equals ∧ outcome = true ∨ operator = .notEquals ∧ outcome = false

/-- What holds if the comparison came out so. -/
def held? (operator : BinOp) (outcome : Bool) : Option BinOp :=
  if outcome then some operator else operator.opposite?

theorem isComparison_of_isOrder (order : operator.isOrder) : operator.isComparison := by
  cases operator <;> first | rfl | cases order

theorem isComparison_swapped (comparison : operator.isComparison) :
    operator.swapped.isComparison := by
  cases operator <;> first | rfl | cases comparison

theorem Tells.isComparison (tells : operator.Tells outcome) : operator.isComparison := by
  rcases tells with order | ⟨rfl, _⟩ | ⟨rfl, _⟩
  · exact isComparison_of_isOrder order
  · rfl
  · rfl

/-- What holds is one of order or equality, and holds of the words of which the comparison came out
so. -/
theorem Tells.exists_held (tells : operator.Tells outcome) : ∃ holding,
    operator.held? outcome = some holding ∧ (holding.isOrder ∨ holding = .equals) ∧
      ∀ m n, holding.Compares true m n ↔ operator.Compares outcome m n := by
  rcases tells with order | ⟨rfl, rfl⟩ | ⟨rfl, rfl⟩
  · cases outcome with
    | true => exact ⟨operator, rfl, Or.inl order, fun _ _ => Iff.rfl⟩
    | false =>
      cases operator with
      | lessThan | greaterThan => exact ⟨_, rfl, Or.inl rfl, fun m n => by simp [Int64.not_lt]⟩
      | lessOrEqual | greaterOrEqual =>
        exact ⟨_, rfl, Or.inl rfl, fun m n => by simp [Int64.not_le]⟩
      | _ => cases order
  · exact ⟨_, rfl, Or.inr rfl, fun _ _ => Iff.rfl⟩
  · exact ⟨.equals, rfl, Or.inr rfl, fun m n => by simp [Compares, result?]⟩

/-- No word is less than the least one or more than the greatest one. All other comparisons come out
so for some word. -/
theorem Tells.never_iff (tells : operator.Tells outcome) :
    (∀ m, ¬operator.Compares outcome m n) ↔
      operator.held? outcome = some .lessThan ∧ n = Int64.minValue ∨
        operator.held? outcome = some .greaterThan ∧ n = Int64.maxValue := by
  obtain ⟨holding, held, order, alike⟩ := tells.exists_held
  simp only [held, ← alike, Option.some.injEq]
  cases holding with
  | lessThan =>
    simp only [compares_lessThan, iff_true, true_and, reduceCtorEq, false_and, or_false]
    constructor
    · exact fun least => Int64.le_antisymm (Int64.not_lt.mp (least _)) (Int64.minValue_le n)
    · rintro rfl m
      exact Int64.not_lt.mpr (Int64.minValue_le m)
  | greaterThan =>
    simp only [compares_greaterThan, iff_true, true_and, reduceCtorEq, false_and, false_or]
    constructor
    · exact fun greatest => Int64.le_antisymm (Int64.le_maxValue n) (Int64.not_lt.mp (greatest _))
    · rintro rfl m
      exact Int64.not_lt.mpr (Int64.le_maxValue m)
  | equals | lessOrEqual | greaterOrEqual =>
    simp only [reduceCtorEq, false_and, or_false, iff_false]
    exact fun never => never n (by simp)
  | _ => rcases order with ⟨⟨⟩⟩ | ⟨⟨⟩⟩

/-- To take what holds and to swap the operands can be done in either order. -/
theorem held?_swapped (operator : BinOp) (outcome : Bool) :
    operator.swapped.held? outcome = (operator.held? outcome).map swapped := by
  cases outcome <;> cases operator <;> rfl

end BinOp

namespace State

variable {s t u : State} {v w : Value} {n x : Int64} {r : Interval} {a : Fact} {b outcome : Bool}
  {holding : BinOp}

/-- The word is in the interval of the value. If it has none, all words are. -/
def Allows (s : State) (v : Value) (x : Int64) : Prop := ∀ r, s.interval? v = some r → r.contains x

/-- What is null is neither a truth value nor an integer. -/
def Apart (s : State) : Prop :=
  ∀ v, s.nullness? v = some .null → s.truth? v = none ∧ s.interval? v = none

theorem apart_entry (routine : RoutineId) : (entry routine).Apart := fun _ _ => ⟨rfl, rfl⟩

/-- No learning makes null a truth value or an integer, not even with crossed bounds. -/
theorem Apart.learn (apart : s.Apart) (learned : s.learn? v a = some t) : t.Apart := by
  rw [learn?_eq] at learned
  obtain ⟨g, narrowed, rfl⟩ := Option.map_eq_some_iff.mp learned
  intro w null
  by_cases here : w = v
  · subst here
    simp only [nullness?, truth?, interval?, factsOf_know_self] at null ⊢
    by_cases same : a = .nullness .null
    · subst same
      obtain ⟨allowed, ⟨⟩⟩ := Option.ite_none_left_eq_some.mp narrowed
      cases known : (s.factsOf w).nullness? with
      | some n =>
        cases n with
        | null => exact apart w known
        | notNull => exact absurd known allowed
      | none =>
        -- of what may be null or not, nothing is known
        cases stated : (s.factsOf w).nullness <;> simp_all [Facts.nullness?]
    · cases (Facts.nullness?_of_learn_other same narrowed).symm.trans null
  · simp only [nullness?, truth?, interval?, factsOf_know s g here] at null ⊢
    exact apart w null

/-- So it is in all states that an entry state leads to. -/
theorem Made.apart (made : s.Made) : s.Apart := by
  induction made with
  | entry routine => exact apart_entry routine
  | setOperation _ set ih =>
    obtain ⟨_, rfl⟩ := setOperation_eq_ok_iff.mp set
    exact ih
  | setCapture _ set ih =>
    obtain ⟨_, rfl⟩ := setCapture_eq_ok_iff.mp set
    exact ih
  | setSymbol _ _ _ ih | clearSymbol _ _ ih => exact ih
  | learn _ learned ih => exact ih.learn learned
  | @forgetOperations s _ ih =>
    intro v null
    by_cases live : s.Live v
    · simp only [nullness?, truth?, interval?, factsOf_forgetOperations_of_live live] at null ⊢
      exact ih v null
    · simp only [nullness?, factsOf_forgetOperations_of_not_live live] at null
      cases null

/-- No evaluation does, either. -/
theorem Becomes.apart {f : Footprint} (becomes : s.Becomes f t) (apart : s.Apart) : t.Apart := by
  induction becomes with
  | refl => exact apart
  | tail _ touches ih =>
    cases touches with
    | learn learned => exact ih.learn learned
    | give | fill | capture | bind => exact ih

theorem Apart.evaluated (apart : s.Apart) {i : OpId} {num : Numbering} :
    (s.evaluated i num).Apart := by
  intro w null
  simp only [nullness?, truth?, interval?, factsOf_evaluated] at null ⊢
  exact apart w null

section Interval

/-- The truth value of a value says nothing about integers. -/
theorem interval?_of_learn_truth (learned : s.learn? w (.truth b) = some t) (v : Value) :
    t.interval? v = s.interval? v := by
  rw [learn?_eq] at learned
  obtain ⟨g, narrowed, rfl⟩ := Option.map_eq_some_iff.mp learned
  by_cases here : v = w
  · subst here
    obtain ⟨_, ⟨⟩⟩ := Option.ite_none_left_eq_some.mp narrowed
    rw [interval?, factsOf_know_self]
    rfl
  · rw [interval?, factsOf_know s g here]
    rfl

theorem allows_of_some (known : s.interval? v = some r) : s.Allows v x ↔ r.contains x := by
  simp [Allows, known]

theorem allows_of_none (unknown : s.interval? v = none) : s.Allows v x := by
  intro r known
  cases unknown.symm.trans known

/-- The interval that is known together with a further one. -/
theorem learn?_within_of_notNull (present : s.nullness? v = some .notNull) :
    s.learn? v (.within r) = ((s.interval? v).elim (some r) (·.meet? r)).map fun q =>
      s.know v { s.factsOf v with interval := some q } := by
  have stated : (s.factsOf v).nullness ≠ some .null := by
    intro null
    cases (Facts.nullness?_eq_null_iff.mpr null).symm.trans present
  rw [learn?_eq, Facts.learn?_within_of_present stated, Option.map_map]
  rfl

/-- Learning an interval leaves those of its words that were there before. -/
theorem allows_of_learn_within (present : s.nullness? v = some .notNull)
    (learned : s.learn? v (.within r) = some t) : t.Allows v x ↔ s.Allows v x ∧ r.contains x := by
  rw [learn?_within_of_notNull present] at learned
  obtain ⟨m, met, rfl⟩ := Option.map_eq_some_iff.mp learned
  rw [allows_of_some (r := m) (by rw [interval?, factsOf_know_self])]
  cases known : s.interval? v with
  | none =>
    rw [known] at met
    cases met
    simp [allows_of_none known]
  | some q =>
    rw [known] at met
    rw [allows_of_some known]
    exact Interval.contains_of_meet? met

/-- An interval with words of its own is learned unless none of them was there before. -/
theorem exists_learn?_within_iff (present : s.nullness? v = some .notNull) (proper : r.Proper) :
    (∃ t, s.learn? v (.within r) = some t) ↔ ∃ x, s.Allows v x ∧ r.contains x := by
  constructor
  · rintro ⟨t, learned⟩
    have left : ∃ x, t.Allows v x := by
      rw [learn?_within_of_notNull present] at learned
      obtain ⟨m, met, rfl⟩ := Option.map_eq_some_iff.mp learned
      have proper : m.Proper := by
        cases known : s.interval? v with
        | none =>
          rw [known] at met
          cases met
          exact proper
        | some q =>
          rw [known] at met
          exact Interval.proper_of_meet? met
      obtain ⟨x, inside⟩ := proper.exists_contains
      exact ⟨x, (allows_of_some (by rw [interval?, factsOf_know_self])).mpr inside⟩
    exact left.imp fun x => (allows_of_learn_within present learned).mp
  · rintro ⟨x, allowed, inside⟩
    rw [learn?_within_of_notNull present]
    cases known : s.interval? v with
    | none => exact ⟨_, rfl⟩
    | some q =>
      obtain ⟨m, met, _⟩ := Interval.contains_meet ((allows_of_some known).mp allowed) inside
      exact ⟨_, by rw [Option.elim_some, met]; rfl⟩

/-- What becomes of the words of the value `v` when it is learned that `P` holds of them. There is
such a state if there is such a word, and its words are these. If `P` holds of no word whatever, all
of them are left. -/
structure Narrows (s : State) (v : Value) (P : Int64 → Prop) (y : Option State) : Prop where
  taken : (∃ t, y = some t) ↔ (∃ x, s.Allows v x ∧ P x) ∨ ∀ x, ¬P x
  allows {t : State} : y = some t → ∀ x, t.Allows v x ↔ s.Allows v x ∧ (P x ∨ ∀ x', ¬P x')

variable {P Q : Int64 → Prop} {y : Option State}

theorem Narrows.congr (narrows : s.Narrows v P y) (same : s.interval? v = u.interval? v)
    (alike : ∀ x, P x ↔ Q x) : u.Narrows v Q y := by
  have allows (x : Int64) : s.Allows v x ↔ u.Allows v x := by simp only [Allows, same]
  constructor
  · simp only [narrows.taken, allows, alike]
  · intro t found x
    simp only [narrows.allows found, allows, alike]

theorem narrows_stay (never : ∀ x, ¬P x) : s.Narrows v P (some s) := by
  constructor
  · exact ⟨fun _ => Or.inr never, fun _ => ⟨s, rfl⟩⟩
  · rintro _ ⟨⟩ x
    exact ⟨fun allowed => ⟨allowed, Or.inr never⟩, And.left⟩

theorem narrows_learn (present : s.nullness? v = some .notNull)
    (inside : ∀ x, r.contains x ↔ P x) (proper : r.Proper) :
    s.Narrows v P (s.learn? v (.within r)) := by
  obtain ⟨x, inhabited⟩ := proper.exists_contains
  have sometimes : ¬∀ x, ¬P x := fun never => never x ((inside x).mp inhabited)
  constructor
  · simp only [exists_learn?_within_iff present proper, inside, sometimes, or_false]
  · intro t learned x
    simp only [allows_of_learn_within present learned, inside, sometimes, or_false]

end Interval

section Bound

variable (order : holding.isOrder ∨ holding = .equals)

include order

/-- A comparison without a bound holds of no word. -/
theorem not_compares_of_bounded? (unbounded : s.bounded? v holding n = none) (x : Int64) :
    ¬holding.Compares true x n := by
  cases holding with
  | lessThan => simpa using Word.not_lt_of_prev? (Option.map_eq_none_iff.mp unbounded)
  | greaterThan => simpa using Word.not_lt_of_next? (Option.map_eq_none_iff.mp unbounded)
  | equals | lessOrEqual | greaterOrEqual => cases unbounded
  | _ => rcases order with ⟨⟨⟩⟩ | ⟨⟨⟩⟩

/-- Where something holds of a value that is not null, the words of the value are narrowed to those
that it holds of. -/
theorem narrows_learnBound (present : s.nullness? v = some .notNull) :
    s.Narrows v (holding.Compares true · n) (s.learnBound? outcome v holding n) := by
  have speaks : (!outcome && s.nullness? v != some .notNull) = false := by simp [present]
  simp only [learnBound?, speaks, Bool.false_eq_true, if_false]
  cases bounded : s.bounded? v holding n with
  | none => exact narrows_stay (not_compares_of_bounded? order bounded)
  | some r =>
    exact narrows_learn present (fun _ => contains_of_bounded? order bounded)
      (Fact.proper_of_bounded? bounded)

/-- Equality says nothing about null where neither operand is null. -/
theorem learnComparison?_eq (left : s.nullness? v ≠ some .null)
    (right : s.nullness? w ≠ some .null) :
    s.learnComparison? outcome holding v w = s.learnOrder? outcome holding v w := by
  cases holding with
  | equals => simp [learnComparison?, learnComparison?.learnEquality, left, right]
  | lessThan | lessOrEqual | greaterThan | greaterOrEqual => rfl
  | _ => rcases order with ⟨⟨⟩⟩ | ⟨⟨⟩⟩

/-- A comparison with an integer teaches a bound, whichever side the integer is on. -/
theorem learnComparison?_eq_learnBound? (outcome : Bool) (apart : s.Apart)
    (present : s.nullness? v = some .notNull) (inexact : s.integer? v = none)
    (exact : s.integer? w = some n) :
    s.learnComparison? outcome holding v w = s.learnBound? outcome v holding n ∧
    s.learnComparison? outcome holding.swapped w v = s.learnBound? outcome v holding n := by
  have left : s.nullness? v ≠ some .null := by simp [present]
  have right : s.nullness? w ≠ some .null := by
    intro null
    rw [integer?, (apart w null).2] at exact
    cases exact
  have order' : holding.swapped.isOrder ∨ holding.swapped = .equals := by
    rcases order with order | rfl
    · exact Or.inl (BinOp.isOrder_swapped order)
    · exact Or.inr rfl
  rw [learnComparison?_eq order left right, learnComparison?_eq order' right left]
  simp [learnOrder?, exact, inexact, BinOp.swapped_swapped]

end Bound

theorem operation?_evaluated {i j : OpId} (known : s.operation? j = some v) (num : Numbering) :
    (s.evaluated i num).operation? j = some v := by
  simp only [evaluated]
  split
  · exact known
  · rename_i unknown
    have other : j ≠ i := by
      rintro rfl
      cases unknown.symm.trans known
    rw [operation?, Table.get?_insert, if_neg other]
    exact known

end State

namespace Routine

variable {r : Routine} {s : State} {i a b : OpId} {p : Operation} {v w : Value} {n : Int64}
  {operator holding : BinOp} {outcome : Bool} {num : Numbering}

/-- The outcome of a comparison teaches what holds of the values of its operands. -/
theorem learnFrom?_of_comparison {depth : Nat} (found : r.operation? i = some p)
    (form : p.form = .binary operator a b) (comparison : operator.isComparison)
    (held : operator.held? outcome = some holding) (left : s.operation? a = some v)
    (right : s.operation? b = some w) :
    r.learnFrom? (depth + 1) s i outcome = s.learnComparison? outcome holding v w := by
  have single : (operator = .and && outcome || operator = .or && !outcome) = false := by
    cases operator <;> first | rfl | cases comparison
  have held : (if outcome then some operator else operator.opposite?) = some holding := held
  simp only [learnFrom?, learnBy?, found, Option.map_some, form, single, held, left, right,
    comparison, Bool.false_eq_true, if_false, if_true]

/-- The condition compares the value `v`, which is not null and not a known integer, with the value
of another operand, which is the integer `n`. The operator is given as for `v` on the left, but the
operands may be written either way round. The condition is neither decided nor null. -/
structure Confronts (r : Routine) (s : State) (num : Numbering) (condition : OpId)
    (operator : BinOp) (v : Value) (n : Int64) : Prop where
  own : condition.routine = s.routine
  written : ∃ p a b w, r.operation? condition = some p ∧
    (p.form = .binary operator a b ∨ p.form = .binary operator.swapped b a) ∧
    s.operation? a = some v ∧ s.operation? b = some w ∧ s.integer? w = some n
  present : s.nullness? v = some .notNull
  inexact : s.integer? v = none
  undecided : s.truth? (s.valueAt condition num) = none
  possible : s.nullness? (s.valueAt condition num) ≠ some .null

section Confronts

variable (confronts : r.Confronts s num i operator v n)

include confronts

/-- That the condition came out so can be learned, which changes nothing about the operands. -/
theorem Confronts.exists_learned (apart : s.Apart) (outcome : Bool) : ∃ u,
    (s.evaluated i num).learn? (s.valueAt i num) (.truth outcome) = some u ∧ u.Apart ∧
    u.nullness? v = some .notNull ∧ (∀ z, u.interval? z = s.interval? z) ∧
    ∀ j z, s.operation? j = some z → u.operation? j = some z := by
  have undecided : (s.factsOf (s.valueAt i num)).truth = none := confronts.undecided
  have possible : (s.factsOf (s.valueAt i num)).nullness? ≠ some .null := confronts.possible
  obtain ⟨u, learned⟩ : ∃ u,
      (s.evaluated i num).learn? (s.valueAt i num) (.truth outcome) = some u := by
    rw [State.learn?_eq, State.factsOf_evaluated, Facts.learn?_truth_of_unknown undecided,
      if_neg possible]
    exact ⟨_, rfl⟩
  refine ⟨u, learned, apart.evaluated.learn learned, ?_, ?_, ?_⟩
  · apply State.nullness?_of_learn learned
    rw [State.nullness?, State.factsOf_evaluated]
    exact confronts.present
  · intro z
    rw [State.interval?_of_learn_truth learned, State.interval?, State.factsOf_evaluated]
    rfl
  · intro j z known
    rw [(State.sameButFacts_of_learn learned).operation?]
    exact State.operation?_evaluated known num

variable (tells : operator.Tells outcome)

include tells

/-- What the outcome teaches is the bound of what holds, whichever way round it is written. -/
theorem Confronts.learnFrom?_eq {u : State} (apart : u.Apart) {depth : Nat}
    (held : operator.held? outcome = some holding) (order : holding.isOrder ∨ holding = .equals)
    (present : u.nullness? v = some .notNull) (interval : ∀ z, u.interval? z = s.interval? z)
    (given : ∀ j z, s.operation? j = some z → u.operation? j = some z) :
    r.learnFrom? (depth + 1) u i outcome = u.learnBound? outcome v holding n := by
  obtain ⟨p, a, b, w, found, form, left, right, exact⟩ := confronts.written
  have integer (z : Value) : u.integer? z = s.integer? z := by
    rw [State.integer?, interval, State.integer?]
  obtain ⟨direct, mirrored⟩ := State.learnComparison?_eq_learnBound? order outcome
    apart present ((integer v).trans confronts.inexact) ((integer w).trans exact)
  have left := given a v left
  have right := given b w right
  rcases form with form | form
  · rw [learnFrom?_of_comparison found form tells.isComparison held left right, direct]
  · have held' : operator.swapped.held? outcome = some holding.swapped := by
      rw [BinOp.held?_swapped, held]
      rfl
    rw [learnFrom?_of_comparison found form (BinOp.isComparison_swapped tells.isComparison) held'
      right left, mirrored]

/-- The side of an outcome narrows the other operand to the words that compare so. -/
theorem Confronts.narrows_side (apart : s.Apart) : s.Narrows v (operator.Compares outcome · n)
    (r.side? true (s.evaluated i num) i (s.valueAt i num) outcome) := by
  obtain ⟨holding, held, order, alike⟩ := tells.exists_held
  obtain ⟨u, learned, apart', present, interval, given⟩ := confronts.exists_learned apart outcome
  have taught : r.side? true (s.evaluated i num) i (s.valueAt i num) outcome =
      u.learnBound? outcome v holding n := by
    simp only [side?, learned, hops, Option.bind_eq_bind, Option.bind_some, if_true]
    exact confronts.learnFrom?_eq tells apart' held order present interval given
  rw [taught]
  exact (State.narrows_learnBound order present).congr (interval v) fun x => alike x n

end Confronts

/-- Where a value is compared with a known integer, the side of an outcome is there exactly if some
word of the value's interval compares so, and then exactly these words are left. The exception is an
outcome that no word whatever has, less than the least or more than the greatest one. Its side is
there, too, with all the words that there were. Null is kept apart in every state that an entry
state leads to, see `State.Made.apart`. -/
theorem split_narrows (confronts : r.Confronts s num i operator v n) (apart : s.Apart)
    (tells : operator.Tells outcome) :
    (∃ sides, (r.split true s i num).1 = .result sides ∧
      ((∃ t, (outcome, t) ∈ sides) ↔ (∃ x, s.Allows v x ∧ operator.Compares outcome x n) ∨
        ∀ x, ¬operator.Compares outcome x n) ∧
      ∀ t, (outcome, t) ∈ sides → ∀ x, t.Allows v x ↔ s.Allows v x ∧
        (operator.Compares outcome x n ∨ ∀ y, ¬operator.Compares outcome y n)) ∧
    ((∀ x, ¬operator.Compares outcome x n) ↔
      operator.held? outcome = some .lessThan ∧ n = Int64.minValue ∨
        operator.held? outcome = some .greaterThan ∧ n = Int64.maxValue) := by
  obtain ⟨m, evaluated⟩ := State.exists_operand_eq confronts.own num
  have undecided : (s.evaluated i num).truth? (s.valueAt i num) = none := by
    rw [State.truth?, State.factsOf_evaluated]
    exact confronts.undecided
  have narrows := confronts.narrows_side tells apart
  refine ⟨⟨_, by rw [split_of_open evaluated undecided], ?_, ?_⟩, tells.never_iff⟩
  · simp only [mem_sides]
    exact narrows.taken
  · intro t mem
    exact narrows.allows (mem_sides.mp mem)

/-- A parameter is compared with an integer, in both directions. -/
def threshold (n : Int64) : Routine where
  id := ⟨0⟩
  name := "threshold"
  blocks := #[⟨⟨0⟩, [], .branch ⟨⟨0⟩, 2⟩ ⟨1⟩ ⟨1⟩, none⟩, ⟨⟨1⟩, [], .branch ⟨⟨0⟩, 3⟩ ⟨2⟩ ⟨2⟩, none⟩,
    ⟨⟨2⟩, [], .leave none, none⟩]
  operations := #[⟨⟨⟨0⟩, 0⟩, .paramRef ⟨0⟩, none⟩, ⟨⟨⟨0⟩, 1⟩, .literal (.int n), none⟩,
    ⟨⟨⟨0⟩, 2⟩, .binary .lessThan ⟨⟨0⟩, 0⟩ ⟨⟨0⟩, 1⟩, none⟩,
    ⟨⟨⟨0⟩, 3⟩, .binary .lessThan ⟨⟨0⟩, 1⟩ ⟨⟨0⟩, 0⟩, none⟩]
  closures := Table.empty
  orders := #[#[⟨⟨0⟩, 0⟩, ⟨⟨0⟩, 1⟩, ⟨⟨0⟩, 2⟩], #[⟨⟨0⟩, 1⟩, ⟨⟨0⟩, 0⟩, ⟨⟨0⟩, 3⟩], #[]]
  written := []

/-- The operands have values, and of the parameter no more is known than that it is not null. -/
def thresholdState (n : Int64) : State where
  routine := ⟨0⟩
  operations := (Table.empty.insert ⟨⟨0⟩, 0⟩ ⟨0⟩).insert ⟨⟨0⟩, 1⟩ ⟨1⟩
  symbols := Table.empty.insert ⟨0⟩ ⟨0⟩
  facts := (Table.empty.insert ⟨0⟩ ⟨none, some .notNull, none⟩).insert ⟨1⟩
    ⟨none, some .notNull, some (.exact n)⟩
  captures := Table.empty

theorem made_thresholdState (n : Int64) : (thresholdState n).Made := by
  have parameter := (State.Made.entry ⟨0⟩).setOperation (i := ⟨⟨0⟩, 0⟩) (v := ⟨0⟩) rfl
  have both := parameter.setOperation (i := ⟨⟨0⟩, 1⟩) (v := ⟨1⟩) rfl
  have bound := both.setSymbol ⟨0⟩ ⟨0⟩
  have present := bound.learn (v := ⟨0⟩) (f := .nullness .notNull) rfl
  have exact := present.learn (v := ⟨1⟩) (f := .within (.exact n)) rfl
  exact exact.learn (v := ⟨1⟩) (f := .nullness .notNull) rfl

/-- What lies between three and twenty is found not to be more than five. Then it lies between three
and five. -/
theorem split_narrows_mirrored : ∃ s sides t,
    (thresholdState 5).learn? ⟨0⟩ (.within ⟨some 3, some 20⟩) = some s ∧
    ((threshold 5).split true s ⟨⟨0⟩, 3⟩ ⟨2, []⟩).1 = .result sides ∧
    (false, t) ∈ sides ∧ ∀ x, t.Allows ⟨0⟩ x ↔ 3 ≤ x ∧ x ≤ 5 := by
  obtain ⟨s, learned⟩ : ∃ s, (thresholdState 5).learn? ⟨0⟩ (.within ⟨some 3, some 20⟩) = some s :=
    ⟨_, rfl⟩
  have confronts : (threshold 5).Confronts s ⟨2, []⟩ ⟨⟨0⟩, 3⟩ .greaterThan ⟨0⟩ 5 := by
    cases learned
    exact ⟨rfl, ⟨_, _, _, _, rfl, Or.inr rfl, rfl, rfl, rfl⟩, rfl, rfl, rfl, nofun⟩
  have known : s.interval? ⟨0⟩ = some ⟨some 3, some 20⟩ := by
    cases learned
    rfl
  have allowed (x : Int64) : s.Allows ⟨0⟩ x ↔ 3 ≤ x ∧ x ≤ 20 := by
    rw [State.allows_of_some known]
    simp [Interval.contains]
  have compares (x : Int64) : BinOp.greaterThan.Compares false x 5 ↔ x ≤ 5 := by
    simp [Int64.not_lt]
  obtain ⟨⟨sides, answered, taken, allows⟩, _⟩ :=
    split_narrows confronts ((made_thresholdState 5).learn learned).apart
      (Or.inl rfl : BinOp.greaterThan.Tells false)
  obtain ⟨t, mem⟩ := taken.mpr
    (Or.inl ⟨4, (allowed 4).mpr (by decide), (compares 4).mpr (by decide)⟩)
  refine ⟨s, sides, t, learned, answered, mem, ?_⟩
  intro x
  have sometimes : ¬∀ y, ¬BinOp.greaterThan.Compares false y 5 :=
    fun never => never 4 ((compares 4).mpr (by decide))
  rw [allows t mem x, allowed, compares, or_iff_left sometimes, and_assoc]
  simp only [Int64.le_iff_toInt_le]
  have small : (5 : Int64).toInt ≤ (20 : Int64).toInt := by decide
  omega

/-- That a parameter is less than the least word is a side, although no word is. -/
theorem split_keeps_impossible : ∃ sides t,
    (threshold Int64.minValue).Confronts (thresholdState Int64.minValue) ⟨2, []⟩ ⟨⟨0⟩, 2⟩
      .lessThan ⟨0⟩ Int64.minValue ∧
    (thresholdState Int64.minValue).Apart ∧
    ((threshold Int64.minValue).split true (thresholdState Int64.minValue) ⟨⟨0⟩, 2⟩ ⟨2, []⟩).1 =
      .result sides ∧
    (true, t) ∈ sides ∧ ∀ x, ¬BinOp.lessThan.Compares true x Int64.minValue := by
  refine ⟨_, _, ⟨rfl, ⟨_, _, _, _, rfl, Or.inl rfl, rfl, rfl, rfl⟩, rfl, rfl, rfl, nofun⟩,
    (made_thresholdState _).apart, rfl, List.mem_cons_self, ?_⟩
  intro x
  simp

end Routine

end SymbolicExecution
