import SymbolicExecution.Proofs.Branch.Depth
import SymbolicExecution.Proofs.Evaluation
import SymbolicExecution.Proofs.Fact
import SymbolicExecution.Proofs.Scope

/-!
# Branches keep the sides that can be taken

Give data to the operations of a condition so that each operator has its value, and to the symbolic
values so that all facts hold. Then the facts still hold after everything that the outcome of the
condition teaches, so the side of that outcome is not dropped.
-/

namespace SymbolicExecution

variable {types : TypeTest} {σ : OpId → Datum} {ρ : Valuation} {r : Routine} {s : State}

namespace Word

variable {k m n : Int64}

theorem le_iff_of_next? (moved : next? n = some k) : k ≤ m ↔ n < m := by
  have value : k.toInt = n.toInt + 1 := by simpa using word?_eq_some_iff.mp moved
  rw [Int64.lt_iff_toInt_lt, Int64.le_iff_toInt_le]
  omega

theorem le_iff_of_prev? (moved : prev? n = some k) : m ≤ k ↔ m < n := by
  have value : k.toInt = n.toInt - 1 := by simpa using word?_eq_some_iff.mp moved
  rw [Int64.lt_iff_toInt_lt, Int64.le_iff_toInt_le]
  omega

end Word

namespace BinOp

/-- The comparison of two words comes out so. -/
def Compares (operator : BinOp) (outcome : Bool) (m n : Int64) : Prop :=
  operator.result? (.int m) (.int n) = some (.bool outcome)

section Compares

variable {outcome : Bool} {m n : Int64}

@[simp] theorem compares_equals : equals.Compares true m n ↔ m = n := by
  simp [Compares, result?]

@[simp] theorem compares_lessThan : lessThan.Compares outcome m n ↔ (m < n ↔ outcome = true) := by
  cases outcome <;> simp [Compares, result?, compare?, orders]

@[simp] theorem compares_lessOrEqual :
    lessOrEqual.Compares outcome m n ↔ (m ≤ n ↔ outcome = true) := by
  cases outcome <;> simp [Compares, result?, compare?, orders]

@[simp] theorem compares_greaterThan :
    greaterThan.Compares outcome m n ↔ (n < m ↔ outcome = true) := by
  cases outcome <;> simp [Compares, result?, compare?, orders]

@[simp] theorem compares_greaterOrEqual :
    greaterOrEqual.Compares outcome m n ↔ (n ≤ m ↔ outcome = true) := by
  cases outcome <;> simp [Compares, result?, compare?, orders]

end Compares

/-- What is left of a comparison that came out as `outcome`: `operator` holds, unless it is one of
order, came out false before it was turned round, and has null among its operands. -/
def Held (operator : BinOp) (outcome : Bool) (a b : Datum) : Prop :=
  (outcome = false → operator.isOrder → a ≠ .null ∧ b ≠ .null) →
    operator.result? a b = some (.bool true)

theorem Held.swap {operator : BinOp} (comparison : operator.isComparison) {outcome : Bool}
    {a b : Datum} (held : operator.Held outcome a b) : operator.swapped.Held outcome b a := by
  intro present
  rw [result?_swapped comparison]
  apply held
  intro failed order
  exact (present failed (isOrder_swapped order)).symm

/-- A comparison that came out says that it, or else its opposite, is held. -/
theorem held_of_result? {operator holding : BinOp} (comparison : operator.isComparison)
    {outcome : Bool} {a b : Datum} (came : operator.result? a b = some (.bool outcome))
    (turned : (if outcome then some operator else operator.opposite?) = some holding) :
    holding.isComparison ∧ holding.Held outcome a b := by
  cases outcome with
  | true =>
    cases turned
    exact ⟨comparison, fun _ => came⟩
  | false =>
    constructor
    · cases operator <;> cases turned <;> rfl
    · intro present
      exact result?_opposite turned came (present rfl)

theorem operands_of_connective {operator : BinOp} {outcome : Bool} {a b : Datum}
    (connective : operator = .and ∧ outcome = true ∨ operator = .or ∧ outcome = false)
    (came : operator.result? a b = some (.bool outcome)) :
    a = .bool outcome ∧ b = .bool outcome := by
  have joined : operator.join? a b = some outcome := by
    rcases connective with ⟨rfl, _⟩ | ⟨rfl, _⟩
    · simpa [result?] using came
    · simpa [result?] using came
  cases a with
  | bool p =>
    cases b with
    | bool q =>
      rcases connective with ⟨rfl, rfl⟩ | ⟨rfl, rfl⟩
      · simpa [join?] using joined
      · simpa [join?] using joined
    | null | int | str | object => cases joined
  | null | int | str | object => cases joined

end BinOp

namespace State

theorem Holds.settle (holds : s.Holds ρ) {v : Value} {x : Option Fact}
    (fact : ∀ f, x = some f → f.Holds (ρ v)) : s.Learns ρ (s.settle? v x) := by
  cases x with
  | none => exact holds.learns
  | some f => exact holds.learn (fact f rfl)

/-- The bound of a comparison leaves the words that it holds of. -/
theorem contains_of_bounded? {v : Value} {holding : BinOp} {n x : Int64} {r : Interval}
    (order : holding.isOrder ∨ holding = .equals) (bounded : s.bounded? v holding n = some r) :
    r.contains x ↔ holding.Compares true x n := by
  cases holding with
  | equals =>
    cases bounded
    rw [Interval.contains_exact, BinOp.compares_equals, eq_comm]
  | lessThan =>
    obtain ⟨k, moved, rfl⟩ := Option.map_eq_some_iff.mp bounded
    simp [Word.le_iff_of_prev? moved]
  | greaterThan =>
    obtain ⟨k, moved, rfl⟩ := Option.map_eq_some_iff.mp bounded
    simp [Word.le_iff_of_next? moved]
  | lessOrEqual | greaterOrEqual =>
    cases bounded
    simp
  | _ => rcases order with ⟨⟨⟩⟩ | ⟨⟨⟩⟩

/-- An inequality moves a bound that it touches. -/
theorem Holds.bounded_notEquals (holds : s.Holds ρ) {v : Value} {n : Int64}
    (passes : ρ v ≠ .int n) {b : Interval} (bounded : s.bounded? v .notEquals n = some b) :
    ∃ m, ρ v = .int m ∧ b.contains m := by
  simp only [bounded?] at bounded
  cases known : s.interval? v with
  | none => simp [known] at bounded
  | some i =>
    obtain ⟨m, same, inside⟩ := holds.interval? known
    have other : m ≠ n := by
      rintro rfl
      exact passes same
    simp only [Interval.contains, Bool.and_eq_true] at inside
    simp only [known] at bounded
    refine ⟨m, same, ?_⟩
    split at bounded
    · rename_i low
      obtain ⟨k, moved, rfl⟩ := Option.map_eq_some_iff.mp bounded
      rw [low] at inside
      have touched : n ≤ m := by simpa using inside.1
      have more := Int64.lt_of_le_of_ne touched (Ne.symm other)
      exact Interval.contains_atLeast.mpr ((Word.le_iff_of_next? moved).mpr more)
    · split at bounded
      · rename_i high
        obtain ⟨k, moved, rfl⟩ := Option.map_eq_some_iff.mp bounded
        rw [high] at inside
        have touched : m ≤ n := by simpa using inside.2
        have less := Int64.lt_of_le_of_ne touched other
        exact Interval.contains_atMost.mpr ((Word.le_iff_of_prev? moved).mpr less)
      · cases bounded

/-- The interval of a value that passes a comparison contains it. -/
theorem Holds.bounded (holds : s.Holds ρ) {v : Value} {operator : BinOp} {n : Int64}
    (passes : operator.result? (ρ v) (.int n) = some (.bool true)) {b : Interval}
    (bounded : s.bounded? v operator n = some b) : ∃ m, ρ v = .int m ∧ b.contains m := by
  by_cases order : operator.isOrder ∨ operator = .equals
  · obtain ⟨m, same⟩ : ∃ m, ρ v = .int m := by
      rcases order with order | rfl
      · exact BinOp.exists_int_of_result? order passes
      · exact ⟨n, by simpa [BinOp.result?] using passes⟩
    rw [same] at passes
    exact ⟨m, same, (contains_of_bounded? order bounded).mpr passes⟩
  · cases operator with
    | notEquals => exact holds.bounded_notEquals (by simpa [BinOp.result?] using passes) bounded
    | add | subtract | multiply | divide | remainder | and | or => cases bounded
    | equals => exact absurd (Or.inr rfl) order
    | lessThan | lessOrEqual | greaterThan | greaterOrEqual => exact absurd (Or.inl rfl) order

theorem Holds.learnBound (holds : s.Holds ρ) {outcome : Bool} {v : Value} {operator : BinOp}
    {n : Int64} (held : operator.Held outcome (ρ v) (.int n)) :
    s.Learns ρ (s.learnBound? outcome v operator n) := by
  simp only [learnBound?]
  split
  · exact holds.learns
  · rename_i speaks
    apply holds.settle
    intro f found
    obtain ⟨b, bounded, rfl⟩ := Option.map_eq_some_iff.mp found
    apply holds.bounded (held _) bounded
    intro failed _
    have known : s.nullness? v = some .notNull := by simpa [failed] using speaks
    exact ⟨holds.nullness? known, Datum.noConfusion⟩

theorem Holds.learnOrder (holds : s.Holds ρ) {outcome : Bool} {operator : BinOp}
    (comparison : operator.isComparison) {a b : Value}
    (held : operator.Held outcome (ρ a) (ρ b)) :
    s.Learns ρ (s.learnOrder? outcome operator a b) := by
  simp only [learnOrder?]
  split
  · rename_i right
    rw [holds.integer? right] at held
    exact holds.learnBound held
  · rename_i left _
    rw [holds.integer? left] at held
    exact holds.learnBound (held.swap comparison)
  · exact holds.learns

/-- What a comparison teaches holds. -/
theorem Holds.learnComparison (holds : s.Holds ρ) {outcome : Bool} {operator : BinOp}
    (comparison : operator.isComparison) {a b : Value}
    (held : operator.Held outcome (ρ a) (ρ b)) :
    s.Learns ρ (s.learnComparison? outcome operator a b) := by
  have ordered := holds.learnOrder comparison held
  have equality : ∀ n : Nullness, (ρ b = .null → n.Holds (ρ a)) → (ρ a = .null → n.Holds (ρ b)) →
      s.Learns ρ (learnComparison?.learnEquality s outcome operator a b n) := by
    intro n left right
    simp only [learnComparison?.learnEquality]
    split
    · rename_i known
      exact holds.learn (left (holds.nullness? known))
    · split
      · rename_i known
        exact holds.learn (right (holds.nullness? known))
      · exact ordered
  cases operator with
  | equals =>
    have same : ρ a = ρ b := by simpa [BinOp.Held, BinOp.result?, BinOp.isOrder] using held
    exact equality .null (fun null => same.trans null) fun null => same.symm.trans null
  | notEquals =>
    have other : ρ a ≠ ρ b := by simpa [BinOp.Held, BinOp.result?, BinOp.isOrder] using held
    refine equality .notNull ?_ ?_
    · rintro null present
      exact other (present.trans null.symm)
    · rintro null present
      exact other (null.trans present.symm)
  | lessThan | lessOrEqual | greaterThan | greaterOrEqual => exact ordered
  | add | subtract | multiply | divide | remainder | and | or => cases comparison

end State

/-- The operations that the outcome of the form says something about, besides the outcome. -/
def Form.leads : Form → List OpId
  | .paren inner | .convert inner => [inner]
  | .unary .not a => [a]
  | .binary .and a b | .binary .or a b => [a, b]
  | _ => []

theorem Form.mem_children_of_leads {f : Form} {i : OpId} (led : i ∈ f.leads) : i ∈ f.children := by
  simp only [leads] at led
  split at led
  · exact led
  · exact led
  · exact led
  · exact led
  · exact led
  · cases led

/-- What a pattern test says about its operand holds. -/
theorem Pattern.holds_of_implied? {p : Pattern} {outcome : Bool} {d : Datum}
    (tested : p.admits types d = outcome) {f : Fact} (implied : p.implied? outcome = some f) :
    f.Holds d := by
  have typed : ∀ {name : String}, types.admits name d = true → d ≠ .null := by
    rintro name admitted rfl
    rw [types.not_null] at admitted
    cases admitted
  cases p with
  | null =>
    cases outcome with
    | true | false => cases implied; simpa [Pattern.admits, Fact.Holds, Nullness.Holds] using tested
  | notNull =>
    cases outcome with
    | true | false => cases implied; simpa [Pattern.admits, Fact.Holds, Nullness.Holds] using tested
  | discard => cases implied
  | type name =>
    cases outcome with
    | false => cases implied
    | true => cases implied; exact typed tested
  | constant l =>
    have same : decide (d = l.datum) = outcome := tested
    cases outcome with
    | true =>
      have same : d = l.datum := of_decide_eq_true same
      subst same
      cases l with
      | int n => cases implied; exact ⟨n, rfl, Interval.contains_exact.mpr rfl⟩
      | bool b => cases implied; rfl
      | str text => cases implied; exact Datum.noConfusion
      | null => cases implied; rfl
    | false =>
      have other : d ≠ l.datum := of_decide_eq_false same
      cases l with
      | null => cases implied; exact other
      | int | bool | str => cases implied

namespace Routine

/-- The operation has the value that its operator gives on its operands. -/
def Fits (r : Routine) (types : TypeTest) (σ : OpId → Datum) (i : OpId) : Prop :=
  match (r.operation? i).map Operation.form with
  | some (.paren inner) | some (.convert inner) => σ i = σ inner
  | some (.unary .not a) => UnOp.not.result? (σ a) = some (σ i)
  | some (.binary operator a b) =>
    operator.isArithmetic = false → operator.result? (σ a) (σ b) = some (σ i)
  | some (.isType a typeName) => σ i = .bool (types.admits typeName (σ a))
  | some (.isPattern a p) => σ i = .bool (p.admits types (σ a))
  | _ => True

/-- On `G`, which leads to no operation outside, all operations have fitting values, and the values
that the state knows of their operands stand for the values of these. -/
structure Reads (r : Routine) (types : TypeTest) (σ : OpId → Datum) (ρ : Valuation) (s : State)
    (G : OpId → Prop) : Prop where
  leads {i : OpId} {p : Operation} : G i → r.operation? i = some p → ∀ j ∈ p.form.leads, G j
  fits {i : OpId} : G i → r.Fits types σ i
  agrees {i : OpId} {p : Operation} : G i → r.operation? i = some p →
    ∀ j ∈ p.form.children, ∀ v, s.operation? j = some v → ρ v = σ j

theorem Reads.of_same {G : OpId → Prop} {t : State} (reads : r.Reads types σ ρ s G)
    (same : s.SameButFacts t) : r.Reads types σ ρ t G := by
  refine ⟨reads.leads, reads.fits, ?_⟩
  intro i p hi found j hj v known
  rw [same.operation?] at known
  exact reads.agrees hi found j hj v known

theorem Fits.of_binary {i a b : OpId} {p : Operation} {operator : BinOp}
    (fits : r.Fits types σ i) (found : r.operation? i = some p)
    (form : p.form = .binary operator a b) (logical : operator.isArithmetic = false) :
    operator.result? (σ a) (σ b) = some (σ i) := by
  simp only [Fits, found, Option.map_some, form] at fits
  exact fits logical

section Learn

variable {G : OpId → Prop} {i a b : OpId} {p : Operation} {outcome : Bool} {operator : BinOp}

/-- A state learns what holds of an operand. -/
theorem Reads.learnAt (reads : r.Reads types σ ρ s G) (holds : s.Holds ρ) (hi : G i)
    (found : r.operation? i = some p) (child : a ∈ p.form.children) {f : Fact}
    (fact : f.Holds (σ a)) : s.Learns ρ (s.learnAt? a f) := by
  simp only [State.learnAt?]
  cases known : s.operation? a with
  | none => exact holds.learns
  | some v =>
    apply holds.learn
    rw [reads.agrees hi found a child v known]
    exact fact

/-- A conjunction that came out true, or a disjunction that came out false, teaches both of its
operands. -/
theorem Reads.learnBoth (reads : r.Reads types σ ρ s G) (holds : s.Holds ρ) (hi : G i)
    (found : r.operation? i = some p) (form : p.form = .binary operator a b)
    (connective : operator = .and ∧ outcome = true ∨ operator = .or ∧ outcome = false)
    (came : σ i = .bool outcome) {depth : Nat}
    (deeper : ∀ {t : State} {j : OpId}, r.Reads types σ ρ t G → t.Holds ρ → G j →
      σ j = .bool outcome → t.Learns ρ (r.learnFrom? depth t j outcome)) :
    s.Learns ρ (do
      let s ← s.learnAt? a (.truth outcome)
      let s ← s.learnAt? b (.truth outcome)
      let s ← r.learnFrom? depth s a outcome
      r.learnFrom? depth s b outcome) := by
  have logical : operator.isArithmetic = false := by
    rcases connective with ⟨rfl, _⟩ | ⟨rfl, _⟩
    · rfl
    · rfl
  have fits := (reads.fits hi).of_binary found form logical
  rw [came] at fits
  obtain ⟨left, right⟩ := BinOp.operands_of_connective connective fits
  have inside : ∀ j, j = a ∨ j = b → G j := by
    intro j hj
    apply reads.leads hi found
    rw [form]
    rcases connective with ⟨rfl, _⟩ | ⟨rfl, _⟩
    · simpa [Form.leads] using hj
    · simpa [Form.leads] using hj
  have truth : (Fact.truth outcome).Holds (σ a) := left
  have truth' : (Fact.truth outcome).Holds (σ b) := right
  apply (reads.learnAt holds hi found (by simp [form, Form.children]) truth).bind
  intro t₁ holds₁ same₁
  have reads₁ := reads.of_same same₁
  apply (reads₁.learnAt holds₁ hi found (by simp [form, Form.children]) truth').bind
  intro t₂ holds₂ same₂
  have reads₂ := reads₁.of_same same₂
  apply (deeper reads₂ holds₂ (inside a (Or.inl rfl)) left).bind
  intro t₃ holds₃ same₃
  exact deeper (reads₂.of_same same₃) holds₃ (inside b (Or.inr rfl)) right

theorem Reads.learnComparison (reads : r.Reads types σ ρ s G) (holds : s.Holds ρ) (hi : G i)
    (found : r.operation? i = some p) (form : p.form = .binary operator a b)
    (comparison : operator.isComparison) (came : σ i = .bool outcome) {holding : BinOp}
    (turned : (if outcome then some operator else operator.opposite?) = some holding)
    {v w : Value} (left : s.operation? a = some v) (right : s.operation? b = some w) :
    s.Learns ρ (s.learnComparison? outcome holding v w) := by
  have logical : operator.isArithmetic = false := by
    cases operator <;> first | rfl | cases comparison
  have fits := (reads.fits hi).of_binary found form logical
  rw [came] at fits
  obtain ⟨comparison', held⟩ := BinOp.held_of_result? comparison fits turned
  apply holds.learnComparison comparison'
  rw [reads.agrees hi found a (by simp [form, Form.children]) v left,
    reads.agrees hi found b (by simp [form, Form.children]) w right]
  exact held

/-- All that the outcome of an operation teaches holds. -/
theorem learnFrom_learns (depth : Nat) (reads : r.Reads types σ ρ s G) (holds : s.Holds ρ)
    (hi : G i) (came : σ i = .bool outcome) :
    s.Learns ρ (r.learnFrom? depth s i outcome) := by
  induction depth generalizing s i outcome with
  | zero => exact holds.learns
  | succ depth ih =>
    simp only [learnFrom?, learnBy?]
    cases found : r.operation? i with
    | none => exact holds.learns
    | some p =>
      have leads := reads.leads hi found
      have fits := reads.fits hi
      simp only [Fits, found, Option.map_some] at fits ⊢
      cases form : p.form with
      | paren inner | convert inner =>
        simp only [form] at fits leads ⊢
        exact ih reads holds (leads inner (by simp [Form.leads])) (fits.symm.trans came)
      | unary operator a =>
        cases operator with
        | negate => exact holds.learns
        | not =>
          simp only [form] at fits leads ⊢
          have operand : σ a = .bool !outcome := by
            rw [came] at fits
            cases value : σ a <;> simp_all [UnOp.result?]
          have truth : (Fact.truth !outcome).Holds (σ a) := operand
          apply (reads.learnAt holds hi found (by simp [form, Form.children]) truth).bind
          intro t holds' same
          exact ih (reads.of_same same) holds' (leads a (by simp [Form.leads])) operand
      | binary operator a b =>
        simp only
        split
        · rename_i both
          apply reads.learnBoth holds hi found form (by simpa using both) came
          intro t j reads' holds' hj came'
          exact ih reads' holds' hj came'
        · split
          · rename_i holding v w turned left right
            split
            · rename_i comparison
              exact reads.learnComparison holds hi found form comparison came turned left right
            · exact holds.learns
          · exact holds.learns
      | isType a typeName =>
        simp only [form] at fits ⊢
        cases outcome with
        | false => exact holds.learns
        | true =>
          apply reads.learnAt holds hi found (by simp [form, Form.children])
          intro null
          rw [came, null, types.not_null] at fits
          cases fits
      | isPattern a q =>
        simp only [form] at fits ⊢
        cases implied : q.implied? outcome with
        | none => exact holds.learns
        | some f =>
          rw [came] at fits
          exact reads.learnAt holds hi found (by simp [form, Form.children])
            (Pattern.holds_of_implied? (Datum.bool.inj fits).symm implied)
      | _ => exact holds.learns

end Learn

/-- The side of the outcome is kept, and its facts hold. -/
theorem side_learns {G : OpId → Prop} (learning : Bool) {condition : OpId} {v : Value}
    {outcome : Bool} (reads : r.Reads types σ ρ s G) (holds : s.Holds ρ) (hc : G condition)
    (came : σ condition = .bool outcome) (stands : ρ v = .bool outcome) :
    s.Learns ρ (r.side? learning s condition v outcome) := by
  apply (holds.learn (f := .truth outcome) stands).bind
  intro t holds' same
  cases learning with
  | false => exact holds'.learns
  | true => exact learnFrom_learns r.hops (reads.of_same same) holds' hc came

/-- `j` is an operation of the tree of `i`. -/
inductive InTree (r : Routine) (i : OpId) : OpId → Prop
  | root : InTree r i i
  | child {j k : OpId} {p : Operation} (inside : InTree r i j) (found : r.operation? j = some p)
      (mem : k ∈ p.form.children) : InTree r i k

/-- The valuation after the split of a condition: an unknown condition has got a new value. -/
def valued (s : State) (condition : OpId) (n : Numbering) (outcome : Bool) (ρ : Valuation) :
    Valuation :=
  if s.operation? condition = none then Function.update ρ ⟨n.created⟩ (.bool outcome) else ρ

/-- Once the condition has a value, a split keeps the side of its outcome. -/
theorem split_of_operand {G : OpId → Prop} (learning : Bool) {condition : OpId} {u : State}
    {v : Value} {outcome : Bool} {m n : Numbering}
    (evaluated : operand s condition n = (.result (u, v), m)) (reads : r.Reads types σ ρ u G)
    (holds : u.Holds ρ) (hc : G condition) (came : σ condition = .bool outcome)
    (stands : ρ v = .bool outcome) :
    ∃ sides t, r.split learning s condition n = (.result sides, m) ∧ (outcome, t) ∈ sides ∧
      t.Holds ρ ∧ u.SameButFacts t := by
  cases known : u.truth? v with
  | some b =>
    have same : b = outcome := by
      have := holds.truth? known
      rw [stands] at this
      exact (Datum.bool.inj this).symm
    subst same
    exact ⟨_, u, split_of_decided evaluated known, List.mem_singleton_self _, holds, .refl u⟩
  | none =>
    obtain ⟨t, taken, holds', same⟩ := side_learns learning reads holds hc came stands
    exact ⟨_, t, split_of_open evaluated known, mem_sides.mpr taken, holds', same⟩

/-- A branch keeps the side that is taken. Let `σ` give every operation in the tree of the condition
the value of its operator on its operands, let `ρ` satisfy all facts of the state and agree with `σ`
on the operations whose values the state knows, and let the condition come out as `outcome`. Then
the split has a side for this outcome, and all its facts hold, where the new value of a condition
without a value, which the state does not mention, stands for the outcome. If the sides learn, the
condition has to be a tree, as all that a block of an accepted routine evaluates is: then looking
down it comes to an end. -/
theorem split_keeps (learning : Bool) {condition : OpId} {outcome : Bool} {n : Numbering}
    (tree : learning → r.IsTree condition) (own : condition.routine = s.routine)
    (fresh : s.operation? condition = none → ¬s.Mentions ⟨n.created⟩)
    (fits : ∀ i, r.InTree condition i → r.Fits types σ i)
    (agrees : ∀ i v, r.InTree condition i → s.operation? i = some v → ρ v = σ i)
    (holds : s.Holds ρ) (came : σ condition = .bool outcome) :
    (learning → r.Fathoms condition) ∧
    ∃ sides t, (r.split learning s condition n).1 = .result sides ∧ (outcome, t) ∈ sides ∧
      t.Holds (valued s condition n outcome ρ) := by
  refine ⟨fun learns => (tree learns).fathoms, ?_⟩
  have inside : ∀ {i : OpId} {p : Operation}, r.InTree condition i → r.operation? i = some p →
      ∀ j ∈ p.form.leads, r.InTree condition j :=
    fun hi found j hj => .child hi found (Form.mem_children_of_leads hj)
  simp only [valued]
  cases known : s.operation? condition with
  | some v =>
    have evaluated : operand s condition n = (.result (s, v), n) := operand_of_known known
    have reads : r.Reads types σ ρ s (r.InTree condition) := by
      refine ⟨inside, fun hi => fits _ hi, ?_⟩
      intro i p hi found j hj w here
      exact agrees j w (.child hi found hj) here
    obtain ⟨sides, t, split, mem, holds', _⟩ := split_of_operand learning evaluated reads holds
      .root came ((agrees condition v .root known).trans came)
    exact ⟨sides, t, by rw [split], mem, holds'⟩
  | none =>
    have unseen := fresh known
    generalize updated : Function.update ρ ⟨n.created⟩ (.bool outcome) = ρ'
    have stands : ρ' ⟨n.created⟩ = .bool outcome := by
      rw [← updated]
      exact Function.update_self _ _ _
    have same : ∀ i v, s.operation? i = some v → ρ' v = ρ v := by
      intro i v here
      rw [← updated]
      apply Function.update_of_ne
      rintro rfl
      exact unseen (Or.inl ⟨i, here⟩)
    have evaluated := operand_of_unknown (n := n) known own
    have reads : r.Reads types σ ρ'
        { s with operations := s.operations.insert condition ⟨n.created⟩ }
        (r.InTree condition) := by
      refine ⟨inside, fun hi => fits _ hi, ?_⟩
      intro i p hi found j hj w here
      rw [State.operation?, Table.get?_insert] at here
      split at here
      · rename_i root
        cases here
        rw [stands, root, came]
      · rw [same j w here]
        exact agrees j w (.child hi found hj) here
    have holds' : s.Holds ρ' := updated ▸ holds.update unseen _
    obtain ⟨sides, t, split, mem, kept, _⟩ := split_of_operand learning evaluated reads holds'
      .root came stands
    exact ⟨sides, t, by rw [split], mem, kept⟩

/-- A parameter and a test whether it is null. -/
def nullTest : Routine where
  id := ⟨0⟩
  name := "nullTest"
  blocks := #[⟨⟨0⟩, [], .branch ⟨⟨0⟩, 1⟩ ⟨1⟩ ⟨1⟩, none⟩, ⟨⟨1⟩, [], .leave none, none⟩]
  operations := #[⟨⟨⟨0⟩, 0⟩, .paramRef ⟨0⟩, none⟩,
    ⟨⟨⟨0⟩, 1⟩, .unary .not ⟨⟨0⟩, 2⟩, none⟩, ⟨⟨⟨0⟩, 2⟩, .isPattern ⟨⟨0⟩, 0⟩ .notNull, none⟩]
  closures := Table.empty
  orders := #[#[⟨⟨0⟩, 0⟩, ⟨⟨0⟩, 2⟩, ⟨⟨0⟩, 1⟩], #[]]
  written := []

theorem isTree_nullTest : nullTest.IsTree ⟨⟨0⟩, 1⟩ := by
  have accepted : ofOutline ⟨⟨0⟩, "nullTest", nullTest.blocks, nullTest.operations, []⟩ =
      .ok nullTest := rfl
  exact Outline.isTree_of_evaluated accepted (by decide)

/-- The parameter has a value, the test has none, and the parameter is null. -/
theorem split_keeps_nullTest : nullTest.Fathoms ⟨⟨0⟩, 1⟩ ∧ ∃ sides t,
    (nullTest.split true
      { State.entry ⟨0⟩ with operations := Table.empty.insert ⟨⟨0⟩, 0⟩ ⟨0⟩ } ⟨⟨0⟩, 1⟩ ⟨1, []⟩).1 =
        .result sides ∧
      (true, t) ∈ sides ∧ t.Holds (Function.update (fun _ => .null) ⟨1⟩ (.bool true)) := by
  have tree : ∀ i, nullTest.InTree ⟨⟨0⟩, 1⟩ i →
      i = ⟨⟨0⟩, 1⟩ ∨ i = ⟨⟨0⟩, 2⟩ ∨ i = ⟨⟨0⟩, 0⟩ := by
    intro i inside
    induction inside with
    | root => exact Or.inl rfl
    | child _ found mem ih =>
      rcases ih with rfl | rfl | rfl
      · cases found
        exact Or.inr (Or.inl (List.mem_singleton.mp mem))
      · cases found
        exact Or.inr (Or.inr (List.mem_singleton.mp mem))
      · cases found
        cases mem
  have sole : ∀ {i v}, (Table.empty.insert (⟨⟨0⟩, 0⟩ : OpId) (⟨0⟩ : Value)).get? i = some v →
      i = ⟨⟨0⟩, 0⟩ ∧ v = ⟨0⟩ := by
    intro i v known
    rw [Table.get?_insert] at known
    split at known
    · rename_i here
      cases known
      exact ⟨here, rfl⟩
    · cases known
  have fits : ∀ i, nullTest.InTree ⟨⟨0⟩, 1⟩ i → nullTest.Fits ⟨fun _ _ => false, fun _ => rfl⟩
      (fun i => if i.index = 0 then .null else .bool (i.index = 1)) i := by
    intro i inside
    rcases tree i inside with rfl | rfl | rfl
    · rfl
    · rfl
    · trivial
  let s : State := { State.entry ⟨0⟩ with operations := Table.empty.insert ⟨⟨0⟩, 0⟩ ⟨0⟩ }
  have fresh : s.operation? ⟨⟨0⟩, 1⟩ = none → ¬s.Mentions ⟨1⟩ := by
    rintro - (⟨i, known⟩ | ⟨x, bound⟩ | ⟨f, constrained⟩)
    · cases (sole known).2
    · cases bound
    · cases constrained
  obtain ⟨ends, kept⟩ := split_keeps (s := s) (ρ := fun _ => .null) (n := ⟨1, []⟩) true
    (fun _ => isTree_nullTest) rfl fresh fits
    (by
      intro i v inside known
      rw [(sole known).1]
      rfl)
    (fun v => Facts.hold_empty _) rfl
  exact ⟨ends rfl, kept⟩

end Routine

end SymbolicExecution
