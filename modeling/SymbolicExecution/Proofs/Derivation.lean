import SymbolicExecution.Derivation
import SymbolicExecution.Proofs.Fact
import SymbolicExecution.Proofs.Interval.Comparison

/-!
# Deciding facts hold

Where the facts about the operands decide the result of an operator or a test, the deciding fact
holds of what the operands determine, and so of the result.
-/

namespace SymbolicExecution

theorem Literal.holds_of_mem_facts {l : Literal} {f : Fact} (mem : f ∈ l.facts) :
    f.Holds l.datum := by
  cases l with
  | int n =>
    rcases List.mem_cons.mp mem with rfl | mem
    · exact ⟨n, rfl, Interval.contains_exact.mpr rfl⟩
    · rw [List.mem_singleton.mp mem]
      exact Datum.noConfusion
  | bool b =>
    rcases List.mem_cons.mp mem with rfl | mem
    · rfl
    · rw [List.mem_singleton.mp mem]
      exact Datum.noConfusion
  | str s =>
    rw [List.mem_singleton.mp mem]
    exact Datum.noConfusion
  | null =>
    rw [List.mem_singleton.mp mem]
    rfl

namespace BinOp

theorem compute?_eq_fitting? (operator : BinOp) (m n : Int64) :
    operator.compute? m n = operator.fitting? m n := by
  cases operator with
  | divide => exact (fitting_divide m n).symm
  | remainder => exact (fitting_remainder m n).symm
  | _ => rfl

/-- What is known of one or both truth values decides a connective. -/
theorem kleene_of_connect {operator : BinOp} {p q : Option Bool} {a b : Datum} {e : Bool}
    (left : ∀ x, p = some x → a = .bool x) (right : ∀ x, q = some x → b = .bool x)
    (connected : operator.connect? p q = some e) : operator.kleene? a b = some e := by
  simp only [connect?] at connected
  split at connected
  · cases connected
    simp [kleene?, left false rfl]
  · cases connected
    simp [kleene?, right false rfl]
  · cases connected
    simp [kleene?, left true rfl, right true rfl]
  · cases connected
    simp [kleene?, left true rfl]
  · cases connected
    simp [kleene?, right true rfl]
  · cases connected
    simp [kleene?, left false rfl, right false rfl]
  · cases connected

end BinOp

namespace Interval

variable {r s : Interval} {m n : Int64} {b : Bool}

/-- What the bounds say of an order comparison is its outcome on elements. -/
theorem orders_of_compare {operator : BinOp} (decided : compare? operator r s = some b)
    (left : r.contains m) (right : s.contains n) : operator.orders m n = b := by
  have order : operator.isOrder := by cases operator <;> first | rfl | cases decided
  rw [contains_iff_spans] at left right
  rw [BinOp.orders_eq_relates]
  exact (compare?_eq_some_iff ⟨_, left⟩ ⟨_, right⟩ order).mp decided _ _ left right

end Interval

namespace State

variable {types : TypeTest} {s : State} {ρ : Valuation} {a b v : Value}

/-- Disjoint intervals tell values apart, and exact ones compare them. -/
theorem Holds.apart (holds : s.Holds ρ) {e : Bool} (decided : equal?.apart? s a b = some e) :
    decide (ρ a = ρ b) = e := by
  simp only [equal?.apart?] at decided
  split at decided
  · rename_i r t left right
    obtain ⟨m, first, inside⟩ := holds.interval? left
    obtain ⟨n, second, inside'⟩ := holds.interval? right
    rw [first, second]
    split at decided
    · rename_i disjoint
      cases decided
      apply decide_eq_false
      intro same
      rw [Datum.int.inj same] at inside
      obtain ⟨u, meet, _⟩ := Interval.contains_meet inside inside'
      rw [meet] at disjoint
      cases disjoint
    · split at decided
      · rename_i single single'
        cases decided
        rw [Interval.contains_of_single? single inside,
          Interval.contains_of_single? single' inside']
        simp
      · cases decided
  · cases decided

theorem Holds.sameTruth (holds : s.Holds ρ) {e : Bool}
    (decided : equal?.sameTruth? s a b = some e) : decide (ρ a = ρ b) = e := by
  simp only [equal?.sameTruth?] at decided
  split at decided
  · rename_i left right
    cases decided
    rw [holds.truth? left, holds.truth? right]
    simp
  · cases decided

/-- What the facts say of equality is right. -/
theorem Holds.equal (holds : s.Holds ρ) {e : Bool} (decided : s.equal? a b = some e) :
    decide (ρ a = ρ b) = e := by
  simp only [equal?] at decided
  split at decided
  · rename_i same
    cases decided
    rw [same]
    exact decide_eq_true rfl
  split at decided
  · rename_i left right
    cases decided
    have first : ρ a = .null := holds.nullness? left
    have second : ρ b = .null := holds.nullness? right
    rw [first, second]
    rfl
  · rename_i left right
    cases decided
    have first : ρ a = .null := holds.nullness? left
    have second : ρ b ≠ .null := holds.nullness? right
    rw [first]
    exact decide_eq_false (Ne.symm second)
  · rename_i left right
    cases decided
    have first : ρ a ≠ .null := holds.nullness? left
    have second : ρ b = .null := holds.nullness? right
    rw [second]
    exact decide_eq_false first
  · cases first : equal?.apart? s a b with
    | some x => exact holds.apart (by simpa [first] using decided)
    | none => exact holds.sameTruth (by simpa [first] using decided)

/-- The deciding fact of a binary operator holds of the result that its operands determine. -/
theorem Holds.determined_of_fold (holds : s.Holds ρ) {operator : BinOp} {f : Fact}
    (decided : s.fold? operator a b = some f) :
    ∃ d, operator.determined? (ρ a) (ρ b) = some d ∧ f.Holds d := by
  cases operator with
  | add | subtract | multiply | divide | remainder =>
    obtain ⟨m, left, decided⟩ := Option.bind_eq_some_iff.mp decided
    obtain ⟨n, right, decided⟩ := Option.bind_eq_some_iff.mp decided
    obtain ⟨k, computed, decided⟩ := Option.bind_eq_some_iff.mp decided
    cases decided
    rw [BinOp.compute?_eq_fitting?] at computed
    refine ⟨.int k, ?_, k, rfl, Interval.contains_exact.mpr rfl⟩
    simp only [BinOp.determined?, holds.integer? left, holds.integer? right, computed,
      Option.map_some]
  | equals =>
    obtain ⟨e, equal, rfl⟩ := Option.map_eq_some_iff.mp decided
    exact ⟨_, rfl, congrArg Datum.bool (holds.equal equal)⟩
  | notEquals =>
    obtain ⟨e, equal, rfl⟩ := Option.map_eq_some_iff.mp decided
    have differ : decide (ρ a ≠ ρ b) = !e := by rw [← holds.equal equal, ← decide_not]
    exact ⟨_, rfl, congrArg Datum.bool differ⟩
  | lessThan | lessOrEqual | greaterThan | greaterOrEqual =>
    obtain ⟨r, left, decided⟩ := Option.bind_eq_some_iff.mp decided
    obtain ⟨t, right, decided⟩ := Option.bind_eq_some_iff.mp decided
    obtain ⟨e, compared, decided⟩ := Option.bind_eq_some_iff.mp decided
    cases decided
    obtain ⟨m, first, inside⟩ := holds.interval? left
    obtain ⟨n, second, inside'⟩ := holds.interval? right
    refine ⟨.bool e, ?_, rfl⟩
    simp only [BinOp.determined?, first, second,
      Interval.orders_of_compare compared inside inside']
  | and | or =>
    obtain ⟨e, connected, rfl⟩ := Option.map_eq_some_iff.mp decided
    refine ⟨.bool e, ?_, rfl⟩
    have decides := BinOp.kleene_of_connect (fun _ known => holds.truth? known)
      (fun _ known => holds.truth? known) connected
    simp only [BinOp.determined?, decides, Option.map_some]

/-- So it holds of the result. -/
theorem Holds.fold (holds : s.Holds ρ) {operator : BinOp} {d : Datum} {f : Fact}
    (result : operator.result? (ρ a) (ρ b) = some d) (decided : s.fold? operator a b = some f) :
    f.Holds d := by
  obtain ⟨e, determined, fact⟩ := holds.determined_of_fold decided
  rw [BinOp.result?_of_determined determined result]
  exact fact

theorem Holds.determined_of_foldUnary (holds : s.Holds ρ) {operator : UnOp} {f : Fact}
    (decided : s.foldUnary? operator a = some f) :
    ∃ d, operator.determined? (ρ a) = some d ∧ f.Holds d := by
  cases operator with
  | not =>
    obtain ⟨b, known, rfl⟩ := Option.map_eq_some_iff.mp decided
    exact ⟨.bool (!b), by rw [holds.truth? known]; rfl, rfl⟩
  | negate =>
    obtain ⟨k, negated, rfl⟩ := Option.map_eq_some_iff.mp decided
    obtain ⟨n, known, negated⟩ := Option.bind_eq_some_iff.mp negated
    refine ⟨.int k, ?_, k, rfl, Interval.contains_exact.mpr rfl⟩
    have fits : word? (-n.toInt) = some k := negated
    simp only [UnOp.determined?, holds.integer? known, fits, Option.map_some]

theorem Holds.foldUnary (holds : s.Holds ρ) {operator : UnOp} {d : Datum} {f : Fact}
    (result : operator.result? (ρ a) = some d) (decided : s.foldUnary? operator a = some f) :
    f.Holds d := by
  obtain ⟨e, determined, fact⟩ := holds.determined_of_foldUnary decided
  rw [UnOp.result?_of_determined determined result]
  exact fact

theorem Holds.decide_null (holds : s.Holds ρ) {n : Nullness} (known : s.nullness? v = some n) :
    decide (ρ v = .null) = decide (n = .null) := by
  have holds' : n.Holds (ρ v) := holds.nullness? known
  cases n with
  | null => simpa [Nullness.Holds] using holds'
  | notNull => simpa [Nullness.Holds] using holds'

/-- What the facts say of a comparison with a literal is right. -/
theorem Holds.matches_constant (holds : s.Holds ρ) {l : Literal} {e : Bool}
    (decided : s.matches? v (.constant l) = some e) : decide (ρ v = l.datum) = e := by
  have absent : s.nullness? v = some .null → ρ v = .null := fun known => holds.nullness? known
  cases l with
  | null =>
    obtain ⟨n, known, rfl⟩ := Option.map_eq_some_iff.mp decided
    exact holds.decide_null known
  | str text =>
    simp only [matches?] at decided
    split at decided
    · rename_i known
      cases decided
      rw [absent known]
      rfl
    · cases decided
  | bool b =>
    simp only [matches?] at decided
    split at decided
    · rename_i known
      cases decided
      rw [absent known]
      rfl
    · obtain ⟨c, known, rfl⟩ := Option.map_eq_some_iff.mp decided
      rw [holds.truth? known]
      simp [Literal.datum]
  | int n =>
    simp only [matches?] at decided
    split at decided
    · rename_i known
      cases decided
      rw [absent known]
      rfl
    · obtain ⟨r, known, decided⟩ := Option.bind_eq_some_iff.mp decided
      obtain ⟨k, value, inside⟩ := holds.interval? known
      rw [value]
      split at decided
      · obtain ⟨m, single, rfl⟩ := Option.map_eq_some_iff.mp decided
        rw [Interval.contains_of_single? single inside]
        simp [Literal.datum]
      · rename_i outside
        cases decided
        apply decide_eq_false
        intro same
        rw [Datum.int.inj same] at inside
        exact outside inside

/-- What the facts say of a pattern test is right. -/
theorem Holds.matches (holds : s.Holds ρ) {p : Pattern} {e : Bool}
    (decided : s.matches? v p = some e) : p.admits types (ρ v) = e := by
  cases p with
  | discard =>
    cases decided
    rfl
  | null =>
    obtain ⟨n, known, rfl⟩ := Option.map_eq_some_iff.mp decided
    exact holds.decide_null known
  | notNull =>
    obtain ⟨n, known, rfl⟩ := Option.map_eq_some_iff.mp decided
    have same := holds.decide_null known
    cases n with
    | null => simp_all [Pattern.admits]
    | notNull => simp_all [Pattern.admits]
  | type name =>
    simp only [matches?] at decided
    split at decided
    · rename_i known
      cases decided
      have absent : ρ v = .null := holds.nullness? known
      rw [Pattern.admits, absent, types.not_null]
    · cases decided
  | constant l => exact holds.matches_constant decided

end State

end SymbolicExecution
