import Mathlib.Logic.Function.Basic
import SymbolicExecution.Proofs.Datum
import SymbolicExecution.Proofs.Interval
import SymbolicExecution.Proofs.Scope

/-!
# What facts say

A fact holds of a datum or not; the facts of a state hold under a valuation of the symbolic values.
Learning a fact that holds never fails, and leaves facts that hold.
-/

namespace SymbolicExecution

def Nullness.Holds : Nullness → Datum → Prop
  | null, d => d = .null
  | notNull, d => d ≠ .null

def Fact.Holds : Fact → Datum → Prop
  | truth b, d => d = .bool b
  | nullness n, d => n.Holds d
  | within r, d => ∃ n, d = .int n ∧ r.contains n

namespace Facts

/-- All facts hold of the datum. -/
structure Hold (f : Facts) (d : Datum) : Prop where
  truth {b : Bool} : f.truth = some b → d = .bool b
  nullness {n : Nullness} : f.nullness = some n → n.Holds d
  interval {r : Interval} : f.interval = some r → ∃ n, d = .int n ∧ r.contains n

theorem hold_empty (d : Datum) : empty.Hold d := by
  constructor
  · intro b stated
    cases stated
  · intro n stated
    cases stated
  · intro r stated
    cases stated

/-- Booleans and integers are not null. -/
theorem Hold.nullness? {f : Facts} {d : Datum} (hold : f.Hold d) {n : Nullness}
    (known : f.nullness? = some n) : n.Holds d := by
  simp only [Facts.nullness?] at known
  split at known
  · rename_i m stated
    cases known
    exact hold.nullness stated
  · split at known
    · rename_i implied
      cases known
      rcases Bool.or_eq_true_iff.mp implied with boolean | integer
      · obtain ⟨b, stated⟩ := Option.isSome_iff_exists.mp boolean
        rw [Nullness.Holds, hold.truth stated]
        exact Datum.noConfusion
      · obtain ⟨r, stated⟩ := Option.isSome_iff_exists.mp integer
        obtain ⟨m, same, _⟩ := hold.interval stated
        rw [Nullness.Holds, same]
        exact Datum.noConfusion
    · cases known

theorem Hold.not_null {f : Facts} {d : Datum} (hold : f.Hold d) (other : d ≠ .null) :
    f.nullness ≠ some .null :=
  fun stated => other (hold.nullness stated)

/-- A fact that holds is learned. -/
theorem Hold.learn {f : Facts} {d : Datum} (hold : f.Hold d) {g : Fact} (holds : g.Holds d) :
    ∃ k, f.learn? g = some k ∧ k.Hold d := by
  cases g with
  | truth b =>
    have present : f.nullness ≠ some .null := by
      apply hold.not_null
      rw [show d = .bool b from holds]
      exact Datum.noConfusion
    have agrees : f.truth ≠ some (!b) := by
      intro stated
      have other := hold.truth stated
      rw [show d = .bool b from holds] at other
      cases b <;> cases other
    refine ⟨{ f with truth := some b }, by simp [learn?, present, agrees], ?_⟩
    refine ⟨?_, hold.nullness, hold.interval⟩
    rintro _ ⟨⟩
    exact holds
  | nullness n =>
    have agrees : f.nullness? ≠ some n.opposite := by
      intro known
      have other := hold.nullness? known
      cases n with
      | null => exact other holds
      | notNull => exact holds other
    refine ⟨{ f with nullness := some n }, by simp [learn?, agrees], ?_⟩
    refine ⟨hold.truth, ?_, hold.interval⟩
    rintro _ ⟨⟩
    exact holds
  | within r =>
    obtain ⟨n, same, inside⟩ := holds
    have present : f.nullness ≠ some .null := by
      apply hold.not_null
      rw [same]
      exact Datum.noConfusion
    cases stated : f.interval with
    | none =>
      refine ⟨{ f with interval := some r }, by simp [learn?, present, stated], ?_⟩
      refine ⟨hold.truth, hold.nullness, ?_⟩
      rintro _ ⟨⟩
      exact ⟨n, same, inside⟩
    | some s =>
      obtain ⟨m, same', inside'⟩ := hold.interval stated
      cases same.symm.trans same'
      obtain ⟨t, meet, both⟩ := Interval.contains_meet inside' inside
      refine ⟨{ f with interval := some t }, by simp [learn?, present, stated, meet], ?_⟩
      refine ⟨hold.truth, hold.nullness, ?_⟩
      rintro _ ⟨⟩
      exact ⟨n, same, both⟩

end Facts

/-- What the symbolic values stand for. -/
abbrev Valuation : Type := Value → Datum

namespace State

variable {s t : State} {ρ : Valuation}

/-- All facts of the state hold. -/
def Holds (s : State) (ρ : Valuation) : Prop := ∀ v, (s.factsOf v).Hold (ρ v)

theorem Holds.congr (holds : s.Holds ρ) {ρ' : Valuation}
    (same : ∀ v f, s.facts.get? v = some f → ρ' v = ρ v) : s.Holds ρ' := by
  intro v
  cases known : s.facts.get? v with
  | none =>
    have nothing : s.factsOf v = Facts.empty := by simp [factsOf, known]
    rw [nothing]
    exact Facts.hold_empty _
  | some f =>
    rw [same v f known]
    exact holds v

/-- A value that the state does not mention may stand for anything. -/
theorem Holds.update (holds : s.Holds ρ) {w : Value} (fresh : ¬s.Mentions w) (d : Datum) :
    s.Holds (Function.update ρ w d) := by
  apply holds.congr
  intro v f known
  apply Function.update_of_ne
  rintro rfl
  exact fresh (Or.inr (Or.inr ⟨f, known⟩))

/-- The states differ in their facts only. -/
structure SameButFacts (s t : State) : Prop where
  routine : t.routine = s.routine
  operations : t.operations = s.operations
  symbols : t.symbols = s.symbols
  captures : t.captures = s.captures

theorem SameButFacts.refl (s : State) : s.SameButFacts s := ⟨rfl, rfl, rfl, rfl⟩

theorem SameButFacts.trans {u : State} (first : s.SameButFacts t) (second : t.SameButFacts u) :
    s.SameButFacts u :=
  ⟨second.routine.trans first.routine, second.operations.trans first.operations,
    second.symbols.trans first.symbols, second.captures.trans first.captures⟩

theorem SameButFacts.operation? (same : s.SameButFacts t) (i : OpId) :
    t.operation? i = s.operation? i := by
  rw [State.operation?, State.operation?, same.operations]

theorem Holds.truth? (holds : s.Holds ρ) {v : Value} {b : Bool} (known : s.truth? v = some b) :
    ρ v = .bool b := (holds v).truth known

theorem Holds.nullness? (holds : s.Holds ρ) {v : Value} {n : Nullness}
    (known : s.nullness? v = some n) : n.Holds (ρ v) := (holds v).nullness? known

theorem Holds.interval? (holds : s.Holds ρ) {v : Value} {r : Interval}
    (known : s.interval? v = some r) : ∃ n, ρ v = .int n ∧ r.contains n := (holds v).interval known

theorem Holds.integer? (holds : s.Holds ρ) {v : Value} {n : Int64}
    (known : s.integer? v = some n) : ρ v = .int n := by
  obtain ⟨r, interval, single⟩ := Option.bind_eq_some_iff.mp known
  obtain ⟨m, same, inside⟩ := holds.interval? interval
  rw [same, Interval.contains_of_single? single inside]

/-- What follows from a state where all facts hold: a state where they still hold. -/
def Learns (s : State) (ρ : Valuation) (x : Option State) : Prop :=
  ∃ t, x = some t ∧ t.Holds ρ ∧ s.SameButFacts t

theorem Holds.learns (holds : s.Holds ρ) : s.Learns ρ (some s) := ⟨s, rfl, holds, .refl s⟩

theorem Learns.bind {x : Option State} {f : State → Option State} (first : s.Learns ρ x)
    (next : ∀ t, t.Holds ρ → s.SameButFacts t → t.Learns ρ (f t)) : s.Learns ρ (x.bind f) := by
  obtain ⟨t, rfl, holds, same⟩ := first
  obtain ⟨u, found, holds', same'⟩ := next t holds same
  exact ⟨u, found, holds', same.trans same'⟩

/-- A state learns a fact that holds. -/
theorem Holds.learn (holds : s.Holds ρ) {v : Value} {f : Fact} (fact : f.Holds (ρ v)) :
    s.Learns ρ (s.learn? v f) := by
  obtain ⟨known, found, hold⟩ := (holds v).learn fact
  by_cases unchanged : known = s.factsOf v
  · exact ⟨s, by simp [learn?, found, unchanged], holds, .refl s⟩
  · refine ⟨{ s with facts := s.facts.insert v known }, by simp [learn?, found, unchanged], ?_,
      ⟨rfl, rfl, rfl, rfl⟩⟩
    intro w
    rw [factsOf, Table.get?_insert]
    by_cases same : w = v
    · rw [if_pos same, same]
      exact hold
    · rw [if_neg same]
      exact holds w

theorem Holds.learnAll (holds : s.Holds ρ) {v : Value} {l : List Fact}
    (facts : ∀ f ∈ l, f.Holds (ρ v)) : s.Learns ρ (s.learnAll? v l) := by
  induction l generalizing s with
  | nil => exact holds.learns
  | cons f rest ih =>
    apply (holds.learn (facts f List.mem_cons_self)).bind
    intro t holds' _
    exact ih holds' fun g mem => facts g (List.mem_cons_of_mem f mem)

end State

end SymbolicExecution
