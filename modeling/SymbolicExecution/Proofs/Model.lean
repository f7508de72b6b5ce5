import SymbolicExecution.Proofs.Derivation
import SymbolicExecution.Proofs.Evaluation
import SymbolicExecution.Proofs.Numbering

/-!
# Models of a numbering

A model gives every value a datum, and the value of a term the datum that the term computes. A new
unknown may stand for anything, so a model extends to whatever its numbering grows to, and along an
evaluation it can be extended in the way that fits a run of the program.
-/

namespace SymbolicExecution

namespace Term

/-- What the term computes; nothing for `this`. -/
def result? (types : TypeTest) (ρ : Valuation) : Term → Option Datum
  | literal l => some l.datum
  | this => none
  | binary operator a b => operator.result? (ρ a) (ρ b)
  | unary operator a => operator.result? (ρ a)
  | isPattern p a => some (.bool (p.admits types (ρ a)))
  | isType name a => some (.bool (types.admits name (ρ a)))

theorem result?_congr {types : TypeTest} {ρ ρ' : Valuation} {t : Term}
    (same : ∀ v ∈ t.operands, ρ' v = ρ v) : t.result? types ρ' = t.result? types ρ := by
  cases t with
  | literal | this => rfl
  | binary operator a b =>
    have left := same a (by simp [operands])
    have right := same b (by simp [operands])
    simp only [result?, left, right]
  | unary _ a | isPattern _ a | isType _ a =>
    have operand := same a (by simp [operands])
    simp only [result?, operand]

end Term

/-- A numbering with data for its values, where the value of a term is what the term computes. -/
structure Model (types : TypeTest) where
  numbering : Numbering
  valuation : Valuation
  made : Numbering.start.Grows Numbering.InScope numbering
  respects {t : Term} {v : Value} {d : Datum} : numbering.find? t = some v →
    t.result? types valuation = some d → valuation v = d

namespace Model

variable {types : TypeTest} {α β : Type}

/-- Later models: the old values keep their data. -/
structure Le (M N : Model types) : Prop where
  grows : M.numbering.Grows Numbering.InScope N.numbering
  agrees {v : Value} : v.index < M.numbering.created → N.valuation v = M.valuation v

instance : LE (Model types) := ⟨Le⟩

variable {M N : Model types}

theorem le_refl (M : Model types) : M ≤ M := ⟨.refl, fun _ => rfl⟩

theorem le_trans {K : Model types} (first : M ≤ N) (second : N ≤ K) : M ≤ K := by
  refine ⟨first.grows.trans second.grows, ?_⟩
  intro v old
  rw [second.agrees (Nat.lt_of_lt_of_le old first.grows.created_le), first.agrees old]

def start (types : TypeTest) : Model types where
  numbering := Numbering.start
  valuation := fun _ => .null
  made := .refl
  respects known := by cases known

/-- A new unknown stands for any datum. -/
theorem fresh (M : Model types) (d : Datum) : ∃ N : Model types, M ≤ N ∧
    N.numbering = M.numbering.fresh.2 ∧ N.valuation M.numbering.fresh.1 = d := by
  have kept : ∀ v : Value, v.index < M.numbering.created →
      Function.update M.valuation ⟨M.numbering.created⟩ d v = M.valuation v := by
    intro v old
    apply Function.update_of_ne
    rintro rfl
    exact Nat.lt_irrefl _ old
  refine ⟨{
    numbering := M.numbering.fresh.2
    valuation := Function.update M.valuation ⟨M.numbering.created⟩ d
    made := M.made.fresh
    respects := ?_ }, ⟨Numbering.Grows.refl.fresh, fun old => kept _ old⟩, rfl,
    Function.update_self _ _ _⟩
  intro t v e known computes
  have known : M.numbering.find? t = some v := known
  have below := Numbering.closed_of_grows M.made known
  rw [Term.result?_congr fun w hw => kept w (below w hw)] at computes
  rw [kept v ((Numbering.proper_start.grows M.made).below known)]
  exact M.respects known computes

/-- A term stands for what it computes. -/
theorem intern (M : Model types) {t : Term} (inScope : t.Below M.numbering.created) :
    ∃ N : Model types, M ≤ N ∧ N.numbering = (M.numbering.intern t).2 ∧
      (M.numbering.intern t).1.index < N.numbering.created ∧
      ∀ d, t.result? types M.valuation = some d → N.valuation (M.numbering.intern t).1 = d := by
  have proper := Numbering.proper_start.grows M.made
  cases new : M.numbering.find? t with
  | some v =>
    rw [Numbering.intern_of_known new]
    exact ⟨M, M.le_refl, rfl, proper.below new, fun d computes => M.respects new computes⟩
  | none =>
    have kept : ∀ v : Value, v.index < M.numbering.created →
        Function.update M.valuation ⟨M.numbering.created⟩
          ((t.result? types M.valuation).getD .null) v = M.valuation v := by
      intro v old
      apply Function.update_of_ne
      rintro rfl
      exact Nat.lt_irrefl _ old
    have value : (M.numbering.intern t).1 = ⟨M.numbering.created⟩ := by
      rw [Numbering.intern_of_new new]
    have created : (M.numbering.intern t).2.created = M.numbering.created + 1 := by
      rw [Numbering.intern_of_new new]
    refine ⟨{
      numbering := (M.numbering.intern t).2
      valuation := Function.update M.valuation ⟨M.numbering.created⟩
        ((t.result? types M.valuation).getD .null)
      made := M.made.intern inScope
      respects := ?_ }, ⟨Numbering.Grows.refl.intern inScope, fun old => kept _ old⟩, rfl, ?_, ?_⟩
    · intro u v d known computes
      rw [Numbering.find?_intern_of_new new] at known
      split at known
      · rename_i same
        cases known
        rw [same, Term.result?_congr fun w hw => kept w (inScope w hw)] at computes
        rw [Function.update_self, computes, Option.getD_some]
      · have below := Numbering.closed_of_grows M.made known
        rw [Term.result?_congr fun w hw => kept w (below w hw)] at computes
        rw [kept v (proper.below known)]
        exact M.respects known computes
    · rw [value, created]
      exact Nat.lt_succ_self _
    · intro d computes
      rw [value]
      simp [computes]

/-- A model extends to all that its numbering grows to. -/
theorem extend (M : Model types) {n : Numbering}
    (grows : M.numbering.Grows Numbering.InScope n) :
    ∃ N : Model types, M ≤ N ∧ N.numbering = n := by
  induction grows with
  | refl => exact ⟨M, M.le_refl, rfl⟩
  | fresh _ ih =>
    obtain ⟨N, le, rfl⟩ := ih
    obtain ⟨K, le', same, _⟩ := N.fresh .null
    exact ⟨K, le_trans le le', same⟩
  | intern _ fits ih =>
    obtain ⟨N, le, rfl⟩ := ih
    obtain ⟨K, le', same, _⟩ := N.intern fits
    exact ⟨K, le_trans le le', same⟩

/-- A model is one of every earlier numbering. -/
def restrict (M : Model types) {n : Numbering} (made : Numbering.start.Grows Numbering.InScope n)
    (grows : n.Grows Numbering.InScope M.numbering) : Model types where
  numbering := n
  valuation := M.valuation
  made := made
  respects known computes := M.respects (grows.find? known) computes

/-- The evaluation has a result, and a later model of its numbering satisfies `Q`. -/
def Gives (M : Model types) (Q : Model types → α → Prop) (x : Eval α) : Prop :=
  ∃ N a, M ≤ N ∧ x M.numbering = (.result a, N.numbering) ∧ Q N a

section Combination

variable {Q : Model types → α → Prop} {P : Model types → β → Prop}

theorem gives_pure {a : α} (holds : Q M a) : M.Gives Q (pure a) :=
  ⟨M, a, M.le_refl, rfl, holds⟩

theorem gives_feasible {x : Option α} {a : α} (found : x = some a) (holds : Q M a) :
    M.Gives Q (Eval.feasible x) := by
  rw [found]
  exact gives_pure holds

theorem gives_owned {x : Except Foreign α} {a : α} (found : x = .ok a) (holds : Q M a) :
    M.Gives Q (Eval.owned x) := by
  rw [found]
  exact gives_pure holds

theorem Gives.bind {x : Eval α} {f : α → Eval β} (first : M.Gives Q x)
    (next : ∀ N a, M ≤ N → Q N a → N.Gives P (f a)) : M.Gives P (x >>= f) := by
  obtain ⟨N, a, le, result, holds⟩ := first
  obtain ⟨K, b, le', result', holds'⟩ := next N a le holds
  exact ⟨K, b, le_trans le le', by rw [Eval.bind_of_result result, result'], holds'⟩

end Combination

/-- The value exists and stands for the datum. -/
structure Stands (d : Datum) (M : Model types) (v : Value) : Prop where
  below : v.index < M.numbering.created
  datum : M.valuation v = d

theorem Stands.mono {d : Datum} {v : Value} (stands : Stands d M v) (le : M ≤ N) :
    Stands d N v :=
  ⟨Nat.lt_of_lt_of_le stands.below le.grows.created_le, (le.agrees stands.below).trans stands.datum⟩

theorem gives_fresh (M : Model types) (d : Datum) : M.Gives (Stands d) Eval.fresh := by
  obtain ⟨N, le, same, datum⟩ := M.fresh d
  refine ⟨N, M.numbering.fresh.1, le, by rw [same]; rfl, ?_, datum⟩
  rw [same]
  exact Nat.lt_succ_self _

theorem gives_intern {t : Term} {d : Datum} (inScope : t.Below M.numbering.created)
    (computes : t.result? types M.valuation = some d) : M.Gives (Stands d) (Eval.intern t) := by
  obtain ⟨N, le, same, below, datum⟩ := M.intern inScope
  exact ⟨N, (M.numbering.intern t).1, le, by rw [same]; rfl, below, datum d computes⟩

end Model

end SymbolicExecution
