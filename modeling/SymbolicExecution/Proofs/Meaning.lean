import SymbolicExecution.Proofs.Branch
import SymbolicExecution.Proofs.Derivation
import SymbolicExecution.Proofs.Evaluation
import SymbolicExecution.Proofs.Numbering

/-!
# What terms mean

A valuation respects a numbering if the value of every term stands for what the term determines; it
may stand for anything where the term determines nothing. Then the fact that decides a term holds of
its value. Evaluations only number more, so where the last numbering is respected the earlier ones
are, and what the parts of an evaluation maintain is put together along its sequence.
-/

namespace SymbolicExecution

namespace Term

variable (types : TypeTest) (ρ : Valuation)

/-- What the term determines; nothing for `this`. -/
def determined? : Term → Option Datum
  | literal l => some l.datum
  | this => none
  | binary operator a b => operator.determined? (ρ a) (ρ b)
  | unary operator a => operator.determined? (ρ a)
  | isPattern p a => some (.bool (p.admits types (ρ a)))
  | isType name a => some (.bool (types.admits name (ρ a)))

/-- The datum may be that of the term, which is not null for `this`. -/
structure Means (t : Term) (d : Datum) : Prop where
  determined {e : Datum} : t.determined? types ρ = some e → d = e
  present : t = .this → d ≠ .null

end Term

/-- Every value of a term stands for what the term means. -/
def Numbering.Respected (types : TypeTest) (ρ : Valuation) (n : Numbering) : Prop :=
  ∀ t v, n.find? t = some v → t.Means types ρ (ρ v)

theorem Numbering.Respected.of_grows {types : TypeTest} {ρ : Valuation} {n m : Numbering}
    (respected : m.Respected types ρ) (grows : n.Grows Any m) : n.Respected types ρ :=
  fun t v known => respected t v (grows.find? known)

namespace State

variable {types : TypeTest} {s : State} {ρ : Valuation} {v : Value}

/-- A fact that decides a term is learned of its value. -/
theorem Holds.settle_of_means (holds : s.Holds ρ) {t : Term} {x : Option Fact}
    (means : t.Means types ρ (ρ v))
    (decides : ∀ f, x = some f → ∃ d, t.determined? types ρ = some d ∧ f.Holds d) :
    s.Learns ρ (s.settle? v x) := by
  apply holds.settle
  intro f decided
  obtain ⟨d, determined, fact⟩ := decides f decided
  rw [means.determined determined]
  exact fact

theorem Holds.learnAll_of_means (holds : s.Holds ρ) {l : Literal}
    (means : (Term.literal l).Means types ρ (ρ v)) : s.Learns ρ (s.learnAll? v l.facts) := by
  apply holds.learnAll
  intro f mem
  rw [means.determined rfl]
  exact Literal.holds_of_mem_facts mem

end State

namespace Eval

variable {types : TypeTest} {ρ : Valuation} {α β : Type} {H : Prop} {P : α → Prop} {Q : β → Prop}
  {x : Eval α} {f : α → Eval β}

/-- The evaluation only numbers more. Where `pre` holds and the numbering afterwards is respected,
it has a result that satisfies `post`. -/
def Maintains (types : TypeTest) (ρ : Valuation) (pre : Prop) (x : Eval α) (post : α → Prop) :
    Prop :=
  ∀ n, n.Grows Numbering.Any (x n).2 ∧
    (pre → (x n).2.Respected types ρ → ∃ a, (x n).1 = .result a ∧ post a)

theorem maintains_pure {a : α} (holds : H → P a) : Maintains types ρ H (pure a) P :=
  fun _ => ⟨.refl, fun pre _ => ⟨a, rfl, holds pre⟩⟩

theorem maintains_feasible {x : Option α} (found : H → ∃ a, x = some a ∧ P a) :
    Maintains types ρ H (Eval.feasible x) P := by
  cases x with
  | some a =>
    apply maintains_pure
    intro pre
    obtain ⟨_, ⟨⟩, holds⟩ := found pre
    exact holds
  | none =>
    intro n
    refine ⟨.refl, ?_⟩
    intro pre
    obtain ⟨_, ⟨⟩, _⟩ := found pre

theorem maintains_owned {x : Except Foreign α} (found : H → ∃ a, x = .ok a ∧ P a) :
    Maintains types ρ H (Eval.owned x) P := by
  cases x with
  | ok a =>
    apply maintains_pure
    intro pre
    obtain ⟨_, ⟨⟩, holds⟩ := found pre
    exact holds
  | error e =>
    intro n
    refine ⟨.refl, ?_⟩
    intro pre
    obtain ⟨_, ⟨⟩, _⟩ := found pre

theorem maintains_fresh : Maintains types ρ H Eval.fresh fun _ => H :=
  fun _ => ⟨.fresh .refl, fun pre _ => ⟨_, rfl, pre⟩⟩

/-- A term that is numbered has a value that stands for what the term means. -/
theorem maintains_intern (t : Term) :
    Maintains types ρ H (Eval.intern t) fun v => H ∧ t.Means types ρ (ρ v) := by
  intro n
  refine ⟨.intern .refl trivial, ?_⟩
  intro pre respected
  exact ⟨_, rfl, pre, respected t _ (n.find?_intern_self t)⟩

theorem Maintains.weaken {H' : Prop} (maintains : Maintains types ρ H x P) (stronger : H' → H) :
    Maintains types ρ H' x P :=
  fun n => ⟨(maintains n).1, fun pre => (maintains n).2 (stronger pre)⟩

/-- What does not depend on the result is still so afterwards. -/
theorem Maintains.frame (maintains : Maintains types ρ H x P) (F : Prop) :
    Maintains types ρ (H ∧ F) x fun a => P a ∧ F := by
  intro n
  obtain ⟨grows, gives⟩ := maintains n
  refine ⟨grows, ?_⟩
  rintro ⟨pre, frame⟩ respected
  obtain ⟨a, result, holds⟩ := gives pre respected
  exact ⟨a, result, holds, frame⟩

/-- What is numbered first is respected if everything is. -/
theorem Maintains.bind (first : Maintains types ρ H x P)
    (next : ∀ a, Maintains types ρ (P a) (f a) Q) : Maintains types ρ H (x >>= f) Q := by
  intro n
  obtain ⟨grows, gives⟩ := first n
  cases start : x n with
  | mk verdict m =>
    rw [start] at grows gives
    cases verdict with
    | result a =>
      obtain ⟨grows', gives'⟩ := next a m
      rw [bind_of_result start]
      refine ⟨grows.trans grows', ?_⟩
      intro pre respected
      obtain ⟨_, ⟨⟩, holds⟩ := gives pre (respected.of_grows grows')
      exact gives' holds respected
    | infeasible =>
      rw [bind_of_infeasible start]
      refine ⟨grows, ?_⟩
      intro pre respected
      obtain ⟨_, ⟨⟩, _⟩ := gives pre respected
    | refused r =>
      rw [bind_of_refused start]
      refine ⟨grows, ?_⟩
      intro pre respected
      obtain ⟨_, ⟨⟩, _⟩ := gives pre respected

end Eval

end SymbolicExecution
