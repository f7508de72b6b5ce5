import SymbolicExecution.Proofs.Evaluation
import SymbolicExecution.Proofs.Footprint

/-!
# Evaluations within a footprint

An evaluation ensures what holds of its result from every numbering. It may find that the path is
infeasible, but it refuses nothing, unless it is taken leniently: then it is not held against it
that an operation belongs to another routine. What the parts of an evaluation ensure is put together
along its sequence.
-/

namespace SymbolicExecution

variable {α β : Type}

/-- The result satisfies `P`, or there is none because the path is infeasible or, if one is lenient,
because of a refusal. -/
inductive Verdict.Ensures (lenient : Prop) (P : α → Prop) : Verdict α → Prop
  | result {a : α} (holds : P a) : Ensures lenient P (.result a)
  | infeasible : Ensures lenient P .infeasible
  | refused {r : Refusal} (allowed : lenient) : Ensures lenient P (.refused r)

namespace Eval

def Ensures (lenient : Prop) (x : Eval α) (P : α → Prop) : Prop :=
  ∀ n, Verdict.Ensures lenient P (x n).1

variable {lenient : Prop} {P : α → Prop} {Q : β → Prop}

theorem ensures_pure {a : α} (holds : P a) : Ensures lenient (pure a) P := fun _ => .result holds

theorem ensures_fresh : Eval.fresh.Ensures lenient fun _ => True := fun _ => .result trivial

theorem ensures_intern (t : Term) : (Eval.intern t).Ensures lenient fun _ => True :=
  fun _ => .result trivial

theorem ensures_feasible {x : Option α} (holds : ∀ a, x = some a → P a) :
    (Eval.feasible x).Ensures lenient P := by
  cases x with
  | none => exact fun _ => .infeasible
  | some a => exact ensures_pure (holds a rfl)

theorem Ensures.bind {x : Eval α} {f : α → Eval β} (first : x.Ensures lenient P)
    (next : ∀ a, P a → (f a).Ensures lenient Q) : (x >>= f).Ensures lenient Q := by
  intro n
  have holds := first n
  cases start : x n with
  | mk verdict m =>
    rw [start] at holds
    cases holds with
    | result holds =>
      rw [bind_of_result start]
      exact next _ holds m
    | infeasible =>
      rw [bind_of_infeasible start]
      exact .infeasible
    | refused allowed =>
      rw [bind_of_refused start]
      exact .refused allowed

theorem ensures_ite {p : Prop} [Decidable p] {x y : Eval α} (yes : p → x.Ensures lenient P)
    (no : ¬p → y.Ensures lenient P) : (if p then x else y).Ensures lenient P := by
  by_cases holds : p
  · rw [if_pos holds]
    exact yes holds
  · rw [if_neg holds]
    exact no holds

end Eval

namespace State

variable {lenient : Prop} {f : Footprint} {s t u : State} {i : OpId}

section Evaluation

variable (before : u.Becomes f s)

include before

/-- What the state is changed to where the operation is its own. If it is of another routine, one
has to be lenient. -/
theorem Becomes.owned (own : lenient ∨ i.routine = u.routine) (becomes : u.Becomes f t) :
    (Eval.owned (if i.routine = s.routine then .ok t else .error ⟨i, s.routine⟩)).Ensures
      lenient (u.Becomes f) := by
  by_cases here : i.routine = s.routine
  · rw [if_pos here]
    exact Eval.ensures_pure becomes
  · rw [if_neg here]
    rcases own with allowed | own
    · exact fun _ => .refused allowed
    · exact absurd (own.trans before.routine.symm) here

theorem Becomes.setOperation (own : lenient ∨ i.routine = u.routine) (allowed : f.gives i)
    (v : Value) : (Eval.owned (s.setOperation i v)).Ensures lenient (u.Becomes f) :=
  before.owned own (before.touch (.give allowed))

theorem Becomes.setCapture (own : lenient ∨ i.routine = u.routine) {slot : CaptureId}
    (allowed : f.captures slot i) :
    (Eval.owned (s.setCapture slot i)).Ensures lenient (u.Becomes f) :=
  before.owned own (before.touch (.capture allowed))

/-- An operand that has no value gets one. -/
theorem Becomes.operand (own : lenient ∨ i.routine = u.routine) (allowed : f.gives i ∨ f.fills i) :
    (operand s i).Ensures lenient fun a => u.Becomes f a.1 := by
  simp only [SymbolicExecution.operand]
  split
  · exact Eval.ensures_pure before
  · rename_i unknown
    apply Eval.ensures_fresh.bind
    intro v _
    have given : u.Becomes f { s with operations := s.operations.insert i v } := by
      rcases allowed with gives | fills
      · exact before.touch (.give gives)
      · exact before.touch (.fill fills unknown)
    apply (before.owned own given).bind
    intro t becomes
    exact Eval.ensures_pure becomes

theorem Becomes.literalValue (l : Literal) :
    (literalValue s l).Ensures lenient fun a => u.Becomes f a.1 := by
  simp only [SymbolicExecution.literalValue]
  apply (Eval.ensures_intern _).bind
  intro v _
  apply (Eval.ensures_feasible fun t learned =>
    before.learnAll learned fun _ hf => Fact.proper_of_literal hf).bind
  intro t becomes
  exact Eval.ensures_pure becomes

theorem Becomes.binaryValue (operator : BinOp) (a b : Value) :
    (binaryValue s operator a b).Ensures lenient fun x => u.Becomes f x.1 := by
  simp only [SymbolicExecution.binaryValue]
  apply (Eval.ensures_intern _).bind
  intro v _
  apply (Eval.ensures_feasible fun t learned =>
    before.settle learned fun _ folded => Fact.proper_of_fold? folded).bind
  intro t becomes
  exact Eval.ensures_pure becomes

end Evaluation

section Branch

variable (before : u.Becomes f s)

include before

theorem Becomes.learnAt {fact : Fact} (learned : s.learnAt? i fact = some t)
    (proper : fact.Proper) : u.Becomes f t := by
  simp only [learnAt?] at learned
  split at learned
  · exact before.learn learned proper
  · exact before.stay learned

theorem Becomes.learnOrder {outcome : Bool} {operator : BinOp} {a b : Value}
    (learned : s.learnOrder? outcome operator a b = some t) : u.Becomes f t := by
  have bound : ∀ v operator n, s.learnBound? outcome v operator n = some t → u.Becomes f t := by
    intro v operator n learned
    simp only [learnBound?] at learned
    split at learned
    · exact before.stay learned
    · apply before.settle learned
      intro fact bounded
      obtain ⟨r, found, rfl⟩ := Option.map_eq_some_iff.mp bounded
      exact Fact.proper_of_bounded? found
  simp only [learnOrder?] at learned
  split at learned
  · exact bound _ _ _ learned
  · exact bound _ _ _ learned
  · exact before.stay learned

theorem Becomes.learnComparison {outcome : Bool} {operator : BinOp} {a b : Value}
    (learned : s.learnComparison? outcome operator a b = some t) : u.Becomes f t := by
  have equality : ∀ n, learnComparison?.learnEquality s outcome operator a b n = some t →
      u.Becomes f t := by
    intro n learned
    simp only [learnComparison?.learnEquality] at learned
    split at learned
    · exact before.learn learned trivial
    · split at learned
      · exact before.learn learned trivial
      · exact before.learnOrder learned
  simp only [learnComparison?] at learned
  split at learned
  · exact equality _ learned
  · exact equality _ learned
  · exact before.learnOrder learned

/-- What an outcome says about operands is learned, and nothing else is changed. -/
theorem Becomes.learnFrom {r : Routine} {depth : Nat} {outcome : Bool}
    (learned : r.learnFrom? depth s i outcome = some t) : u.Becomes f t := by
  induction depth generalizing s t i outcome with
  | zero => exact before.stay learned
  | succ depth ih =>
    simp only [Routine.learnFrom?, Routine.learnBy?] at learned
    split at learned
    · exact ih before learned
    · exact ih before learned
    · obtain ⟨s₁, first, learned⟩ := Option.bind_eq_some_iff.mp learned
      exact ih (before.learnAt first trivial) learned
    · split at learned
      · obtain ⟨s₁, left, learned⟩ := Option.bind_eq_some_iff.mp learned
        obtain ⟨s₂, right, learned⟩ := Option.bind_eq_some_iff.mp learned
        obtain ⟨s₃, deeper, learned⟩ := Option.bind_eq_some_iff.mp learned
        exact ih (ih ((before.learnAt left trivial).learnAt right trivial) deeper) learned
      · split at learned
        · split at learned
          · exact before.learnComparison learned
          · exact before.stay learned
        · exact before.stay learned
    · split at learned
      · exact before.learnAt learned trivial
      · exact before.stay learned
    · split at learned
      · rename_i implied
        exact before.learnAt learned (Fact.proper_of_implied? implied)
      · exact before.stay learned
    · exact before.stay learned

theorem Becomes.side {r : Routine} {learning outcome : Bool} {v : Value}
    (taken : r.side? learning s i v outcome = some t) : u.Becomes f t := by
  obtain ⟨s₁, first, taken⟩ := Option.bind_eq_some_iff.mp taken
  split at taken
  · exact (before.learn first trivial).learnFrom taken
  · exact (before.learn first trivial).stay taken

end Branch

/-- Both sides of a branch come from the state by giving the condition a value and learning. -/
theorem ensures_split (r : Routine) (learning : Bool) {condition : OpId}
    (own : condition.routine = s.routine) :
    (r.split learning s condition).Ensures False fun sides =>
      ∀ side ∈ sides, s.Becomes (.filling condition) side.2 := by
  have fills : (Footprint.filling condition).fills condition := rfl
  simp only [Routine.split]
  apply ((Becomes.refl s).operand (Or.inr own) (Or.inr fills)).bind
  rintro ⟨t, v⟩ before
  dsimp only at before ⊢
  split
  · apply Eval.ensures_pure
    intro side hside
    rw [List.mem_singleton.mp hside]
    exact before
  · apply Eval.ensures_pure
    rintro ⟨outcome, t'⟩ hside
    exact before.side (Routine.mem_sides.mp hside)

end State

end SymbolicExecution
