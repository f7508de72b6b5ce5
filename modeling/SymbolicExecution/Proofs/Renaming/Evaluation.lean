import SymbolicExecution.Proofs.Evaluation
import SymbolicExecution.Proofs.Renaming.State
import SymbolicExecution.Rule.Assignment

/-!
# Evaluations that go alike

Two evaluations go alike if, from corresponding numberings, they end alike and leave numberings that
correspond, with related results. The renaming may be extended on the way, so that what is related
before stays related afterwards.
-/

namespace SymbolicExecution

variable {α β γ δ : Type}

/-- The same end, with related results. -/
inductive Verdict.Alike (R : α → β → Prop) : Verdict α → Verdict β → Prop
  | result {a : α} {b : β} (related : R a b) : Alike R (.result a) (.result b)
  | infeasible : Alike R .infeasible .infeasible
  | refused (r : Refusal) : Alike R (.refused r) (.refused r)

namespace Correspondence

variable {c d : Correspondence} {s t : State} {v w : Value}

/-- The evaluations go alike from here on. -/
def Tracks (c : Correspondence) (R : Correspondence → α → β → Prop) (x : Eval α) (y : Eval β) :
    Prop :=
  ∃ d, c ≤ d ∧ d.left = (x c.left).2 ∧ d.right = (y c.right).2 ∧
    Verdict.Alike (R d) (x c.left).1 (y c.right).1

/-- A state and a value. -/
structure Valued (c : Correspondence) (a b : State × Value) : Prop where
  states : c.States a.1 b.1
  values : c.Values a.2 b.2

section Combination

variable {R : Correspondence → α → β → Prop} {Q : Correspondence → γ → δ → Prop}

theorem tracks_pure {a : α} {b : β} (related : R c a b) : c.Tracks R (pure a) (pure b) :=
  ⟨c, c.le_refl, rfl, rfl, .result related⟩

theorem tracks_refuse (r : Refusal) : c.Tracks R (Eval.refuse r) (Eval.refuse r) :=
  ⟨c, c.le_refl, rfl, rfl, .refused r⟩

theorem tracks_feasible {x : Option α} {y : Option β} (related : Option.Rel (R c) x y) :
    c.Tracks R (Eval.feasible x) (Eval.feasible y) := by
  cases related with
  | none => exact ⟨c, c.le_refl, rfl, rfl, .infeasible⟩
  | some holds => exact tracks_pure holds

theorem tracks_owned {x : Except Foreign α} {y : Except Foreign β}
    (related : (∃ f, x = .error f ∧ y = .error f) ∨ ∃ a b, x = .ok a ∧ y = .ok b ∧ R c a b) :
    c.Tracks R (Eval.owned x) (Eval.owned y) := by
  rcases related with ⟨f, rfl, rfl⟩ | ⟨a, b, rfl, rfl, holds⟩
  · exact tracks_refuse _
  · exact tracks_pure holds

theorem tracks_ite {p : Prop} [Decidable p] {x x' : Eval α} {y y' : Eval β}
    (yes : c.Tracks R x y) (no : c.Tracks R x' y') :
    c.Tracks R (if p then x else x') (if p then y else y') := by
  by_cases holds : p
  · rw [if_pos holds, if_pos holds]
    exact yes
  · rw [if_neg holds, if_neg holds]
    exact no

/-- Sequences go alike if their parts do. -/
theorem Tracks.bind {x : Eval α} {y : Eval β} {f : α → Eval γ} {g : β → Eval δ}
    (first : c.Tracks R x y)
    (next : ∀ d a b, c ≤ d → R d a b → d.Tracks Q (f a) (g b)) :
    c.Tracks Q (x >>= f) (y >>= g) := by
  obtain ⟨d, le, left, right, alike⟩ := first
  simp only [Tracks]
  generalize start : x c.left = p at left alike
  generalize start' : y c.right = q at right alike
  obtain ⟨verdict, n⟩ := p
  obtain ⟨verdict', m⟩ := q
  simp only at left right alike
  subst left right
  cases alike with
  | result related =>
    obtain ⟨e, le', left', right', alike'⟩ := next d _ _ le related
    rw [Eval.bind_of_result start, Eval.bind_of_result start']
    exact ⟨e, le_trans le le', left', right', alike'⟩
  | infeasible =>
    rw [Eval.bind_of_infeasible start, Eval.bind_of_infeasible start']
    exact ⟨d, le, rfl, rfl, .infeasible⟩
  | refused r =>
    rw [Eval.bind_of_refused start, Eval.bind_of_refused start']
    exact ⟨d, le, rfl, rfl, .refused r⟩

end Combination

theorem tracks_fresh (c : Correspondence) : c.Tracks Values Eval.fresh Eval.fresh := by
  obtain ⟨d, le, left, right, renamed⟩ := c.fresh
  refine ⟨d, le, left, right, .result ⟨?_, renamed.symm⟩⟩
  rw [left]
  exact Nat.lt_succ_self _

theorem tracks_intern {t : Term} (inScope : t.Below c.left.created) :
    c.Tracks Values (Eval.intern t) (Eval.intern (t.rename c.rename)) := by
  obtain ⟨d, le, left, right, inside, renamed⟩ := c.intern inScope
  exact ⟨d, le, left, right, .result ⟨inside, renamed.symm⟩⟩

theorem States.tracks_setOperation (states : c.States s t) (values : c.Values v w) (i : OpId) :
    c.Tracks States (Eval.owned (s.setOperation i v)) (Eval.owned (t.setOperation i w)) :=
  tracks_owned (states.setOperation values i)

theorem States.tracks_operand (states : c.States s t) (i : OpId) :
    c.Tracks Valued (operand s i) (operand t i) := by
  simp only [operand]
  cases known : s.operation? i with
  | some v =>
    obtain ⟨w, known', values⟩ := states.operation known
    rw [known']
    exact tracks_pure ⟨states, values⟩
  | none =>
    rw [states.operation_none known]
    apply c.tracks_fresh.bind
    intro d v w le values
    apply ((states.mono le).tracks_setOperation values i).bind
    intro e s' t' le' states'
    exact tracks_pure ⟨states', values.mono le'⟩

theorem States.tracks_literalValue (states : c.States s t) (l : Literal) :
    c.Tracks Valued (literalValue s l) (literalValue t l) := by
  simp only [literalValue]
  apply (tracks_intern (t := .literal l) (by simp [Term.Below, Term.operands])).bind
  intro d v w le values
  apply (tracks_feasible ((states.mono le).learnAll values l.facts)).bind
  intro e s' t' le' states'
  exact tracks_pure ⟨states', values.mono le'⟩

theorem States.tracks_binaryValue (states : c.States s t) {a b : Value}
    (left : c.Values a v) (right : c.Values b w) (operator : BinOp) :
    c.Tracks Valued (binaryValue s operator a b) (binaryValue t operator v w) := by
  simp only [binaryValue]
  have inScope : (Term.binary operator a b).Below c.left.created := by
    simp [Term.Below, Term.operands, left.below, right.below]
  have interned := tracks_intern inScope
  rw [Term.rename, ← left.renames, ← right.renames] at interned
  apply interned.bind
  intro d u u' le values
  rw [states.fold left right]
  apply (tracks_feasible ((states.mono le).settle values (s.fold? operator a b))).bind
  intro e s' t' le' states'
  exact tracks_pure ⟨states', values.mono le'⟩

theorem States.write (states : c.States s t) (values : c.Values v w) (r : Routine)
    (target : OpId) : c.States (s.write r target v) (t.write r target w) := by
  simp only [State.write]
  rw [states.storage r target]
  split
  · exact states.setSymbol values _
  · exact states

end Correspondence

end SymbolicExecution
