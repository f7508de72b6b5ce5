import Mathlib.Data.List.Forall2
import SymbolicExecution.Branch
import SymbolicExecution.Proofs.Renaming.Evaluation

/-!
# Branches on renamed states

A state and its image learn the same from the outcome of a condition, so both split into the same
sides.
-/

namespace SymbolicExecution.Correspondence

variable {c : Correspondence} {s t : State} {a b v w : Value}

theorem rel_bind {α β : Type} {R Q : α → β → Prop} {x : Option α} {y : Option β}
    {f : α → Option α} {g : β → Option β} (first : Option.Rel R x y)
    (next : ∀ a b, R a b → Option.Rel Q (f a) (g b)) : Option.Rel Q (x.bind f) (y.bind g) := by
  rcases rel_cases first with ⟨rfl, rfl⟩ | ⟨a, b, rfl, rfl, related⟩
  · exact .none
  · exact next a b related

theorem States.learnAt (states : c.States s t) (i : OpId) (f : Fact) :
    Option.Rel c.States (s.learnAt? i f) (t.learnAt? i f) := by
  simp only [State.learnAt?]
  cases known : s.operation? i with
  | none =>
    rw [states.operation_none known]
    exact .some states
  | some v =>
    obtain ⟨w, known', values⟩ := states.operation known
    rw [known']
    exact states.learn values f

theorem States.learnBound (states : c.States s t) (values : c.Values v w) (outcome : Bool)
    (operator : BinOp) (n : Int64) :
    Option.Rel c.States (s.learnBound? outcome v operator n)
      (t.learnBound? outcome w operator n) := by
  have bounded : t.bounded? w operator n = s.bounded? v operator n := by
    simp only [State.bounded?, states.interval values]
  simp only [State.learnBound?]
  rw [states.nullness values, bounded]
  by_cases silent : (!outcome && s.nullness? v != some .notNull) = true
  · rw [if_pos silent, if_pos silent]
    exact .some states
  · rw [if_neg silent, if_neg silent]
    exact states.settle values _

theorem States.learnOrder (states : c.States s t) (left : c.Values a v) (right : c.Values b w)
    (outcome : Bool) (operator : BinOp) :
    Option.Rel c.States (s.learnOrder? outcome operator a b)
      (t.learnOrder? outcome operator v w) := by
  simp only [State.learnOrder?]
  rw [states.integer left, states.integer right]
  cases s.integer? b with
  | some n => exact states.learnBound left outcome operator n
  | none =>
    cases s.integer? a with
    | some n => exact states.learnBound right outcome operator.swapped n
    | none => exact .some states

theorem States.learnComparison (states : c.States s t) (left : c.Values a v)
    (right : c.Values b w) (outcome : Bool) (operator : BinOp) :
    Option.Rel c.States (s.learnComparison? outcome operator a b)
      (t.learnComparison? outcome operator v w) := by
  have ordered := states.learnOrder left right outcome operator
  have equality : ∀ n, Option.Rel c.States
      (State.learnComparison?.learnEquality s outcome operator a b n)
      (State.learnComparison?.learnEquality t outcome operator v w n) := by
    intro n
    simp only [State.learnComparison?.learnEquality]
    rw [states.nullness left, states.nullness right]
    by_cases second : s.nullness? b = some .null
    · rw [if_pos second, if_pos second]
      exact states.learn left _
    rw [if_neg second, if_neg second]
    by_cases first : s.nullness? a = some .null
    · rw [if_pos first, if_pos first]
      exact states.learn right _
    · rw [if_neg first, if_neg first]
      exact ordered
  simp only [State.learnComparison?]
  cases operator with
  | equals | notEquals => exact equality _
  | _ => exact ordered

/-- What an outcome teaches, to any depth. -/
theorem States.learnFrom (r : Routine) (depth : Nat) (states : c.States s t) (i : OpId)
    (outcome : Bool) :
    Option.Rel c.States (r.learnFrom? depth s i outcome) (r.learnFrom? depth t i outcome) := by
  induction depth generalizing s t i outcome with
  | zero => exact .some states
  | succ depth ih =>
    simp only [Routine.learnFrom?, Routine.learnBy?]
    cases (r.operation? i).map Operation.form with
    | none => exact .some states
    | some form =>
      cases form with
      | paren inner | convert inner => exact ih states inner outcome
      | unary operator a =>
        cases operator with
        | negate => exact .some states
        | not =>
          apply rel_bind (states.learnAt a (.truth !outcome))
          intro s' t' states'
          exact ih states' a !outcome
      | binary operator a b =>
        simp only
        by_cases both : (decide (operator = .and) && outcome ||
            decide (operator = .or) && !outcome) = true
        · rw [if_pos both, if_pos both]
          apply rel_bind (states.learnAt a (.truth outcome))
          intro s₁ t₁ states₁
          apply rel_bind (states₁.learnAt b (.truth outcome))
          intro s₂ t₂ states₂
          apply rel_bind (ih states₂ a outcome)
          intro s₃ t₃ states₃
          exact ih states₃ b outcome
        · rw [if_neg both, if_neg both]
          cases if outcome then some operator else operator.opposite? with
          | none => exact .some states
          | some holding =>
            cases left : s.operation? a with
            | none =>
              rw [states.operation_none left]
              exact .some states
            | some v =>
              obtain ⟨v', left', values⟩ := states.operation left
              rw [left']
              cases right : s.operation? b with
              | none =>
                rw [states.operation_none right]
                exact .some states
              | some w =>
                obtain ⟨w', right', values'⟩ := states.operation right
                rw [right']
                simp only
                by_cases comparison : operator.isComparison = true
                · rw [if_pos comparison, if_pos comparison]
                  exact states.learnComparison values values' outcome holding
                · rw [if_neg comparison, if_neg comparison]
                  exact .some states
      | isType a name =>
        cases outcome with
        | true => exact states.learnAt a _
        | false => exact .some states
      | isPattern a p =>
        simp only
        cases p.implied? outcome with
        | some f => exact states.learnAt a f
        | none => exact .some states
      | _ => exact .some states

theorem States.side (states : c.States s t) (values : c.Values v w) (r : Routine)
    (learning : Bool) (condition : OpId) (outcome : Bool) :
    Option.Rel c.States (r.side? learning s condition v outcome)
      (r.side? learning t condition w outcome) := by
  apply rel_bind (states.learn values (.truth outcome))
  intro s' t' states'
  cases learning with
  | true => exact states'.learnFrom r r.hops condition outcome
  | false => exact .some states'

/-- Corresponding sides of a branch. -/
structure Sides (c : Correspondence) (a b : Bool × State) : Prop where
  outcome : a.1 = b.1
  states : c.States a.2 b.2

theorem States.tracks_split (states : c.States s t) (r : Routine) (learning : Bool)
    (condition : OpId) :
    c.Tracks (fun d => List.Forall₂ d.Sides) (r.split learning s condition)
      (r.split learning t condition) := by
  simp only [Routine.split]
  apply (states.tracks_operand condition).bind
  rintro d ⟨s', v⟩ ⟨t', w⟩ le ⟨states', values⟩
  have same : t'.truth? w = s'.truth? v := states'.truth values
  simp only [same]
  cases s'.truth? v with
  | some b => exact tracks_pure (.cons ⟨rfl, states'⟩ .nil)
  | none =>
    apply tracks_pure
    -- each of the two outcomes is kept on both sides or on neither
    have kept : ∀ l : List Bool, List.Forall₂ d.Sides
        (l.filterMap fun b => (r.side? learning s' condition v b).map fun s => (b, s))
        (l.filterMap fun b => (r.side? learning t' condition w b).map fun s => (b, s)) := by
      intro l
      induction l with
      | nil => exact .nil
      | cons b rest ih =>
        rcases rel_cases (states'.side values r learning condition b) with
          ⟨left, right⟩ | ⟨s₁, t₁, left, right, states₁⟩
        · simp only [List.filterMap_cons, left, right, Option.map_none]
          exact ih
        · simp only [List.filterMap_cons, left, right, Option.map_some]
          exact .cons ⟨rfl, states₁⟩ ih
    exact kept [true, false]

end SymbolicExecution.Correspondence
