import SymbolicExecution.Interval

/-!
# Integers within bounds

An interval spans the integers within its bounds; the words among them are its elements. It spans
something, and has an element, unless its bounds cross. An intersection spans what both intervals
span, and it exists where that is something.
-/

namespace SymbolicExecution.Interval

variable {r s t : Interval} {m n : Int64} {k : Int}

section Elements

@[simp] theorem contains_exact : (exact m).contains n ↔ m = n := by
  simp only [contains, exact, Option.all_some, Bool.and_eq_true, decide_eq_true_eq]
  constructor
  · rintro ⟨low, high⟩
    exact Int64.le_antisymm low high
  · rintro rfl
    exact ⟨Int64.le_refl m, Int64.le_refl m⟩

@[simp] theorem contains_atLeast : (atLeast m).contains n ↔ m ≤ n := by
  simp [contains, atLeast]

@[simp] theorem contains_atMost : (atMost m).contains n ↔ n ≤ m := by
  simp [contains, atMost]

theorem contains_of_single? (single : r.single? = some m) (inside : r.contains n) : n = m := by
  obtain ⟨lo, hi⟩ := r
  unfold single? at single
  split at single
  · rename_i a b lower upper
    simp only at lower upper
    subst lower upper
    split at single
    · rename_i same
      subst same
      cases single
      simp only [contains, Option.all_some, Bool.and_eq_true, decide_eq_true_eq] at inside
      exact Int64.le_antisymm inside.2 inside.1
    · cases single
  · cases single

/-- The integer lies within the bounds. -/
structure Spans (r : Interval) (k : Int) : Prop where
  above {a : Int64} : r.lo = some a → a.toInt ≤ k
  below {b : Int64} : r.hi = some b → k ≤ b.toInt

theorem contains_iff_spans : r.contains n ↔ r.Spans n.toInt := by
  simp only [contains, Bool.and_eq_true, Option.all_eq_true, decide_eq_true_eq]
  constructor
  · rintro ⟨above, below⟩
    exact ⟨fun bound => Int64.le_iff_toInt_le.mp (above _ bound),
      fun bound => Int64.le_iff_toInt_le.mp (below _ bound)⟩
  · intro spans
    exact ⟨fun _ bound => Int64.le_iff_toInt_le.mpr (spans.above bound),
      fun _ bound => Int64.le_iff_toInt_le.mpr (spans.below bound)⟩

end Elements

section Proper

/-- The bounds do not cross. -/
def Proper (r : Interval) : Prop := ∀ a b, r.lo = some a → r.hi = some b → a ≤ b

theorem proper_exact (n : Int64) : (exact n).Proper := by
  rintro a b ⟨⟩ ⟨⟩
  exact Int64.le_refl n

theorem proper_atLeast (n : Int64) : (atLeast n).Proper := by
  rintro a b _ ⟨⟩

theorem proper_atMost (n : Int64) : (atMost n).Proper := by
  rintro a b ⟨⟩

theorem Spans.proper (spans : r.Spans k) : r.Proper := by
  intro a b low high
  exact Int64.le_iff_toInt_le.mpr (Int.le_trans (spans.above low) (spans.below high))

/-- Where the bounds do not cross, they are elements. -/
theorem Proper.exists_contains (proper : r.Proper) : ∃ n, r.contains n := by
  obtain ⟨lo, hi⟩ := r
  cases lo with
  | none =>
    cases hi with
    | none => exact ⟨0, rfl⟩
    | some b => exact ⟨b, by simp [contains]⟩
  | some a =>
    refine ⟨a, ?_⟩
    cases hi with
    | none => simp [contains]
    | some b => simp [contains, proper a b rfl rfl]

theorem Proper.exists_spans (proper : r.Proper) : ∃ k, r.Spans k := by
  obtain ⟨n, inside⟩ := proper.exists_contains
  exact ⟨n.toInt, contains_iff_spans.mp inside⟩

end Proper

section Meet

/-- The tighter one of the two bounds on each side. They may cross. -/
def joint (r s : Interval) : Interval := ⟨higher r.lo s.lo, lower r.hi s.hi⟩

theorem bounds_higher {lo lo' : Option Int64} : (∀ {c}, higher lo lo' = some c → c.toInt ≤ k) ↔
    (∀ {a}, lo = some a → a.toInt ≤ k) ∧ ∀ {b}, lo' = some b → b.toInt ≤ k := by
  cases lo with
  | none => simp [higher]
  | some a =>
    cases lo' with
    | none => simp [higher]
    | some b =>
      simp only [higher, Option.some.injEq, forall_eq', Int64.le_iff_toInt_le]
      split <;> omega

theorem bounds_lower {hi hi' : Option Int64} : (∀ {c}, lower hi hi' = some c → k ≤ c.toInt) ↔
    (∀ {a}, hi = some a → k ≤ a.toInt) ∧ ∀ {b}, hi' = some b → k ≤ b.toInt := by
  cases hi with
  | none => simp [lower]
  | some a =>
    cases hi' with
    | none => simp [lower]
    | some b =>
      simp only [lower, Option.some.injEq, forall_eq', Int64.le_iff_toInt_le]
      split <;> omega

theorem spans_joint : (r.joint s).Spans k ↔ r.Spans k ∧ s.Spans k := by
  constructor
  · rintro ⟨above, below⟩
    obtain ⟨above, above'⟩ := bounds_higher.mp above
    obtain ⟨below, below'⟩ := bounds_lower.mp below
    exact ⟨⟨above, below⟩, above', below'⟩
  · rintro ⟨⟨above, below⟩, above', below'⟩
    exact ⟨bounds_higher.mpr ⟨above, above'⟩, bounds_lower.mpr ⟨below, below'⟩⟩

/-- An intersection exists unless the tighter bounds cross. -/
theorem meet?_eq_some_iff : r.meet? s = some t ↔ r.joint s = t ∧ t.Proper := by
  simp only [meet?]
  split
  · rename_i a b low high
    have proper : (r.joint s).Proper ↔ ¬b < a := by
      simp [Proper, joint, low, high, Int64.not_lt]
    split
    · rename_i crossed
      constructor
      · intro met
        cases met
      · rintro ⟨rfl, ordered⟩
        exact absurd crossed (proper.mp ordered)
    · rename_i ordered
      constructor
      · rintro ⟨⟩
        exact ⟨rfl, proper.mpr ordered⟩
      · rintro ⟨rfl, _⟩
        rfl
  · rename_i unbounded
    constructor
    · rintro ⟨⟩
      exact ⟨rfl, fun a b low high => absurd high (unbounded a b low)⟩
    · rintro ⟨rfl, _⟩
      rfl

/-- An intersection is found only where the bounds do not cross. -/
theorem proper_of_meet? (met : r.meet? s = some t) : t.Proper := (meet?_eq_some_iff.mp met).2

theorem spans_of_meet? (met : r.meet? s = some t) : t.Spans k ↔ r.Spans k ∧ s.Spans k := by
  rw [← (meet?_eq_some_iff.mp met).1, spans_joint]

/-- An interval with crossed bounds meets nothing. -/
theorem proper_right_of_meet? (met : r.meet? s = some t) : s.Proper := by
  obtain ⟨k, inside⟩ := (proper_of_meet? met).exists_spans
  exact ((spans_of_meet? met).mp inside).2.proper

theorem meet?_eq_none_iff : r.meet? s = none ↔ ∀ k, ¬(r.Spans k ∧ s.Spans k) := by
  constructor
  · intro apart k both
    cases apart.symm.trans (meet?_eq_some_iff.mpr ⟨rfl, (spans_joint.mpr both).proper⟩)
  · intro apart
    cases met : r.meet? s with
    | none => rfl
    | some t =>
      obtain ⟨k, inside⟩ := (proper_of_meet? met).exists_spans
      exact absurd ((spans_of_meet? met).mp inside) (apart k)

theorem contains_of_meet? (met : r.meet? s = some t) :
    t.contains n ↔ r.contains n ∧ s.contains n := by
  rw [contains_iff_spans, contains_iff_spans, contains_iff_spans, spans_of_meet? met]

/-- An element of both intervals is in their intersection, so the bounds do not cross. -/
theorem contains_meet (left : r.contains n) (right : s.contains n) :
    ∃ t, r.meet? s = some t ∧ t.contains n := by
  have both := spans_joint.mpr ⟨contains_iff_spans.mp left, contains_iff_spans.mp right⟩
  exact ⟨r.joint s, meet?_eq_some_iff.mpr ⟨rfl, both.proper⟩, contains_iff_spans.mpr both⟩

/-- Intervals without a common integer are those without a common element. -/
theorem meet?_eq_none_iff_contains :
    r.meet? s = none ↔ ∀ n, ¬(r.contains n ∧ s.contains n) := by
  constructor
  · intro apart n both
    obtain ⟨t, met, _⟩ := contains_meet both.1 both.2
    cases apart.symm.trans met
  · intro apart
    cases met : r.meet? s with
    | none => rfl
    | some t =>
      obtain ⟨n, inside⟩ := (proper_of_meet? met).exists_contains
      exact absurd ((contains_of_meet? met).mp inside) (apart n)

end Meet

section Order

theorem higher_right_comm (a b c : Option Int64) :
    higher (higher a b) c = higher (higher a c) b := by
  cases a <;> cases b <;> cases c <;>
    simp only [higher, Option.some.injEq, ← Int64.toInt_inj, Int64.le_iff_toInt_le] <;> grind

theorem lower_right_comm (a b c : Option Int64) : lower (lower a b) c = lower (lower a c) b := by
  cases a <;> cases b <;> cases c <;>
    simp only [lower, Option.some.injEq, ← Int64.toInt_inj, Int64.le_iff_toInt_le] <;> grind

theorem joint_right_comm (r s t : Interval) : (r.joint s).joint t = (r.joint t).joint s := by
  simp only [joint, higher_right_comm _ s.lo, lower_right_comm _ s.hi]

theorem joint_comm (r s : Interval) : r.joint s = s.joint r :=
  joint_right_comm ⟨none, none⟩ r s

theorem meet?_comm (r s : Interval) : r.meet? s = s.meet? r := by
  apply Option.ext
  intro t
  rw [meet?_eq_some_iff, meet?_eq_some_iff, joint_comm]

/-- Three intervals meet where their tightest bounds do not cross, for then no two of them do. -/
theorem bind_meet?_eq_some_iff {u : Interval} :
    (r.meet? s).bind (·.meet? t) = some u ↔ (r.joint s).joint t = u ∧ u.Proper := by
  constructor
  · intro met
    obtain ⟨v, first, second⟩ := Option.bind_eq_some_iff.mp met
    obtain ⟨rfl, _⟩ := meet?_eq_some_iff.mp first
    exact meet?_eq_some_iff.mp second
  · rintro ⟨rfl, proper⟩
    obtain ⟨k, inside⟩ := proper.exists_spans
    have first : r.meet? s = some (r.joint s) :=
      meet?_eq_some_iff.mpr ⟨rfl, (spans_joint.mp inside).1.proper⟩
    rw [first]
    exact meet?_eq_some_iff.mpr ⟨rfl, proper⟩

theorem meet?_right_comm (r s t : Interval) :
    (r.meet? s).bind (·.meet? t) = (r.meet? t).bind (·.meet? s) := by
  apply Option.ext
  intro u
  rw [bind_meet?_eq_some_iff, bind_meet?_eq_some_iff, joint_right_comm]

end Order

section Repetition

theorem higher_higher_self (a b : Option Int64) : higher (higher a b) b = higher a b := by
  cases a <;> cases b <;>
    simp only [higher, Option.some.injEq, ← Int64.toInt_inj, Int64.le_iff_toInt_le] <;> grind

theorem lower_lower_self (a b : Option Int64) : lower (lower a b) b = lower a b := by
  cases a <;> cases b <;>
    simp only [lower, Option.some.injEq, ← Int64.toInt_inj, Int64.le_iff_toInt_le] <;> grind

theorem joint_joint_self (r s : Interval) : (r.joint s).joint s = r.joint s := by
  simp only [joint, higher_higher_self, lower_lower_self]

theorem joint_self (r : Interval) : r.joint r = r := joint_joint_self ⟨none, none⟩ r

/-- What was met is met again. -/
theorem meet?_of_meet? (met : r.meet? s = some t) : t.meet? s = some t := by
  obtain ⟨rfl, proper⟩ := meet?_eq_some_iff.mp met
  exact meet?_eq_some_iff.mpr ⟨joint_joint_self r s, proper⟩

/-- An interval meets itself unless its bounds cross. -/
theorem meet?_self_eq_some_iff : r.meet? r = some r ↔ r.Proper := by
  rw [meet?_eq_some_iff, joint_self, eq_self_iff_true, true_and]

theorem meet?_self_eq_none_iff : r.meet? r = none ↔ ¬r.Proper := by
  rw [← meet?_self_eq_some_iff]
  cases met : r.meet? r with
  | none => simp
  | some t => simp [← (meet?_eq_some_iff.mp met).1, joint_self]

end Repetition

end SymbolicExecution.Interval
