import SymbolicExecution.Proofs.Datum
import SymbolicExecution.Proofs.Interval

/-!
# What bounds say of a comparison

A comparison of two intervals is decided by two bounds, the upper one of one interval and the lower
one of the other. Where both intervals span something, these bounds are reached or missing, so they
decide exactly the comparisons that come out alike for all pairs of integers.
-/

namespace SymbolicExecution

namespace BinOp

/-- The order comparison of two integers of any size. -/
def relates : BinOp → Int → Int → Bool
  | lessThan, j, k => j < k
  | lessOrEqual, j, k => j ≤ k
  | greaterThan, j, k => k < j
  | greaterOrEqual, j, k => k ≤ j
  | _, _, _ => false

theorem orders_eq_relates (o : BinOp) (m n : Int64) : o.orders m n = o.relates m.toInt n.toInt := by
  cases o <;> simp [orders, relates, Int64.lt_iff_toInt_lt, Int64.le_iff_toInt_le]

theorem relates_swapped (o : BinOp) (j k : Int) : o.swapped.relates k j = o.relates j k := by
  cases o <;> rfl

theorem relates_opposite {o p : BinOp} (order : o.isOrder) (opposite : o.opposite? = some p)
    (j k : Int) : p.relates j k = !o.relates j k := by
  cases o with
  | lessThan | lessOrEqual | greaterThan | greaterOrEqual =>
    cases opposite
    simp [relates, ← decide_not]
  | _ => cases order

theorem exists_opposite {o : BinOp} (order : o.isOrder) :
    ∃ p, o.opposite? = some p ∧ p.isOrder := by
  cases o with
  | lessThan | lessOrEqual | greaterThan | greaterOrEqual => exact ⟨_, rfl, rfl⟩
  | _ => cases order

end BinOp

namespace Interval

variable {r s : Interval} {j k : Int} {b : Bool}

section Bounds

/-- An upper bound is reached. -/
theorem Spans.hi (inside : r.Spans j) {h : Int64} (bound : r.hi = some h) : r.Spans h.toInt := by
  constructor
  · intro l low
    exact Int.le_trans (inside.above low) (inside.below bound)
  · intro h' high
    cases bound.symm.trans high
    exact Int.le_refl _

/-- A lower bound is reached. -/
theorem Spans.lo (inside : r.Spans j) {l : Int64} (bound : r.lo = some l) : r.Spans l.toInt := by
  constructor
  · intro l' low
    cases bound.symm.trans low
    exact Int.le_refl _
  · intro h high
    exact Int.le_trans (inside.above bound) (inside.below high)

theorem Spans.upward (inside : r.Spans j) (unbounded : r.hi = none) (le : j ≤ k) : r.Spans k := by
  constructor
  · intro l low
    exact Int.le_trans (inside.above low) le
  · intro h high
    cases unbounded.symm.trans high

theorem Spans.downward (inside : r.Spans j) (unbounded : r.lo = none) (le : k ≤ j) : r.Spans k := by
  constructor
  · intro l low
    cases unbounded.symm.trans low
  · intro h high
    exact Int.le_trans le (inside.below high)

/-- A relation that says how far the left side may go up and the right side down holds of all pairs
exactly if it holds of the bounds that they meet there. A missing one lets that side go too far. -/
theorem forall_spans_iff {Q : Int → Int → Prop} (left : r.Spans j) (right : s.Spans k)
    (tighter : ∀ {j k j' k'}, Q j k → j' ≤ j → k ≤ k' → Q j' k') (crossed : ∀ k, ¬Q (k + 1) k) :
    (∀ j k, r.Spans j → s.Spans k → Q j k) ↔
      ∃ h l, r.hi = some h ∧ s.lo = some l ∧ Q h.toInt l.toInt := by
  constructor
  · intro all
    cases high : r.hi with
    | none =>
      have beyond : r.Spans (max j (k + 1)) := left.upward high (by omega)
      exact absurd (tighter (all _ _ beyond right) (by omega) (Int.le_refl k)) (crossed k)
    | some h =>
      cases low : s.lo with
      | none =>
        have beyond : s.Spans (min k (j - 1)) := right.downward low (by omega)
        exact absurd (tighter (all _ _ left beyond) (by omega) (Int.min_le_right _ _))
          (crossed (j - 1))
      | some l => exact ⟨h, l, rfl, rfl, all _ _ (left.hi high) (right.lo low)⟩
  · rintro ⟨h, l, high, low, apart⟩ j k inside inside'
    exact tighter apart (inside.below high) (inside'.above low)

/-- The pairs may be taken from either interval first. -/
theorem forall_spans_comm {P : Int → Int → Prop} : (∀ k j, s.Spans k → r.Spans j → P j k) ↔
    ∀ j k, r.Spans j → s.Spans k → P j k :=
  ⟨fun all j k inside inside' => all k j inside' inside,
    fun all k j inside' inside => all j k inside inside'⟩

theorem allBelow_iff : r.allBelow s ↔
    ∃ h l, r.hi = some h ∧ s.lo = some l ∧ h.toInt < l.toInt := by
  simp only [allBelow]
  split
  · rename_i h l high low
    simp [high, low, Int64.lt_iff_toInt_lt]
  · rename_i missing
    constructor
    · nofun
    · rintro ⟨h, l, high, low, _⟩
      exact absurd low (missing h l high)

theorem allUpTo_iff : r.allUpTo s ↔
    ∃ h l, r.hi = some h ∧ s.lo = some l ∧ h.toInt ≤ l.toInt := by
  simp only [allUpTo]
  split
  · rename_i h l high low
    simp [high, low, Int64.le_iff_toInt_le]
  · rename_i missing
    constructor
    · nofun
    · rintro ⟨h, l, high, low, _⟩
      exact absurd low (missing h l high)

end Bounds

section Answer

variable (left : ∃ j, r.Spans j) (right : ∃ k, s.Spans k)

include left right

theorem allBelow_iff_forall : r.allBelow s ↔ ∀ j k, r.Spans j → s.Spans k → j < k := by
  obtain ⟨j, left⟩ := left
  obtain ⟨k, right⟩ := right
  rw [allBelow_iff, forall_spans_iff left right (by omega) (by omega)]

theorem allUpTo_iff_forall : r.allUpTo s ↔ ∀ j k, r.Spans j → s.Spans k → j ≤ k := by
  obtain ⟨j, left⟩ := left
  obtain ⟨k, right⟩ := right
  rw [allUpTo_iff, forall_spans_iff left right (by omega) (by omega)]

/-- Where both intervals span something, not all pairs are related and unrelated at once. -/
theorem answer_eq_some_iff {Q : Int → Int → Prop} [DecidableRel Q] {yes no : Bool}
    (related : yes ↔ ∀ j k, r.Spans j → s.Spans k → Q j k)
    (unrelated : no ↔ ∀ j k, r.Spans j → s.Spans k → ¬Q j k) :
    (if yes then some true else if no then some false else none) = some b ↔
      ∀ j k, r.Spans j → s.Spans k → decide (Q j k) = b := by
  have exclusive : yes → ¬no := by
    obtain ⟨j, left⟩ := left
    obtain ⟨k, right⟩ := right
    intro holds fails
    exact unrelated.mp fails j k left right (related.mp holds j k left right)
  cases b with
  | true =>
    simp only [decide_eq_true_eq, ← related]
    cases yes <;> cases no <;> simp
  | false =>
    simp only [decide_eq_false_iff_not, ← unrelated]
    cases yes <;> cases no <;> simp_all

theorem less?_eq_some_iff : less? r s = some b ↔
    ∀ j k, r.Spans j → s.Spans k → decide (j < k) = b := by
  apply answer_eq_some_iff left right (allBelow_iff_forall left right)
  rw [allUpTo_iff_forall right left, forall_spans_comm]
  simp only [Int.not_lt]

theorem lessOrEqual?_eq_some_iff : lessOrEqual? r s = some b ↔
    ∀ j k, r.Spans j → s.Spans k → decide (j ≤ k) = b := by
  apply answer_eq_some_iff left right (allUpTo_iff_forall left right)
  rw [allBelow_iff_forall right left, forall_spans_comm]
  simp only [Int.not_le]

/-- The bounds decide a comparison exactly if it comes out alike for all pairs. -/
theorem compare?_eq_some_iff {o : BinOp} (order : o.isOrder) : compare? o r s = some b ↔
    ∀ j k, r.Spans j → s.Spans k → o.relates j k = b := by
  cases o with
  | lessThan => exact less?_eq_some_iff left right
  | lessOrEqual => exact lessOrEqual?_eq_some_iff left right
  | greaterThan => exact (less?_eq_some_iff right left).trans forall_spans_comm
  | greaterOrEqual => exact (lessOrEqual?_eq_some_iff right left).trans forall_spans_comm
  | _ => cases order

end Answer

/-- Where two intervals span something, their bounds decide a comparison exactly: they answer `b`
if and only if the comparison comes out as `b` for all integers in the one and in the other. So the
comparison read from right to left has the same answer, and its opposite the opposite one. -/
theorem compare?_exact {o : BinOp} (order : o.isOrder) (left : ∃ j, r.Spans j)
    (right : ∃ k, s.Spans k) :
    (∀ b, compare? o r s = some b ↔ ∀ j k, r.Spans j → s.Spans k → o.relates j k = b) ∧
    compare? o.swapped s r = compare? o r s ∧
    ∃ p, o.opposite? = some p ∧ compare? p r s = (compare? o r s).map (!·) := by
  refine ⟨fun b => compare?_eq_some_iff left right order, ?_, ?_⟩
  · apply Option.ext
    intro b
    rw [compare?_eq_some_iff right left (BinOp.isOrder_swapped order),
      compare?_eq_some_iff left right order]
    simp only [BinOp.relates_swapped]
    exact forall_spans_comm
  · obtain ⟨p, opposite, order'⟩ := BinOp.exists_opposite order
    refine ⟨p, opposite, ?_⟩
    apply Option.ext
    intro b
    have negated : (compare? o r s).map (!·) = some b ↔ compare? o r s = some !b := by
      cases compare? o r s with
      | none => simp
      | some c => cases b <;> cases c <;> simp
    rw [negated, compare?_eq_some_iff left right order', compare?_eq_some_iff left right order]
    simp only [BinOp.relates_opposite order opposite, Bool.not_eq_eq_eq_not]

/-- Intervals that are open to the outside and have one integer in common. No integer of the first
exceeds one of the second, but one does not stay below one. -/
theorem compare?_exact_touching : ∃ r s : Interval, r = atMost 4 ∧ s = atLeast 4 ∧
    BinOp.lessOrEqual.isOrder ∧ (∃ j, r.Spans j) ∧ (∃ k, s.Spans k) ∧
    (∀ j k, r.Spans j → s.Spans k → BinOp.lessOrEqual.relates j k = true) ∧
    compare? .greaterOrEqual s r = some true ∧ compare? .greaterThan r s = some false ∧
    ¬∀ j k, r.Spans j → s.Spans k → BinOp.lessThan.relates j k = true := by
  have left : (atMost 4).Spans 4 := ⟨nofun, fun bound => Option.some.inj bound ▸ Int.le_refl 4⟩
  have right : (atLeast 4).Spans 4 := ⟨fun bound => Option.some.inj bound ▸ Int.le_refl 4, nofun⟩
  obtain ⟨exactly, swapped, p, opposite, negated⟩ :=
    compare?_exact (o := .lessOrEqual) rfl ⟨4, left⟩ ⟨4, right⟩
  cases opposite
  refine ⟨_, _, rfl, rfl, rfl, ⟨4, left⟩, ⟨4, right⟩, (exactly true).mp rfl, swapped, negated, ?_⟩
  intro all
  cases ((compare?_exact (o := .lessThan) rfl ⟨4, left⟩ ⟨4, right⟩).1 true).mpr all

end Interval

end SymbolicExecution
