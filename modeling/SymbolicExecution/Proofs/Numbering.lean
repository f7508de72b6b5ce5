import SymbolicExecution.Numbering

/-!
# Growing numberings

A numbering grows by numbering unknowns and terms. What was numbered keeps its value, every new
value is above the old ones, and no two terms share a value.
-/

namespace SymbolicExecution

namespace Term

/-- The values from which the term computes its own. -/
def operands : Term → List Value
  | literal _ | this => []
  | binary _ a b => [a, b]
  | unary _ a | isPattern _ a | isType _ a => [a]

def Below (t : Term) (k : Nat) : Prop := ∀ v ∈ t.operands, v.index < k

theorem Below.mono {t : Term} {k m : Nat} (below : t.Below k) (le : k ≤ m) : t.Below m :=
  fun v hv => Nat.lt_of_lt_of_le (below v hv) le

end Term

namespace Numbering

variable {n m : Numbering} {t u : Term} {v : Value}

theorem intern_of_known (known : n.find? t = some v) : n.intern t = (v, n) := by
  simp [intern, known]

theorem intern_of_new (new : n.find? t = none) :
    n.intern t = (⟨n.created⟩, ⟨n.created + 1, (t, ⟨n.created⟩) :: n.terms⟩) := by
  simp [intern, new]

theorem find?_intern_of_new (new : n.find? t = none) (u : Term) :
    (n.intern t).2.find? u = if u = t then some ⟨n.created⟩ else n.find? u := by
  rw [intern_of_new new]
  by_cases same : u = t
  · simp [find?, same]
  · have other : (u == t) = false := by simpa using same
    simp [find?, List.lookup_cons, other, same]

/-- A term that was interned has the value that was answered. -/
theorem find?_intern_self (n : Numbering) (t : Term) :
    (n.intern t).2.find? t = some (n.intern t).1 := by
  cases known : n.find? t with
  | some v =>
    rw [intern_of_known known]
    exact known
  | none => rw [find?_intern_of_new known, if_pos rfl, intern_of_new known]

theorem find?_intern_cases (found : (n.intern t).2.find? u = some v) :
    n.find? u = some v ∨ v = (n.intern t).1 := by
  cases known : n.find? t with
  | some w =>
    rw [intern_of_known known] at found
    exact Or.inl found
  | none =>
    rw [find?_intern_of_new known] at found
    split at found
    · cases found
      exact Or.inr (by rw [intern_of_new known])
    · exact Or.inl found

/-- `m` comes from `n` by numbering unknowns, and terms that fit when they are numbered. -/
inductive Grows (fit : Numbering → Term → Prop) (n : Numbering) : Numbering → Prop
  | refl : Grows fit n n
  | fresh {m : Numbering} (grows : Grows fit n m) : Grows fit n m.fresh.2
  | intern {m : Numbering} {t : Term} (grows : Grows fit n m) (fits : fit m t) :
      Grows fit n (m.intern t).2

/-- Every term fits. -/
def Any (_ : Numbering) (_ : Term) : Prop := True

/-- The term computes from values that exist. -/
def InScope (n : Numbering) (t : Term) : Prop := t.Below n.created

variable {fit : Numbering → Term → Prop}

theorem Grows.trans {k : Numbering} (first : Grows fit n m) (second : Grows fit m k) :
    Grows fit n k := by
  induction second with
  | refl => exact first
  | fresh _ ih => exact ih.fresh
  | intern _ fits ih => exact ih.intern fits

theorem Grows.imp {fit' : Numbering → Term → Prop} (fits : ∀ {n t}, fit n t → fit' n t)
    (grows : Grows fit n m) : Grows fit' n m := by
  induction grows with
  | refl => exact .refl
  | fresh _ ih => exact ih.fresh
  | intern _ fitting ih => exact ih.intern (fits fitting)

theorem created_intern (n : Numbering) (t : Term) : n.created ≤ (n.intern t).2.created := by
  cases known : n.find? t with
  | none =>
    rw [intern_of_new known]
    exact Nat.le_succ _
  | some v =>
    exact Nat.le_of_eq (by rw [intern_of_known known])

theorem Grows.created_le (grows : Grows fit n m) : n.created ≤ m.created := by
  induction grows with
  | refl => exact Nat.le_refl _
  | fresh _ ih => exact Nat.le_succ_of_le ih
  | @intern m t _ _ ih => exact Nat.le_trans ih (m.created_intern t)

/-- A numbered term keeps its value. -/
theorem Grows.find? (grows : Grows fit n m) (known : n.find? t = some v) :
    m.find? t = some v := by
  induction grows with
  | refl => exact known
  | fresh _ ih => exact ih
  | @intern m u _ _ ih =>
    cases new : m.find? u with
    | some w =>
      rw [intern_of_known new]
      exact ih
    | none =>
      have other : t ≠ u := by
        rintro rfl
        rw [new] at ih
        cases ih
      rw [find?_intern_of_new new, if_neg other]
      exact ih

/-- A value that existed before was the value of the term already. -/
theorem Grows.find?_of_lt (grows : Grows fit n m) (known : m.find? t = some v)
    (old : v.index < n.created) : n.find? t = some v := by
  induction grows with
  | refl => exact known
  | fresh _ ih => exact ih known
  | @intern m u grows _ ih =>
    cases new : m.find? u with
    | some w =>
      rw [intern_of_known new] at known
      exact ih known
    | none =>
      rw [find?_intern_of_new new] at known
      split at known
      · cases known
        have := grows.created_le
        exact absurd old (Nat.not_lt.mpr this)
      · exact ih known

/-- The terms compute from values that exist. -/
theorem closed_of_grows (made : start.Grows InScope n) (known : n.find? t = some v) :
    t.Below n.created := by
  induction made with
  | refl => cases known
  | fresh _ ih => exact (ih known).mono (Nat.le_succ _)
  | @intern m u _ fits ih =>
    have more := m.created_intern u
    cases new : m.find? u with
    | some w =>
      rw [intern_of_known new] at known ⊢
      exact ih known
    | none =>
      rw [find?_intern_of_new new] at known
      split at known
      · rename_i same
        rw [same]
        exact Term.Below.mono fits more
      · exact (ih known).mono more

/-- A term is numbered when its operands were. -/
theorem operands_lt_of_grows (made : start.Grows InScope n) (known : n.find? t = some v) :
    t.Below v.index := by
  induction made with
  | refl => cases known
  | fresh _ ih => exact ih known
  | @intern m u _ fits ih =>
    cases new : m.find? u with
    | some w =>
      rw [intern_of_known new] at known
      exact ih known
    | none =>
      rw [find?_intern_of_new new] at known
      split at known
      · rename_i same
        cases known
        rw [same]
        exact fits
      · exact ih known

/-- The values of terms exist, and each is the value of one term. -/
structure Proper (n : Numbering) : Prop where
  below {t : Term} {v : Value} : n.find? t = some v → v.index < n.created
  injective {t u : Term} {v : Value} : n.find? t = some v → n.find? u = some v → t = u

theorem proper_start : start.Proper := by
  constructor
  · intro t v known
    cases known
  · intro t u v known
    cases known

theorem Proper.fresh (proper : n.Proper) : n.fresh.2.Proper := by
  constructor
  · intro t v known
    exact Nat.lt_succ_of_lt (proper.below known)
  · intro t u v left right
    exact proper.injective left right

theorem Proper.intern (proper : n.Proper) (t : Term) : (n.intern t).2.Proper := by
  cases new : n.find? t with
  | some w =>
    rw [intern_of_known new]
    exact proper
  | none =>
    have created : (n.intern t).2.created = n.created + 1 := by rw [intern_of_new new]
    constructor
    · intro u v known
      rw [find?_intern_of_new new] at known
      rw [created]
      split at known
      · cases known
        exact Nat.lt_succ_self _
      · exact Nat.lt_succ_of_lt (proper.below known)
    · intro u w v left right
      rw [find?_intern_of_new new] at left right
      split at left
      · rename_i same
        cases left
        split at right
        · rename_i same'
          exact same.trans same'.symm
        · exact absurd (proper.below right) (Nat.lt_irrefl _)
      · split at right
        · cases right
          exact absurd (proper.below left) (Nat.lt_irrefl _)
        · exact proper.injective left right

theorem Proper.grows (proper : n.Proper) (grows : Grows fit n m) : m.Proper := by
  induction grows with
  | refl => exact proper
  | fresh _ ih => exact ih.fresh
  | @intern m t _ _ ih => exact ih.intern t

end Numbering

end SymbolicExecution
