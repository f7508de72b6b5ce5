import Mathlib.Logic.Equiv.Basic
import SymbolicExecution.Proofs.Numbering

/-!
# Numberings that correspond

Two numberings correspond under a renaming of values when every term of the first has the renamed
value in the second, and a value of the second that renames an old value of the first names the same
term. Numbering the same term or an unknown in both keeps the correspondence: only the renaming of
the new value has to be chosen, and it can be, since nothing old is renamed to the value that the
second numbering answers.
-/

namespace SymbolicExecution

abbrev Renaming : Type := Equiv.Perm Value

namespace Term

variable {t : Term} {π π' : Renaming}

def rename (π : Renaming) : Term → Term
  | literal l => literal l
  | this => this
  | binary operator a b => binary operator (π a) (π b)
  | unary operator a => unary operator (π a)
  | isPattern p a => isPattern p (π a)
  | isType name a => isType name (π a)

theorem rename_congr (same : ∀ v ∈ t.operands, π' v = π v) : t.rename π' = t.rename π := by
  cases t with
  | literal | this => rfl
  | binary operator a b =>
    have left := same a (by simp [operands])
    have right := same b (by simp [operands])
    simp [rename, left, right]
  | unary _ a | isPattern _ a | isType _ a =>
    have operand := same a (by simp [operands])
    simp [rename, operand]

theorem rename_injective (π : Renaming) : Function.Injective (rename π) := by
  intro t u same
  cases t <;> cases u <;> simp_all [rename]

theorem rename_refl (t : Term) : t.rename (Equiv.refl Value) = t := by
  cases t <;> rfl

end Term

namespace Renaming

variable {π : Renaming} {k : Nat} {u v : Value}

/-- Rename the value number `k` to `u`. -/
def redirect (π : Renaming) (k : Nat) (u : Value) : Renaming := π.trans (Equiv.swap (π ⟨k⟩) u)

theorem redirect_self : π.redirect k u ⟨k⟩ = u := by
  simp [redirect]

/-- The old values keep their names if none of them is called `u`. -/
theorem redirect_of_lt (unused : ∀ v : Value, v.index < k → π v ≠ u) (old : v.index < k) :
    π.redirect k u v = π v := by
  have other : π v ≠ π ⟨k⟩ := by
    intro same
    rw [π.injective same] at old
    exact Nat.lt_irrefl k old
  simp only [redirect, Equiv.trans_apply]
  exact Equiv.swap_apply_of_ne_of_ne other (unused v old)

end Renaming

/-- Two numberings whose values correspond under a renaming. -/
structure Correspondence where
  left : Numbering
  right : Numbering
  rename : Renaming
  closed {t : Term} {v : Value} : left.find? t = some v → t.Below left.created
  below {t : Term} {v : Value} : left.find? t = some v → v.index < left.created
  proper : right.Proper
  bounded {v : Value} : v.index < left.created → (rename v).index < right.created
  forth {t : Term} {v : Value} : left.find? t = some v →
    right.find? (t.rename rename) = some (rename v)
  back {u : Term} {v : Value} : right.find? u = some (rename v) → v.index < left.created →
    ∃ t, u = t.rename rename ∧ left.find? t = some v

namespace Correspondence

/-- Later numberings: the old values keep their names. -/
structure Le (c d : Correspondence) : Prop where
  grows : c.left.Grows Numbering.InScope d.left
  agrees {v : Value} : v.index < c.left.created → d.rename v = c.rename v

instance : LE Correspondence := ⟨Le⟩

variable {c d : Correspondence}

theorem le_refl (c : Correspondence) : c ≤ c := ⟨.refl, fun _ => rfl⟩

theorem le_trans {e : Correspondence} (first : c ≤ d) (second : d ≤ e) : c ≤ e := by
  refine ⟨first.grows.trans second.grows, ?_⟩
  intro v old
  rw [second.agrees (Nat.lt_of_lt_of_le old first.grows.created_le), first.agrees old]

/-- The correspondence of a numbering with one that grew from it. -/
def ofGrows {n m : Numbering} (made : Numbering.start.Grows Numbering.Any n)
    (closed : ∀ {t v}, n.find? t = some v → t.Below n.created) (grows : n.Grows Numbering.Any m) :
    Correspondence where
  left := n
  right := m
  rename := Equiv.refl Value
  closed := closed
  below := (Numbering.proper_start.grows made).below
  proper := Numbering.proper_start.grows (made.trans grows)
  bounded old := Nat.lt_of_lt_of_le old grows.created_le
  forth {t v} known := by
    rw [t.rename_refl]
    exact grows.find? known
  back {u v} known old := ⟨u, u.rename_refl.symm, grows.find?_of_lt known old⟩

/-- Number one more value on the left, which is renamed to a value `u` that renames no old one. -/
theorem extend (c : Correspondence) {left right : Numbering} {u : Value}
    (grows : c.left.Grows Numbering.InScope left) (one : left.created = c.left.created + 1)
    (grows' : c.right.Grows Numbering.Any right) (inside : u.index < right.created)
    (unused : ∀ v : Value, v.index < c.left.created → c.rename v ≠ u)
    (added : ∀ {t v}, left.find? t = some v → c.left.find? t = some v ∨
      v = ⟨c.left.created⟩ ∧ t.Below c.left.created ∧ right.find? (t.rename c.rename) = some u)
    (old : ∀ {t w}, right.find? t = some w → c.right.find? t = some w ∨ w = u)
    (named : ∀ {t}, right.find? t = some u →
      ∃ t', t = t'.rename c.rename ∧ t'.Below c.left.created ∧
        left.find? t' = some ⟨c.left.created⟩) :
    ∃ d : Correspondence, c ≤ d ∧ d.left = left ∧ d.right = right ∧
      d.rename ⟨c.left.created⟩ = u := by
  have kept {v : Value} (lt : v.index < c.left.created) :
      c.rename.redirect c.left.created u v = c.rename v := Renaming.redirect_of_lt unused lt
  have renamed {t : Term} (below : t.Below c.left.created) :
      t.rename (c.rename.redirect c.left.created u) = t.rename c.rename :=
    Term.rename_congr fun v hv => kept (below v hv)
  have cases {v : Value} (lt : v.index < left.created) :
      v.index < c.left.created ∨ v = ⟨c.left.created⟩ := by
    rw [one] at lt
    rcases Nat.lt_succ_iff_lt_or_eq.mp lt with older | new
    · exact Or.inl older
    · exact Or.inr (congrArg Id.mk new)
  have more := grows.created_le
  refine ⟨{
    left := left
    right := right
    rename := c.rename.redirect c.left.created u
    closed := ?_
    below := ?_
    proper := c.proper.grows grows'
    bounded := ?_
    forth := ?_
    back := ?_ }, ⟨grows, kept⟩, rfl, rfl, Renaming.redirect_self⟩
  · intro t v known
    rcases added known with known | ⟨_, below, _⟩
    · exact (c.closed known).mono more
    · exact below.mono more
  · intro t v known
    rcases added known with known | ⟨rfl, _, _⟩
    · exact Nat.lt_of_lt_of_le (c.below known) more
    · rw [one]
      exact Nat.lt_succ_self _
  · intro v lt
    rcases cases lt with older | rfl
    · rw [kept older]
      exact Nat.lt_of_lt_of_le (c.bounded older) grows'.created_le
    · rw [Renaming.redirect_self]
      exact inside
  · intro t v known
    rcases added known with known | ⟨rfl, below, found⟩
    · rw [renamed (c.closed known), kept (c.below known)]
      exact grows'.find? (c.forth known)
    · rw [renamed below, Renaming.redirect_self]
      exact found
  · intro t v known lt
    rcases cases lt with older | rfl
    · rw [kept older] at known
      rcases old known with known | same
      · obtain ⟨t', same, found⟩ := c.back known older
        exact ⟨t', by rw [same, renamed (c.closed found)], grows.find? found⟩
      · exact absurd same (unused v older)
    · rw [Renaming.redirect_self] at known
      obtain ⟨t', same, below, found⟩ := named known
      exact ⟨t', by rw [same, renamed below], found⟩

theorem rename_ne_created (c : Correspondence) (v : Value) (lt : v.index < c.left.created) :
    c.rename v ≠ ⟨c.right.created⟩ := by
  intro same
  have := c.bounded lt
  rw [same] at this
  exact Nat.lt_irrefl _ this

/-- Both numberings number an unknown. -/
theorem fresh (c : Correspondence) : ∃ d : Correspondence, c ≤ d ∧
    d.left = c.left.fresh.2 ∧ d.right = c.right.fresh.2 ∧
    d.rename c.left.fresh.1 = c.right.fresh.1 := by
  apply c.extend (Numbering.Grows.refl.fresh) rfl (Numbering.Grows.refl.fresh)
    (Nat.lt_succ_self _) c.rename_ne_created
  · intro t v known
    exact Or.inl known
  · intro t w known
    exact Or.inl known
  · intro t known
    exact absurd (c.proper.below known) (Nat.lt_irrefl _)

/-- A term that is new on the left is not answered with the name of an old value on the right. -/
theorem rename_ne_intern (c : Correspondence) {t : Term} (new : c.left.find? t = none) (v : Value)
    (lt : v.index < c.left.created) : c.rename v ≠ (c.right.intern (t.rename c.rename)).1 := by
  intro same
  cases found : c.right.find? (t.rename c.rename) with
  | some u =>
    rw [Numbering.intern_of_known found] at same
    have same : c.rename v = u := same
    rw [← same] at found
    obtain ⟨t', equal, known⟩ := c.back found lt
    rw [Term.rename_injective _ equal, known] at new
    cases new
  | none =>
    rw [Numbering.intern_of_new found] at same
    exact c.rename_ne_created v lt same

/-- Both numberings number a term. Whether they create a value for it may differ: the second may
have numbered the term before, while the first has not. -/
theorem intern (c : Correspondence) {t : Term} (inScope : t.Below c.left.created) :
    ∃ d : Correspondence, c ≤ d ∧
      d.left = (c.left.intern t).2 ∧ d.right = (c.right.intern (t.rename c.rename)).2 ∧
      (c.left.intern t).1.index < d.left.created ∧
      d.rename (c.left.intern t).1 = (c.right.intern (t.rename c.rename)).1 := by
  cases known : c.left.find? t with
  | some v =>
    refine ⟨c, c.le_refl, ?_⟩
    rw [Numbering.intern_of_known known, Numbering.intern_of_known (c.forth known)]
    exact ⟨rfl, rfl, c.below known, rfl⟩
  | none =>
    have growsLeft : c.left.Grows Numbering.InScope (c.left.intern t).2 :=
      Numbering.Grows.refl.intern inScope
    have growsRight : c.right.Grows Numbering.Any (c.right.intern (t.rename c.rename)).2 :=
      Numbering.Grows.refl.intern trivial
    have one : (c.left.intern t).2.created = c.left.created + 1 := by
      rw [Numbering.intern_of_new known]
    have value : (c.left.intern t).1 = ⟨c.left.created⟩ := by
      rw [Numbering.intern_of_new known]
    have answer := c.right.find?_intern_self (t.rename c.rename)
    have properRight := c.proper.grows growsRight
    have added : ∀ {x v}, (c.left.intern t).2.find? x = some v → c.left.find? x = some v ∨
        v = ⟨c.left.created⟩ ∧ x.Below c.left.created ∧
          (c.right.intern (t.rename c.rename)).2.find? (x.rename c.rename) =
            some (c.right.intern (t.rename c.rename)).1 := by
      intro x v found
      rw [Numbering.find?_intern_of_new known] at found
      split at found
      · rename_i same
        cases found
        rw [same]
        exact Or.inr ⟨rfl, inScope, answer⟩
      · exact Or.inl found
    have self : (c.left.intern t).2.find? t = some ⟨c.left.created⟩ := by
      rw [c.left.find?_intern_self, value]
    obtain ⟨d, le, left, right, renamed⟩ := c.extend growsLeft one growsRight
      (properRight.below answer) (c.rename_ne_intern known) added Numbering.find?_intern_cases
      fun found => ⟨t, properRight.injective found answer, inScope, self⟩
    refine ⟨d, le, left, right, ?_, ?_⟩
    · rw [left, value, one]
      exact Nat.lt_succ_self _
    · rw [value]
      exact renamed

end Correspondence

end SymbolicExecution
