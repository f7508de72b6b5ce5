import Mathlib.Data.List.Perm.Subperm
import Mathlib.Logic.Relation
import SymbolicExecution.Storage

/-!
# Ways to their end

Where only finitely many things lead on, as many hops as there are of them decide: the end of a way
is found if it has one, and a way without an end has run into a circle by then.
-/

namespace SymbolicExecution

open Relation

section Follow

variable {α : Type}

/-- One hop goes from `a` to `b`. -/
def Hop (next : α → Option α) (a b : α) : Prop := next a = some b

instance decidableHop [DecidableEq α] (next : α → Option α) (a b : α) : Decidable (Hop next a b) :=
  inferInstanceAs (Decidable (next a = some b))

variable {next : α → Option α} {a b c : α} {hops : Nat}

/-- What is found is the end of the way. -/
theorem end_of_follow? (found : follow? next hops a = some b) :
    ReflTransGen (Hop next) a b ∧ next b = none := by
  induction hops generalizing a with
  | zero => cases found
  | succ hops ih =>
    simp only [follow?] at found
    split at found
    · rename_i last
      cases found
      exact ⟨.refl, last⟩
    · rename_i c hop
      obtain ⟨way, last⟩ := ih found
      exact ⟨way.head hop, last⟩

/-- Whatever is on the way to an end leads to that end. -/
theorem way_of_end (way : ReflTransGen (Hop next) a b) (last : next b = none)
    (part : ReflTransGen (Hop next) a c) : ReflTransGen (Hop next) c b := by
  induction part with
  | refl => exact way
  | @tail d c _ hop ih =>
    rcases ih.cases_head with rfl | ⟨d', hop', rest⟩
    · cases last.symm.trans hop
    · cases Option.some.inj (hop.symm.trans hop')
      exact rest

/-- A way that ends does not begin in a circle. -/
theorem not_circle_of_end (way : ReflTransGen (Hop next) a b) (last : next b = none) :
    ¬TransGen (Hop next) a a := by
  induction way using ReflTransGen.head_induction_on with
  | refl =>
    intro circle
    obtain ⟨c, hop, _⟩ := TransGen.head'_iff.mp circle
    cases last.symm.trans hop
  | head hop _ ih =>
    intro circle
    obtain ⟨c, hop', rest⟩ := TransGen.head'_iff.mp circle
    cases Option.some.inj (hop.symm.trans hop')
    exact ih (TransGen.tail' rest hop)

/-- `above` holds what was passed on the way to `a`. Without circles it has no repetitions, so it
does not grow beyond the list of all that leads on. -/
theorem exists_follow? {all : List α} (inside : ∀ a b, Hop next a b → a ∈ all) (above : List α)
    (distinct : above.Nodup) (passed : ∀ b ∈ above, TransGen (Hop next) b a)
    (count : above.length + hops = all.length + 1)
    (free : ∀ b, ReflTransGen (Hop next) a b → ¬TransGen (Hop next) b b) :
    ∃ b, follow? next hops a = some b := by
  induction hops generalizing a above with
  | zero =>
    -- without hops left, more was passed than there is
    have subset : above ⊆ all := by
      intro b hb
      obtain ⟨c, hop, _⟩ := TransGen.head'_iff.mp (passed b hb)
      exact inside b c hop
    have le := distinct.length_le_of_subset subset
    omega
  | succ hops ih =>
    cases hop : next a with
    | none => exact ⟨a, by simp [follow?, hop]⟩
    | some c =>
      have new : a ∉ above := fun again => free a .refl (passed a again)
      obtain ⟨b, found⟩ := ih (a :: above) (List.nodup_cons.mpr ⟨new, distinct⟩)
        (by
          intro b hb
          rcases List.mem_cons.mp hb with rfl | hb
          · exact .single hop
          · exact (passed b hb).tail hop)
        (by rw [List.length_cons]; omega)
        (fun b way => free b (way.head hop))
      exact ⟨b, by simp [follow?, hop, found]⟩

section Decided

variable {all : List α} (inside : ∀ a b, Hop next a b → a ∈ all)

include inside

/-- No end is found only where the way runs into a circle. -/
theorem follow?_eq_none_iff : follow? next (all.length + 1) a = none ↔
    ∃ b, ReflTransGen (Hop next) a b ∧ TransGen (Hop next) b b := by
  constructor
  · intro lost
    by_contra free
    obtain ⟨b, found⟩ := exists_follow? (a := a) inside [] List.nodup_nil (by simp)
      (Nat.zero_add _) fun b way circle => free ⟨b, way, circle⟩
    cases lost.symm.trans found
  · rintro ⟨b, part, circle⟩
    cases found : follow? next (all.length + 1) a with
    | none => rfl
    | some c =>
      obtain ⟨way, last⟩ := end_of_follow? found
      exact absurd circle (not_circle_of_end (way_of_end way last part) last)

/-- The end of a way is found if there is one. -/
theorem follow?_eq_some_iff : follow? next (all.length + 1) a = some b ↔
    ReflTransGen (Hop next) a b ∧ next b = none := by
  constructor
  · exact end_of_follow?
  · rintro ⟨way, last⟩
    cases found : follow? next (all.length + 1) a with
    | none =>
      obtain ⟨c, part, circle⟩ := (follow?_eq_none_iff inside).mp found
      exact absurd circle (not_circle_of_end (way_of_end way last part) last)
    | some c =>
      obtain ⟨way', last'⟩ := end_of_follow? found
      rcases (way_of_end way last way').cases_head with rfl | ⟨d, hop, _⟩
      · rfl
      · cases last'.symm.trans hop

end Decided

end Follow

namespace Routine

variable (r : Routine) {i j : OpId}

/-- The operations that the routine can have. -/
def names : List OpId := (List.range r.operations.size).map fun k => ⟨r.id, k⟩

theorem hops_eq : r.hops = r.names.length + 1 := by simp [hops, names]

variable {r}

theorem mem_names {p : Operation} (found : r.operation? i = some p) : i ∈ r.names := by
  simp only [operation?] at found
  split at found
  · rename_i own
    refine List.mem_map.mpr ⟨i.index, ?_, by rw [← own]⟩
    exact List.mem_range.mpr (Array.getElem?_eq_some_iff.mp found).1
  · cases found

theorem mem_names_of_inner (hop : Hop r.inner? i j) : i ∈ r.names := by
  cases found : r.operation? i with
  | none => simp [Hop, inner?, found] at hop
  | some p => exact mem_names found

theorem unwrap?_eq_none_iff : r.unwrap? i = none ↔
    ∃ j, ReflTransGen (Hop r.inner?) i j ∧ TransGen (Hop r.inner?) j j := by
  rw [unwrap?, hops_eq]
  exact follow?_eq_none_iff fun _ _ hop => mem_names_of_inner hop

theorem unwrap?_eq_some_iff : r.unwrap? i = some j ↔
    ReflTransGen (Hop r.inner?) i j ∧ r.inner? j = none := by
  rw [unwrap?, hops_eq]
  exact follow?_eq_some_iff fun _ _ hop => mem_names_of_inner hop

end Routine

end SymbolicExecution
