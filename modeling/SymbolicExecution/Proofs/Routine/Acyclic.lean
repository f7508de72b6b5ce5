import SymbolicExecution.Proofs.Routine.Order
import SymbolicExecution.Proofs.Storage

/-!
# Circles in operation trees

The evaluation order of a block is only found where the operations that the block evaluates have no
circle below them. So in an accepted routine an evaluated operation is the root of a tree, none of
whose operations contains itself, and unwrapping it comes to an end. Operations that no block
evaluates are not looked at.
-/

namespace SymbolicExecution

open Relation

namespace Routine

/-- `c` is a child of `i`. -/
def Child (r : Routine) (c i : OpId) : Prop :=
  ∃ p, r.operation? i = some p ∧ c ∈ p.form.children

/-- Neither `i` nor an operation under it contains itself. -/
def IsTree (r : Routine) (i : OpId) : Prop :=
  ∀ j, ReflTransGen r.Child j i → ¬TransGen r.Child j j

variable {r : Routine} {c i j : OpId}

theorem IsTree.child (tree : r.IsTree i) (child : r.Child c i) : r.IsTree c :=
  fun j below => tree j (below.tail child)

theorem child_of_inner (hop : Hop r.inner? i j) : r.Child j i := by
  cases found : r.operation? i with
  | none => simp [Hop, inner?, found] at hop
  | some p =>
    refine ⟨p, found, ?_⟩
    cases form : p.form <;> simp_all [Hop, inner?, Form.children]

/-- Unwrapping leads down the tree, so it comes to an end. -/
theorem IsTree.exists_unwrap? (tree : r.IsTree i) : ∃ j, r.unwrap? i = some j := by
  cases unwrapped : r.unwrap? i with
  | some j => exact ⟨j, rfl⟩
  | none =>
    obtain ⟨j, way, circle⟩ := unwrap?_eq_none_iff.mp unwrapped
    have down : Hop r.inner? ≤ Function.swap r.Child := fun _ _ => child_of_inner
    have below : ReflTransGen r.Child j i := (ReflTransGen.mono down _ _ way).swap
    have circle : TransGen r.Child j j := (TransGen.mono down _ _ circle).swap
    exact absurd circle (tree j below)

end Routine

theorem not_transGen_self_of_acc {α : Type} {r : α → α → Prop} {a : α} (acc : Acc r a) :
    ¬TransGen r a a := by
  intro circle
  have below := acc.transGen
  clear acc
  induction below with
  | intro a _ ih => exact ih a circle circle

namespace Outline

variable {o : Outline} {r : Routine} (accepted : Routine.ofOutline o = .ok r)

include accepted

/-- There is no circle below what a post-order lists. -/
theorem acc_of_postOrder {depth : Nat} {above l : List OpId} {i : OpId}
    (order : o.postOrder depth above i = .ok l) : i ∈ l ∧ ∀ j ∈ l, Acc r.Child j := by
  apply postOrder_induction (P := fun i l => i ∈ l ∧ ∀ j ∈ l, Acc r.Child j) ?_ order
  intro i p below found trees
  have inner : ∀ j ∈ below.flatten, Acc r.Child j := by
    intro j hj
    obtain ⟨t, ht, hj⟩ := List.mem_flatten.mp hj
    exact forall₂_right trees (fun _ _ tree => tree.2) t ht j hj
  have root : Acc r.Child i := by
    constructor
    rintro c ⟨q, found', child⟩
    rw [operation?_of_accepted accepted, found] at found'
    cases found'
    exact inner c (mem_flatten_of_forall₂ trees (fun _ _ tree => tree.1) c child)
  refine ⟨List.mem_append_right _ (List.mem_singleton_self i), ?_⟩
  intro j hj
  rcases List.mem_append.mp hj with hj | hj
  · exact inner j hj
  · rw [List.mem_singleton.mp hj]
    exact root

/-- There is no circle below what the blocks evaluate. -/
theorem acc_of_evaluated {i : OpId} (evaluated : i ∈ r.evaluations) : Acc r.Child i := by
  obtain ⟨orders, related, same⟩ := evaluations_of_accepted accepted
  rw [same] at evaluated
  obtain ⟨l, hl, hi⟩ := List.mem_flatten.mp evaluated
  obtain ⟨b, order⟩ := forall₂_right (Q := fun l => ∃ b, o.evaluationOrder b = .ok l) related
    (fun b _ order => ⟨b, order⟩) l hl
  obtain ⟨trees, each, rfl⟩ := evaluationOrder_trees order
  obtain ⟨t, ht, hi⟩ := List.mem_flatten.mp hi
  exact forall₂_right (Q := fun t => ∀ j ∈ t, Acc r.Child j) each
    (fun _ _ ⟨_, _, order⟩ => (acc_of_postOrder accepted order).2) t ht i hi

/-- With an operation all its descendants are evaluated. -/
theorem evaluated_of_descendant {c i : OpId} (evaluated : i ∈ r.evaluations)
    (below : TransGen r.Child c i) : c ∈ r.evaluations := by
  have child : ∀ {c i}, i ∈ r.evaluations → r.Child c i → c ∈ r.evaluations := by
    rintro c i evaluated ⟨p, found, child⟩
    apply (evaluations_closed accepted evaluated).2
    rw [children_of_accepted accepted found]
    exact child
  induction below using TransGen.head_induction_on with
  | single first => exact child evaluated first
  | head first _ ih => exact child ih first

/-- What a block evaluates is a tree. -/
theorem isTree_of_evaluated {i : OpId} (evaluated : i ∈ r.evaluations) : r.IsTree i := by
  intro j below
  have inner : j ∈ r.evaluations := by
    rcases reflTransGen_iff_eq_or_transGen.mp below with rfl | below
    · exact evaluated
    · exact evaluated_of_descendant accepted evaluated below
  exact not_transGen_self_of_acc (acc_of_evaluated accepted inner)

end Outline

namespace Outline

/-- What is wrapped in an evaluated operation is evaluated. -/
theorem evaluated_of_unwrapped {o : Outline} {r : Routine} (accepted : Routine.ofOutline o = .ok r)
    {i j : OpId} (evaluated : i ∈ r.evaluations) (way : ReflTransGen (Hop r.inner?) i j) :
    j ∈ r.evaluations := by
  induction way with
  | refl => exact evaluated
  | tail _ hop ih =>
    exact evaluated_of_descendant accepted ih (.single (Routine.child_of_inner hop))

/-- In an accepted routine, no operation that a block evaluates is its own proper descendant, its
descendants are evaluated with it, and unwrapping it comes to an operation that is neither a
parenthesis nor a conversion. Of any operation at all, unwrapping finds the end of the way if there
is one, and it finds nothing only where the way runs into a circle. -/
theorem evaluated_acyclic {o : Outline} {r : Routine} (accepted : Routine.ofOutline o = .ok r) :
    (∀ i ∈ r.evaluations, ¬TransGen r.Child i i ∧
      (∀ c, TransGen r.Child c i → c ∈ r.evaluations) ∧
      ∃ j p, r.unwrap? i = some j ∧ r.operation? j = some p ∧
        ∀ inner, p.form ≠ .paren inner ∧ p.form ≠ .convert inner) ∧
    ∀ i, (∀ j, r.unwrap? i = some j ↔ ReflTransGen (Hop r.inner?) i j ∧ r.inner? j = none) ∧
      (r.unwrap? i = none ↔
        ∃ j, ReflTransGen (Hop r.inner?) i j ∧ TransGen (Hop r.inner?) j j) := by
  refine ⟨?_, fun i => ⟨fun j => Routine.unwrap?_eq_some_iff, Routine.unwrap?_eq_none_iff⟩⟩
  intro i evaluated
  have tree := isTree_of_evaluated accepted evaluated
  refine ⟨tree i .refl, fun c below => evaluated_of_descendant accepted evaluated below, ?_⟩
  obtain ⟨j, found⟩ := tree.exists_unwrap?
  obtain ⟨way, last⟩ := Routine.unwrap?_eq_some_iff.mp found
  have evaluated' := evaluated_of_unwrapped accepted evaluated way
  obtain ⟨⟨p, known⟩, _⟩ := evaluations_closed accepted evaluated'
  refine ⟨j, p, found, known, ?_⟩
  intro inner
  constructor
  · intro form
    simp [Routine.inner?, known, form] at last
  · intro form
    simp [Routine.inner?, known, form] at last

/-- `this` in parentheses, converted. -/
def wrapping : Outline where
  id := ⟨0⟩
  name := "wrapping"
  blocks := #[⟨⟨0⟩, [], .leave (some ⟨⟨0⟩, 2⟩), none⟩]
  operations := #[⟨⟨⟨0⟩, 0⟩, .this, none⟩, ⟨⟨⟨0⟩, 1⟩, .paren ⟨⟨0⟩, 0⟩, none⟩,
    ⟨⟨⟨0⟩, 2⟩, .convert ⟨⟨0⟩, 1⟩, none⟩]
  closures := []

theorem evaluated_acyclic_wrapping : ∃ r, Routine.ofOutline wrapping = .ok r ∧
    (⟨⟨0⟩, 2⟩ : OpId) ∈ r.evaluations ∧ ¬TransGen r.Child ⟨⟨0⟩, 2⟩ ⟨⟨0⟩, 2⟩ ∧
    r.unwrap? ⟨⟨0⟩, 2⟩ = some ⟨⟨0⟩, 0⟩ := by
  refine ⟨_, rfl, by decide, ?_, by decide⟩
  exact ((evaluated_acyclic (o := wrapping) rfl).1 ⟨⟨0⟩, 2⟩ (by decide)).1

/-- A block without operations, beside parentheses that enclose themselves. -/
def circular : Outline where
  id := ⟨0⟩
  name := "circular"
  blocks := #[⟨⟨0⟩, [], .leave none, none⟩]
  operations := #[⟨⟨⟨0⟩, 0⟩, .paren ⟨⟨0⟩, 0⟩, none⟩]
  closures := []

/-- An operation that no block evaluates may be its own child, and unwrapping it never ends. -/
theorem circular_accepted : ∃ r, Routine.ofOutline circular = .ok r ∧
    TransGen r.Child ⟨⟨0⟩, 0⟩ ⟨⟨0⟩, 0⟩ ∧
    ∀ j, ReflTransGen (Hop r.inner?) ⟨⟨0⟩, 0⟩ j → r.inner? j ≠ none := by
  refine ⟨_, rfl, .single ⟨_, rfl, List.mem_singleton_self _⟩, ?_⟩
  intro j way
  have here : j = ⟨⟨0⟩, 0⟩ := by
    induction way with
    | refl => rfl
    | tail _ hop ih =>
      subst ih
      exact (Option.some.inj hop).symm
  rw [here]
  exact Option.some_ne_none _

end Outline

end SymbolicExecution
