import Mathlib.Data.List.Forall2
import Mathlib.Data.List.Nodup
import SymbolicExecution.Proofs.Storage
import SymbolicExecution.Routine

/-!
# Evaluation orders

The evaluation order of a block is the post-order of its trees, so an operation comes after its
children. Where every operation is evaluated once, no operation is shared: it is a child of one
operation at most, and what a block evaluates for itself is a child of none.
-/

namespace SymbolicExecution

theorem forall₂_of_mapM {ε α β : Type} {f : α → Except ε β} {l : List α} {m : List β}
    (mapped : l.mapM f = .ok m) : List.Forall₂ (fun a b => f a = .ok b) l m := by
  induction l generalizing m with
  | nil =>
    cases mapped
    exact .nil
  | cons a rest ih =>
    rw [List.mapM_cons] at mapped
    cases first : f a with
    | error e =>
      rw [first] at mapped
      cases mapped
    | ok b =>
      rw [first] at mapped
      cases others : rest.mapM f with
      | error e =>
        rw [others] at mapped
        cases mapped
      | ok bs =>
        rw [others] at mapped
        cases mapped
        exact .cons first (ih others)

namespace Outline

variable {o : Outline} {i j c : OpId}

def children (o : Outline) (i : OpId) : List OpId :=
  ((o.operation? i).map fun p => p.form.children).getD []

theorem children_of_operation? {p : Operation} (found : o.operation? i = some p) :
    o.children i = p.form.children := by
  simp [children, found]

/-- To prove something of a post-order, prove it of a node after the post-orders of its children. -/
theorem postOrder_induction {P : OpId → List OpId → Prop}
    (node : ∀ i p below, o.operation? i = some p → List.Forall₂ P p.form.children below →
      P i (below.flatten ++ [i]))
    {depth : Nat} {above l : List OpId} (order : o.postOrder depth above i = .ok l) : P i l := by
  induction depth generalizing i above l with
  | zero => cases order
  | succ depth ih =>
    simp only [postOrder] at order
    split at order
    · cases order
    · cases found : o.operation? i with
      | none =>
        rw [found] at order
        cases order
      | some p =>
        rw [found] at order
        cases trees : p.form.children.mapM (o.postOrder depth (i :: above)) with
        | error d =>
          simp only [trees] at order
          cases order
        | ok below =>
          simp only [trees] at order
          cases order
          exact node i p below found ((forall₂_of_mapM trees).imp fun _ _ sub => ih sub)

/-- Every operation of the list comes after its children. -/
def Ordered (o : Outline) (l : List OpId) : Prop :=
  ∀ k i, l[k]? = some i → ∀ c ∈ o.children i, c ∈ l.take k

theorem ordered_append {l m : List OpId} (left : o.Ordered l) (right : o.Ordered m) :
    o.Ordered (l ++ m) := by
  intro k i here c hc
  by_cases inside : k < l.length
  · rw [List.getElem?_append_left inside] at here
    rw [List.take_append_of_le_length (Nat.le_of_lt inside)]
    exact left k i here c hc
  · have le : l.length ≤ k := Nat.le_of_not_lt inside
    rw [List.getElem?_append_right le] at here
    rw [List.take_append, List.take_of_length_le le]
    exact List.mem_append_right l (right _ i here c hc)

theorem ordered_flatten {trees : List (List OpId)} (each : ∀ l ∈ trees, o.Ordered l) :
    o.Ordered trees.flatten := by
  induction trees with
  | nil =>
    intro k i here
    simp at here
  | cons l rest ih =>
    rw [List.flatten_cons]
    exact ordered_append (each l List.mem_cons_self)
      (ih fun m hm => each m (List.mem_cons_of_mem l hm))

theorem forall₂_right {α β : Type} {P : α → β → Prop} {Q : β → Prop} {l : List α} {m : List β}
    (related : List.Forall₂ P l m) (holds : ∀ a b, P a b → Q b) : ∀ b ∈ m, Q b := by
  induction related with
  | nil =>
    intro b hb
    cases hb
  | cons first _ ih =>
    intro b hb
    rcases List.mem_cons.mp hb with rfl | hb
    · exact holds _ _ first
    · exact ih b hb

theorem mem_flatten_of_forall₂ {P : OpId → List OpId → Prop} {l : List OpId}
    {trees : List (List OpId)} (related : List.Forall₂ P l trees)
    (root : ∀ i t, P i t → i ∈ t) : ∀ i ∈ l, i ∈ trees.flatten := by
  induction related with
  | nil =>
    intro i hi
    cases hi
  | cons first _ ih =>
    intro i hi
    rw [List.flatten_cons, List.mem_append]
    rcases List.mem_cons.mp hi with rfl | hi
    · exact Or.inl (root _ _ first)
    · exact Or.inr (ih i hi)

/-- A post-order ends with its root, knows all its operations, and is ordered. -/
structure Arranged (o : Outline) (i : OpId) (l : List OpId) : Prop where
  root : i ∈ l
  ordered : o.Ordered l
  known : ∀ j ∈ l, ∃ p, o.operation? j = some p

theorem arranged_postOrder {depth : Nat} {above l : List OpId}
    (order : o.postOrder depth above i = .ok l) : o.Arranged i l := by
  apply postOrder_induction ?_ order
  intro i p below found trees
  have inner : o.Ordered below.flatten :=
    ordered_flatten (forall₂_right trees fun _ _ tree => tree.ordered)
  refine ⟨List.mem_append_right _ (List.mem_singleton_self i), ?_, ?_⟩
  · intro k j here c hc
    by_cases inside : k < below.flatten.length
    · rw [List.getElem?_append_left inside] at here
      rw [List.take_append_of_le_length (Nat.le_of_lt inside)]
      exact inner k j here c hc
    · have le : below.flatten.length ≤ k := Nat.le_of_not_lt inside
      rw [List.getElem?_append_right le] at here
      have same : i = j := by
        have := List.mem_of_getElem? here
        exact (List.mem_singleton.mp this).symm
      subst same
      rw [children_of_operation? found] at hc
      rw [List.take_append, List.take_of_length_le le]
      apply List.mem_append_left
      exact mem_flatten_of_forall₂ trees (fun _ _ tree => tree.root) c hc
  · intro j hj
    rcases List.mem_append.mp hj with hj | hj
    · obtain ⟨t, ht, hj⟩ := List.mem_flatten.mp hj
      exact forall₂_right trees (fun _ _ tree => tree.known) t ht j hj
    · rw [List.mem_singleton.mp hj]
      exact ⟨p, found⟩

/-- How often the operations of the list have `c` as a child. -/
def uses (o : Outline) (c : OpId) (l : List OpId) : Nat :=
  (l.flatMap o.children).count c

theorem uses_append (c : OpId) (l m : List OpId) : o.uses c (l ++ m) = o.uses c l + o.uses c m := by
  simp [uses]

/-- In trees, an operation occurs as often as it is a root or a child. -/
theorem count_trees {c : OpId} {l : List OpId} {trees : List (List OpId)}
    (counted : List.Forall₂ (fun i t => t.count c = [i].count c + o.uses c t) l trees) :
    trees.flatten.count c = l.count c + o.uses c trees.flatten := by
  induction counted with
  | nil => rfl
  | @cons i t rest others first _ ih =>
    have split : (i :: rest).count c = [i].count c + rest.count c := by
      rw [← List.count_append, List.singleton_append]
    rw [List.flatten_cons, List.count_append, uses_append, first, ih, split]
    omega

theorem count_postOrder {depth : Nat} {above l : List OpId} (c : OpId)
    (order : o.postOrder depth above i = .ok l) : l.count c = [i].count c + o.uses c l := by
  apply postOrder_induction ?_ order
  intro i p below found trees
  have own : o.uses c [i] = p.form.children.count c := by
    simp [uses, children_of_operation? found]
  rw [List.count_append, uses_append, count_trees trees, own]
  omega

theorem evaluationOrder_trees {b : Block} {l : List OpId} (order : o.evaluationOrder b = .ok l) :
    ∃ trees, List.Forall₂ (fun i t => ∃ depth above, o.postOrder depth above i = .ok t)
      b.evaluated trees ∧ l = trees.flatten := by
  simp only [evaluationOrder] at order
  cases mapped : b.evaluated.mapM (o.postOrder (o.operations.size + 1) []) with
  | error d =>
    rw [mapped] at order
    cases order
  | ok trees =>
    rw [mapped] at order
    cases order
    exact ⟨trees, (forall₂_of_mapM mapped).imp fun _ _ tree => ⟨_, _, tree⟩, rfl⟩

end Outline

namespace Routine

theorem operation?_eq_some_iff {r : Routine} {i : OpId} {p : Operation} :
    r.operation? i = some p ↔ i.routine = r.id ∧ r.operations[i.index]? = some p := by
  simp [operation?]

/-- What the blocks evaluate, one after another. -/
def evaluations (r : Routine) : List OpId := r.orders.toList.flatMap Array.toList

end Routine

/-- Every operation is evaluated once, over all blocks. -/
def Routine.EvaluatesOnce (r : Routine) : Prop :=
  ∀ p ∈ r.operations, (r.orders.toList.flatMap Array.toList).count p.id = 1

instance (r : Routine) : Decidable r.EvaluatesOnce :=
  inferInstanceAs (Decidable (∀ p ∈ r.operations, _))

/-- No operation is shared, and the locations that are only written are those of some operation. -/
structure Routine.Treelike (r : Routine) : Prop where
  label {i : OpId} {p : Operation} : r.operation? i = some p → p.id = i
  known {b : BlockId} {k : Nat} {i : OpId} : (r.order b)[k]? = some i → ∃ p, r.operation? i = some p
  distinct (b : BlockId) : (r.order b).toList.Nodup
  before {b : BlockId} {k : Nat} {i : OpId} {p : Operation} : (r.order b)[k]? = some i →
    r.operation? i = some p → ∀ c ∈ p.form.children, ∃ j < k, (r.order b)[j]? = some c
  parent {i j c : OpId} {p q : Operation} : r.operation? i = some p → r.operation? j = some q →
    c ∈ p.form.children → c ∈ q.form.children → i = j
  root {b : BlockId} {k : Block} {i : OpId} : r.block? b = some k → i ∈ k.evaluated →
    i ∈ r.order b ∧ ∀ {j p}, r.operation? j = some p → i ∉ p.form.children
  written {i : OpId} : r.isWritten i = true → ∃ j p, r.operation? j = some p ∧ i ∈ p.form.written

/-- A block does not evaluate more operations than there are. -/
theorem Routine.Treelike.order_size_le {r : Routine} (tree : r.Treelike) (b : BlockId) :
    (r.order b).size ≤ r.operations.size := by
  have inside : (r.order b).toList ⊆ r.names := by
    intro i hi
    obtain ⟨k, here⟩ := List.mem_iff_getElem?.mp hi
    rw [Array.getElem?_toList] at here
    obtain ⟨p, found⟩ := tree.known here
    exact Routine.mem_names found
  simpa [Routine.names] using (tree.distinct b).length_le_of_subset inside

namespace Outline

variable {o : Outline} {r : Routine}

/-- What an outline that is accepted says about its routine. -/
theorem accepted_cases (accepted : Routine.ofOutline o = .ok r) :
    o.defect? = none ∧ ∃ orders, List.Forall₂ (fun b l => o.evaluationOrder b = .ok l)
      o.blocks.toList orders ∧ r.id = o.id ∧ r.blocks = o.blocks ∧ r.operations = o.operations ∧
      r.closures = Table.ofList o.closures ∧ r.orders.toList = orders.map List.toArray ∧
      (r.written = o.operations.toList.flatMap fun p => p.form.written) ∧ r.name = o.name := by
  simp only [Routine.ofOutline] at accepted
  cases defect : o.defect? with
  | some d =>
    rw [defect] at accepted
    cases accepted
  | none =>
    rw [defect] at accepted
    cases mapped : o.blocks.toList.mapM o.evaluationOrder with
    | error d =>
      simp only [mapped] at accepted
      cases accepted
    | ok orders =>
      simp only [mapped] at accepted
      cases accepted
      exact ⟨rfl, orders, forall₂_of_mapM mapped, rfl, rfl, rfl, rfl, rfl, rfl, rfl⟩

theorem operation?_of_accepted (accepted : Routine.ofOutline o = .ok r) (i : OpId) :
    r.operation? i = o.operation? i := by
  obtain ⟨_, _, _, id, _, operations, _⟩ := accepted_cases accepted
  simp only [Routine.operation?, operation?, id, operations]

theorem labels_of_sound (sound : o.defect? = none) : o.operationLabelDefect? = none := by
  rw [defect?] at sound
  split at sound
  · cases sound
  · cases first : o.blockLabelDefect? with
    | some d => simp [first] at sound
    | none =>
      cases second : o.operationLabelDefect? with
      | some d => simp [first, second] at sound
      | none => rfl

theorem label_of_accepted (accepted : Routine.ofOutline o = .ok r) {i : OpId} {p : Operation}
    (found : r.operation? i = some p) : p.id = i := by
  obtain ⟨sound, _, _, id, _, operations, _⟩ := accepted_cases accepted
  obtain ⟨own, found⟩ := Routine.operation?_eq_some_iff.mp found
  have here : (p, i.index) ∈ o.operations.toList.zipIdx := by
    rw [List.mem_zipIdx_iff_getElem?, ← operations]
    simpa using found
  have good := List.findSome?_eq_none_iff.mp (labels_of_sound sound) _ here
  simp only [ite_eq_left_iff, reduceCtorEq, imp_false, not_not] at good
  rw [good, ← id, ← own]

theorem getElem?_of_forall₂ {α β : Type} {R : α → β → Prop} {l : List α} {m : List β}
    (related : List.Forall₂ R l m) {k : Nat} {a : α} (here : l[k]? = some a) :
    ∃ b, m[k]? = some b ∧ R a b := by
  induction related generalizing k with
  | nil => simp at here
  | cons first _ ih =>
    cases k with
    | zero =>
      cases here
      exact ⟨_, rfl, first⟩
    | succ k => exact ih here

theorem order_of_block (accepted : Routine.ofOutline o = .ok r) {b : BlockId} {k : Block}
    (block : r.block? b = some k) :
    o.evaluationOrder k = .ok (r.order b).toList ∧ r.order b ∈ r.orders.toList := by
  obtain ⟨_, orders, related, _, blocks, _, _, same, _⟩ := accepted_cases accepted
  have listed : o.blocks.toList[b.index]? = some k := by
    rw [Array.getElem?_toList, ← blocks]
    exact block
  obtain ⟨l, here, order⟩ := getElem?_of_forall₂ related listed
  have found : r.orders.toList[b.index]? = some l.toArray := by
    rw [same, List.getElem?_map, here, Option.map_some]
  have answer : r.order b = l.toArray := by
    rw [Array.getElem?_toList] at found
    rw [Routine.order, found, Option.getD_some]
  rw [answer]
  exact ⟨order, List.mem_of_getElem? found⟩

theorem order_of_no_block (accepted : Routine.ofOutline o = .ok r) {b : BlockId}
    (none : r.block? b = none) : r.order b = #[] := by
  obtain ⟨_, orders, related, _, blocks, _, _, same, _⟩ := accepted_cases accepted
  have missing : r.orders.size ≤ b.index := by
    have out := Array.getElem?_eq_none_iff.mp none
    rw [← Array.length_toList, same, List.length_map, ← related.length_eq, Array.length_toList,
      ← blocks]
    exact out
  rw [Routine.order, Array.getElem?_eq_none_iff.mpr missing, Option.getD_none]

/-- Over all blocks, an operation is evaluated as often as it is evaluated for itself or a child. -/
theorem count_orders {blocks : List Block} {orders : List (List OpId)}
    (related : List.Forall₂ (fun b l => o.evaluationOrder b = .ok l) blocks orders) (c : OpId) :
    orders.flatten.count c =
      (blocks.flatMap Block.evaluated).count c + o.uses c orders.flatten := by
  induction related with
  | nil => rfl
  | cons first _ ih =>
    obtain ⟨trees, each, rfl⟩ := evaluationOrder_trees first
    have counted := count_trees (c := c)
      (each.imp fun _ _ ⟨_, _, order⟩ => count_postOrder c order)
    rw [List.flatMap_cons, List.flatten_cons, List.count_append, List.count_append, uses_append,
      counted, ih]
    omega

theorem arranged_evaluationOrder {b : Block} {l : List OpId}
    (order : o.evaluationOrder b = .ok l) :
    o.Ordered l ∧ (∀ j ∈ l, ∃ p, o.operation? j = some p) ∧ ∀ i ∈ b.evaluated, i ∈ l := by
  obtain ⟨trees, each, rfl⟩ := evaluationOrder_trees order
  have arranged := each.imp fun _ _ ⟨_, _, order⟩ => arranged_postOrder order
  refine ⟨ordered_flatten (forall₂_right arranged fun _ _ tree => tree.ordered), ?_,
    mem_flatten_of_forall₂ arranged fun _ _ tree => tree.root⟩
  intro j hj
  obtain ⟨t, ht, hj⟩ := List.mem_flatten.mp hj
  exact forall₂_right arranged (fun _ _ tree => tree.known) t ht j hj

theorem count_le_uses {c i : OpId} {l : List OpId} (hi : i ∈ l) :
    (o.children i).count c ≤ o.uses c l := by
  induction l with
  | nil => cases hi
  | cons j rest ih =>
    have split : o.uses c (j :: rest) = (o.children j).count c + o.uses c rest := by simp [uses]
    rw [split]
    rcases List.mem_cons.mp hi with rfl | hi
    · omega
    · have := ih hi
      omega

theorem two_le_uses {c i j : OpId} {l : List OpId} (hi : i ∈ l) (hj : j ∈ l) (other : i ≠ j)
    (left : c ∈ o.children i) (right : c ∈ o.children j) : 2 ≤ o.uses c l := by
  have one := List.count_pos_iff.mpr left
  have one' := List.count_pos_iff.mpr right
  induction l with
  | nil => cases hi
  | cons k rest ih =>
    have split : o.uses c (k :: rest) = (o.children k).count c + o.uses c rest := by simp [uses]
    rcases List.mem_cons.mp hi with first | later
    · rcases List.mem_cons.mp hj with second | later
      · exact absurd (first.trans second.symm) other
      · have := o.count_le_uses (c := c) later
        rw [split, ← first]
        omega
    · rcases List.mem_cons.mp hj with second | later'
      · have := o.count_le_uses (c := c) later
        rw [split, ← second]
        omega
      · have := ih later later'
        omega

section Accepted

variable (accepted : Routine.ofOutline o = .ok r) {i j c : OpId} {p q : Operation} {b : BlockId}

include accepted

theorem children_of_accepted (found : r.operation? i = some p) :
    o.children i = p.form.children := by
  rw [operation?_of_accepted accepted] at found
  exact children_of_operation? found

/-- The evaluation orders of the blocks, in order. -/
theorem evaluations_of_accepted : ∃ orders,
    List.Forall₂ (fun b l => o.evaluationOrder b = .ok l) r.blocks.toList orders ∧
      r.evaluations = orders.flatten := by
  obtain ⟨_, orders, related, _, blocks, _, _, same, _⟩ := accepted_cases accepted
  refine ⟨orders, by rw [blocks]; exact related, ?_⟩
  simp [Routine.evaluations, same, List.flatMap_def, List.map_map, Function.comp_def]

theorem count_evaluations (c : OpId) : r.evaluations.count c =
    (r.blocks.toList.flatMap Block.evaluated).count c + o.uses c r.evaluations := by
  obtain ⟨orders, related, same⟩ := evaluations_of_accepted accepted
  rw [same]
  exact count_orders related c

/-- With an operation its children are evaluated, and all that is evaluated is known. -/
theorem evaluations_closed (mem : i ∈ r.evaluations) :
    (∃ p, r.operation? i = some p) ∧ ∀ c ∈ o.children i, c ∈ r.evaluations := by
  obtain ⟨orders, related, same⟩ := evaluations_of_accepted accepted
  rw [same] at mem ⊢
  obtain ⟨l, hl, hi⟩ := List.mem_flatten.mp mem
  have ordered := forall₂_right related (fun _ _ order => (arranged_evaluationOrder order).1) l hl
  have known := forall₂_right related (fun _ _ order => (arranged_evaluationOrder order).2.1) l hl
  constructor
  · rw [operation?_of_accepted accepted]
    exact known i hi
  · intro c child
    obtain ⟨k, here⟩ := List.mem_iff_getElem?.mp hi
    exact List.mem_flatten.mpr ⟨l, hl, List.mem_of_mem_take (ordered k i here c child)⟩

/-- An order that is not empty is that of a block. -/
theorem block_of_order {k : Nat} (here : (r.order b)[k]? = some i) :
    ∃ block, o.evaluationOrder block = .ok (r.order b).toList ∧
      (r.order b).toList[k]? = some i := by
  cases found : r.block? b with
  | none =>
    rw [order_of_no_block accepted found] at here
    simp at here
  | some block =>
    rw [← Array.getElem?_toList] at here
    exact ⟨block, (order_of_block accepted found).1, here⟩

theorem known_of_order {k : Nat} (here : (r.order b)[k]? = some i) :
    ∃ p, r.operation? i = some p := by
  obtain ⟨block, order, here⟩ := block_of_order accepted here
  rw [operation?_of_accepted accepted]
  exact (arranged_evaluationOrder order).2.1 i (List.mem_of_getElem? here)

theorem before_of_order {k : Nat} (here : (r.order b)[k]? = some i)
    (found : r.operation? i = some p) (child : c ∈ p.form.children) :
    ∃ j < k, (r.order b)[j]? = some c := by
  obtain ⟨block, order, here⟩ := block_of_order accepted here
  rw [← children_of_accepted accepted found] at child
  obtain ⟨j, lt, earlier⟩ :=
    List.mem_take_iff_getElem.mp ((arranged_evaluationOrder order).1 k i here c child)
  refine ⟨j, by omega, ?_⟩
  rw [← Array.getElem?_toList, ← earlier]
  exact List.getElem?_eq_getElem _

theorem written_of_accepted (isWritten : r.isWritten i = true) :
    ∃ j p, r.operation? j = some p ∧ i ∈ p.form.written := by
  obtain ⟨_, _, _, _, _, operations, _, _, written, _⟩ := accepted_cases accepted
  rw [Routine.isWritten, List.contains_iff_mem, written] at isWritten
  obtain ⟨p, hp, hi⟩ := List.mem_flatMap.mp isWritten
  obtain ⟨k, here⟩ := List.mem_iff_getElem?.mp hp
  refine ⟨⟨r.id, k⟩, p, Routine.operation?_eq_some_iff.mpr ⟨rfl, ?_⟩, hi⟩
  rw [operations, ← Array.getElem?_toList]
  exact here

variable (once : r.EvaluatesOnce)

include once

theorem count_of_operation? (found : r.operation? i = some p) : r.evaluations.count i = 1 := by
  rw [← label_of_accepted accepted found]
  exact once p (Array.mem_of_getElem? (Routine.operation?_eq_some_iff.mp found).2)

theorem evaluated_of_operation? (found : r.operation? i = some p) : i ∈ r.evaluations := by
  have single := count_of_operation? accepted once found
  exact List.count_pos_iff.mp (by omega)

theorem nodup_evaluations : r.evaluations.Nodup := by
  rw [List.nodup_iff_count_le_one]
  intro i
  by_cases mem : i ∈ r.evaluations
  · obtain ⟨⟨p, found⟩, _⟩ := evaluations_closed accepted mem
    exact Nat.le_of_eq (count_of_operation? accepted once found)
  · rw [List.count_eq_zero_of_not_mem mem]
    exact Nat.zero_le 1

theorem count_of_child (found : r.operation? i = some p) (child : c ∈ p.form.children) :
    r.evaluations.count c = 1 := by
  rw [← children_of_accepted accepted found] at child
  have mem := (evaluations_closed accepted (evaluated_of_operation? accepted once found)).2 c child
  obtain ⟨⟨q, known⟩, _⟩ := evaluations_closed accepted mem
  exact count_of_operation? accepted once known

/-- A child is evaluated once, so it is one child of its parent. -/
theorem nodup_children (found : r.operation? i = some p) : p.form.children.Nodup := by
  rw [List.nodup_iff_count_le_one]
  intro c
  by_cases child : c ∈ p.form.children
  · have single := count_of_child accepted once found child
    have counted := count_evaluations accepted c
    have used := o.count_le_uses (c := c) (evaluated_of_operation? accepted once found)
    rw [children_of_accepted accepted found] at used
    omega
  · rw [List.count_eq_zero_of_not_mem child]
    exact Nat.zero_le 1

/-- A child is evaluated once, so it has one parent. -/
theorem parent_unique (left : r.operation? i = some p) (right : r.operation? j = some q)
    (child : c ∈ p.form.children) (child' : c ∈ q.form.children) : i = j := by
  by_contra other
  have single := count_of_child accepted once left child
  rw [← children_of_accepted accepted left] at child
  rw [← children_of_accepted accepted right] at child'
  have twice := o.two_le_uses (evaluated_of_operation? accepted once left)
    (evaluated_of_operation? accepted once right) other child child'
  have counted := count_evaluations accepted c
  omega

/-- A root is evaluated once, so it has no parent. -/
theorem not_child_of_root {block : Block} (found : r.block? b = some block)
    (root : i ∈ block.evaluated) (known : r.operation? j = some p) : i ∉ p.form.children := by
  intro child
  have single := count_of_child accepted once known child
  rw [← children_of_accepted accepted known] at child
  have asChild := o.count_le_uses (c := i) (evaluated_of_operation? accepted once known)
  have one : 0 < (o.children j).count i := List.count_pos_iff.mpr child
  have asRoot : 0 < (r.blocks.toList.flatMap Block.evaluated).count i := by
    rw [List.count_pos_iff, List.mem_flatMap]
    exact ⟨block, Array.mem_toList_iff.mpr (Array.mem_of_getElem? found), root⟩
  have counted := count_evaluations accepted i
  omega

/-- A routine that evaluates every operation once shares none. -/
theorem treelike : r.Treelike := by
  refine ⟨label_of_accepted accepted, known_of_order accepted, ?_,
    fun here found c child => before_of_order accepted here found child,
    parent_unique accepted once, ?_, written_of_accepted accepted⟩
  · intro b
    cases found : r.block? b with
    | none =>
      rw [order_of_no_block accepted found]
      exact List.nodup_nil
    | some block =>
      have all := List.nodup_flatMap.mp (nodup_evaluations accepted once)
      exact all.1 _ (order_of_block accepted found).2
  · intro b block i found root
    refine ⟨?_, not_child_of_root accepted once found root⟩
    rw [← Array.mem_toList_iff]
    exact (arranged_evaluationOrder (order_of_block accepted found).1).2.2 i root

end Accepted

end Outline

end SymbolicExecution
