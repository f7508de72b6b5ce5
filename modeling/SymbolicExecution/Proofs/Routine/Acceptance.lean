import SymbolicExecution.Proofs.Routine.Acyclic
import SymbolicExecution.Proofs.Routine.Closed

/-!
# Which outlines are accepted

An outline is accepted exactly if it is well-formed, and what it is refused for is wrong with it. In
an accepted routine, each block lists the trees of what it evaluates one after another, each in
post-order.
-/

namespace SymbolicExecution

open Relation

theorem exists_of_mapM_error {ε α β : Type} {f : α → Except ε β} {l : List α} {e : ε}
    (failed : l.mapM f = .error e) : ∃ a ∈ l, f a = .error e := by
  induction l with
  | nil => cases failed
  | cons a rest ih =>
    rw [List.mapM_cons] at failed
    cases first : f a with
    | error e' =>
      rw [first] at failed
      cases failed
      exact ⟨a, List.mem_cons_self, first⟩
    | ok b =>
      rw [first] at failed
      cases others : rest.mapM f with
      | error e' =>
        rw [others] at failed
        cases failed
        obtain ⟨a', mem, failed⟩ := ih others
        exact ⟨a', List.mem_cons_of_mem a mem, failed⟩
      | ok bs =>
        rw [others] at failed
        cases failed

namespace Outline

variable {o : Outline} {i j c : OpId} {p : Operation} {b : Block} {r : Routine} {d : Defect}

theorem operation?_eq_some_iff : o.operation? i = some p ↔
    i.routine = o.id ∧ o.operations[i.index]? = some p := by
  simp [operation?]

/-- `c` is a child of `i`. -/
def Child (o : Outline) (c i : OpId) : Prop :=
  ∃ p, o.operation? i = some p ∧ c ∈ p.form.children

/-- All labels are positions, all names exist, and nothing that a block evaluates has a circle below
it. -/
structure WellFormed (o : Outline) : Prop where
  blocks : o.blocks ≠ #[]
  block {k : Nat} {b : Block} : o.blocks[k]? = some b → b.id = ⟨k⟩
  operation {k : Nat} {p : Operation} : o.operations[k]? = some p → p.id = ⟨o.id, k⟩
  child {p : Operation} {c : OpId} : p ∈ o.operations → c ∈ p.form.children →
    ∃ q, o.operation? c = some q
  evaluated {b : Block} {i : OpId} : b ∈ o.blocks → i ∈ b.evaluated → ∃ p, o.operation? i = some p
  target {b : Block} {t : BlockId} : b ∈ o.blocks → t ∈ b.exit.targets → ∃ k, o.block? t = some k
  handler {b : Block} {h : BlockId} : b ∈ o.blocks → b.handler = some h →
    ∃ k, o.block? h = some k
  acyclic {b : Block} {i j : OpId} : b ∈ o.blocks → i ∈ b.evaluated → ReflTransGen o.Child j i →
    ¬TransGen o.Child j j

/-- The defect is one of the outline. -/
inductive Has (o : Outline) : Defect → Prop
  | noBlocks (empty : o.blocks = #[]) : Has o (.noBlocks o.id)
  | blockLabel {k : Nat} {b : Block} (here : o.blocks[k]? = some b) (other : b.id ≠ ⟨k⟩) :
      Has o (.blockLabel k b.id)
  | operationLabel {k : Nat} {p : Operation} (here : o.operations[k]? = some p)
      (other : p.id ≠ ⟨o.id, k⟩) : Has o (.operationLabel k p.id)
  | child {p : Operation} {c : OpId} (mem : p ∈ o.operations) (child : c ∈ p.form.children)
      (unknown : o.operation? c = none) : Has o (.unknownOperation c)
  | evaluated {b : Block} {i : OpId} (mem : b ∈ o.blocks) (root : i ∈ b.evaluated)
      (unknown : o.operation? i = none) : Has o (.unknownOperation i)
  | target {b : Block} {t : BlockId} (mem : b ∈ o.blocks) (target : t ∈ b.exit.targets)
      (unknown : o.block? t = none) : Has o (.unknownBlock t)
  | handler {b : Block} {h : BlockId} (mem : b ∈ o.blocks) (handler : b.handler = some h)
      (unknown : o.block? h = none) : Has o (.unknownBlock h)
  | circle {b : Block} {i j : OpId} (mem : b ∈ o.blocks) (root : i ∈ b.evaluated)
      (below : ReflTransGen o.Child j i) (circle : TransGen o.Child j j) : Has o (.cyclicTree j)

theorem WellFormed.not_has (wellFormed : o.WellFormed) : ¬o.Has d := by
  intro has
  cases has with
  | noBlocks empty => exact wellFormed.blocks empty
  | blockLabel here other => exact other (wellFormed.block here)
  | operationLabel here other => exact other (wellFormed.operation here)
  | child mem child unknown =>
    obtain ⟨q, found⟩ := wellFormed.child mem child
    cases unknown.symm.trans found
  | evaluated mem root unknown =>
    obtain ⟨q, found⟩ := wellFormed.evaluated mem root
    cases unknown.symm.trans found
  | target mem target unknown =>
    obtain ⟨k, found⟩ := wellFormed.target mem target
    cases unknown.symm.trans found
  | handler mem handler unknown =>
    obtain ⟨k, found⟩ := wellFormed.handler mem handler
    cases unknown.symm.trans found
  | circle mem root below circle => exact wellFormed.acyclic mem root below circle

section Check

theorem exists_of_unknownOperation? {l : List OpId} (defect : o.unknownOperation? l = some d) :
    ∃ i ∈ l, o.operation? i = none ∧ d = .unknownOperation i := by
  obtain ⟨i, mem, defect⟩ := List.exists_of_findSome?_eq_some defect
  cases found : o.operation? i with
  | none =>
    simp only [found] at defect
    cases defect
    exact ⟨i, mem, found, rfl⟩
  | some p => simp [found] at defect

theorem exists_of_unknownBlock? {l : List BlockId} (defect : o.unknownBlock? l = some d) :
    ∃ t ∈ l, o.block? t = none ∧ d = .unknownBlock t := by
  obtain ⟨t, mem, defect⟩ := List.exists_of_findSome?_eq_some defect
  cases found : o.block? t with
  | none =>
    simp only [found] at defect
    cases defect
    exact ⟨t, mem, found, rfl⟩
  | some k => simp [found] at defect

theorem has_of_blockLabelDefect? (defect : o.blockLabelDefect? = some d) : o.Has d := by
  obtain ⟨⟨b, k⟩, mem, defect⟩ := List.exists_of_findSome?_eq_some defect
  have here : o.blocks[k]? = some b := by
    rw [← Array.getElem?_toList]
    exact List.mem_zipIdx_iff_getElem?.mp mem
  obtain ⟨other, ⟨⟩⟩ := Option.ite_none_left_eq_some.mp defect
  exact .blockLabel here fun same => other (congrArg Id.index same)

theorem has_of_operationLabelDefect? (defect : o.operationLabelDefect? = some d) : o.Has d := by
  obtain ⟨⟨p, k⟩, mem, defect⟩ := List.exists_of_findSome?_eq_some defect
  have here : o.operations[k]? = some p := by
    rw [← Array.getElem?_toList]
    exact List.mem_zipIdx_iff_getElem?.mp mem
  obtain ⟨other, ⟨⟩⟩ := Option.ite_none_left_eq_some.mp defect
  exact .operationLabel here other

theorem has_of_blockDefect? (mem : b ∈ o.blocks) (defect : o.blockDefect? b = some d) :
    o.Has d := by
  simp only [blockDefect?, Option.orElse_eq_orElse, Option.orElse_eq_or,
    Option.or_eq_some_iff] at defect
  rcases defect with defect | ⟨_, defect⟩
  · obtain ⟨i, root, unknown, rfl⟩ := exists_of_unknownOperation? defect
    exact .evaluated mem root unknown
  · obtain ⟨t, named, unknown, rfl⟩ := exists_of_unknownBlock? defect
    rcases List.mem_append.mp named with target | handler
    · exact .target mem target unknown
    · exact .handler mem (Option.mem_toList.mp handler) unknown

theorem has_of_defect? (defect : o.defect? = some d) : o.Has d := by
  simp only [defect?] at defect
  split at defect
  · rename_i empty
    cases defect
    exact .noBlocks (Array.isEmpty_iff.mp empty)
  · simp only [Option.orElse_eq_orElse, Option.orElse_eq_or, Option.or_eq_some_iff] at defect
    rcases defect with defect | ⟨_, defect | ⟨_, defect | ⟨_, defect⟩⟩⟩
    · exact has_of_blockLabelDefect? defect
    · exact has_of_operationLabelDefect? defect
    · obtain ⟨p, mem, defect⟩ := List.exists_of_findSome?_eq_some defect
      obtain ⟨c, child, unknown, rfl⟩ := exists_of_unknownOperation? defect
      exact .child (Array.mem_toList_iff.mp mem) child unknown
    · obtain ⟨b, mem, defect⟩ := List.exists_of_findSome?_eq_some defect
      exact has_of_blockDefect? (Array.mem_toList_iff.mp mem) defect

end Check

section Traversal

theorem length_le_of_known {l : List OpId} (distinct : l.Nodup)
    (known : ∀ i ∈ l, ∃ p, o.operation? i = some p) : l.length ≤ o.operations.size := by
  have inside : l ⊆ (List.range o.operations.size).map fun k => ⟨o.id, k⟩ := by
    intro i hi
    obtain ⟨p, found⟩ := known i hi
    obtain ⟨own, here⟩ := operation?_eq_some_iff.mp found
    refine List.mem_map.mpr ⟨i.index, ?_, by rw [← own]⟩
    exact List.mem_range.mpr (Array.getElem?_eq_some_iff.mp here).1
  simpa using distinct.length_le_of_subset inside

variable (known : ∀ c i, o.Child c i → ∃ q, o.operation? c = some q)

include known

/-- `above` holds what was passed on the way down to `i`, without repetition, so the depth suffices
unless the way meets itself. -/
theorem postOrder_cases {depth : Nat} {above : List OpId} (found : ∃ p, o.operation? i = some p)
    (distinct : above.Nodup) (passed : ∀ a ∈ above, TransGen o.Child i a)
    (count : above.length + depth = o.operations.size + 1) :
    (∃ l, o.postOrder depth above i = .ok l) ∨
    ∃ j, o.postOrder depth above i = .error (.cyclicTree j) ∧ ReflTransGen o.Child j i ∧
      TransGen o.Child j j := by
  induction depth generalizing above i with
  | zero =>
    -- without depth left, more was passed than there is
    have le := length_le_of_known (o := o) distinct fun a ha => by
      obtain ⟨_, _, p, found, _⟩ := TransGen.tail'_iff.mp (passed a ha)
      exact ⟨p, found⟩
    omega
  | succ depth ih =>
    obtain ⟨p, found⟩ := found
    by_cases again : i ∈ above
    · exact Or.inr ⟨i, by simp only [postOrder, if_pos again], .refl, passed i again⟩
    · cases trees : p.form.children.mapM (o.postOrder depth (i :: above)) with
      | ok below =>
        refine Or.inl ⟨below.flatten ++ [i], ?_⟩
        simp only [postOrder, if_neg again, found, trees]
        rfl
      | error d =>
        obtain ⟨c, child, failed⟩ := exists_of_mapM_error trees
        have step : o.Child c i := ⟨p, found, child⟩
        have passed' : ∀ a ∈ i :: above, TransGen o.Child c a := by
          intro a ha
          rcases List.mem_cons.mp ha with rfl | ha
          · exact .single step
          · exact .head step (passed a ha)
        rcases ih (known c i step) (List.nodup_cons.mpr ⟨again, distinct⟩) passed'
          (by rw [List.length_cons]; omega) with ⟨l, listed⟩ | ⟨j, named, below, circle⟩
        · cases failed.symm.trans listed
        · cases failed.symm.trans named
          refine Or.inr ⟨j, ?_, below.tail step, circle⟩
          simp only [postOrder, if_neg again, found, trees]
          rfl

theorem has_of_evaluationOrder (mem : b ∈ o.blocks)
    (roots : ∀ i ∈ b.evaluated, ∃ p, o.operation? i = some p)
    (failed : o.evaluationOrder b = .error d) : o.Has d := by
  simp only [evaluationOrder] at failed
  cases trees : b.evaluated.mapM (o.postOrder (o.operations.size + 1) []) with
  | ok l =>
    rw [trees] at failed
    cases failed
  | error d' =>
    rw [trees] at failed
    cases failed
    obtain ⟨i, root, failed⟩ := exists_of_mapM_error trees
    have passed : ∀ a ∈ ([] : List OpId), TransGen o.Child i a := by simp
    rcases postOrder_cases known (roots i root) List.nodup_nil passed (Nat.zero_add _) with
      ⟨l, listed⟩ | ⟨j, named, below, circle⟩
    · cases failed.symm.trans listed
    · cases failed.symm.trans named
      exact .circle mem root below circle

end Traversal

/-- What an outline is refused for is wrong with it. -/
theorem has_of_refused (refused : Routine.ofOutline o = .error d) : o.Has d := by
  simp only [Routine.ofOutline] at refused
  cases defect : o.defect? with
  | some d' =>
    rw [defect] at refused
    cases refused
    exact has_of_defect? defect
  | none =>
    rw [defect] at refused
    cases orders : o.blocks.toList.mapM o.evaluationOrder with
    | ok l =>
      simp only [orders] at refused
      cases refused
    | error d' =>
      simp only [orders] at refused
      cases refused
      obtain ⟨b, mem, failed⟩ := exists_of_mapM_error orders
      have mem : b ∈ o.blocks := Array.mem_toList_iff.mp mem
      obtain ⟨_, children, each⟩ := sound_cases defect
      apply has_of_evaluationOrder ?_ mem ?_ failed
      · rintro c i ⟨p, found, child⟩
        have here := Array.mem_of_getElem? (operation?_eq_some_iff.mp found).2
        exact known_of_unknownOperation? (children p here) child
      · exact fun i root => known_of_unknownOperation? (each b mem).1 root

theorem child_of_accepted (accepted : Routine.ofOutline o = .ok r) : r.Child = o.Child := by
  funext c i
  simp only [Routine.Child, Child, operation?_of_accepted accepted]

theorem blockLabel_of_accepted (accepted : Routine.ofOutline o = .ok r) {k : Nat}
    (here : o.blocks[k]? = some b) : b.id = ⟨k⟩ := by
  have sound := (accepted_cases accepted).1
  have labels : o.blockLabelDefect? = none := by
    rw [defect?] at sound
    split at sound
    · cases sound
    · simp only [Option.orElse_eq_orElse, Option.orElse_eq_or, Option.or_eq_none_iff] at sound
      exact sound.1
  have mem : (b, k) ∈ o.blocks.toList.zipIdx := by
    rw [List.mem_zipIdx_iff_getElem?]
    simpa using here
  have good := List.findSome?_eq_none_iff.mp labels _ mem
  simp only [ite_eq_left_iff, reduceCtorEq, imp_false, not_not] at good
  rw [← good]

theorem wellFormed_of_accepted (accepted : Routine.ofOutline o = .ok r) : o.WellFormed := by
  obtain ⟨sound, _, _, id, blocks, operations, _⟩ := accepted_cases accepted
  obtain ⟨nonempty, children, each⟩ := sound_cases sound
  have known : ∀ {b}, b ∈ o.blocks → ∀ t ∈ b.exit.targets ++ b.handler.toList,
      ∃ k, o.block? t = some k :=
    fun mem t named => known_of_unknownBlock? (each _ mem).2 named
  constructor
  case blocks => exact nonempty
  case block => exact blockLabel_of_accepted accepted
  case operation =>
    intro k p here
    apply label_of_accepted accepted
    rw [operation?_of_accepted accepted]
    exact operation?_eq_some_iff.mpr ⟨rfl, here⟩
  case child => exact fun mem child => known_of_unknownOperation? (children _ mem) child
  case evaluated => exact fun mem root => known_of_unknownOperation? (each _ mem).1 root
  case target => exact fun mem target => known mem _ (List.mem_append_left _ target)
  case handler =>
    intro b h mem handler
    apply known mem h
    simp [handler]
  case acyclic =>
    intro b i j mem root below
    obtain ⟨k, here⟩ := Array.mem_iff_getElem?.mp mem
    have found : r.block? ⟨k⟩ = some b := by
      rw [block?_of_accepted accepted]
      exact here
    obtain ⟨order, listed⟩ := order_of_block accepted found
    have evaluated : i ∈ r.evaluations := by
      apply List.mem_flatMap.mpr ⟨_, listed, ?_⟩
      exact (arranged_evaluationOrder order).2.2 i root
    rw [← child_of_accepted accepted] at below ⊢
    have evaluated' : j ∈ r.evaluations := by
      rcases ReflTransGen.cases_head_iff.mp below with rfl | ⟨c, step, rest⟩
      · exact evaluated
      · exact evaluated_of_descendant accepted evaluated (.head' step rest)
    exact not_transGen_self_of_acc (acc_of_evaluated accepted evaluated')

/-- `l` lists the trees of the roots one after another, each in post-order: below an operation stand
its children, in order, and what is below an operation comes before it. -/
inductive Lists (o : Outline) : List OpId → List OpId → Prop
  | nil : Lists o [] []
  | cons {i : OpId} {p : Operation} {rest below others : List OpId}
      (found : o.operation? i = some p) (children : Lists o p.form.children below)
      (siblings : Lists o rest others) : Lists o (i :: rest) (below ++ i :: others)

section Lists

variable {roots roots' l m : List OpId}

/-- The roots have one list. -/
theorem Lists.unique (left : o.Lists roots l) (right : o.Lists roots m) : l = m := by
  induction left generalizing m with
  | nil =>
    cases right
    rfl
  | cons found _ _ below others =>
    cases right with
    | cons found' children siblings =>
      cases found.symm.trans found'
      rw [below children, others siblings]

theorem Lists.append (first : o.Lists roots l) (second : o.Lists roots' m) :
    o.Lists (roots ++ roots') (l ++ m) := by
  induction first with
  | nil => exact second
  | cons found children _ _ siblings =>
    rw [List.cons_append, List.append_assoc, List.cons_append]
    exact .cons found children siblings

theorem lists_flatten {trees : List (List OpId)}
    (each : List.Forall₂ (fun i t => o.Lists [i] t) roots trees) : o.Lists roots trees.flatten := by
  induction each with
  | nil => exact .nil
  | cons first _ ih => exact first.append ih

theorem lists_postOrder {depth : Nat} {above : List OpId}
    (order : o.postOrder depth above i = .ok l) : o.Lists [i] l :=
  postOrder_induction (P := fun i l => o.Lists [i] l)
    (fun _ _ _ found below => .cons found (lists_flatten below) .nil) order

theorem lists_evaluationOrder (order : o.evaluationOrder b = .ok l) : o.Lists b.evaluated l := by
  obtain ⟨trees, each, rfl⟩ := evaluationOrder_trees order
  exact lists_flatten (each.imp fun _ _ ⟨_, _, order⟩ => lists_postOrder order)

/-- Listed are the roots and what is below them. -/
theorem Lists.mem_iff (lists : o.Lists roots l) :
    j ∈ l ↔ ∃ i ∈ roots, ReflTransGen o.Child j i := by
  induction lists with
  | nil => simp
  | @cons i p rest below others found _ _ inside beside =>
    have tree : ReflTransGen o.Child j i ↔ j ∈ below ∨ j = i := by
      rw [inside, ReflTransGen.cases_tail_iff]
      constructor
      · rintro (rfl | ⟨c, way, q, found', child⟩)
        · exact Or.inr rfl
        · cases found.symm.trans found'
          exact Or.inl ⟨c, child, way⟩
      · rintro (⟨c, child, way⟩ | rfl)
        · exact Or.inr ⟨c, way, p, found, child⟩
        · exact Or.inl rfl
    simp only [List.mem_append, List.mem_cons, exists_eq_or_imp, tree, ← beside, or_assoc]

/-- The last root is listed last. -/
theorem Lists.getLast? (lists : o.Lists roots l) : l.getLast? = roots.getLast? := by
  induction lists with
  | nil => rfl
  | cons _ _ _ _ beside => simp [List.getLast?_cons, beside]

/-- The last child of an operation is listed directly before it. -/
theorem Lists.getElem?_of_last (lists : o.Lists roots l) {k : Nat} (here : l[k]? = some i)
    (found : o.operation? i = some p) (last : p.form.children.getLast? = some c) :
    ∃ j, k = j + 1 ∧ l[j]? = some c := by
  induction lists generalizing k with
  | nil => simp at here
  | @cons root q rest below others known children _ inside beside =>
    rcases Nat.lt_trichotomy k below.length with before | at_root | behind
    · rw [List.getElem?_append_left before] at here
      obtain ⟨j, rfl, listed⟩ := inside here
      refine ⟨j, rfl, ?_⟩
      rw [List.getElem?_append_left (by omega)]
      exact listed
    · -- the root itself: below it stand its children, the last of them last
      rw [at_root, List.getElem?_append_right (Nat.le_refl _), Nat.sub_self] at here
      cases here
      cases known.symm.trans found
      have listed := children.getLast?.trans last
      rw [List.getLast?_eq_getElem?] at listed
      have inhabited : below.length - 1 < below.length := (List.getElem?_eq_some_iff.mp listed).1
      refine ⟨below.length - 1, by omega, ?_⟩
      rw [List.getElem?_append_left inhabited]
      exact listed
    · obtain ⟨m, rfl⟩ : ∃ m, k = below.length + 1 + m := ⟨k - (below.length + 1), by omega⟩
      have later : ∀ m, (below ++ root :: others)[below.length + 1 + m]? = others[m]? := by
        intro m
        rw [List.getElem?_append_right (by omega)]
        have offset : below.length + 1 + m - below.length = m + 1 := by omega
        rw [offset, List.getElem?_cons_succ]
      rw [later] at here
      obtain ⟨j, rfl, listed⟩ := beside here
      exact ⟨below.length + 1 + j, rfl, (later j).trans listed⟩

end Lists

/-- The last child of an operation is evaluated directly before it. -/
theorem last_child_of_order (accepted : Routine.ofOutline o = .ok r) {b : BlockId} {k : Nat}
    (here : (r.order b)[k]? = some i) (found : r.operation? i = some p)
    (last : p.form.children.getLast? = some c) :
    ∃ j, k = j + 1 ∧ (r.order b)[j]? = some c := by
  obtain ⟨block, order, listed⟩ := block_of_order accepted here
  rw [operation?_of_accepted accepted] at found
  obtain ⟨j, next, earlier⟩ := (lists_evaluationOrder order).getElem?_of_last listed found last
  rw [Array.getElem?_toList] at earlier
  exact ⟨j, next, earlier⟩

/-- An outline is accepted exactly if it is well-formed. What it is refused for is wrong with it, so
that an operation named for a circle is its own descendant. In an accepted routine, the evaluation
order of a block is the list of the trees of what it evaluates, each in post-order. So an operation
comes after its children, evaluated are the roots and their descendants, and the value of the exit
comes last. -/
theorem accepted_iff_wellFormed (o : Outline) :
    ((∃ r, Routine.ofOutline o = .ok r) ↔ o.WellFormed) ∧
    (∀ d, Routine.ofOutline o = .error d → o.Has d) ∧
    (∀ i, Routine.ofOutline o = .error (.cyclicTree i) → TransGen o.Child i i) ∧
    ∀ r, Routine.ofOutline o = .ok r → ∀ k b, o.blocks[k]? = some b →
      (∀ l, o.Lists b.evaluated l ↔ (r.order ⟨k⟩).toList = l) ∧
      (∀ (m : Nat) (i c : OpId), (r.order ⟨k⟩)[m]? = some i → o.Child c i →
        ∃ m' < m, (r.order ⟨k⟩)[m']? = some c) ∧
      (∀ j, j ∈ r.order ⟨k⟩ ↔ ∃ i ∈ b.evaluated, ReflTransGen o.Child j i) ∧
      ∀ i, b.exit.value? = some i → (r.order ⟨k⟩).toList.getLast? = some i := by
  refine ⟨⟨?_, ?_⟩, fun d => has_of_refused, ?_, ?_⟩
  · rintro ⟨r, accepted⟩
    exact wellFormed_of_accepted accepted
  · intro wellFormed
    cases answer : Routine.ofOutline o with
    | ok r => exact ⟨r, rfl⟩
    | error d => exact absurd (has_of_refused answer) wellFormed.not_has
  · intro i refused
    cases has_of_refused refused with
    | circle _ _ _ circle => exact circle
  · intro r accepted k b here
    have found : r.block? ⟨k⟩ = some b := by
      rw [block?_of_accepted accepted]
      exact here
    have lists := lists_evaluationOrder (order_of_block accepted found).1
    refine ⟨fun l => ⟨lists.unique, fun same => same ▸ lists⟩, ?_, ?_, ?_⟩
    · rintro m i c listed ⟨p, known, child⟩
      rw [← operation?_of_accepted accepted] at known
      exact before_of_order accepted listed known child
    · intro j
      rw [← Array.mem_toList_iff]
      exact lists.mem_iff
    · intro i value
      rw [lists.getLast?]
      simp [Block.evaluated, value]

end Outline

end SymbolicExecution
