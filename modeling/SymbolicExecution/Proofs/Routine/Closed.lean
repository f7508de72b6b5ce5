import SymbolicExecution.Proofs.Routine.Order

/-!
# Closed routines

All that an accepted routine names exists: the children of its operations, what its blocks evaluate,
and the blocks that an exit or a handler leads to.
-/

namespace SymbolicExecution

structure Routine.Closed (r : Routine) : Prop where
  label {i : OpId} {p : Operation} : r.operation? i = some p → p.id = i
  child {i c : OpId} {p : Operation} : r.operation? i = some p → c ∈ p.form.children →
    ∃ q, r.operation? c = some q
  ordered {b : BlockId} {k : Nat} {i : OpId} : (r.order b)[k]? = some i →
    ∃ p, r.operation? i = some p
  evaluated {b : BlockId} {k : Block} {i : OpId} : r.block? b = some k → i ∈ k.evaluated →
    ∃ p, r.operation? i = some p
  entry : ∃ k, r.block? r.entry = some k
  target {b t : BlockId} {k : Block} : r.block? b = some k → t ∈ k.exit.targets →
    ∃ k', r.block? t = some k'
  handler {b h : BlockId} {k : Block} : r.block? b = some k → k.handler = some h →
    ∃ k', r.block? h = some k'

namespace Outline

variable {o : Outline} {r : Routine}

theorem known_of_unknownOperation? {l : List OpId} (none : o.unknownOperation? l = none) {i : OpId}
    (hi : i ∈ l) : ∃ p, o.operation? i = some p := by
  have known := List.findSome?_eq_none_iff.mp none i hi
  simpa [Option.isSome_iff_exists] using known

theorem known_of_unknownBlock? {l : List BlockId} (none : o.unknownBlock? l = none) {b : BlockId}
    (hb : b ∈ l) : ∃ k, o.block? b = some k := by
  have known := List.findSome?_eq_none_iff.mp none b hb
  simpa [Option.isSome_iff_exists] using known

/-- What was checked of an outline without defects. -/
theorem sound_cases (sound : o.defect? = none) : o.blocks ≠ #[] ∧
    (∀ p ∈ o.operations, o.unknownOperation? p.form.children = none) ∧
    ∀ b ∈ o.blocks, o.unknownOperation? b.evaluated = none ∧
      o.unknownBlock? (b.exit.targets ++ b.handler.toList) = none := by
  simp only [defect?] at sound
  split at sound
  · cases sound
  · rename_i blocks
    simp only [Array.findSome?_toList, Option.orElse_eq_orElse, Option.orElse_eq_or,
      Option.or_eq_none_iff, Array.findSome?_eq_none_iff] at sound
    obtain ⟨_, _, operations, each⟩ := sound
    refine ⟨by simpa using blocks, operations, ?_⟩
    intro b hb
    have none := each b hb
    simpa only [blockDefect?, Option.orElse_eq_orElse, Option.orElse_eq_or,
      Option.or_eq_none_iff] using none

theorem block?_of_accepted (accepted : Routine.ofOutline o = .ok r) (b : BlockId) :
    r.block? b = o.block? b := by
  obtain ⟨_, _, _, _, blocks, _⟩ := accepted_cases accepted
  rw [Routine.block?, block?, blocks]

/-- All that an accepted routine names exists. -/
theorem closed (accepted : Routine.ofOutline o = .ok r) : r.Closed := by
  obtain ⟨sound, _, _, _, blocks, operations, _⟩ := accepted_cases accepted
  obtain ⟨nonempty, children, each⟩ := sound_cases sound
  have block : ∀ {b k}, r.block? b = some k → o.unknownOperation? k.evaluated = none ∧
      o.unknownBlock? (k.exit.targets ++ k.handler.toList) = none := by
    intro b k found
    apply each k
    rw [← blocks]
    exact Array.mem_of_getElem? found
  constructor
  case label => exact label_of_accepted accepted
  case ordered => exact known_of_order accepted
  case child =>
    intro i c p found child
    rw [operation?_of_accepted accepted]
    apply known_of_unknownOperation? (children p _) child
    rw [← operations]
    exact Array.mem_of_getElem? (Routine.operation?_eq_some_iff.mp found).2
  case evaluated =>
    intro b k i found root
    rw [operation?_of_accepted accepted]
    exact known_of_unknownOperation? (block found).1 root
  case entry =>
    rw [← blocks] at nonempty
    have first : 0 < r.blocks.size := Array.size_pos_iff.mpr nonempty
    exact ⟨r.blocks[0], Array.getElem?_eq_getElem first⟩
  case target =>
    intro b t k found target
    rw [block?_of_accepted accepted]
    exact known_of_unknownBlock? (block found).2 (List.mem_append_left _ target)
  case handler =>
    intro b h k found handler
    rw [block?_of_accepted accepted]
    apply known_of_unknownBlock? (block found).2
    simp [handler]

end Outline

end SymbolicExecution
