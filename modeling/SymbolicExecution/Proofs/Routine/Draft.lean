import Mathlib.Data.List.Count
import Mathlib.Data.List.Induction
import SymbolicExecution.Proofs.Routine.Acceptance
import SymbolicExecution.Routine.Draft

/-!
# What drafts become

A draft is edited step by step, and each step that adds an operation or opens a block names it.
Where every step refers only to what earlier steps have named, the draft becomes a routine: children
are older than the operations that contain them, so that no tree has a circle. The routine has what
was added, in order, and of what was set more than once it has the last.
-/

namespace SymbolicExecution

open Relation

/-- One step in the making of a draft. -/
inductive Edit where
  | add (form : Form)
  | atLine (i : OpId) (line : Nat)
  | block
  | push (b : BlockId) (i : OpId)
  | exit (b : BlockId) (e : Exit)
  | handler (b h : BlockId)
  | closure (inner outer : SymbolId)
  deriving DecidableEq

namespace Edit

/-- The operations that the edit refers to: as children, as a root, as the value of an exit. -/
def operations : Edit → List OpId
  | add form => form.children
  | push _ i => [i]
  | exit _ e => e.value?.toList
  | atLine _ _ | block | handler _ _ | closure _ _ => []

/-- The blocks that the edit refers to: as the edited one, as a target, as a handler. -/
def blocks : Edit → List BlockId
  | push b _ => [b]
  | exit b e => b :: e.targets
  | handler b h => [b, h]
  | add _ | atLine _ _ | block | closure _ _ => []

def form? : Edit → Option Form
  | add form => some form
  | _ => none

/-- The line given to an operation. -/
def line? (k : Nat) : Edit → Option Nat
  | atLine i line => if i.index = k then some line else none
  | _ => none

def root? (k : BlockId) : Edit → Option OpId
  | push b i => if b = k then some i else none
  | _ => none

def exit? (k : BlockId) : Edit → Option Exit
  | exit b e => if b = k then some e else none
  | _ => none

def handler? (k : BlockId) : Edit → Option BlockId
  | handler b h => if b = k then some h else none
  | _ => none

/-- The symbol that a symbol is declared to share storage with. -/
def outer? (s : SymbolId) : Edit → Option SymbolId
  | closure inner outer => if inner = s then some outer else none
  | _ => none

/-- What the edits make of the block number `k`: its roots in order, and the exit and the handler
that were set last. -/
def made (l : List Edit) (k : Nat) : Block where
  id := ⟨k⟩
  roots := l.filterMap (root? ⟨k⟩)
  exit := (l.filterMap (exit? ⟨k⟩)).getLast?.getD (.leave none)
  handler := (l.filterMap (handler? ⟨k⟩)).getLast?

theorem made_append_singleton (l : List Edit) (c : Edit) (k : Nat) : made (l ++ [c]) k =
    { made l k with
      roots := (made l k).roots ++ (c.root? ⟨k⟩).toList
      exit := (c.exit? ⟨k⟩).getD (made l k).exit
      handler := c.handler? ⟨k⟩ <|> (made l k).handler } := by
  cases root : c.root? ⟨k⟩ <;> cases exit : c.exit? ⟨k⟩ <;> cases handler : c.handler? ⟨k⟩ <;>
    simp [made, List.filterMap_append, root, exit, handler]

/-- A block that no edit concerns is as it was opened. -/
theorem made_of_not_mem {l : List Edit} {k : Nat} (other : ∀ c ∈ l, ⟨k⟩ ∉ c.blocks) :
    made l k = ⟨⟨k⟩, [], .leave none, none⟩ := by
  have none : ∀ c ∈ l, c.root? ⟨k⟩ = none ∧ c.exit? ⟨k⟩ = none ∧ c.handler? ⟨k⟩ = none := by
    intro c mem
    have other := other c mem
    cases c <;> simp_all [root?, exit?, handler?, blocks, eq_comm]
  have roots : l.filterMap (root? ⟨k⟩) = [] :=
    List.filterMap_eq_nil_iff.mpr fun c mem => (none c mem).1
  have exits : l.filterMap (exit? ⟨k⟩) = [] :=
    List.filterMap_eq_nil_iff.mpr fun c mem => (none c mem).2.1
  have handlers : l.filterMap (handler? ⟨k⟩) = [] :=
    List.filterMap_eq_nil_iff.mpr fun c mem => (none c mem).2.2
  simp [made, roots, exits, handlers]

variable {l : List Edit} {k : Nat}

theorem push_of_mem_made {i : OpId} (root : i ∈ (made l k).roots) : .push ⟨k⟩ i ∈ l := by
  obtain ⟨c, mem, pushed⟩ := List.mem_filterMap.mp root
  cases c <;> simp_all [root?]

theorem exit_of_made : (made l k).exit = .leave none ∨ .exit ⟨k⟩ (made l k).exit ∈ l := by
  cases last : (l.filterMap (exit? ⟨k⟩)).getLast? with
  | none => exact Or.inl (by simp [made, last])
  | some e =>
    have here : (made l k).exit = e := by simp [made, last]
    obtain ⟨c, mem, set⟩ := List.mem_filterMap.mp (List.mem_of_getLast? last)
    rw [here]
    cases c <;> simp_all [exit?]

theorem handler_of_made {h : BlockId} (handler : (made l k).handler = some h) :
    .handler ⟨k⟩ h ∈ l := by
  obtain ⟨c, mem, set⟩ := List.mem_filterMap.mp (List.mem_of_getLast? handler)
  cases c <;> simp_all [handler?]

/-- What a block evaluates was referred to. -/
theorem mem_operations_of_made {i : OpId} (evaluated : i ∈ (made l k).evaluated) :
    ∃ c ∈ l, i ∈ c.operations := by
  rcases List.mem_append.mp evaluated with root | value
  · exact ⟨_, push_of_mem_made root, List.mem_singleton_self i⟩
  · rcases exit_of_made (l := l) (k := k) with unset | set
    · simp [unset, Exit.value?] at value
    · exact ⟨_, set, value⟩

/-- Where a block leads was referred to. -/
theorem mem_blocks_of_made {t : BlockId} (target : t ∈ (made l k).exit.targets) :
    ∃ c ∈ l, t ∈ c.blocks := by
  rcases exit_of_made (l := l) (k := k) with unset | set
  · simp [unset, Exit.targets] at target
  · exact ⟨_, set, List.mem_cons_of_mem _ target⟩

end Edit

namespace Draft

def edit (d : Draft) : Edit → Draft
  | .add form => d.add form
  | .atLine i line => d.atLine i line
  | .block => d.block
  | .push b i => d.push b i
  | .exit b e => d.exit b e
  | .handler b h => d.handler b h
  | .closure inner outer => d.closure inner outer

def edits (d : Draft) (l : List Edit) : Draft := l.foldl edit d

end Draft

section Step

variable (d : Draft) (c : Edit)

theorem Draft.id_edit : (d.edit c).outline.id = d.outline.id := by
  cases c <;> rfl

theorem Draft.name_edit : (d.edit c).outline.name = d.outline.name := by
  cases c <;> rfl

/-- What is known of an operation that was added before. -/
theorem Draft.getElem?_operations_edit {k : Nat} {p : Operation}
    (here : d.outline.operations[k]? = some p) :
    (d.edit c).outline.operations[k]? = some { p with line := c.line? k <|> p.line } := by
  cases c with
  | add form =>
    have inside : k < d.outline.operations.size := (Array.getElem?_eq_some_iff.mp here).1
    simp [edit, add, Array.getElem?_push, Nat.ne_of_lt inside, here, Edit.line?]
  | atLine i line =>
    simp only [edit, atLine, Array.getElem?_modify, here, Option.map_some, Edit.line?]
    split <;> rfl
  | _ => exact here

/-- An operation was there before, up to its line, or is the one that was just added. -/
theorem Draft.operations_edit_cases {k : Nat} {p : Operation}
    (here : (d.edit c).outline.operations[k]? = some p) :
    (∃ q, d.outline.operations[k]? = some q ∧ p.id = q.id ∧ p.form = q.form) ∨
    (c = .add p.form ∧ k = d.outline.operations.size ∧ p.id = d.nextOperation) := by
  cases before : d.outline.operations[k]? with
  | some q =>
    cases here.symm.trans (d.getElem?_operations_edit c before)
    exact Or.inl ⟨q, rfl, rfl, rfl⟩
  | none =>
    cases c with
    | add form =>
      simp only [edit, add, Array.getElem?_push, before] at here
      split at here
      · cases here
        exact Or.inr ⟨rfl, ‹_›, rfl⟩
      · cases here
    | atLine i line => simp [edit, atLine, Array.getElem?_modify, before] at here
    | _ => cases before.symm.trans here

theorem Draft.size_operations_edit : d.outline.operations.size ≤
    (d.edit c).outline.operations.size := by
  cases c <;> simp [edit, add, atLine, block, push, exit, handler, closure, changeBlock]

theorem Draft.forms_edit : (d.edit c).outline.operations.toList.map Operation.form =
    d.outline.operations.toList.map Operation.form ++ c.form?.toList := by
  cases c with
  | add form => simp [edit, add, Edit.form?]
  | atLine i line =>
    apply List.ext_getElem?
    intro k
    simp only [edit, atLine, Edit.form?, Option.toList_none, List.append_nil, List.getElem?_map,
      Array.getElem?_toList, Array.getElem?_modify]
    split
    · cases d.outline.operations[k]? <;> rfl
    · rfl
  | _ => simp [edit, block, push, exit, handler, closure, changeBlock, Edit.form?]

/-- What is known of a block that was opened before. -/
theorem Draft.getElem?_blocks_edit {k : Nat} {b : Block} (here : d.outline.blocks[k]? = some b) :
    (d.edit c).outline.blocks[k]? = some
      { b with
        roots := b.roots ++ (c.root? ⟨k⟩).toList
        exit := (c.exit? ⟨k⟩).getD b.exit
        handler := c.handler? ⟨k⟩ <|> b.handler } := by
  have same : ∀ j : BlockId, j.index = k ↔ j = ⟨k⟩ := fun ⟨j⟩ => by simp
  cases c with
  | block =>
    have inside : k < d.outline.blocks.size := (Array.getElem?_eq_some_iff.mp here).1
    simp [edit, block, Array.getElem?_push, Nat.ne_of_lt inside, here, Edit.root?, Edit.exit?,
      Edit.handler?]
  | push j i | exit j e | handler j h =>
    simp only [edit, push, exit, handler, changeBlock, Array.getElem?_modify, here, same,
      Edit.root?, Edit.exit?, Edit.handler?]
    split <;> simp
  | _ => simp [edit, add, atLine, closure, here, Edit.root?, Edit.exit?, Edit.handler?]

theorem Draft.size_blocks_edit : (d.edit c).outline.blocks.size =
    d.outline.blocks.size + if c = .block then 1 else 0 := by
  cases c <;> simp [edit, add, atLine, block, push, exit, handler, closure, changeBlock]

theorem Draft.closures_edit (s : SymbolId) :
    (Table.ofList (d.edit c).outline.closures).get? s =
      (c.outer? s <|> (Table.ofList d.outline.closures).get? s) := by
  cases c with
  | closure inner outer =>
    simp only [edit, closure, Table.ofList, List.foldl_append, List.foldl_cons, List.foldl_nil,
      Table.get?_insert, Edit.outer?, eq_comm (a := s)]
    split <;> rfl
  | _ => rfl

end Step

section Run

variable (d : Draft) (l : List Edit)

/-- Of what was set more than once the last stays, and before all of it what was there. -/
theorem getLast?_filterMap_cons {α β : Type} (f : α → Option β) (a : α) (l : List α)
    (x : Option β) : (((a :: l).filterMap f).getLast? <|> x) =
      ((l.filterMap f).getLast? <|> f a <|> x) := by
  cases first : f a with
  | none => simp [first]
  | some b => cases rest : (l.filterMap f).getLast? <;> simp [first, List.getLast?_cons, rest]

theorem Draft.id_edits : (d.edits l).outline.id = d.outline.id := by
  induction l generalizing d with
  | nil => rfl
  | cons c rest ih => exact (ih (d.edit c)).trans (d.id_edit c)

theorem Draft.name_edits : (d.edits l).outline.name = d.outline.name := by
  induction l generalizing d with
  | nil => rfl
  | cons c rest ih => exact (ih (d.edit c)).trans (d.name_edit c)

theorem Draft.forms_edits : (d.edits l).outline.operations.toList.map Operation.form =
    d.outline.operations.toList.map Operation.form ++ l.filterMap Edit.form? := by
  induction l generalizing d with
  | nil => simp [edits]
  | cons c rest ih =>
    have later := ih (d.edit c)
    rw [forms_edit, List.append_assoc] at later
    refine later.trans (congrArg _ ?_)
    cases added : c.form? <;> simp [added]

theorem Draft.getElem?_operations_edits {k : Nat} {p : Operation}
    (here : d.outline.operations[k]? = some p) : (d.edits l).outline.operations[k]? =
      some { p with line := (l.filterMap (Edit.line? k)).getLast? <|> p.line } := by
  induction l generalizing d p with
  | nil => exact here
  | cons c rest ih =>
    rw [getLast?_filterMap_cons]
    exact ih (d.edit c) (d.getElem?_operations_edit c here)

theorem Draft.closures_edits (s : SymbolId) :
    (Table.ofList (d.edits l).outline.closures).get? s =
      ((l.filterMap (Edit.outer? s)).getLast? <|> (Table.ofList d.outline.closures).get? s) := by
  induction l generalizing d with
  | nil => rfl
  | cons c rest ih =>
    rw [getLast?_filterMap_cons, ← closures_edit]
    exact ih (d.edit c)

end Run

/-- A draft, with the operations and the blocks that were named to the one who edits it. -/
structure Session where
  draft : Draft
  operations : List OpId
  blocks : List BlockId

namespace Session

def start (id : RoutineId) (name : String) : Session := ⟨Draft.start id name, [], []⟩

/-- An addition is answered with the name of the operation, an opening with that of the block. -/
def edit (s : Session) (c : Edit) : Session where
  draft := s.draft.edit c
  operations :=
    match c with
    | .add _ => s.operations ++ [s.draft.nextOperation]
    | _ => s.operations
  blocks :=
    match c with
    | .block => s.blocks ++ [s.draft.nextBlock]
    | _ => s.blocks

def edits (s : Session) (l : List Edit) : Session := l.foldl edit s

/-- The edit refers only to what was named. -/
def Allows (s : Session) (c : Edit) : Prop :=
  (∀ i ∈ c.operations, i ∈ s.operations) ∧ ∀ b ∈ c.blocks, b ∈ s.blocks

instance (s : Session) (c : Edit) : Decidable (s.Allows c) := inferInstanceAs (Decidable (_ ∧ _))

/-- Every edit refers only to what earlier ones have named. -/
def Disciplined (s : Session) : List Edit → Prop
  | [] => True
  | c :: rest => s.Allows c ∧ (s.edit c).Disciplined rest

instance Disciplined.decidable (s : Session) : (l : List Edit) → Decidable (s.Disciplined l)
  | [] => inferInstanceAs (Decidable True)
  | c :: rest =>
    have := Disciplined.decidable (s.edit c) rest
    inferInstanceAs (Decidable (_ ∧ _))

variable {s : Session} {c : Edit} {l : List Edit}

theorem draft_edits (s : Session) (l : List Edit) : (s.edits l).draft = s.draft.edits l := by
  induction l generalizing s with
  | nil => rfl
  | cons c rest ih => exact ih (s.edit c)

theorem edits_append_singleton (s : Session) (l : List Edit) (c : Edit) :
    s.edits (l ++ [c]) = (s.edits l).edit c := by
  simp [edits]

theorem disciplined_append_singleton :
    s.Disciplined (l ++ [c]) ↔ s.Disciplined l ∧ (s.edits l).Allows c := by
  induction l generalizing s with
  | nil => simp [Disciplined, edits]
  | cons d rest ih => simp [Disciplined, edits, ih, and_assoc]

/-- What the edits `l` have led a session to: each name that it has given is the name of something,
no edit refers to anything else, children are older than the operations that contain them, and the
blocks are those that were opened, as the edits made them. -/
structure Sound (s : Session) (l : List Edit) : Prop where
  named {i : OpId} : i ∈ s.operations →
    i.routine = s.draft.outline.id ∧ i.index < s.draft.outline.operations.size
  opened {b : BlockId} : b ∈ s.blocks → b.index < s.draft.outline.blocks.size
  allowed {c : Edit} : c ∈ l → s.Allows c
  operation {k : Nat} {p : Operation} : s.draft.outline.operations[k]? = some p →
    p.id = ⟨s.draft.outline.id, k⟩ ∧
      ∀ i ∈ p.form.children, i.routine = s.draft.outline.id ∧ i.index < k
  count : s.draft.outline.blocks.size = l.count .block
  block {k : Nat} : k < s.draft.outline.blocks.size →
    s.draft.outline.blocks[k]? = some (Edit.made l k)

theorem sound_start (id : RoutineId) (name : String) : (start id name).Sound [] where
  named mem := by simp [start] at mem
  opened mem := by simp [start] at mem
  allowed mem := by simp at mem
  operation here := by simp [start, Draft.start] at here
  count := rfl
  block inside := by simp [start, Draft.start] at inside

theorem allows_edit {c' : Edit} (allows : s.Allows c') : (s.edit c).Allows c' := by
  refine ⟨fun i mem => ?_, fun b mem => ?_⟩
  · have known := allows.1 i mem
    cases c <;> simp [edit, known]
  · have known := allows.2 b mem
    cases c <;> simp [edit, known]

namespace Sound

variable (sound : s.Sound l)

include sound

/-- No edit concerns a block that is not opened yet. -/
theorem made_next : Edit.made l s.draft.outline.blocks.size =
    ⟨s.draft.nextBlock, [], .leave none, none⟩ := by
  refine Edit.made_of_not_mem fun c mem named => ?_
  exact Nat.lt_irrefl _ (sound.opened ((sound.allowed mem).2 _ named))

theorem block_edit {k : Nat} (inside : k < (s.edit c).draft.outline.blocks.size) :
    (s.edit c).draft.outline.blocks[k]? = some (Edit.made (l ++ [c]) k) := by
  by_cases old : k < s.draft.outline.blocks.size
  · rw [Edit.made_append_singleton]
    exact s.draft.getElem?_blocks_edit c (sound.block old)
  · -- the block that was just opened
    have size : (s.edit c).draft.outline.blocks.size = _ := s.draft.size_blocks_edit c
    split at size
    · subst c
      obtain rfl : k = s.draft.outline.blocks.size := by omega
      rw [Edit.made_append_singleton, sound.made_next]
      exact Array.getElem?_push_size
    · omega

theorem edit (allows : s.Allows c) : (s.edit c).Sound (l ++ [c]) where
  named := by
    intro i mem
    have same : (s.edit c).draft.outline.id = s.draft.outline.id := s.draft.id_edit c
    have le : s.draft.outline.operations.size ≤ (s.edit c).draft.outline.operations.size :=
      s.draft.size_operations_edit c
    have old : i ∈ s.operations → i.routine = (s.edit c).draft.outline.id ∧
        i.index < (s.edit c).draft.outline.operations.size := by
      intro mem
      rw [same]
      exact ⟨(sound.named mem).1, Nat.lt_of_lt_of_le (sound.named mem).2 le⟩
    cases c with
    | add form =>
      rcases List.mem_append.mp mem with mem | mem
      · exact old mem
      · rw [List.mem_singleton.mp mem]
        exact ⟨rfl, by simp [Session.edit, Draft.edit, Draft.add, Draft.nextOperation]⟩
    | _ => exact old mem
  opened := by
    intro b mem
    have size : (s.edit c).draft.outline.blocks.size = _ := s.draft.size_blocks_edit c
    have old : b ∈ s.blocks → b.index < (s.edit c).draft.outline.blocks.size := by
      intro mem
      have inside := sound.opened mem
      omega
    cases c with
    | block =>
      rcases List.mem_append.mp mem with mem | mem
      · exact old mem
      · rw [List.mem_singleton.mp mem, size, if_pos rfl]
        exact Nat.lt_succ_self _
    | _ => exact old mem
  allowed := by
    intro c' mem
    rcases List.mem_append.mp mem with mem | mem
    · exact allows_edit (sound.allowed mem)
    · rw [List.mem_singleton.mp mem]
      exact allows_edit allows
  operation := by
    intro k p here
    have same : (s.edit c).draft.outline.id = s.draft.outline.id := s.draft.id_edit c
    rw [same]
    rcases s.draft.operations_edit_cases c here with ⟨q, before, id, form⟩ | ⟨rfl, rfl, id⟩
    · rw [id, form]
      exact sound.operation before
    · exact ⟨id, fun i child => sound.named (allows.1 i child)⟩
  count := by
    refine (s.draft.size_blocks_edit c).trans ?_
    rw [sound.count, List.count_append, List.count_singleton']
  block := sound.block_edit

theorem eq_made_of_mem {b : Block} (mem : b ∈ s.draft.outline.blocks) :
    ∃ k, b = Edit.made l k := by
  obtain ⟨k, here⟩ := Array.mem_iff_getElem?.mp mem
  have known := sound.block (Array.getElem?_eq_some_iff.mp here).1
  exact ⟨k, Option.some.inj (here.symm.trans known)⟩

theorem operation?_of_referred {i : OpId} (referred : ∃ c ∈ l, i ∈ c.operations) :
    ∃ p, s.draft.outline.operation? i = some p := by
  obtain ⟨c, mem, refers⟩ := referred
  obtain ⟨own, inside⟩ := sound.named ((sound.allowed mem).1 i refers)
  exact ⟨_, Outline.operation?_eq_some_iff.mpr ⟨own, Array.getElem?_eq_getElem inside⟩⟩

theorem block?_of_referred {b : BlockId} (referred : ∃ c ∈ l, b ∈ c.blocks) :
    ∃ k, s.draft.outline.block? b = some k := by
  obtain ⟨c, mem, refers⟩ := referred
  exact ⟨_, sound.block (sound.opened ((sound.allowed mem).2 b refers))⟩

/-- Children are older, so no way down comes back to where it started. -/
theorem older_of_transGen {i j : OpId} (below : TransGen s.draft.outline.Child i j) :
    i.index < j.index := by
  have older {c i : OpId} (child : s.draft.outline.Child c i) : c.index < i.index := by
    obtain ⟨p, found, mem⟩ := child
    exact ((sound.operation (Outline.operation?_eq_some_iff.mp found).2).2 c mem).2
  induction below with
  | single child => exact older child
  | tail _ child ih => exact Nat.lt_trans ih (older child)

theorem wellFormed (opening : .block ∈ l) : s.draft.outline.WellFormed where
  blocks := by
    intro empty
    have count := sound.count
    rw [empty] at count
    exact List.count_eq_zero.mp count.symm opening
  block := by
    intro k b here
    have known := sound.block (Array.getElem?_eq_some_iff.mp here).1
    rw [Option.some.inj (here.symm.trans known)]
    rfl
  operation here := (sound.operation here).1
  child := by
    intro p c mem child
    obtain ⟨k, here⟩ := Array.mem_iff_getElem?.mp mem
    obtain ⟨own, older⟩ := (sound.operation here).2 c child
    have inside := Nat.lt_trans older (Array.getElem?_eq_some_iff.mp here).1
    exact ⟨_, Outline.operation?_eq_some_iff.mpr ⟨own, Array.getElem?_eq_getElem inside⟩⟩
  evaluated := by
    intro b i mem evaluated
    obtain ⟨k, rfl⟩ := sound.eq_made_of_mem mem
    exact sound.operation?_of_referred (Edit.mem_operations_of_made evaluated)
  target := by
    intro b t mem target
    obtain ⟨k, rfl⟩ := sound.eq_made_of_mem mem
    exact sound.block?_of_referred (Edit.mem_blocks_of_made target)
  handler := by
    intro b h mem handler
    obtain ⟨k, rfl⟩ := sound.eq_made_of_mem mem
    refine sound.block?_of_referred ⟨_, Edit.handler_of_made handler, ?_⟩
    simp [Edit.blocks]
  acyclic _ _ _ circle := Nat.lt_irrefl _ (sound.older_of_transGen circle)

theorem toList_blocks : s.draft.outline.blocks.toList =
    (List.range (l.count .block)).map (Edit.made l) := by
  refine List.ext_getElem (by simp [sound.count]) fun k inside _ => ?_
  have known := sound.block (Array.length_toList ▸ inside)
  rw [Array.getElem?_eq_some_iff] at known
  simpa using known.2

end Sound

theorem sound_edits {id : RoutineId} {name : String}
    (disciplined : (start id name).Disciplined l) : ((start id name).edits l).Sound l := by
  induction l using List.reverseRecOn with
  | nil => exact sound_start id name
  | append_singleton l c ih =>
    obtain ⟨before, allows⟩ := disciplined_append_singleton.mp disciplined
    rw [edits_append_singleton]
    exact (ih before).edit allows

end Session

namespace Draft

/-- The operation added after `n` others has the number `n` and the form it was added with, and of
the lines that it was given later the last. -/
theorem operation_of_added {d : Draft} (empty : d.outline.operations = #[])
    {before rest : List Edit} {form : Form} {n : Nat}
    (others : n = (before.filterMap Edit.form?).length) :
    (d.edits (before ++ .add form :: rest)).outline.operations[n]? =
      some ⟨⟨d.outline.id, n⟩, form, (rest.filterMap (Edit.line? n)).getLast?⟩ := by
  have size : (d.edits before).outline.operations.size = n := by
    have forms := congrArg List.length (d.forms_edits before)
    simpa [empty, ← others] using forms
  have added : ((d.edits before).edit (.add form)).outline.operations[n]? =
      some ⟨⟨d.outline.id, n⟩, form, none⟩ := by
    rw [← size, ← d.id_edits before]
    exact Array.getElem?_push_size
  have later := getElem?_operations_edits _ rest added
  simpa [edits] using later

/-- A draft becomes a routine if every edit refers only to what earlier ones have named and a block
was opened. The routine has what was added, in order, under the names given for it; each operation
has the last line that it was given, each block the roots that were pushed to it, in order, and the
exit and the handler set last, and a symbol of a closure stands for the symbol declared last. -/
theorem build_of_disciplined {id : RoutineId} {name : String} {l : List Edit}
    (disciplined : (Session.start id name).Disciplined l) (opening : .block ∈ l) :
    ∃ r, ((Draft.start id name).edits l).build = .ok r ∧ r.id = id ∧ r.name = name ∧
      r.operations.toList.map Operation.form = l.filterMap Edit.form? ∧
      (∀ (k : Nat) p, r.operations[k]? = some p → p.id = ⟨id, k⟩) ∧
      (∀ before form rest n, l = before ++ .add form :: rest →
        n = (before.filterMap Edit.form?).length →
        r.operations[n]? = some ⟨⟨id, n⟩, form, (rest.filterMap (Edit.line? n)).getLast?⟩) ∧
      r.blocks.toList = (List.range (l.count .block)).map (Edit.made l) ∧
      ∀ s, r.closures.get? s = (l.filterMap (Edit.outer? s)).getLast? := by
  have sound := Session.sound_edits disciplined
  have same : ((Session.start id name).edits l).draft = (Draft.start id name).edits l :=
    Session.draft_edits _ l
  have wellFormed := sound.wellFormed opening
  have blocks := sound.toList_blocks
  have label {k : Nat} {p : Operation} := fun here => (sound.operation (k := k) (p := p) here).1
  rw [same] at wellFormed blocks
  simp only [same] at label
  cases answer : ((Draft.start id name).edits l).build with
  | error d => exact absurd (Outline.has_of_refused answer) wellFormed.not_has
  | ok r =>
    obtain ⟨_, _, _, ownId, ownBlocks, ownOperations, ownClosures, _, _, ownName⟩ :=
      Outline.accepted_cases answer
    refine ⟨r, rfl, ownId.trans (id_edits _ l), ownName.trans (name_edits _ l), ?_, ?_, ?_, ?_, ?_⟩
    · rw [ownOperations, forms_edits]
      rfl
    · intro k p here
      rw [ownOperations] at here
      rw [label here, id_edits]
      rfl
    · rintro before form rest n rfl others
      rw [ownOperations]
      exact operation_of_added rfl others
    · rw [ownBlocks, blocks]
    · intro s
      have nothing : (Table.ofList (Draft.start id name).outline.closures).get? s = none := rfl
      rw [ownClosures, closures_edits, nothing]
      cases (l.filterMap (Edit.outer? s)).getLast? <;> rfl

/-- `if (!p) { this; }`: the exit of the first block is set twice, and the negation has a line. -/
def guarding : List Edit :=
  [.block, .block, .add (.paramRef ⟨0⟩), .add (.unary .not ⟨⟨7⟩, 0⟩), .atLine ⟨⟨7⟩, 1⟩ 12,
    .exit ⟨0⟩ (.goTo ⟨1⟩), .block, .exit ⟨0⟩ (.branch ⟨⟨7⟩, 1⟩ ⟨1⟩ ⟨2⟩), .add .this,
    .push ⟨1⟩ ⟨⟨7⟩, 2⟩, .handler ⟨1⟩ ⟨2⟩, .closure ⟨1⟩ ⟨0⟩, .closure ⟨1⟩ ⟨2⟩]

theorem build_of_disciplined_guarding :
    (Session.start ⟨7⟩ "guard").Disciplined guarding ∧ .block ∈ guarding ∧
    ∃ r, ((Draft.start ⟨7⟩ "guard").edits guarding).build = .ok r ∧
      r.blocks.toList =
        [⟨⟨0⟩, [], .branch ⟨⟨7⟩, 1⟩ ⟨1⟩ ⟨2⟩, none⟩, ⟨⟨1⟩, [⟨⟨7⟩, 2⟩], .leave none, some ⟨2⟩⟩,
          ⟨⟨2⟩, [], .leave none, none⟩] ∧
      r.operations[1]? = some ⟨⟨⟨7⟩, 1⟩, .unary .not ⟨⟨7⟩, 0⟩, some 12⟩ ∧
      r.closures.get? ⟨1⟩ = some ⟨2⟩ := by
  have disciplined : (Session.start ⟨7⟩ "guard").Disciplined guarding := by decide
  have opening : .block ∈ guarding := by decide
  obtain ⟨r, built, _, _, _, _, added, blocks, closures⟩ :=
    build_of_disciplined disciplined opening
  exact ⟨disciplined, opening, r, built, blocks, added (guarding.take 3) _ _ 1 rfl rfl,
    closures ⟨1⟩⟩

end Draft

end SymbolicExecution
