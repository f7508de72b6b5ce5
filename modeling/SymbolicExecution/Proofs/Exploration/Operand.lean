import SymbolicExecution.Proofs.Exploration.Faultless
import SymbolicExecution.Proofs.Footprint.Value

/-!
# Operands are evaluated before they are used

Where every operation is evaluated once and declarations without an initial value are statements,
the operands of an operation have values when it is evaluated, and so has the condition of a branch.
So no operand is taken for an unknown value.
-/

namespace SymbolicExecution

theorem Form.mem_renewed_of_written {f : Form} {i : OpId} (written : i ∈ f.written) :
    i ∈ f.renewed := by
  have passed : ∀ l : List Argument,
      i ∈ (l.filter fun a => a.passing = .out).map Argument.value →
      i ∈ (l.filter Argument.isWritable).map Argument.value := by
    intro l hi
    obtain ⟨a, ha, rfl⟩ := List.mem_map.mp hi
    obtain ⟨ha, out⟩ := List.mem_filter.mp ha
    have writable : a.isWritable = true := by
      simp [Argument.isWritable, of_decide_eq_true out]
    exact List.mem_map.mpr ⟨a, List.mem_filter.mpr ⟨ha, writable⟩, rfl⟩
  cases f with
  | assign => exact written
  | call receiver method l => exact passed l written
  | create typeName l => exact passed l written
  | _ => cases written

namespace Routine

/-- What declares a symbol without an initial value is neither a child nor the value of an exit. -/
def DeclaresInStatements (r : Routine) : Prop :=
  ∀ p ∈ r.operations, p.form.isBare →
    (∀ q ∈ r.operations, p.id ∉ q.form.children) ∧ ∀ b ∈ r.blocks, p.id ∉ b.exit.value?

instance (r : Routine) : Decidable r.DeclaresInStatements :=
  inferInstanceAs (Decidable (∀ p ∈ r.operations, _ → _))

variable {r : Routine} {i c : OpId} {p q : Operation}

theorem mem_operations_of_operation? (found : r.operation? i = some p) : p ∈ r.operations :=
  Array.mem_of_getElem? (operation?_eq_some_iff.mp found).2

section Leaving

variable (tree : r.Treelike) (found : r.operation? i = some p)

include tree found

/-- A child is only written if its parent writes it. -/
theorem Treelike.mem_written_of_child (child : c ∈ p.form.children)
    (isWritten : r.isWritten c = true) : c ∈ p.form.written := by
  obtain ⟨j, q, known, written⟩ := tree.written isWritten
  have same : i = j := tree.parent found known child
    (Form.mem_children_of_renewed (Form.mem_renewed_of_written written))
  subst same
  cases found.symm.trans known
  exact written

theorem Treelike.leaving (read : r.isWritten i = false) (initial : p.form.isBare = false) :
    Rule.Leaving r p := by
  refine ⟨by rw [tree.label found]; exact read, initial, ?_⟩
  intro slot value form
  have child : value ∈ p.form.children := by simp [form, Form.children]
  by_contra isWritten
  have written := tree.mem_written_of_child found child (by simpa using isWritten)
  simp [form, Form.written] at written

/-- The children that are not written leave values. -/
theorem Treelike.leaving_child (statements : r.DeclaresInStatements) (child : c ∈ p.form.children)
    (read : c ∉ p.form.written) (known : r.operation? c = some q) : Rule.Leaving r q := by
  apply tree.leaving known
  · by_contra isWritten
    exact read (tree.mem_written_of_child found child (by simpa using isWritten))
  · by_contra bare
    have statement := statements q (mem_operations_of_operation? known) (by simpa using bare)
    apply statement.1 p (mem_operations_of_operation? found)
    rw [tree.label known]
    exact child

end Leaving

/-- The value of an exit is left. -/
theorem Treelike.leaving_value (tree : r.Treelike) (statements : r.DeclaresInStatements)
    {b : BlockId} {k : Block} (found : r.block? b = some k) (value : k.exit.value? = some i)
    (known : r.operation? i = some p) : Rule.Leaving r p := by
  have root : i ∈ k.evaluated := by simp [Block.evaluated, value]
  apply tree.leaving known
  · by_contra isWritten
    obtain ⟨j, q, parent, written⟩ := tree.written (by simpa using isWritten)
    exact (tree.root found root).2 parent
      (Form.mem_children_of_renewed (Form.mem_renewed_of_written written))
  · by_contra bare
    have statement := statements p (mem_operations_of_operation? known) (by simpa using bare)
    apply statement.2 k (Array.mem_of_getElem? found)
    rw [tree.label known]
    exact value

end Routine

namespace Exploration

variable {σ : Type} (e : Exploration σ)

/-- The operations that were evaluated in the block have values, as far as they leave any, and so
have those that are recorded. -/
structure Ready (p : Pair) : Prop where
  places : e.Places p
  evaluated {k : Nat} {i : OpId} {o : Operation} : k < p.point.index →
    (e.routine.order p.point.block)[k]? = some i → e.routine.operation? i = some o →
    Rule.Leaving e.routine o → p.state.Knows i
  captured {slot : CaptureId} {i : OpId} : p.state.capture? slot = some i → p.state.Knows i

variable {e} {p q : Pair} {n : Numbering} {o : Operation} {b : Block} {i c : OpId}

theorem ready_entry (closed : e.routine.Closed) :
    e.Ready ⟨Point.entry e.routine.entry, State.entry e.routine.id⟩ where
  places := ⟨closed.entry, e.routine.owns_entry⟩
  evaluated before := absurd before (Nat.not_lt_zero _)
  captured captured := by cases captured

/-- At the entry of a block nothing was evaluated there, and what is recorded survives a reset. -/
theorem ready_entering {s : State} {target : BlockId} {operation : Option Operation}
    (captured : ∀ slot i, s.capture? slot = some i → s.Knows i)
    (enters : .publish q operation = e.entering target s) (places : e.Places q) : e.Ready q := by
  cases enters
  refine ⟨places, fun before => absurd before (Nat.not_lt_zero _), ?_⟩
  intro slot i recorded
  simp only [crossing] at recorded ⊢
  split at recorded
  · rename_i resets
    rw [if_pos resets]
    exact (captured slot i recorded).forgetOperations recorded
  · rename_i keeps
    rw [if_neg keeps]
    exact captured slot i recorded

section Ready

variable (closed : e.routine.Closed) (tree : e.routine.Treelike)
  (statements : e.routine.DeclaresInStatements) (builtin : e.semantics = .builtin)
  (ready : e.Ready p)

include ready

section Operand

include tree statements

theorem Ready.child (operation : e.operationAt? p.point = some o) (child : c ∈ o.form.children)
    (read : c ∉ o.form.written) : p.state.Knows c := by
  obtain ⟨i, here, found⟩ := Option.bind_eq_some_iff.mp operation
  obtain ⟨j, before, earlier⟩ := tree.before here found c child
  obtain ⟨q, known⟩ := tree.known earlier
  exact ready.evaluated before earlier known (tree.leaving_child found statements child read known)

theorem Ready.value (left : e.leftAt? p.point = some b) (value : b.exit.value? = some i) :
    p.state.Knows i := by
  have found := e.block?_of_leftAt? left
  have root : i ∈ b.evaluated := by simp [Block.evaluated, value]
  obtain ⟨mem, _⟩ := tree.root found root
  obtain ⟨k, inside, here⟩ := Array.mem_iff_getElem.mp mem
  have earlier : (e.routine.order p.point.block)[k]? = some i := by
    rw [Array.getElem?_eq_getElem inside, here]
  have behind : (e.routine.order p.point.block).size ≤ p.point.index := by
    simp only [leftAt?] at left
    split at left
    · cases left
    · rename_i outside
      exact Array.getElem?_eq_none_iff.mp outside
  obtain ⟨o, known⟩ := tree.known earlier
  exact ready.evaluated (Nat.lt_of_lt_of_le inside behind) earlier known
    (tree.leaving_value statements found value known)

end Operand

/-- A side of a branch differs in what it knows and in the value of the condition only. -/
theorem Ready.side (closed : e.routine.Closed) (left : e.leftAt? p.point = some b)
    {condition : OpId} {whenTrue whenFalse : BlockId}
    (exit : b.exit = .branch condition whenTrue whenFalse)
    {sides : List (Bool × State)} (split : (e.sides p condition n).1 = .result sides)
    {side : Bool × State} (mem : side ∈ sides) :
    p.state.Becomes (.filling condition) side.2 := by
  obtain ⟨o, known⟩ := closed.evaluated (e.block?_of_leftAt? left) (i := condition)
    (by simp [Block.evaluated, exit, Exit.value?])
  have own : condition.routine = p.state.routine :=
    (Routine.operation?_eq_some_iff.mp known).1.trans ready.places.owns.routine.symm
  have ensured := State.ensures_split e.routine e.config.learnAtBranches own n
  rw [Exploration.sides] at split
  rw [split] at ensured
  cases ensured with
  | result becomes => exact becomes side mem

section Answer

include closed builtin

/-- The successors of an operation keep to its footprint and give it a value. -/
theorem Ready.answer (operation : e.operationAt? p.point = some o) {states : List State}
    (successors : e.successors? p o n = some states) : ∀ s ∈ states,
      p.state.Becomes (Situation.footprint ⟨o, p.state, e.routine, e.symbols⟩) s ∧
      (Rule.Leaving e.routine o → s.Knows o.id) := by
  have answered := ready.places.answered closed builtin operation successors
  obtain ⟨t, rfl, keeps⟩ := Rule.process_answers answered
  intro s mem
  refine ⟨keeps s (Option.mem_toList.mp mem), ?_⟩
  intro leaving
  exact Rule.process_knows (c := ⟨o, p.state, e.routine, e.symbols⟩) leaving answered s mem

/-- Only the operation itself and what it writes get other values: no operand is given one. -/
theorem Ready.unchanged (tree : e.routine.Treelike) (statements : e.routine.DeclaresInStatements)
    (operation : e.operationAt? p.point = some o) {states : List State}
    (successors : e.successors? p o n = some states) {s : State} (mem : s ∈ states)
    (other : i ≠ o.id) (unwritten : i ∉ o.form.renewed) :
    s.operation? i = p.state.operation? i := by
  obtain ⟨becomes, _⟩ := ready.answer closed builtin operation successors s mem
  rcases becomes.operations i with same | (here | renewed) | ⟨fills, unknown⟩
  · exact same
  · exact absurd here other
  · exact absurd renewed unwritten
  · have known : p.state.Knows i := by
      rcases fills with child | ⟨slot, _, captured⟩
      · exact ready.child tree statements operation child
          fun written => unwritten (Form.mem_renewed_of_written written)
      · exact ready.captured captured
    obtain ⟨v, known⟩ := known
    cases unknown.symm.trans known

end Answer

section Moves

include closed tree statements builtin

/-- What is recorded when an operation has been evaluated has a value. -/
theorem Ready.captured_successor (operation : e.operationAt? p.point = some o)
    {states : List State} (successors : e.successors? p o n = some states) {s : State}
    (mem : s ∈ states) : ∀ slot i, s.capture? slot = some i → s.Knows i := by
  obtain ⟨becomes, _⟩ := ready.answer closed builtin operation successors s mem
  intro slot i captured
  apply becomes.knows
  rcases becomes.captures slot with same | ⟨j, captured', form⟩
  · rw [same] at captured
    exact ready.captured captured
  · cases captured'.symm.trans captured
    have form : o.form = .capture slot i := form
    apply ready.child tree statements operation
    · simp [form, Form.children]
    · simp [form, Form.written]

theorem Ready.next (operation : e.operationAt? p.point = some o) {states : List State}
    (successors : e.successors? p o n = some states) {s : State} (mem : s ∈ states)
    (places : e.Places ⟨p.point.next, s⟩) : e.Ready ⟨p.point.next, s⟩ where
  places := places
  evaluated {k i q} before listed known leaving := by
    obtain ⟨becomes, valued⟩ := ready.answer closed builtin operation successors s mem
    rcases Nat.lt_succ_iff_lt_or_eq.mp before with before | rfl
    · exact becomes.knows (ready.evaluated before listed known leaving)
    · obtain ⟨j, here, found⟩ := Option.bind_eq_some_iff.mp operation
      cases listed.symm.trans here
      cases known.symm.trans found
      rw [← tree.label found]
      exact valued leaving
  captured := ready.captured_successor closed tree statements builtin operation successors mem _ _

/-- Readiness is handed on. -/
theorem Ready.handed {operation : Option Operation} (hm : .publish q operation ∈ e.moves p n) :
    e.Ready q := by
  have places : e.Places q := faultless_moves closed builtin ready.places _ hm
  have recorded : ∀ slot i, p.state.capture? slot = some i → p.state.Knows i :=
    fun _ _ => ready.captured
  have makes := makes_of_mem hm
  generalize same : Move.publish q operation = m at makes
  cases makes with
  | next evaluated successors mem =>
    cases same
    exact ready.next closed tree statements builtin evaluated successors mem places
  | thrown evaluated _ _ successors mem =>
    exact ready_entering
      (ready.captured_successor closed tree statements builtin evaluated successors mem) same places
  | goTo | raised => exact ready_entering recorded same places
  | @side k condition whenTrue whenFalse sides side left exit split mem =>
    refine ready_entering ?_ same places
    have becomes := ready.side closed left exit split mem
    intro slot i captured
    apply becomes.knows
    rcases becomes.captures slot with unchanged | ⟨j, _, captured'⟩
    · exact ready.captured (unchanged ▸ captured)
    · exact captured'.elim
  | _ => cases same

end Moves

end Ready

/-- Where the exploration evaluates an operation of an accepted routine with the built-in semantics,
the operands have values: all children but those that are written without being read, and for a
capture reference the operation that is recorded. So no operand stands for an unknown value: a
successor has other values only for the operation and for what it writes. Where a block is left by a
branch, the condition has a value, and the sides have the values of the state. This takes that every
operation is evaluated once and that declarations without an initial value are statements; the
states may be reset between blocks or not. -/
theorem run_evaluates_operands {outline : Outline}
    (accepted : Routine.ofOutline outline = .ok e.routine) (once : e.routine.EvaluatesOnce)
    (statements : e.routine.DeclaresInStatements) (builtin : e.semantics = .builtin) {memory : σ}
    {k : Nat} {r : Run σ} (attains : e.Attains memory k r) {p : Pair}
    (published : p ∈ r.visited ∨ p ∈ r.pending) :
    (∀ o, e.operationAt? p.point = some o →
      (∀ c ∈ o.form.children, c ∉ o.form.written → p.state.Knows c) ∧
      (∀ slot i, o.form = .captureRef slot → p.state.capture? slot = some i → p.state.Knows i) ∧
      ∀ n states, e.successors? p o n = some states → ∀ s ∈ states, ∀ i, i ≠ o.id →
        i ∉ o.form.renewed → s.operation? i = p.state.operation? i) ∧
    ∀ b condition whenTrue whenFalse, e.leftAt? p.point = some b →
      b.exit = .branch condition whenTrue whenFalse → p.state.Knows condition ∧
        ∀ n sides, (e.sides p condition n).1 = .result sides → ∀ side ∈ sides, ∀ i,
          side.2.operation? i = p.state.operation? i := by
  have closed := Outline.closed accepted
  have tree := Outline.treelike accepted once
  have throughout : Throughout e.Ready r := attains.throughout (ready_entry closed)
    fun ready => ready.handed closed tree statements builtin
  have ready : e.Ready p := published.elim (throughout.visited p) (throughout.pending p)
  constructor
  · intro o operation
    refine ⟨fun c child read => ready.child tree statements operation child read,
      fun slot i _ captured => ready.captured captured, ?_⟩
    intro n states successors s mem i other unwritten
    exact ready.unchanged closed builtin tree statements operation successors mem other unwritten
  · intro b condition whenTrue whenFalse left exit
    have known := ready.value tree statements left (i := condition) (by rw [exit]; rfl)
    refine ⟨known, ?_⟩
    intro n sides split side mem i
    obtain ⟨v, known⟩ := known
    rcases (ready.side closed left exit split mem).operations i with same | gives | ⟨rfl, unknown⟩
    · exact same
    · exact gives.elim
    · cases unknown.symm.trans known

/-- A parameter is captured and assigned to a variable, or what a call answers where the parameter
is null. The call writes another variable. -/
def substituting : Outline where
  id := ⟨0⟩
  name := "substituting"
  blocks := #[⟨⟨0⟩, [⟨⟨0⟩, 1⟩], .branch ⟨⟨0⟩, 3⟩ ⟨1⟩ ⟨2⟩, none⟩,
    ⟨⟨1⟩, [⟨⟨0⟩, 7⟩], .leave none, none⟩, ⟨⟨2⟩, [⟨⟨0⟩, 10⟩], .leave none, none⟩]
  operations := #[⟨⟨⟨0⟩, 0⟩, .paramRef ⟨0⟩, none⟩, ⟨⟨⟨0⟩, 1⟩, .capture ⟨0⟩ ⟨⟨0⟩, 0⟩, none⟩,
    ⟨⟨⟨0⟩, 2⟩, .captureRef ⟨0⟩, none⟩, ⟨⟨⟨0⟩, 3⟩, .isPattern ⟨⟨0⟩, 2⟩ .null, none⟩,
    ⟨⟨⟨0⟩, 4⟩, .localRef ⟨1⟩, none⟩, ⟨⟨⟨0⟩, 5⟩, .localRef ⟨2⟩, none⟩,
    ⟨⟨⟨0⟩, 6⟩, .call none "fallback" [⟨⟨⟨0⟩, 5⟩, .out⟩], none⟩,
    ⟨⟨⟨0⟩, 7⟩, .assign ⟨⟨0⟩, 4⟩ ⟨⟨0⟩, 6⟩, none⟩, ⟨⟨⟨0⟩, 8⟩, .localRef ⟨1⟩, none⟩,
    ⟨⟨⟨0⟩, 9⟩, .captureRef ⟨0⟩, none⟩, ⟨⟨⟨0⟩, 10⟩, .assign ⟨⟨0⟩, 8⟩ ⟨⟨0⟩, 9⟩, none⟩]
  closures := []

def substitutingExploration : Exploration Unit where
  routine :=
    { id := ⟨0⟩
      name := "substituting"
      blocks := substituting.blocks
      operations := substituting.operations
      closures := Table.empty
      orders := #[#[⟨⟨0⟩, 0⟩, ⟨⟨0⟩, 1⟩, ⟨⟨0⟩, 2⟩, ⟨⟨0⟩, 3⟩],
        #[⟨⟨0⟩, 4⟩, ⟨⟨0⟩, 5⟩, ⟨⟨0⟩, 6⟩, ⟨⟨0⟩, 7⟩], #[⟨⟨0⟩, 8⟩, ⟨⟨0⟩, 9⟩, ⟨⟨0⟩, 10⟩]]
      written := [⟨⟨0⟩, 5⟩, ⟨⟨0⟩, 4⟩, ⟨⟨0⟩, 8⟩] }
  symbols := ⟨fun _ => none⟩
  semantics := .builtin
  checks := []
  config := default

/-- The captured parameter and the answer have values where they are assigned, and the variable that
is assigned to has none. -/
theorem run_evaluates_operands_substituting :
    (∀ p ∈ (substitutingExploration.run () false).visited, p.point = ⟨⟨0⟩, 4⟩ →
      p.state.Knows ⟨⟨0⟩, 3⟩) ∧
    (∀ p ∈ (substitutingExploration.run () false).visited, p.point = ⟨⟨2⟩, 1⟩ →
      ∀ i, p.state.capture? ⟨0⟩ = some i → p.state.Knows i) ∧
    (∀ p ∈ (substitutingExploration.run () false).visited, p.point = ⟨⟨1⟩, 3⟩ →
      p.state.Knows ⟨⟨0⟩, 6⟩) ∧
    (substitutingExploration.run () false).result = .completed ∧
    (∃ p ∈ (substitutingExploration.run () false).visited, p.point = ⟨⟨1⟩, 3⟩ ∧
      ¬p.state.Knows ⟨⟨0⟩, 4⟩) ∧
    ∃ p ∈ (substitutingExploration.run () false).visited, p.point = ⟨⟨2⟩, 1⟩ ∧
      p.state.capture? ⟨0⟩ = some ⟨⟨0⟩, 0⟩ := by
  have accepted : Routine.ofOutline substituting = .ok substitutingExploration.routine := by rfl
  have once : substitutingExploration.routine.EvaluatesOnce := by decide
  have statements : substitutingExploration.routine.DeclaresInStatements := by decide
  obtain ⟨k, attains⟩ := substitutingExploration.attains_run () false
  have evaluates := fun p hp =>
    run_evaluates_operands accepted once statements rfl attains (p := p) (Or.inl hp)
  refine ⟨?_, ?_, ?_, by decide +kernel, by decide +kernel, by decide +kernel⟩
  · rintro ⟨_, s⟩ hp rfl
    exact ((evaluates _ hp).2 _ ⟨⟨0⟩, 3⟩ ⟨1⟩ ⟨2⟩ rfl rfl).1
  · rintro ⟨_, s⟩ hp rfl i captured
    exact ((evaluates _ hp).1 _ rfl).2.1 ⟨0⟩ i rfl captured
  · rintro ⟨_, s⟩ hp rfl
    have assigned := (evaluates _ hp).1 ⟨⟨⟨0⟩, 7⟩, .assign ⟨⟨0⟩, 4⟩ ⟨⟨0⟩, 6⟩, none⟩ rfl
    exact assigned.1 ⟨⟨0⟩, 6⟩ (by decide) (by decide)

end Exploration

end SymbolicExecution
