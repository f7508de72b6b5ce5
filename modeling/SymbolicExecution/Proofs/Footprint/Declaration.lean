import SymbolicExecution.Proofs.Footprint.Call
import SymbolicExecution.Proofs.Footprint.Readback

/-!
# What declarations make visible

A declaration binds the symbol that it declares, or unbinds it if there is no initial value. A
reference to the symbol reads the symbol that owns its storage. So references see the declaration
if the declared symbol owns its storage, and they read what they read before if another symbol does.
-/

namespace SymbolicExecution

namespace Rule

open Eval

variable {r : Routine} {c : Situation} {s t : State} {n : Numbering} {x z : SymbolId}
  {v : Value}

/-- In `t`, with the numbering at `k`, every local reference to `x` that is read has one successor,
and what it yields there is as `P` says. -/
def Yields (r : Routine) (symbols : Symbols) (x : SymbolId) (t : State) (k : Numbering)
    (P : Value → Prop) : Prop :=
  ∀ q, r.operation? q.id = some q → q.form = .localRef x → r.isWritten q.id = false → ∃ u w,
    (Semantics.builtin.process ⟨q, t, r, symbols⟩ k).1 = .ok [u] ∧ u.operation? q.id = some w ∧ P w

section Read

variable (closed : r.Closed) (own : t.routine = r.id) (owned : r.owner? x = some z)
  (symbols : Symbols) (k : Numbering)

include closed own owned

theorem yields_of_bound (bound : t.symbol? z = some v) : Yields r symbols x t k (· = v) := by
  intro q found form read
  have reached : t.storage? r q.id = some z := (State.storage?_of_localRef found form).trans owned
  obtain ⟨u, _, answered, given, _⟩ := process_of_bound (c := ⟨q, t, r, symbols⟩) closed found
    (by simp [form, Form.isReference]) read own reached bound k
  exact ⟨u, v, congrArg Prod.fst answered, given, rfl⟩

theorem yields_of_unbound (unbound : t.symbol? z = none) (below : t.Below k.created) :
    Yields r symbols x t k (k.created ≤ ·.index) := by
  intro q found form read
  have names := routine_of_names closed found (by simp [form]) symbols own
  have meaning : Rule.builtin (Situation.operation ⟨q, t, r, symbols⟩).tag = ofEval symbolRef :=
    Model.builtin_tag form
  have evaluated : symbolRef ⟨q, t, r, symbols⟩ = readStorage ⟨q, t, r, symbols⟩ t x := by
    simp only [symbolRef, form, Situation.isWritten, read]
    rfl
  have reads := leaves_readStorage (c := ⟨q, t, r, symbols⟩) (.refl t k) x
  rw [← evaluated] at reads
  obtain ⟨u, answered, _⟩ := process_feasible names meaning
    (evaluated ▸ feasible_readStorage below x)
  obtain ⟨w, given, same | ⟨_, new⟩⟩ :=
    leaves_of_process meaning reads (Prod.ext answered rfl) u List.mem_cons_self
  · have reached : t.storage? r q.id = some z :=
      (State.storage?_of_localRef found form).trans owned
    rw [bound?, reached, Option.bind_some, unbound] at same
    cases same
  · exact ⟨u, w, answered, given, new⟩

end Read

/-- With an initial value, the symbol is bound to it. -/
theorem process_of_declare_some {j : OpId} (form : c.operation.form = .declare x (some j))
    (own : c.operation.id.routine = c.state.routine) (inside : j.routine = c.state.routine)
    (n : Numbering) : ∃ t v m, Semantics.builtin.process c n = (.ok [t], m) ∧
      t.routine = c.state.routine ∧ t.operation? j = some v ∧
      (∀ w, c.state.operation? j = some w → v = w) ∧
      ∀ y, t.symbol? y = if y = x then some v else c.state.symbol? y := by
  obtain ⟨s, v, m, evaluated, same, stays⟩ := exists_operand inside n
  obtain ⟨_, known, _, supplied⟩ := State.leaves_operand c.state j n _ _ evaluated
  let t := { s with operations := s.operations.insert c.operation.id v }
  have declared : declare c n = (.result (t.setSymbol x v), m) := by
    simp only [declare, form]
    rw [bind_of_result evaluated]
    simp only [Situation.bind, State.setOperation, if_pos (own.trans same.symm)]
    rfl
  have process := process_of_result (f := declare) (Model.builtin_tag form) declared
  refine ⟨_, v, m, process, same, ?_, ?_, ?_⟩
  · change t.operations.get? j = some v
    rw [Table.get?_insert]
    split
    · rfl
    · exact known
  · intro w before
    exact Option.some.inj (known.symm.trans (supplied.kept before))
  · intro y
    rw [← stays.symbol? y]
    exact Table.get?_insert _ _ _ _

/-- Without one, the symbol is unbound. -/
theorem process_of_declare_none (form : c.operation.form = .declare x none) (n : Numbering) :
    Semantics.builtin.process c n = (.ok [c.state.clearSymbol x], n) := by
  refine process_of_result (f := declare) (Model.builtin_tag form) ?_
  simp only [declare, form]
  rfl

/-- A declaration has one successor. If the declared symbol owns its storage, references to it
yield the initial value from then on or, where there is none, a value that is new. If another symbol
owns the storage, they yield what that symbol was bound to before, whatever is declared. -/
theorem process_declares {outline : Outline} (accepted : Routine.ofOutline outline = .ok r)
    {i : OpId} {o : Operation} (found : r.operation? i = some o) {initial : Option OpId}
    (form : o.form = .declare x initial) (symbols : Symbols) (own : s.routine = r.id)
    (n : Numbering) : ∃ t m, Semantics.builtin.process ⟨o, s, r, symbols⟩ n = (.ok [t], m) ∧
      (r.owner? x = some x → ∀ j, initial = some j → ∃ v, t.operation? j = some v ∧
        (∀ w, s.operation? j = some w → v = w) ∧ ∀ k, Yields r symbols x t k (· = v)) ∧
      (r.owner? x = some x → initial = none → s.Below n.created → ∀ k, n.created ≤ k.created →
        Yields r symbols x t k fun w => k.created ≤ w.index ∧ ¬s.Mentions w) ∧
      ∀ z, r.owner? x = some z → z ≠ x → ∀ w, s.symbol? z = some w → ∀ k,
        Yields r symbols x s k (· = w) ∧ Yields r symbols x t k (· = w) := by
  have closed := Outline.closed accepted
  cases initial with
  | some j =>
    obtain ⟨p, there⟩ := closed.child (c := j) found (by simp [form, Form.children])
    have here : o.id.routine = s.routine := by
      rw [closed.label found, own]
      exact (Routine.operation?_eq_some_iff.mp found).1
    have inside := (Routine.operation?_eq_some_iff.mp there).1.trans own.symm
    obtain ⟨t, v, m, answered, same, known, before, symbol⟩ :=
      process_of_declare_some (c := ⟨o, s, r, symbols⟩) form here inside n
    have own' := same.trans own
    refine ⟨t, m, answered, ?_, ?_, ?_⟩
    · rintro owned _ ⟨⟩
      refine ⟨v, known, before, ?_⟩
      intro k
      exact yields_of_bound closed own' owned symbols k ((symbol x).trans (if_pos rfl))
    · rintro _ ⟨⟩
    · intro z owned other w bound k
      have kept := (symbol z).trans ((if_neg other).trans bound)
      exact ⟨yields_of_bound closed own owned symbols k bound,
        yields_of_bound closed own' owned symbols k kept⟩
  | none =>
    have symbol := s.symbol?_clearSymbol x
    refine ⟨_, n, process_of_declare_none form n, ?_, ?_, ?_⟩
    · rintro _ _ ⟨⟩
    · intro owned _ below k later q found form read
      have unbound := (symbol x).trans (if_pos rfl)
      obtain ⟨u, w, answered, given, new⟩ := yields_of_unbound (t := s.clearSymbol x) closed own
        owned symbols k unbound ((below.mono later).clearSymbol x) q found form read
      refine ⟨u, w, answered, given, new, ?_⟩
      intro mentions
      exact Nat.not_lt.mpr (Nat.le_trans later new) (below.index_lt mentions)
    · intro z owned other w bound k
      have kept := (symbol z).trans ((if_neg other).trans bound)
      exact ⟨yields_of_bound closed own owned symbols k bound,
        yields_of_bound (t := s.clearSymbol x) closed own owned symbols k kept⟩

/-- A symbol is declared with an initial value and read, and declared without one and read again. -/
def declaring (closures : List (SymbolId × SymbolId)) : Outline where
  id := ⟨0⟩
  name := "declaring"
  blocks := #[⟨⟨0⟩, [⟨⟨0⟩, 1⟩, ⟨⟨0⟩, 2⟩, ⟨⟨0⟩, 3⟩, ⟨⟨0⟩, 4⟩], .leave none, none⟩]
  operations := #[⟨⟨⟨0⟩, 0⟩, .literal (.int 1), none⟩,
    ⟨⟨⟨0⟩, 1⟩, .declare ⟨0⟩ (some ⟨⟨0⟩, 0⟩), none⟩, ⟨⟨⟨0⟩, 2⟩, .localRef ⟨0⟩, none⟩,
    ⟨⟨⟨0⟩, 3⟩, .declare ⟨0⟩ none, none⟩, ⟨⟨⟨0⟩, 4⟩, .localRef ⟨0⟩, none⟩]
  closures := closures

/-- The initial value has a value, and the symbol has the value of an earlier iteration. -/
def declaringState : State where
  routine := ⟨0⟩
  operations := Table.empty.insert ⟨⟨0⟩, 0⟩ ⟨0⟩
  symbols := Table.empty.insert ⟨0⟩ ⟨1⟩
  facts := Table.empty
  captures := Table.empty

theorem process_declares_declaring : ∃ r, Routine.ofOutline (declaring []) = .ok r ∧
    (∃ t m u, Semantics.builtin.process ⟨⟨⟨⟨0⟩, 1⟩, .declare ⟨0⟩ (some ⟨⟨0⟩, 0⟩), none⟩,
        declaringState, r, ⟨fun _ => none⟩⟩ ⟨2, []⟩ = (.ok [t], m) ∧
      (Semantics.builtin.process ⟨⟨⟨⟨0⟩, 2⟩, .localRef ⟨0⟩, none⟩, t, r, ⟨fun _ => none⟩⟩
        ⟨2, []⟩).1 = .ok [u] ∧ u.operation? ⟨⟨0⟩, 2⟩ = some ⟨0⟩) ∧
    ∃ t m u w, Semantics.builtin.process ⟨⟨⟨⟨0⟩, 3⟩, .declare ⟨0⟩ none, none⟩, declaringState, r,
        ⟨fun _ => none⟩⟩ ⟨2, []⟩ = (.ok [t], m) ∧
      (Semantics.builtin.process ⟨⟨⟨⟨0⟩, 4⟩, .localRef ⟨0⟩, none⟩, t, r, ⟨fun _ => none⟩⟩
        ⟨2, []⟩).1 = .ok [u] ∧ u.operation? ⟨⟨0⟩, 4⟩ = some w ∧ w ≠ ⟨1⟩ := by
  refine ⟨_, rfl, ?_, ?_⟩
  · have accepted : Routine.ofOutline (declaring []) = .ok _ := rfl
    obtain ⟨t, m, answered, visible, _⟩ := process_declares accepted (i := ⟨⟨0⟩, 1⟩) rfl rfl
      ⟨fun _ => none⟩ (s := declaringState) rfl ⟨2, []⟩
    obtain ⟨v, _, before, yields⟩ := visible rfl _ rfl
    obtain ⟨u, w, read, given, same⟩ :=
      yields ⟨2, []⟩ ⟨⟨⟨0⟩, 2⟩, .localRef ⟨0⟩, none⟩ rfl rfl rfl
    exact ⟨t, m, u, answered, read, by rw [given, same, before ⟨0⟩ rfl]⟩
  · have accepted : Routine.ofOutline (declaring []) = .ok _ := rfl
    have below : declaringState.Below 2 := by
      have entered : (State.entry ⟨0⟩).Below 2 := State.below_entry ⟨0⟩ 2
      have evaluated := entered.setOperation (i := ⟨⟨0⟩, 0⟩) (v := ⟨0⟩) (by decide) rfl
      exact evaluated.setSymbol (by decide)
    obtain ⟨t, m, answered, _, renewed, _⟩ := process_declares accepted (i := ⟨⟨0⟩, 3⟩) rfl rfl
      ⟨fun _ => none⟩ (s := declaringState) rfl ⟨2, []⟩
    obtain ⟨u, w, read, given, new, _⟩ := renewed rfl rfl below ⟨2, []⟩ (Nat.le_refl _)
      ⟨⟨⟨0⟩, 4⟩, .localRef ⟨0⟩, none⟩ rfl rfl rfl
    refine ⟨t, m, u, w, answered, read, given, ?_⟩
    rintro rfl
    exact absurd new (by decide)

/-- If the declared symbol shares the storage of another one, a reference yields neither the initial
value after the first declaration nor a new value after the second one. -/
theorem process_declares_captured : ∃ r t u v w n m,
    Routine.ofOutline (declaring [(⟨0⟩, ⟨1⟩)]) = .ok r ∧
    Semantics.builtin.process ⟨⟨⟨⟨0⟩, 1⟩, .declare ⟨0⟩ (some ⟨⟨0⟩, 0⟩), none⟩, declaringState, r,
      ⟨fun _ => none⟩⟩ ⟨2, []⟩ = (.ok [t], n) ∧
    Semantics.builtin.process ⟨⟨⟨⟨0⟩, 2⟩, .localRef ⟨0⟩, none⟩, t, r, ⟨fun _ => none⟩⟩ n =
      (.ok [u], m) ∧ u.operation? ⟨⟨0⟩, 2⟩ ≠ t.operation? ⟨⟨0⟩, 0⟩ ∧
    Semantics.builtin.process ⟨⟨⟨⟨0⟩, 3⟩, .declare ⟨0⟩ none, none⟩, u, r, ⟨fun _ => none⟩⟩ m =
      (.ok [v], m) ∧
    Semantics.builtin.process ⟨⟨⟨⟨0⟩, 4⟩, .localRef ⟨0⟩, none⟩, v, r, ⟨fun _ => none⟩⟩ m =
      (.ok [w], m) ∧ w.operation? ⟨⟨0⟩, 4⟩ = u.operation? ⟨⟨0⟩, 2⟩ :=
  ⟨_, _, _, _, _, _, _, rfl, rfl, rfl, by decide, rfl, rfl, rfl⟩

end Rule

end SymbolicExecution
