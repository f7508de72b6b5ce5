import SymbolicExecution.Proofs.Exploration.Feasible
import SymbolicExecution.Proofs.Footprint.Write

/-!
# Writes to fields

What is written to a field of `this` is what the field is read to be afterwards. Whether a reference
goes through `this` is a matter of its form: a write through something else leaves all symbols as
they are, also where the value that it goes through is the one of `this`.
-/

namespace SymbolicExecution

/-- The operation reads the field of `this`. -/
structure Routine.ReadsOwn (r : Routine) (x : SymbolId) (p : Operation) : Prop where
  found : r.operation? p.id = some p
  read : r.isWritten p.id = false
  own : ∃ receiver, p.form = .fieldRef (some receiver) x ∧ r.isThis receiver

namespace Exploration

variable {σ : Type} {e : Exploration σ} {p : Pair} {o a q : Operation} {target receiver : OpId}
  {f : SymbolId} {n m : Numbering} {states : List State} {t : State}

/-- What is read of a field of `this` is what it is bound to, or a new value. -/
theorem reads_own (builtin : e.semantics = .builtin) (reads : e.routine.ReadsOwn f q)
    (answered : (e.answer p q n).1 = .ok states) (mem : t ∈ states) :
    ∃ w, t.operation? q.id = some w ∧ ((e.routine.owner? f).bind p.state.symbol? = some w ∨
      (e.routine.owner? f).bind p.state.symbol? = none ∧ n.created ≤ w.index) := by
  obtain ⟨found, read, receiver, form, own⟩ := reads
  rw [answer, builtin] at answered
  have given := Rule.leaves_of_process (Model.builtin_tag form)
    (Rule.leaves_fieldRef (c := ⟨q, p.state, e.routine, e.symbols⟩) form read)
    (Prod.ext answered rfl) t mem
  have reached : p.state.storage? e.routine q.id = e.routine.owner? f := by
    rw [State.storage?_of_fieldRef found form, if_pos own]
  simpa only [Rule.Reads, Rule.bound?, reached] using given

section Write

variable (builtin : e.semantics = .builtin) (writes : o.form.target? = some target)
  (answered : (e.answer p o n).1 = .ok states) (mem : t ∈ states)

include builtin writes answered mem

theorem writes_of_answer :
    Rule.Writes ⟨o, p.state, e.routine, e.symbols⟩ n target t := by
  rw [answer, builtin] at answered
  obtain ⟨g, meaning, leaves⟩ :=
    Rule.leaves_target (c := ⟨o, p.state, e.routine, e.symbols⟩) (n := n) writes
  exact Rule.leaves_of_process meaning leaves (Prod.ext answered rfl) t mem

variable (known : e.routine.operation? target = some a)
  (field : a.form = .fieldRef (some receiver) f)

include known field

/-- A write to a field of `this` binds the symbol that owns the field, and no other. -/
theorem writes_own (own : e.routine.isThis receiver) :
    ∃ s v, (Rule.computed ⟨o, p.state, e.routine, e.symbols⟩ n).1 = .result (s, v) ∧
      ∀ x, t.symbol? x = if e.routine.owner? f = some x then some v else p.state.symbol? x := by
  have reached : p.state.storage? e.routine target = e.routine.owner? f := by
    rw [State.storage?_of_fieldRef known field, if_pos own]
  simpa only [reached] using (writes_of_answer builtin writes answered mem).symbol?

/-- A write to a field of something else binds nothing. -/
theorem writes_foreign (foreign : e.routine.isThis receiver = false) :
    t.symbols = p.state.symbols := by
  obtain ⟨s, v, _, symbols⟩ := writes_of_answer builtin writes answered mem
  have reached : p.state.storage? e.routine target = none := by
    rw [State.storage?_of_fieldRef known field, foreign]
    rfl
  simpa only [State.write, reached] using symbols

end Write

/-- Where the exploration writes to a field of `this`, no read of it in a successor gives the value
that the field was bound to before, unless that is the value that is written. A write to a field of
something else leaves all symbols as they are, whatever the value of its receiver is. -/
theorem run_reads_written {outline : Outline}
    (accepted : Routine.ofOutline outline = .ok e.routine) (builtin : e.semantics = .builtin)
    {memory : σ} {l : List Move} {run : Run σ} (moment : e.Moment memory l run)
    (published : p ∈ run.visited ∨ p ∈ run.pending) (writes : o.form.target? = some target)
    (known : e.routine.operation? target = some a) (field : a.form = .fieldRef (some receiver) f)
    (answered : (e.answer p o n).1 = .ok states) (mem : t ∈ states) :
    (e.routine.isThis receiver → ∃ s v,
      (Rule.computed ⟨o, p.state, e.routine, e.symbols⟩ n).1 = .result (s, v) ∧
      ∀ q, e.routine.ReadsOwn f q → ∀ point m reads, run.numbering.created ≤ m.created →
        (e.answer ⟨point, t⟩ q m).1 = .ok reads → ∀ u ∈ reads, ∃ w,
          u.operation? q.id = some w ∧ (p.state.symbol? f = some w → w = v)) ∧
    (e.routine.isThis receiver = false → t.symbols = p.state.symbols) := by
  have orderly := moment.orderly (Outline.closed accepted) builtin
  have sound : e.Sound run.numbering p := published.elim (orderly.visited p) (orderly.pending p)
  refine ⟨?_, writes_foreign builtin writes answered mem known field⟩
  intro own
  obtain ⟨s, v, value, bound⟩ := writes_own builtin writes answered mem known field own
  refine ⟨s, v, value, ?_⟩
  intro q reads point m successors later read u hu
  obtain ⟨w, given, origin⟩ := reads_own builtin reads read hu
  refine ⟨w, given, ?_⟩
  intro before
  cases owner : e.routine.owner? f with
  | none =>
    -- captured in a circle, so that nothing is stored and the value that is read is new
    rw [owner] at origin
    obtain ⟨unbound, new⟩ := origin.resolve_left (fun bound => by cases bound)
    have old := sound.below.symbol before
    omega
  | some x =>
    have last : t.symbol? x = some v := by rw [bound, if_pos owner]
    rw [owner, Option.bind_some, last] at origin
    rcases origin with same | ⟨unbound, _⟩
    · exact (Option.some.inj same).symm
    · cases unbound

/-- A variable holds `this`. A field is written through `this`, through the variable and through
`this` again, and is read after each write but the first. -/
def aliasing : Outline where
  id := ⟨0⟩
  name := "aliasing"
  blocks := #[⟨⟨0⟩, [⟨⟨0⟩, 2⟩, ⟨⟨0⟩, 6⟩, ⟨⟨0⟩, 10⟩, ⟨⟨0⟩, 12⟩, ⟨⟨0⟩, 16⟩, ⟨⟨0⟩, 18⟩],
    .leave none, none⟩]
  operations := #[⟨⟨⟨0⟩, 0⟩, .localRef ⟨0⟩, none⟩, ⟨⟨⟨0⟩, 1⟩, .this, none⟩,
    ⟨⟨⟨0⟩, 2⟩, .assign ⟨⟨0⟩, 0⟩ ⟨⟨0⟩, 1⟩, none⟩, ⟨⟨⟨0⟩, 3⟩, .this, none⟩,
    ⟨⟨⟨0⟩, 4⟩, .fieldRef (some ⟨⟨0⟩, 3⟩) ⟨1⟩, none⟩, ⟨⟨⟨0⟩, 5⟩, .literal (.int 1), none⟩,
    ⟨⟨⟨0⟩, 6⟩, .assign ⟨⟨0⟩, 4⟩ ⟨⟨0⟩, 5⟩, none⟩, ⟨⟨⟨0⟩, 7⟩, .localRef ⟨0⟩, none⟩,
    ⟨⟨⟨0⟩, 8⟩, .fieldRef (some ⟨⟨0⟩, 7⟩) ⟨1⟩, none⟩, ⟨⟨⟨0⟩, 9⟩, .literal (.int 2), none⟩,
    ⟨⟨⟨0⟩, 10⟩, .assign ⟨⟨0⟩, 8⟩ ⟨⟨0⟩, 9⟩, none⟩, ⟨⟨⟨0⟩, 11⟩, .this, none⟩,
    ⟨⟨⟨0⟩, 12⟩, .fieldRef (some ⟨⟨0⟩, 11⟩) ⟨1⟩, none⟩, ⟨⟨⟨0⟩, 13⟩, .this, none⟩,
    ⟨⟨⟨0⟩, 14⟩, .fieldRef (some ⟨⟨0⟩, 13⟩) ⟨1⟩, none⟩, ⟨⟨⟨0⟩, 15⟩, .literal (.int 3), none⟩,
    ⟨⟨⟨0⟩, 16⟩, .assign ⟨⟨0⟩, 14⟩ ⟨⟨0⟩, 15⟩, none⟩, ⟨⟨⟨0⟩, 17⟩, .this, none⟩,
    ⟨⟨⟨0⟩, 18⟩, .fieldRef (some ⟨⟨0⟩, 17⟩) ⟨1⟩, none⟩]
  closures := []

def aliasingExploration : Exploration Unit where
  routine :=
    { id := ⟨0⟩
      name := "aliasing"
      blocks := aliasing.blocks
      operations := aliasing.operations
      closures := Table.empty
      orders := #[(aliasing.operations.toList.map Operation.id).toArray]
      written := [⟨⟨0⟩, 0⟩, ⟨⟨0⟩, 4⟩, ⟨⟨0⟩, 8⟩, ⟨⟨0⟩, 14⟩] }
  symbols := ⟨fun _ => none⟩
  semantics := .builtin
  checks := []
  config := default

/-- The variable holds the value of `this`, but what is written through it is not what `this` reads:
the field keeps the value that it had before. -/
theorem reads_stale_after_aliased_write :
    ∃ p ∈ (aliasingExploration.run () false).visited, p.point = ⟨⟨0⟩, 10⟩ ∧
      p.state.operation? ⟨⟨0⟩, 7⟩ = (aliasingExploration.run () false).numbering.find? .this ∧
      (p.state.operation? ⟨⟨0⟩, 7⟩).isSome ∧ (p.state.symbol? ⟨1⟩).isSome ∧
      p.state.operation? ⟨⟨0⟩, 9⟩ ≠ p.state.symbol? ⟨1⟩ ∧
      ∃ t ∈ (aliasingExploration.answer p ⟨⟨⟨0⟩, 10⟩, .assign ⟨⟨0⟩, 8⟩ ⟨⟨0⟩, 9⟩, none⟩
          (aliasingExploration.run () false).numbering).1.toOption.getD [],
        ∃ u ∈ (aliasingExploration.answer ⟨⟨⟨0⟩, 12⟩, t⟩
            ⟨⟨⟨0⟩, 12⟩, .fieldRef (some ⟨⟨0⟩, 11⟩) ⟨1⟩, none⟩
            (aliasingExploration.run () false).numbering).1.toOption.getD [],
          u.operation? ⟨⟨0⟩, 12⟩ = p.state.symbol? ⟨1⟩ := by
  decide +kernel

/-- What is written through `this` is read afterwards in place of what the field was bound to. -/
theorem run_reads_written_aliasing :
    ∃ p ∈ (aliasingExploration.run () false).visited, p.point = ⟨⟨0⟩, 16⟩ ∧
      ∃ s v states t reads u w old, p.state.symbol? ⟨1⟩ = some old ∧
        (Rule.computed ⟨⟨⟨⟨0⟩, 16⟩, .assign ⟨⟨0⟩, 14⟩ ⟨⟨0⟩, 15⟩, none⟩, p.state,
          aliasingExploration.routine, aliasingExploration.symbols⟩
          (aliasingExploration.run () false).numbering).1 = .result (s, v) ∧
        (aliasingExploration.answer p ⟨⟨⟨0⟩, 16⟩, .assign ⟨⟨0⟩, 14⟩ ⟨⟨0⟩, 15⟩, none⟩
          (aliasingExploration.run () false).numbering).1 = .ok states ∧ t ∈ states ∧
        (aliasingExploration.answer ⟨⟨⟨0⟩, 18⟩, t⟩
          ⟨⟨⟨0⟩, 18⟩, .fieldRef (some ⟨⟨0⟩, 17⟩) ⟨1⟩, none⟩
          (aliasingExploration.run () false).numbering).1 = .ok reads ∧ u ∈ reads ∧
        u.operation? ⟨⟨0⟩, 18⟩ = some w ∧ (p.state.symbol? ⟨1⟩ = some w → w = v) ∧ w ≠ old := by
  have accepted : Routine.ofOutline aliasing = .ok aliasingExploration.routine := by rfl
  have runs : ∃ p ∈ (aliasingExploration.run () false).visited, p.point = ⟨⟨0⟩, 16⟩ ∧
      (p.state.symbol? ⟨1⟩).isSome ∧
      ∃ t ∈ (aliasingExploration.answer p ⟨⟨⟨0⟩, 16⟩, .assign ⟨⟨0⟩, 14⟩ ⟨⟨0⟩, 15⟩, none⟩
          (aliasingExploration.run () false).numbering).1.toOption.getD [],
        ∃ u ∈ (aliasingExploration.answer ⟨⟨⟨0⟩, 18⟩, t⟩
            ⟨⟨⟨0⟩, 18⟩, .fieldRef (some ⟨⟨0⟩, 17⟩) ⟨1⟩, none⟩
            (aliasingExploration.run () false).numbering).1.toOption.getD [],
          u.operation? ⟨⟨0⟩, 18⟩ ≠ p.state.symbol? ⟨1⟩ := by decide +kernel
  have answered : ∀ {x : Successors} {t : State}, t ∈ x.toOption.getD [] →
      ∃ states, x = .ok states ∧ t ∈ states := by
    intro x t mem
    cases x with
    | ok states => exact ⟨states, rfl, mem⟩
    | error r => cases mem
  obtain ⟨p, hp, point, bound, t, ht, u, hu, other⟩ := runs
  obtain ⟨old, bound⟩ := Option.isSome_iff_exists.mp bound
  obtain ⟨states, writes, ht⟩ := answered ht
  obtain ⟨reads, read, hu⟩ := answered hu
  obtain ⟨k, attains⟩ := aliasingExploration.attains_run () false
  have known : aliasingExploration.routine.operation? ⟨⟨0⟩, 14⟩ =
      some ⟨⟨⟨0⟩, 14⟩, .fieldRef (some ⟨⟨0⟩, 13⟩) ⟨1⟩, none⟩ := rfl
  obtain ⟨s, v, value, given⟩ := (run_reads_written accepted rfl attains.moment (Or.inl hp)
    rfl known rfl writes ht).1 (by decide)
  obtain ⟨w, here, written⟩ := given _ ⟨rfl, by decide, _, rfl, by decide⟩ _ _ _ (Nat.le_refl _)
    read u hu
  refine ⟨p, hp, point, s, v, states, t, reads, u, w, old, bound, value, writes, ht, read, hu, here,
    written, ?_⟩
  rintro rfl
  exact other (here.trans bound.symm)

end Exploration

end SymbolicExecution
