import SymbolicExecution.Exploration
import SymbolicExecution.Proofs.Renaming.Branch
import SymbolicExecution.Proofs.Renaming.Rule

/-!
# Expansions differ by names only

What an expansion produces depends on the values numbered so far, and not on the expanded pair
alone. But if the numbering has grown since, the same is produced up to the names of new values. So
nothing is lost when a pair that was published before is dropped.
-/

namespace SymbolicExecution

/-- The same refusal, or as many states in the same order, which differ by the renaming. -/
inductive Rule.Alike (π : Value → Value) : Successors → Successors → Prop
  | refused (r : Refusal) : Alike π (.error r) (.error r)
  | states {l m : List State} (renamed : List.Forall₂ (State.Renames π) l m) :
      Alike π (.ok l) (.ok m)

namespace Correspondence

variable {c : Correspondence} {z : Situation} {t : State}

/-- A rule answers alike. -/
def TracksRule (c : Correspondence) (rule : Rule) (z : Situation) (t : State) : Prop :=
  ∃ d, c ≤ d ∧ d.left = (rule z c.left).2 ∧ d.right = (rule (image z t) c.right).2 ∧
    ((∃ r, (rule z c.left).1 = .error r ∧ (rule (image z t) c.right).1 = .error r) ∨
      ∃ l m, (rule z c.left).1 = .ok l ∧ (rule (image z t) c.right).1 = .ok m ∧
        List.Forall₂ d.States l m)

/-- A state of the first numbering is its own image in a later one. -/
theorem states_ofGrows {n m : Numbering} (made : Numbering.start.Grows Numbering.Any n)
    (closed : ∀ {t v}, n.find? t = some v → t.Below n.created) (grows : n.Grows Numbering.Any m)
    {s : State} (below : s.Below n.created) : (ofGrows made closed grows).States s s := by
  refine ⟨below, rfl, ?_, ?_, fun v => rfl, rfl⟩
  · intro i
    exact Option.map_id'.symm
  · intro x
    exact Option.map_id'.symm

theorem tracksRule_ofEval {f : Situation → Eval State}
    (tracks : c.Tracks States (f z) (f (image z t))) : c.TracksRule (Rule.ofEval f) z t := by
  obtain ⟨d, le, left, right, alike⟩ := tracks
  simp only [TracksRule, Rule.ofEval]
  generalize f z c.left = p at *
  generalize f (image z t) c.right = q at *
  obtain ⟨verdict, n⟩ := p
  obtain ⟨verdict', m⟩ := q
  cases alike with
  | result states =>
    exact ⟨d, le, left, right, Or.inr ⟨_, _, rfl, rfl, .cons states .nil⟩⟩
  | infeasible => exact ⟨d, le, left, right, Or.inr ⟨_, _, rfl, rfl, .nil⟩⟩
  | refused r => exact ⟨d, le, left, right, Or.inl ⟨r, rfl, rfl⟩⟩

theorem tracksRule_builtin (tag : Tag) (states : c.States z.state t) :
    c.TracksRule (Rule.builtin tag) z t := by
  cases tag with
  | literal => exact tracksRule_ofEval (tracks_literal states)
  | localRef | paramRef => exact tracksRule_ofEval (tracks_symbolRef states)
  | fieldRef => exact tracksRule_ofEval (tracks_fieldRef states)
  | this => exact tracksRule_ofEval (tracks_this states)
  | element => exact tracksRule_ofEval (tracks_element states)
  | paren | convert => exact tracksRule_ofEval (tracks_passThrough states)
  | capture => exact tracksRule_ofEval (tracks_capture states)
  | captureRef => exact tracksRule_ofEval (tracks_captureRef states)
  | assign => exact tracksRule_ofEval (tracks_assign states)
  | compound => exact tracksRule_ofEval (tracks_compound states)
  | step => exact tracksRule_ofEval (tracks_step states)
  | declare => exact tracksRule_ofEval (tracks_declare states)
  | binary => exact tracksRule_ofEval (tracks_binary states)
  | unary => exact tracksRule_ofEval (tracks_unary states)
  | call => exact tracksRule_ofEval (tracks_call states)
  | create => exact tracksRule_ofEval (tracks_create states)
  | isType => exact tracksRule_ofEval (tracks_isType states)
  | isPattern => exact tracksRule_ofEval (tracks_isPattern states)
  | other => exact tracksRule_ofEval (states.tracks_unknown z t)

end Correspondence

namespace Semantics

/-- The chains of the built-in semantics have one rule each. -/
theorem process_builtin (z : Situation) (n : Numbering) :
    builtin.process z n = Rule.builtin z.operation.tag z n := by
  have one : ∀ (rule : Rule), Rule.chain z [rule] [z.state] n = rule z n := by
    intro rule
    simp only [Rule.chain, Rule.each]
    cases rule z n with
    | mk answer m =>
      cases answer with
      | error r => rfl
      | ok l => simp
  exact one (Rule.builtin z.operation.tag)

end Semantics

namespace Exploration

variable {σ : Type} (e : Exploration σ)

/-- An expansion produces the same up to the names of new values. Let `F'` come from `F` by
numbering any unknowns and terms, and let `s` mention values of `F` only, as the terms of `F` do.
Then under a renaming that keeps the values of `F`, an operation has the same successors, and a
branch has the same sides as they enter their blocks. -/
theorem expansions_alike (builtin : e.semantics = .builtin) (o : Operation) (condition : OpId)
    {s : State} {F F' : Numbering} (made : Numbering.start.Grows Numbering.Any F)
    (closed : ∀ {t v}, F.find? t = some v → t.Below F.created)
    (grown : F.Grows Numbering.Any F') (below : s.Below F.created) :
    (∃ π : Renaming, (∀ v : Value, v.index < F.created → π v = v) ∧
      Rule.Alike π (e.semantics.process ⟨o, s, e.routine, e.symbols⟩ F).1
        (e.semantics.process ⟨o, s, e.routine, e.symbols⟩ F').1) ∧
    ∃ π : Renaming, (∀ v : Value, v.index < F.created → π v = v) ∧
      Verdict.Alike
        (List.Forall₂ fun a b => a.1 = b.1 ∧ (e.crossing a.2).Renames π (e.crossing b.2))
        (e.routine.split e.config.learnAtBranches s condition F).1
        (e.routine.split e.config.learnAtBranches s condition F').1 := by
  have states := Correspondence.states_ofGrows made closed grown below
  constructor
  · rw [builtin, Semantics.process_builtin, Semantics.process_builtin]
    obtain ⟨d, le, _, _, answers⟩ := Correspondence.tracksRule_builtin o.tag
      (z := ⟨o, s, e.routine, e.symbols⟩) states
    refine ⟨d.rename, fun v old => le.agrees old, ?_⟩
    change Rule.Alike _ (Rule.builtin o.tag _ F).1 (Rule.builtin o.tag _ F').1
    rcases answers with ⟨r, left, right⟩ | ⟨l, m, left, right, related⟩
    · change (Rule.builtin o.tag _ F).1 = _ at left
      change (Rule.builtin o.tag _ F').1 = _ at right
      rw [left, right]
      exact .refused r
    · change (Rule.builtin o.tag _ F).1 = _ at left
      change (Rule.builtin o.tag _ F').1 = _ at right
      rw [left, right]
      exact .states (related.imp fun _ _ states => states.renames)
  · obtain ⟨d, le, _, _, alike⟩ :=
      states.tracks_split e.routine e.config.learnAtBranches condition
    refine ⟨d.rename, fun v old => le.agrees old, ?_⟩
    have crossed : ∀ a b, d.Sides a b →
        a.1 = b.1 ∧ (e.crossing a.2).Renames d.rename (e.crossing b.2) := by
      intro a b sides
      refine ⟨sides.outcome, ?_⟩
      simp only [crossing]
      cases e.config.resetAtBoundary with
      | true => exact sides.states.forgetOperations.renames
      | false => exact sides.states.renames
    change Verdict.Alike _ (e.routine.split _ _ _ F).1 (e.routine.split _ _ _ F').1
    change Verdict.Alike _ (e.routine.split _ _ _ F).1 (e.routine.split _ _ _ F').1 at alike
    generalize (e.routine.split e.config.learnAtBranches s condition F).1 = x at *
    generalize (e.routine.split e.config.learnAtBranches s condition F').1 = y at *
    cases alike with
    | result related => exact .result (related.imp crossed)
    | infeasible => exact .infeasible
    | refused r => exact .refused r

/-- A local variable and its negation, which also decides a branch. -/
def negation : Exploration Unit where
  routine :=
    { id := ⟨0⟩
      name := "negation"
      blocks := #[⟨⟨0⟩, [], .branch ⟨⟨0⟩, 1⟩ ⟨1⟩ ⟨1⟩, none⟩, ⟨⟨1⟩, [], .leave none, none⟩]
      operations := #[⟨⟨⟨0⟩, 0⟩, .localRef ⟨0⟩, none⟩, ⟨⟨⟨0⟩, 1⟩, .unary .not ⟨⟨0⟩, 0⟩, none⟩]
      closures := Table.empty
      orders := #[#[⟨⟨0⟩, 0⟩, ⟨⟨0⟩, 1⟩], #[]]
      written := [] }
  symbols := ⟨fun _ => none⟩
  semantics := .builtin
  checks := []
  config := default

theorem expansions_alike_negation :
    (∃ π : Renaming, (∀ v : Value, v.index < Numbering.start.created → π v = v) ∧
      Rule.Alike π
        (negation.semantics.process
          ⟨⟨⟨⟨0⟩, 1⟩, .unary .not ⟨⟨0⟩, 0⟩, none⟩, .entry ⟨0⟩, negation.routine, negation.symbols⟩
          Numbering.start).1
        (negation.semantics.process
          ⟨⟨⟨⟨0⟩, 1⟩, .unary .not ⟨⟨0⟩, 0⟩, none⟩, .entry ⟨0⟩, negation.routine, negation.symbols⟩
          Numbering.start.fresh.2).1) ∧
    ∃ π : Renaming, (∀ v : Value, v.index < Numbering.start.created → π v = v) ∧
      Verdict.Alike
        (List.Forall₂ fun a b =>
          a.1 = b.1 ∧ (negation.crossing a.2).Renames π (negation.crossing b.2))
        (negation.routine.split true (.entry ⟨0⟩) ⟨⟨0⟩, 1⟩ Numbering.start).1
        (negation.routine.split true (.entry ⟨0⟩) ⟨⟨0⟩, 1⟩ Numbering.start.fresh.2).1 := by
  refine negation.expansions_alike rfl ⟨⟨⟨0⟩, 1⟩, .unary .not ⟨⟨0⟩, 0⟩, none⟩ ⟨⟨0⟩, 1⟩ .refl ?_
    (.fresh .refl) (State.below_entry ⟨0⟩ _)
  intro t v known
  cases known

/-- Were the terms of `F` free to mention values that do not exist yet, new values could be confused
with old ones: here `F` has numbered the negation of the value number 7, which is the next one of
`F'`, so that `F'` negates its new value without creating another. -/
theorem not_alike_of_early_term :
    ∃ F F' : Numbering, Numbering.start.Grows Numbering.Any F ∧ F.Grows Numbering.Any F' ∧
      (State.entry ⟨0⟩).Below F.created ∧
      ¬∃ π : Value → Value, Function.Injective π ∧ (∀ v : Value, v.index < F.created → π v = v) ∧
        Rule.Alike π
          (Semantics.builtin.process
            ⟨⟨⟨⟨0⟩, 1⟩, .unary .not ⟨⟨0⟩, 0⟩, none⟩, .entry ⟨0⟩, negation.routine, negation.symbols⟩
            F).1
          (Semantics.builtin.process
            ⟨⟨⟨⟨0⟩, 1⟩, .unary .not ⟨⟨0⟩, 0⟩, none⟩, .entry ⟨0⟩, negation.routine, negation.symbols⟩
            F').1 := by
  refine ⟨⟨1, [(.unary .not ⟨7⟩, ⟨0⟩)]⟩, ⟨7, [(.unary .not ⟨7⟩, ⟨0⟩)]⟩, ?_, ?_,
    State.below_entry ⟨0⟩ 1, ?_⟩
  · exact .intern (t := .unary .not ⟨7⟩) .refl trivial
  · exact (((((Numbering.Grows.refl.fresh).fresh).fresh).fresh).fresh).fresh
  · rintro ⟨π, injective, kept, alike⟩
    cases alike with
    | states renamed =>
      cases renamed with
      | cons image _ =>
        have named : some (⟨0⟩ : Value) = some (π ⟨2⟩) := image.operation ⟨⟨0⟩, 1⟩
        have same : π ⟨2⟩ = π ⟨0⟩ := by
          rw [kept ⟨0⟩ Nat.one_pos]
          exact (Option.some.inj named).symm
        cases injective same

end Exploration

end SymbolicExecution
