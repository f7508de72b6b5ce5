import SymbolicExecution.Proofs.Exploration.Faultless
import SymbolicExecution.Proofs.Exploration.Moment
import SymbolicExecution.Proofs.Exploration.Scope

/-!
# Published states are feasible

With the built-in semantics, the states that are published contradict nothing and mention values
that exist when they are published. Rules and branches learn proper facts only, and a turn numbers
the values of its successors before it publishes them.
-/

namespace SymbolicExecution

/-- The built-in semantics leaves what is known feasible. -/
theorem Semantics.feasible_of_process {c : Situation} (feasible : c.state.Feasible) {n : Numbering}
    {states : List State} (answered : (builtin.process c n).1 = .ok states) :
    ∀ u ∈ states, u.Feasible := by
  obtain ⟨t, rfl, keeps⟩ := Rule.process_answers answered
  intro u hu
  exact (keeps u (Option.mem_toList.mp hu)).feasible feasible

namespace Routine

variable {r : Routine} {s : State}

theorem split_feasible {condition : OpId} (own : condition.routine = s.routine)
    (feasible : s.Feasible) (learning : Bool) {n : Numbering} {sides : List (Bool × State)}
    (answered : (r.split learning s condition n).1 = .result sides) :
    ∀ side ∈ sides, side.2.Feasible := by
  have ensured := State.ensures_split r learning own n
  rw [answered] at ensured
  cases ensured with
  | result becomes => exact fun side hside => (becomes side hside).feasible feasible

end Routine

namespace Exploration

variable {σ : Type} (e : Exploration σ)

/-- The pair belongs to the routine, and its state contradicts nothing and mentions values that the
numbering has created. -/
structure Sound (n : Numbering) (p : Pair) : Prop extends e.Places p where
  feasible : p.state.Feasible
  below : p.state.Below n.created

/-- The moves publish what is sound when it is published, as far as the numbering then goes. -/
def Announces : Numbering → List Move → Prop
  | _, [] => True
  | n, .renumber m :: rest => n.Grows Numbering.InScope m ∧ Announces m rest
  | n, .publish p _ :: rest => e.Sound n p ∧ Announces n rest
  | n, _ :: rest => Announces n rest

variable {e} {n m : Numbering} {p : Pair}

theorem Sound.mono (sound : e.Sound n p) (grows : n.Grows Numbering.InScope m) : e.Sound m p :=
  ⟨sound.toPlaces, sound.feasible, sound.below.mono grows.created_le⟩

/-- Moves that do not renumber announce what each of them publishes. -/
theorem announces_of_all {l : List Move}
    (all : ∀ move ∈ l, ∃ q operation, move = .publish q operation ∧ e.Sound n q) :
    e.Announces n l := by
  induction l with
  | nil => trivial
  | cons move rest ih =>
    obtain ⟨q, operation, rfl, sound⟩ := all move List.mem_cons_self
    exact ⟨sound, ih fun move hm => all move (List.mem_cons_of_mem _ hm)⟩

theorem sound_entering {b : BlockId} {s : State} (known : ∃ k, e.routine.block? b = some k)
    (owns : e.routine.Owns s) (feasible : s.Feasible) (below : s.Below n.created) :
    e.Sound n ⟨Point.entry b, e.crossing s⟩ := by
  refine ⟨faultless_entering known owns, ?_, below_crossing below⟩
  simp only [crossing]
  split
  · exact feasible.forgetOperations
  · exact feasible

section Moves

variable (closed : e.routine.Closed) (builtin : e.semantics = .builtin) (sound : e.Sound n p)
  (made : Numbering.start.Grows Numbering.InScope n)

include closed sound

theorem announces_succeeding {o : Operation} {s : State} (owns : e.routine.Owns s)
    (feasible : s.Feasible) (below : s.Below m.created) :
    e.Announces m (e.succeeding p.point o s) := by
  apply announces_of_all
  intro move hm
  rcases List.mem_append.mp hm with thrown | next
  · obtain ⟨h, handler, rfl⟩ := Option.map_eq_some_iff.mp (Option.mem_toList.mp thrown)
    obtain ⟨_, handles⟩ := Option.ite_none_right_eq_some.mp handler
    obtain ⟨k, found, handled⟩ := Option.bind_eq_some_iff.mp handles
    exact ⟨_, _, rfl, sound_entering (closed.handler found handled) owns feasible below⟩
  · rw [List.mem_singleton.mp next]
    exact ⟨_, _, rfl, ⟨sound.block, owns⟩, feasible, below⟩

include made

theorem announces_forking {b : Block} {condition : OpId} {whenTrue whenFalse : BlockId}
    (left : e.leftAt? p.point = some b) (exit : b.exit = .branch condition whenTrue whenFalse) :
    e.Announces n (e.forking p.state condition whenTrue whenFalse n) := by
  have found := e.block?_of_leftAt? left
  have evaluated : condition ∈ b.evaluated := by simp [Block.evaluated, exit, Exit.value?]
  obtain ⟨o, known⟩ := closed.evaluated found evaluated
  have own : condition.routine = p.state.routine :=
    (Routine.operation?_eq_some_iff.mp known).1.trans sound.owns.routine.symm
  have ensured := sound.owns.split ⟨o, known⟩ e.config.learnAtBranches n
  obtain ⟨grows, below⟩ :=
    e.routine.split_scoped e.config.learnAtBranches condition made sound.below
  have feasible := @Routine.split_feasible e.routine p.state condition own sound.feasible
    e.config.learnAtBranches n
  simp only [forking]
  generalize e.routine.split e.config.learnAtBranches p.state condition n = answer at *
  obtain ⟨verdict, m⟩ := answer
  cases ensured with
  | infeasible => exact ⟨grows, trivial⟩
  | refused allowed => exact allowed.elim
  | @result sides owns =>
    have entered : e.Announces m (sides.map fun side =>
        e.entering (if side.1 then whenTrue else whenFalse) side.2) := by
      apply announces_of_all
      intro move hm
      obtain ⟨side, hside, rfl⟩ := List.mem_map.mp hm
      refine ⟨_, _, rfl, sound_entering ?_ (owns side hside) (feasible rfl side hside)
        (below _ rfl side hside)⟩
      split
      · exact closed.target found (by simp [exit, Exit.targets])
      · exact closed.target found (by simp [exit, Exit.targets])
    refine ⟨grows, ?_⟩
    split
    · exact entered
    · exact entered

include builtin

theorem announces_evaluating {o : Operation} (operation : e.operationAt? p.point = some o) :
    e.Announces n (e.evaluating p o n) := by
  obtain ⟨i, _, found⟩ := Option.bind_eq_some_iff.mp operation
  obtain ⟨t, answered, owns⟩ := sound.owns.process closed found e.symbols n
  obtain ⟨grows, below⟩ := Semantics.process_scoped ⟨o, p.state, e.routine, e.symbols⟩ made
    sound.below
  have feasible := Semantics.feasible_of_process (c := ⟨o, p.state, e.routine, e.symbols⟩)
    sound.feasible answered
  have below := below _ answered
  simp only [evaluating, builtin]
  generalize Semantics.builtin.process ⟨o, p.state, e.routine, e.symbols⟩ n = answer at *
  obtain ⟨verdict, m⟩ := answer
  cases answered
  cases t with
  | none => exact ⟨grows, trivial⟩
  | some u =>
    have successor := announces_succeeding closed sound (o := o) (owns u rfl)
      (feasible u List.mem_cons_self) (below u List.mem_cons_self)
    exact ⟨grows, by simpa using successor⟩

/-- An expansion announces what it publishes. -/
theorem announces_moves : e.Announces n (e.moves p n) := by
  simp only [moves]
  split
  · rename_i i here
    split
    · rename_i o found
      exact announces_evaluating closed builtin sound made (by simp [operationAt?, here, found])
    · trivial
  · rename_i outside
    obtain ⟨b, found⟩ := sound.block
    have left : e.leftAt? p.point = some b := by simp [leftAt?, outside, found]
    simp only [leaving, found]
    cases exit : b.exit with
    | goTo target =>
      have known := closed.target found (t := target) (by simp [exit, Exit.targets])
      exact ⟨sound_entering known sound.owns sound.feasible sound.below, trivial⟩
    | branch condition whenTrue whenFalse =>
      exact announces_forking closed sound made left exit
    | raise value =>
      cases handler : b.handler with
      | none => trivial
      | some h =>
        have known := closed.handler found handler
        exact ⟨sound_entering known sound.owns sound.feasible sound.below, trivial⟩
    | leave value => trivial

end Moves

variable (e) in
/-- What was published is sound, and what is about to be published will be. -/
structure Orderly (l : List Move) (r : Run σ) : Prop where
  made : Numbering.start.Grows Numbering.InScope r.numbering
  visited : ∀ q ∈ r.visited, e.Sound r.numbering q
  pending : ∀ q ∈ r.pending, e.Sound r.numbering q
  coming : r.outcome = none → e.Announces r.numbering l

theorem Orderly.publish {l : List Move} {r : Run σ} {operation : Option Operation}
    (orderly : e.Orderly (.publish p operation :: l) r) :
    e.Orderly l (e.publish p operation r) := by
  apply e.publish_elim
  case ended =>
    exact fun ended => ⟨orderly.made, orderly.visited, orderly.pending, fun r => absurd r ended⟩
  case known =>
    exact fun running _ => ⟨orderly.made, orderly.visited, orderly.pending,
      fun _ => (orderly.coming running).2⟩
  case full => exact fun _ _ _ => ⟨orderly.made, orderly.visited, orderly.pending, nofun⟩
  case new =>
    intro running _ _
    obtain ⟨sound, coming⟩ := orderly.coming running
    constructor
    · simpa using orderly.made
    · intro q hq
      rw [accept_visited] at hq
      rw [accept_numbering]
      rcases Array.mem_push.mp hq with hq | rfl
      · exact orderly.visited q hq
      · exact sound
    · intro q hq
      rw [accept_pending] at hq
      rw [accept_numbering]
      rcases List.mem_append.mp hq with hq | hq
      · exact orderly.pending q hq
      · rw [List.mem_singleton.mp hq]
        exact sound
    · simpa using fun _ => coming

/-- A move keeps to what was announced. -/
theorem Orderly.play {l : List Move} {r : Run σ} {move : Move}
    (orderly : e.Orderly (move :: l) r) : e.Orderly l (e.play r move) := by
  cases running : r.outcome with
  | some o =>
    rw [e.play_of_ended (by simp [running])]
    exact ⟨orderly.made, orderly.visited, orderly.pending, by simp [running]⟩
  | none =>
    have coming := orderly.coming running
    rw [e.play_of_running running]
    cases move with
    | publish p operation => exact orderly.publish
    | renumber m =>
      obtain ⟨grows, coming⟩ := coming
      exact ⟨orderly.made.trans grows, fun q hq => (orderly.visited q hq).mono grows,
        fun q hq => (orderly.pending q hq).mono grows, fun _ => coming⟩
    | discard | skip | terminate =>
      exact ⟨orderly.made, orderly.visited, orderly.pending, fun _ => coming⟩
    | fail => exact ⟨orderly.made, orderly.visited, orderly.pending, nofun⟩

/-- A move numbers what was announced. -/
theorem Orderly.grows_play {l : List Move} {r : Run σ} {move : Move}
    (orderly : e.Orderly (move :: l) r) :
    r.numbering.Grows Numbering.InScope (e.play r move).numbering := by
  cases running : r.outcome with
  | some o =>
    rw [e.play_of_ended (by simp [running])]
    exact .refl
  | none =>
    rw [e.play_of_running running]
    cases move with
    | publish p operation =>
      rw [act, numbering_publish]
      exact .refl
    | renumber m => exact (orderly.coming running).1
    | discard | skip | terminate | fail => exact .refl

theorem Orderly.grows_foldl {l : List Move} {r : Run σ} (orderly : e.Orderly l r) :
    r.numbering.Grows Numbering.InScope (l.foldl e.play r).numbering := by
  induction l generalizing r with
  | nil => exact .refl
  | cons move rest ih => exact orderly.grows_play.trans (ih orderly.play)

theorem Orderly.finish {l : List Move} {r : Run σ} (orderly : e.Orderly l r) (o : Outcome) :
    e.Orderly [] (r.finish o) :=
  ⟨orderly.made, orderly.visited, orderly.pending, fun _ => trivial⟩

section Turn

variable (closed : e.routine.Closed) (builtin : e.semantics = .builtin)

include closed builtin

/-- What waits is expanded in order. -/
theorem Orderly.take {r : Run σ} {rest : List Pair} (orderly : e.Orderly [] r)
    (pending : r.pending = p :: rest) : e.Orderly (e.moves p r.numbering) (step rest r) := by
  have sound := orderly.pending p (pending ▸ List.mem_cons_self)
  exact ⟨orderly.made, orderly.visited,
    fun q hq => orderly.pending q (pending ▸ List.mem_cons_of_mem p hq),
    fun _ => announces_moves closed builtin sound orderly.made⟩

/-- A turn numbers what was announced. -/
theorem Orderly.grows_advance {r : Run σ} (orderly : e.Orderly [] r) (running : r.outcome = none) :
    r.numbering.Grows Numbering.InScope (e.advance r).numbering := by
  cases turn : e.next? r with
  | none =>
    obtain ⟨o, same, _⟩ := e.advance_of_next?_none turn running
    rw [same]
    exact .refl
  | some p =>
    obtain ⟨_, _, rest, pending, same⟩ := e.next?_eq_some turn
    rw [same, e.expand_eq (r := step rest r) running]
    exact (orderly.take closed builtin pending).grows_foldl

/-- Every moment keeps to what was announced. -/
theorem Moment.orderly {memory : σ} {l : List Move} {r : Run σ} (moment : e.Moment memory l r) :
    e.Orderly l r := by
  induction moment with
  | start cancelled =>
    refine ⟨.refl, by simp [Run.start], by simp [Run.start], fun _ => ⟨?_, trivial⟩⟩
    exact ⟨⟨closed.entry, e.routine.owns_entry⟩, State.feasible_entry _, State.below_entry _ _⟩
  | play _ ih => exact ih.play
  | take _ turn pending ih => exact ih.take closed builtin pending
  | halt _ running idle ih =>
    obtain ⟨o, same, _⟩ := e.advance_of_next?_none idle running
    rw [same]
    exact ih.finish o
  | cancel _ ih => exact ⟨ih.made, ih.visited, ih.pending, ih.coming⟩

theorem orderly_after (memory : σ) (cancelled : Bool) (k : Nat) :
    e.Orderly [] (e.after memory cancelled k) := by
  obtain ⟨_, _, attains⟩ := e.attains_after memory cancelled k
  exact attains.moment.orderly closed builtin

/-- The numbering of a later run comes from that of an earlier one. -/
theorem after_grows (memory : σ) (cancelled : Bool) {j k : Nat} (le : j ≤ k) :
    (e.after memory cancelled j).numbering.Grows Numbering.InScope
      (e.after memory cancelled k).numbering := by
  induction le with
  | refl => exact .refl
  | @step k _ ih =>
    rw [e.after_succ]
    split
    · rename_i running
      have orderly := orderly_after closed builtin memory cancelled k
      exact ih.trans (orderly.grows_advance closed builtin running)
    · exact ih

end Turn

/-- With the built-in semantics, however the exploration of an accepted routine is interrupted: a
state that is about to be published contradicts nothing, and its values exist by then. At every
moment this holds of all that was published and of all that waits, so that no value that is numbered
from then on occurs there. -/
theorem run_feasible {o : Outline} (accepted : Routine.ofOutline o = .ok e.routine)
    (builtin : e.semantics = .builtin) (memory : σ) :
    (∀ k r, e.Attains memory k r → e.Moment memory [] r) ∧
    ∀ l r, e.Moment memory l r →
      (∀ p operation rest, l = .publish p operation :: rest → r.outcome = none →
        p.state.Feasible ∧ p.state.Below r.numbering.created) ∧
      ∀ p, p ∈ r.visited ∨ p ∈ r.pending →
        p.state.Feasible ∧ p.state.Below r.numbering.created ∧
        ∀ v, r.numbering.created ≤ v.index → ¬p.state.Mentions v := by
  have closed := Outline.closed accepted
  refine ⟨fun k r attains => attains.moment, ?_⟩
  intro l r moment
  have orderly := moment.orderly closed builtin
  constructor
  · rintro p operation rest rfl running
    obtain ⟨sound, _⟩ := orderly.coming running
    exact ⟨sound.feasible, sound.below⟩
  · intro p hp
    have sound : e.Sound r.numbering p := hp.elim (orderly.visited p) (orderly.pending p)
    refine ⟨sound.feasible, sound.below, ?_⟩
    intro v later mentions
    exact absurd (sound.below.index_lt mentions) (Nat.not_lt.mpr later)

/-- A parameter is compared with five and, where it is less, with four. -/
def narrowing : Outline where
  id := ⟨0⟩
  name := "narrowing"
  blocks := #[⟨⟨0⟩, [], .branch ⟨⟨0⟩, 2⟩ ⟨1⟩ ⟨2⟩, none⟩, ⟨⟨1⟩, [], .branch ⟨⟨0⟩, 5⟩ ⟨2⟩ ⟨2⟩, none⟩,
    ⟨⟨2⟩, [], .leave none, none⟩]
  operations := #[⟨⟨⟨0⟩, 0⟩, .paramRef ⟨0⟩, none⟩, ⟨⟨⟨0⟩, 1⟩, .literal (.int 5), none⟩,
    ⟨⟨⟨0⟩, 2⟩, .binary .lessThan ⟨⟨0⟩, 0⟩ ⟨⟨0⟩, 1⟩, none⟩, ⟨⟨⟨0⟩, 3⟩, .paramRef ⟨0⟩, none⟩,
    ⟨⟨⟨0⟩, 4⟩, .literal (.int 4), none⟩, ⟨⟨⟨0⟩, 5⟩, .binary .equals ⟨⟨0⟩, 3⟩ ⟨⟨0⟩, 4⟩, none⟩]
  closures := []

def narrowingExploration : Exploration Unit where
  routine :=
    { id := ⟨0⟩
      name := "narrowing"
      blocks := narrowing.blocks
      operations := narrowing.operations
      closures := Table.empty
      orders := #[#[⟨⟨0⟩, 0⟩, ⟨⟨0⟩, 1⟩, ⟨⟨0⟩, 2⟩], #[⟨⟨0⟩, 3⟩, ⟨⟨0⟩, 4⟩, ⟨⟨0⟩, 5⟩], #[]]
      written := [] }
  symbols := ⟨fun _ => none⟩
  semantics := .builtin
  checks := []
  config := default

/-- Less than five and not four leaves what is at most three. -/
theorem run_feasible_narrowing :
    (∀ p ∈ (narrowingExploration.run () false).visited, p.state.Feasible ∧
      p.state.Below (narrowingExploration.run () false).numbering.created ∧
      ¬p.state.Mentions ⟨5⟩) ∧
    (narrowingExploration.run () false).result = .completed ∧
    (narrowingExploration.run () false).numbering.created = 5 ∧
    ((narrowingExploration.run () false).visited[10]?.bind fun p => p.state.interval? ⟨0⟩) =
      some (.atMost 3) := by
  have accepted : Routine.ofOutline narrowing = .ok narrowingExploration.routine := by rfl
  obtain ⟨moments, feasible⟩ := run_feasible accepted rfl ()
  obtain ⟨k, attains⟩ := narrowingExploration.attains_run () false
  have created : (narrowingExploration.run () false).numbering.created = 5 := by decide +kernel
  refine ⟨?_, by decide +kernel, created, by decide +kernel⟩
  intro p hp
  obtain ⟨contradictsNothing, below, unmentioned⟩ :=
    (feasible [] _ (moments k _ attains)).2 p (Or.inl hp)
  exact ⟨contradictsNothing, below, unmentioned ⟨5⟩ (Nat.le_of_eq created)⟩

end Exploration

end SymbolicExecution
