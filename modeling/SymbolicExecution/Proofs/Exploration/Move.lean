import SymbolicExecution.Proofs.Exploration.Closure

/-!
# Moves

What an expansion does is settled before it begins: the pair and the numbering make out a list of
moves, and the moves are played one after another until the run ends. `Makes` says what each of them
comes from.
-/

namespace SymbolicExecution

/-- One thing that an expansion does to a run. -/
inductive Move where
  | publish (p : Pair) (operation : Option Operation)
  | renumber (n : Numbering)
  /-- Count paths that cannot be taken. -/
  | discard (paths : Nat)
  | skip
  | terminate
  | fail (message : String)

namespace Exploration

variable {σ : Type} (e : Exploration σ)

def act (r : Run σ) : Move → Run σ
  | .publish p operation => e.publish p operation r
  | .renumber n => { r with numbering := n }
  | .discard paths => r.countInfeasible paths
  | .skip => r.countSkipped
  | .terminate => r.countTerminal
  | .fail message => r.finish (.failed message)

/-- A run that has ended is left alone. -/
def play (r : Run σ) (m : Move) : Run σ := if r.outcome.isSome then r else e.act r m

def entering (b : BlockId) (s : State) : Move := .publish ⟨Point.entry b, e.crossing s⟩ none

def succeeding (p : Point) (o : Operation) (s : State) : List Move :=
  ((if o.form.mayThrow then e.handler? p.block else none).map fun h => e.entering h s).toList ++
    [.publish ⟨p.next, s⟩ (some o)]

def evaluating (p : Pair) (o : Operation) (n : Numbering) : List Move :=
  match e.semantics.process ⟨o, p.state, e.routine, e.symbols⟩ n with
  | (.ok [], m) => [.renumber m, .discard 1]
  | (.ok states, m) => .renumber m :: states.flatMap (e.succeeding p.point o)
  | (.error (.unsupported _ _ _), m) => .renumber m :: .skip :: e.succeeding p.point o p.state
  | (.error (.foreign f), m) => [.renumber m, .fail f.message]

def forking (s : State) (condition : OpId) (whenTrue whenFalse : BlockId) (n : Numbering) :
    List Move :=
  match (e.routine.split e.config.learnAtBranches s condition) n with
  | (.result sides, m) =>
    .renumber m :: ((if isDecided s condition then [] else [.discard (2 - sides.length)]) ++
      sides.map fun side => e.entering (if side.1 then whenTrue else whenFalse) side.2)
  | (.infeasible, m) => [.renumber m, .discard 2]
  | (.refused f, m) => [.renumber m, .fail f.message]

def leaving (p : Pair) (n : Numbering) : List Move :=
  match e.routine.block? p.point.block with
  | none => [.fail ("block " ++ p.point.block.text ++ " missing from routine")]
  | some b =>
    match b.exit with
    | .goTo target => [e.entering target p.state]
    | .branch condition whenTrue whenFalse => e.forking p.state condition whenTrue whenFalse n
    | .raise _ =>
      match b.handler with
      | some h => [e.entering h p.state]
      | none => [.terminate]
    | .leave _ => [.terminate]

/-- What the expansion of a pair does. -/
def moves (p : Pair) (n : Numbering) : List Move :=
  match (e.routine.order p.point.block)[p.point.index]? with
  | some i =>
    match e.routine.operation? i with
    | some o => e.evaluating p o n
    | none => [.fail ("operation " ++ i.text ++ " missing from routine")]
  | none => e.leaving p n

theorem play_of_ended {r : Run σ} (ended : r.outcome ≠ none) (m : Move) : e.play r m = r := by
  rw [play, if_pos (Option.isSome_iff_ne_none.mpr ended)]

theorem play_of_running {r : Run σ} (running : r.outcome = none) (m : Move) :
    e.play r m = e.act r m := by
  simp [play, running]

theorem play_publish (r : Run σ) (p : Pair) (operation : Option Operation) :
    e.play r (.publish p operation) = e.publish p operation r := by
  simp only [play, act]
  split
  · rename_i ended
    simp [publish, ended]
  · rfl

theorem succeed_eq (p : Point) (o : Operation) (r : Run σ) (s : State) :
    e.succeed p o r s = (e.succeeding p o s).foldl e.play r := by
  simp only [succeed, succeeding]
  cases (if o.form.mayThrow then e.handler? p.block else none) with
  | none => exact (e.play_publish r _ _).symm
  | some h =>
    simp only [Option.map_some, Option.toList_some, List.singleton_append, List.foldl_cons,
      List.foldl_nil, entering, play_publish]
    rfl

theorem foldl_succeed_eq (p : Point) (o : Operation) (states : List State) (r : Run σ) :
    states.foldl (e.succeed p o) r = (states.flatMap (e.succeeding p o)).foldl e.play r := by
  rw [List.foldl_flatMap]
  congr 1
  funext t s
  exact e.succeed_eq p o t s

section Running

variable {r : Run σ} (running : r.outcome = none)

include running

theorem evaluate_eq (p : Pair) (o : Operation) :
    e.evaluate p o r = (e.evaluating p o r.numbering).foldl e.play r := by
  have renumbered : ∀ m, e.play r (.renumber m) = { r with numbering := m } :=
    fun m => e.play_of_running running _
  simp only [evaluate, evaluating]
  generalize e.semantics.process ⟨o, p.state, e.routine, e.symbols⟩ r.numbering = answer
  obtain ⟨verdict, m⟩ := answer
  have running' : Run.outcome { r with numbering := m } = none := running
  cases verdict with
  | ok states =>
    cases states with
    | nil =>
      simp only [List.foldl_cons, List.foldl_nil, renumbered, e.play_of_running running', act]
    | cons s rest =>
      simp only [List.foldl_cons (b := r), renumbered]
      exact e.foldl_succeed_eq p.point o (s :: rest) _
  | error refusal =>
    cases refusal with
    | unsupported =>
      simp only [List.foldl_cons, renumbered, e.play_of_running running', act]
      exact e.succeed_eq p.point o _ p.state
    | foreign f =>
      simp only [List.foldl_cons, List.foldl_nil, renumbered, e.play_of_running running', act]

theorem fork_eq (s : State) (condition : OpId) (whenTrue whenFalse : BlockId) :
    e.fork s condition whenTrue whenFalse r =
      (e.forking s condition whenTrue whenFalse r.numbering).foldl e.play r := by
  have renumbered : ∀ m, e.play r (.renumber m) = { r with numbering := m } :=
    fun m => e.play_of_running running _
  simp only [fork, forking]
  generalize (e.routine.split e.config.learnAtBranches s condition) r.numbering = answer
  obtain ⟨verdict, m⟩ := answer
  have running' : Run.outcome { r with numbering := m } = none := running
  cases verdict with
  | result sides =>
    simp only [List.foldl_cons, List.foldl_append, List.foldl_map, renumbered, entering,
      play_publish]
    cases isDecided s condition with
    | true => rfl
    | false =>
      simp only [Bool.false_eq_true, if_false, List.foldl_cons, List.foldl_nil,
        e.play_of_running running', act]
      rfl
  | infeasible =>
    simp only [List.foldl_cons, List.foldl_nil, renumbered, e.play_of_running running', act]
  | refused f =>
    simp only [List.foldl_cons, List.foldl_nil, renumbered, e.play_of_running running', act]

theorem leave_eq (p : Pair) : e.leave p r = (e.leaving p r.numbering).foldl e.play r := by
  have played : ∀ m, [m].foldl e.play r = e.act r m := fun m => e.play_of_running running m
  cases found : e.routine.block? p.point.block with
  | none => simp only [leave, leaving, found, played, act]
  | some b =>
    cases exit : b.exit with
    | goTo | leave =>
      simp only [leave, leaving, found, exit, played]
      rfl
    | branch condition whenTrue whenFalse =>
      simp only [leave, leaving, found, exit]
      exact e.fork_eq running p.state condition whenTrue whenFalse
    | raise value =>
      simp only [leave, leaving, found, exit]
      cases b.handler with
      | none => simp only [played, act]
      | some h =>
        simp only [played]
        rfl

/-- An expansion plays its moves. -/
theorem expand_eq (p : Pair) : e.expand p r = (e.moves p r.numbering).foldl e.play r := by
  cases here : (e.routine.order p.point.block)[p.point.index]? with
  | none =>
    simp only [expand, moves, here]
    exact e.leave_eq running p
  | some i =>
    cases found : e.routine.operation? i with
    | none =>
      simp only [expand, moves, here, found]
      exact (e.play_of_running running (.fail _)).symm
    | some o =>
      simp only [expand, moves, here, found]
      exact e.evaluate_eq running p o

end Running

/-- The block that the expansion of a pair at the point leaves. -/
def leftAt? (p : Point) : Option Block :=
  match (e.routine.order p.block)[p.index]? with
  | some _ => none
  | none => e.routine.block? p.block

theorem block?_of_leftAt? {p : Point} {b : Block} (left : e.leftAt? p = some b) :
    e.routine.block? p.block = some b := by
  simp only [leftAt?] at left
  split at left
  · cases left
  · exact left

/-- What the semantics answers to an operation at a pair. -/
abbrev answer (p : Pair) (o : Operation) (n : Numbering) : Successors × Numbering :=
  e.semantics.process ⟨o, p.state, e.routine, e.symbols⟩ n

abbrev sides (p : Pair) (condition : OpId) (n : Numbering) :
    Verdict (List (Bool × State)) × Numbering :=
  (e.routine.split e.config.learnAtBranches p.state condition) n

/-- The moves that the expansion of a pair can make, and what each of them comes from. -/
inductive Makes (n : Numbering) (p : Pair) : Move → Prop
  | evaluated {o : Operation} (operation : e.operationAt? p.point = some o) :
      Makes n p (.renumber (e.answer p o n).2)
  | infeasible {o : Operation} (operation : e.operationAt? p.point = some o)
      (none : (e.answer p o n).1 = .ok []) : Makes n p (.discard 1)
  | skipped {o : Operation} {i : OpId} {tag : Tag} {reason : String}
      (operation : e.operationAt? p.point = some o)
      (refused : (e.answer p o n).1 = .error (.unsupported i tag reason)) : Makes n p .skip
  | foreign {o : Operation} {f : Foreign} (operation : e.operationAt? p.point = some o)
      (refused : (e.answer p o n).1 = .error (.foreign f)) : Makes n p (.fail f.message)
  | next {o : Operation} {states : List State} {s : State}
      (operation : e.operationAt? p.point = some o)
      (successors : e.successors? p o n = some states) (mem : s ∈ states) :
      Makes n p (.publish ⟨p.point.next, s⟩ (some o))
  | thrown {o : Operation} {states : List State} {s : State} {h : BlockId}
      (operation : e.operationAt? p.point = some o) (throws : o.form.mayThrow)
      (handler : e.handler? p.point.block = some h)
      (successors : e.successors? p o n = some states) (mem : s ∈ states) :
      Makes n p (e.entering h s)
  | unknown {i : OpId} (here : (e.routine.order p.point.block)[p.point.index]? = some i)
      (missing : e.routine.operation? i = none) :
      Makes n p (.fail ("operation " ++ i.text ++ " missing from routine"))
  | goTo {b : Block} {target : BlockId} (left : e.leftAt? p.point = some b)
      (exit : b.exit = .goTo target) : Makes n p (e.entering target p.state)
  | forked {b : Block} {condition : OpId} {whenTrue whenFalse : BlockId}
      (left : e.leftAt? p.point = some b) (exit : b.exit = .branch condition whenTrue whenFalse) :
      Makes n p (.renumber (e.sides p condition n).2)
  | side {b : Block} {condition : OpId} {whenTrue whenFalse : BlockId}
      {sides : List (Bool × State)} {side : Bool × State} (left : e.leftAt? p.point = some b)
      (exit : b.exit = .branch condition whenTrue whenFalse)
      (split : (e.sides p condition n).1 = .result sides) (mem : side ∈ sides) :
      Makes n p (e.entering (if side.1 then whenTrue else whenFalse) side.2)
  | dropped {b : Block} {condition : OpId} {whenTrue whenFalse : BlockId}
      {sides : List (Bool × State)} (left : e.leftAt? p.point = some b)
      (exit : b.exit = .branch condition whenTrue whenFalse)
      (split : (e.sides p condition n).1 = .result sides)
      (undecided : isDecided p.state condition = false) :
      Makes n p (.discard (2 - sides.length))
  | contradicted {b : Block} {condition : OpId} {whenTrue whenFalse : BlockId}
      (left : e.leftAt? p.point = some b) (exit : b.exit = .branch condition whenTrue whenFalse)
      (split : (e.sides p condition n).1 = .infeasible) : Makes n p (.discard 2)
  | refused {b : Block} {condition : OpId} {whenTrue whenFalse : BlockId} {r : Refusal}
      (left : e.leftAt? p.point = some b) (exit : b.exit = .branch condition whenTrue whenFalse)
      (split : (e.sides p condition n).1 = .refused r) : Makes n p (.fail r.message)
  | raised {b : Block} {value : Option OpId} {h : BlockId} (left : e.leftAt? p.point = some b)
      (exit : b.exit = .raise value) (handler : b.handler = some h) :
      Makes n p (e.entering h p.state)
  | ended {b : Block} (left : e.leftAt? p.point = some b) (ends : b.ends = true) :
      Makes n p .terminate
  | lost (outside : (e.routine.order p.point.block)[p.point.index]? = none)
      (missing : e.routine.block? p.point.block = none) :
      Makes n p (.fail ("block " ++ p.point.block.text ++ " missing from routine"))

section Makes

variable {e} {n : Numbering} {p : Pair}

theorem makes_succeeding {o : Operation} {states : List State} {s : State}
    (operation : e.operationAt? p.point = some o)
    (successors : e.successors? p o n = some states) (mem : s ∈ states) :
    ∀ m ∈ e.succeeding p.point o s, e.Makes n p m := by
  intro m hm
  rcases List.mem_append.mp hm with hm | hm
  · obtain ⟨h, handles, rfl⟩ := Option.map_eq_some_iff.mp (Option.mem_toList.mp hm)
    split at handles
    · rename_i throws
      exact .thrown operation throws handles successors mem
    · cases handles
  · rw [List.mem_singleton.mp hm]
    exact .next operation successors mem

theorem makes_evaluating {o : Operation} (operation : e.operationAt? p.point = some o) :
    ∀ m ∈ e.evaluating p o n, e.Makes n p m := by
  have numbered := Makes.evaluated (n := n) operation
  simp only [evaluating]
  cases answered : e.semantics.process ⟨o, p.state, e.routine, e.symbols⟩ n with
  | mk verdict m =>
    have first : (e.answer p o n).1 = verdict := by rw [answer, answered]
    rw [answer, answered] at numbered
    cases verdict with
    | ok states =>
      have successors : e.successors? p o n = some states := by
        simp only [successors?]
        rw [first]
      cases states with
      | nil => simpa using ⟨numbered, Makes.infeasible operation first⟩
      | cons s rest =>
        intro move hm
        rcases List.mem_cons.mp hm with rfl | hm
        · exact numbered
        · obtain ⟨t, ht, hm⟩ := List.mem_flatMap.mp hm
          exact makes_succeeding operation successors ht move hm
    | error refusal =>
      cases refusal with
      | unsupported i tag reason =>
        have successors : e.successors? p o n = some [p.state] := by
          simp only [successors?]
          rw [first]
        intro move hm
        rcases List.mem_cons.mp hm with rfl | hm
        · exact numbered
        rcases List.mem_cons.mp hm with rfl | hm
        · exact .skipped operation first
        · exact makes_succeeding operation successors List.mem_cons_self move hm
      | foreign f => simpa using ⟨numbered, Makes.foreign operation first⟩

theorem makes_forking {b : Block} {condition : OpId} {whenTrue whenFalse : BlockId}
    (left : e.leftAt? p.point = some b) (exit : b.exit = .branch condition whenTrue whenFalse) :
    ∀ m ∈ e.forking p.state condition whenTrue whenFalse n, e.Makes n p m := by
  have numbered := Makes.forked (n := n) left exit
  simp only [forking]
  cases answered : e.routine.split e.config.learnAtBranches p.state condition n with
  | mk verdict m =>
    have first : (e.sides p condition n).1 = verdict := by rw [sides, answered]
    rw [sides, answered] at numbered
    cases verdict with
    | result sides =>
      intro move hm
      rcases List.mem_cons.mp hm with rfl | hm
      · exact numbered
      rcases List.mem_append.mp hm with hm | hm
      · split at hm
        · cases hm
        · rename_i undecided
          rw [List.mem_singleton.mp hm]
          exact .dropped left exit first (by simpa using undecided)
      · obtain ⟨side, mem, rfl⟩ := List.mem_map.mp hm
        exact .side left exit first mem
    | infeasible => simpa using ⟨numbered, Makes.contradicted left exit first⟩
    | refused r => simpa using ⟨numbered, Makes.refused left exit first⟩

theorem makes_leaving {b : Block} (left : e.leftAt? p.point = some b)
    (found : e.routine.block? p.point.block = some b) :
    ∀ m ∈ e.leaving p n, e.Makes n p m := by
  simp only [leaving, found]
  cases exit : b.exit with
  | goTo target => simpa using Makes.goTo left exit
  | branch condition whenTrue whenFalse => exact makes_forking left exit
  | raise value =>
    cases handler : b.handler with
    | none => simpa using Makes.ended left (by simp [Block.ends, exit, handler])
    | some h => simpa using Makes.raised left exit handler
  | leave value => simpa using Makes.ended left (by simp [Block.ends, exit])

/-- Every move of an expansion comes from something. -/
theorem makes_of_mem {m : Move} (hm : m ∈ e.moves p n) : e.Makes n p m := by
  simp only [moves] at hm
  split at hm
  · rename_i i here
    split at hm
    · rename_i o found
      exact makes_evaluating (by simp [operationAt?, here, found]) m hm
    · rename_i missing
      rw [List.mem_singleton.mp hm]
      exact .unknown here missing
  · rename_i outside
    cases found : e.routine.block? p.point.block with
    | none =>
      simp only [leaving, found] at hm
      rw [List.mem_singleton.mp hm]
      exact .lost outside found
    | some b => exact makes_leaving (by simp [leftAt?, outside, found]) found m hm

end Makes

end Exploration

end SymbolicExecution
