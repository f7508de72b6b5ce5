import SymbolicExecution.Branch
import SymbolicExecution.Check
import SymbolicExecution.Config
import SymbolicExecution.Semantics

/-!
# Exploration

The pairs of a point and a state that a routine can reach, breadth first. Each newly reached pair is
published: it is shown to the checks and waits to be expanded. A pair that was reached before is
dropped. The exploration ends when nothing waits, when a budget is used up, when it is cancelled, or
when a rule spoils a state.
-/

namespace SymbolicExecution

structure Pair where
  point : Point
  state : State
  deriving DecidableEq

/-- The budget that ran out. -/
inductive Shortage where
  | visited (limit : Nat)
  | steps (limit : Nat)
  deriving DecidableEq

namespace Shortage

def text : Shortage → String
  | visited limit => "visited pair limit " ++ toString limit ++ " reached"
  | steps limit => "step limit " ++ toString limit ++ " reached"

end Shortage

inductive Outcome where
  | completed
  | incomplete (s : Shortage)
  | cancelled
  | failed (message : String)
  deriving DecidableEq

/-- What is counted while exploring. -/
structure Counters where
  steps : Nat
  duplicates : Nat
  infeasible : Nat
  skipped : Nat
  terminal : Nat
  deriving DecidableEq

structure Run (σ : Type) where
  /-- The published pairs, in order. -/
  visited : Array Pair
  /-- The published pairs that wait to be expanded, in order. -/
  pending : List Pair
  numbering : Numbering
  findings : Findings
  counters : Counters
  /-- What the checks remember. -/
  memory : σ
  cancelled : Bool
  /-- How the exploration ended, once it has. -/
  outcome : Option Outcome

namespace Run

variable {σ : Type}

def start (memory : σ) (cancelled : Bool) : Run σ :=
  ⟨#[], [], Numbering.start, Findings.empty, ⟨0, 0, 0, 0, 0⟩, memory, cancelled, none⟩

def finish (r : Run σ) (o : Outcome) : Run σ := { r with outcome := some o }

def countDuplicate (r : Run σ) : Run σ :=
  { r with counters := { r.counters with duplicates := r.counters.duplicates + 1 } }

def countInfeasible (r : Run σ) (paths : Nat) : Run σ :=
  { r with counters := { r.counters with infeasible := r.counters.infeasible + paths } }

def countSkipped (r : Run σ) : Run σ :=
  { r with counters := { r.counters with skipped := r.counters.skipped + 1 } }

def countTerminal (r : Run σ) : Run σ :=
  { r with counters := { r.counters with terminal := r.counters.terminal + 1 } }

/-- Show a sighting to one check. -/
def consult (s : Sighting) (r : Run σ) (c : Check σ) : Run σ :=
  let seen := c.observe s r.memory
  { r with
    findings := r.findings.reportAll seen.findings
    memory := seen.memory
    cancelled := r.cancelled || seen.cancels }

end Run

structure Exploration (σ : Type) where
  routine : Routine
  symbols : Symbols
  semantics : Semantics
  checks : List (Check σ)
  config : Config

namespace Exploration

variable {σ : Type} (e : Exploration σ)

/-- Reach a pair, by `operation` or by entering a block. -/
def publish (p : Pair) (operation : Option Operation) (r : Run σ) : Run σ :=
  if r.outcome.isSome then r
  else if r.visited.contains p then r.countDuplicate
  else if e.config.maxVisited ≤ r.visited.size then
    r.finish (.incomplete (.visited e.config.maxVisited))
  else
    let r := { r with visited := r.visited.push p }
    let r := e.checks.foldl (Run.consult ⟨e.routine, e.symbols, p.point, operation, p.state⟩) r
    { r with pending := r.pending ++ [p] }

/-- A state as it enters another block. -/
def crossing (s : State) : State :=
  if e.config.resetAtBoundary then s.forgetOperations else s

def jump (b : BlockId) (s : State) (r : Run σ) : Run σ :=
  e.publish ⟨Point.entry b, e.crossing s⟩ none r

def handler? (b : BlockId) : Option BlockId := (e.routine.block? b).bind Block.handler

/-- One successor of an operation: the handler may take over before the next operation does. -/
def succeed (p : Point) (o : Operation) (r : Run σ) (s : State) : Run σ :=
  let r :=
    match if o.form.mayThrow then e.handler? p.block else none with
    | some h => e.jump h s r
    | none => r
  e.publish ⟨p.next, s⟩ (some o) r

/-- Expand a pair at an operation. An operation without meaning is skipped. -/
def evaluate (p : Pair) (o : Operation) (r : Run σ) : Run σ :=
  match e.semantics.process ⟨o, p.state, e.routine, e.symbols⟩ r.numbering with
  | (.ok [], n) => { r with numbering := n }.countInfeasible 1
  | (.ok states, n) => states.foldl (e.succeed p.point o) { r with numbering := n }
  | (.error (.unsupported _ _ _), n) =>
    e.succeed p.point o { r with numbering := n }.countSkipped p.state
  | (.error (.foreign f), n) => { r with numbering := n }.finish (.failed f.message)

/-- The truth of the condition is known in the state. -/
def isDecided (s : State) (condition : OpId) : Bool :=
  ((s.operation? condition).bind s.truth?).isSome

/-- Expand a pair at a branch. A side that cannot be taken is an infeasible path, unless the
condition was known. -/
def fork (s : State) (condition : OpId) (whenTrue whenFalse : BlockId) (r : Run σ) : Run σ :=
  match (e.routine.split e.config.learnAtBranches s condition) r.numbering with
  | (.result sides, n) =>
    let r := { r with numbering := n }
    let r := if isDecided s condition then r else r.countInfeasible (2 - sides.length)
    sides.foldl (fun r side => e.jump (if side.1 then whenTrue else whenFalse) side.2 r) r
  | (.infeasible, n) => { r with numbering := n }.countInfeasible 2
  | (.refused f, n) => { r with numbering := n }.finish (.failed f.message)

/-- Expand a pair at the exit of a block. -/
def leave (p : Pair) (r : Run σ) : Run σ :=
  match e.routine.block? p.point.block with
  | none => r.finish (.failed ("block " ++ p.point.block.text ++ " missing from routine"))
  | some b =>
    match b.exit with
    | .goTo target => e.jump target p.state r
    | .branch condition whenTrue whenFalse => e.fork p.state condition whenTrue whenFalse r
    | .raise _ =>
      match b.handler with
      | some h => e.jump h p.state r
      | none => r.countTerminal
    | .leave _ => r.countTerminal

def expand (p : Pair) (r : Run σ) : Run σ :=
  match (e.routine.order p.point.block)[p.point.index]? with
  | some i =>
    match e.routine.operation? i with
    | some o => e.evaluate p o r
    | none => r.finish (.failed ("operation " ++ i.text ++ " missing from routine"))
  | none => e.leave p r

/-- Expand the pair that has waited longest. -/
def advance (r : Run σ) : Run σ :=
  match r.pending with
  | [] => r.finish .completed
  | p :: rest =>
    if r.cancelled then r.finish .cancelled
    else if e.config.maxSteps ≤ r.counters.steps then
      r.finish (.incomplete (.steps e.config.maxSteps))
    else
      e.expand p
        { r with
          pending := rest
          counters := { r.counters with steps := r.counters.steps + 1 } }

/-- Advance until the end, at most `turns` times. -/
def go : Nat → Run σ → Run σ
  | 0, r => r
  | turns + 1, r => if r.outcome.isSome then r else go turns (e.advance r)

def enter (memory : σ) (cancelled : Bool) : Run σ :=
  e.publish ⟨Point.entry e.routine.entry, State.entry e.routine.id⟩ none
    (Run.start memory cancelled)

/-- Each turn ends the exploration or takes a step, so the turns suffice. -/
def run (memory : σ) (cancelled : Bool) : Run σ :=
  e.go (e.config.maxSteps + 1) (e.enter memory cancelled)

end Exploration

end SymbolicExecution
