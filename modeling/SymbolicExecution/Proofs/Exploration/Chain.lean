import Mathlib.Data.List.Forall2
import SymbolicExecution.Proofs.Chain
import SymbolicExecution.Proofs.Exploration.Invariant

/-!
# The step of an operation with a chain of rules

What the last link of the chain answers is published in order: a pair that was published before is
dropped, and so are all that follow when there is no more room. A refusal undoes what the links did
before it, except that the values numbered stay numbered.
-/

namespace SymbolicExecution.Exploration

open Rule

variable {σ : Type} (e : Exploration σ)

/-- What the rules of an operation look at. -/
def situation (p : Pair) (o : Operation) : Situation := ⟨o, p.state, e.routine, e.symbols⟩

/-- The pairs that the successors of an operation come to. For each of them the handler may take
over before the next operation does. -/
def offers (p : Point) (o : Operation) (states : List State) : List Pair :=
  states.flatMap fun s =>
    ((if o.form.mayThrow then e.handler? p.block else none).map fun h =>
      ⟨Point.entry h, e.crossing s⟩).toList ++ [⟨p.next, s⟩]

/-- The pairs that were not published before, each of them once. -/
def news (r : Run σ) (offers : List Pair) : List Pair :=
  (offers.filter fun q => !r.visited.contains q).eraseDups

/-- The first of them, as far as there is room. -/
def admitted (r : Run σ) (offers : List Pair) : List Pair :=
  (news r offers).take (e.config.maxVisited - r.visited.size)

/-- `t` comes from `r` by publishing what is offered. If there is not enough room for it, the budget
of pairs is used up. -/
structure Publishes (r : Run σ) (offers : List Pair) (t : Run σ) : Prop where
  visited : t.visited.toList = r.visited.toList ++ e.admitted r offers
  pending : t.pending = r.pending ++ e.admitted r offers
  numbering : t.numbering = r.numbering
  counters : t.counters = { r.counters with duplicates := t.counters.duplicates }
  outcome : t.outcome =
    if (news r offers).length ≤ e.config.maxVisited - r.visited.size then none
    else some (.incomplete (.visited e.config.maxVisited))
  duplicates : t.outcome = none →
    t.counters.duplicates + (news r offers).length = r.counters.duplicates + offers.length

/-- The run when the first waiting pair is taken and the numbering comes to `n`. -/
def taken (r : Run σ) (n : Numbering) : Run σ := { step r.pending.tail r with numbering := n }

section News

variable {r : Run σ} {q : Pair} {rest : List Pair}

theorem news_of_new (new : q ∉ r.visited) {t : Run σ} (grown : t.visited = r.visited.push q) :
    news r (q :: rest) = q :: news t rest := by
  simp only [news, grown]
  rw [List.filter_cons_of_pos (by simpa using new), List.eraseDups_cons, List.filter_filter]
  congr 2
  apply List.filter_congr
  intro x _
  by_cases same : x = q
  · simp [same]
  · simp [same]

end News

namespace Publishes

variable {e} {r t : Run σ} {q : Pair} {rest : List Pair}

theorem nothing (running : r.outcome = none) : e.Publishes r [] r :=
  ⟨by simp [admitted, news], by simp [admitted, news], rfl, rfl, by simp [news, running],
    by simp [news]⟩

theorem ending (new : q ∉ r.visited) (full : e.config.maxVisited ≤ r.visited.size) :
    e.Publishes r (q :: rest) (r.finish (.incomplete (.visited e.config.maxVisited))) := by
  have left : e.config.maxVisited - r.visited.size = 0 := by omega
  have admits : e.admitted r (q :: rest) = [] := by rw [admitted, left, List.take_zero]
  have more : 0 < (news r (q :: rest)).length := by
    rw [news_of_new new (t := { r with visited := r.visited.push q }) rfl]
    exact Nat.succ_pos _
  refine ⟨by simp [admits, Run.finish], by simp [admits, Run.finish], rfl, rfl, ?_, nofun⟩
  rw [left, if_neg (by omega)]
  rfl

end Publishes

section Step

variable {e} {r : Run σ} {p : Pair} {o : Operation} {states : List State} {m : Numbering}

variable (turn : e.next? r = some p) (here : e.operationAt? p.point = some o)

include turn here

end Step

/-- The state as it is, and one in which the symbol has a value. -/
def forked : Rule := fun c n => (.ok [c.state, c.state.setSymbol ⟨0⟩ ⟨0⟩], n)

/-- A symbol with a value is not supported. -/
def unbound : Rule := fun c n =>
  if c.state.symbol? ⟨0⟩ = none then (.ok [c.state], n) else (.error (c.unsupported "bound"), n)

end SymbolicExecution.Exploration
