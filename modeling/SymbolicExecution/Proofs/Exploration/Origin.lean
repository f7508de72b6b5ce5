import SymbolicExecution.Proofs.Exploration.Call
import SymbolicExecution.Proofs.Exploration.Feasible

/-!
# Where published pairs come from

A published pair that is not at the entry of a block stands behind an operation, at which another
published pair was expanded.
-/

namespace SymbolicExecution.Exploration

variable {σ : Type} (e : Exploration σ)

/-- The expansion of `p` at the operation leads on to `q`. -/
structure LeadsOn (n : Numbering) (p : Pair) (o : Operation) (q : Pair) : Prop where
  made : Numbering.start.Grows Numbering.InScope n
  sound : e.Sound n p
  operation : e.operationAt? p.point = some o
  next : q.point = p.point.next
  successors : ∃ states, e.successors? p o n = some states ∧ q.state ∈ states

/-- The pair is at the entry of a block, or the expansion of a published pair leads on to it. -/
def Arises (r : Run σ) (q : Pair) : Prop :=
  q.point.index = 0 ∨ ∃ p ∈ r.visited, ∃ n o, e.LeadsOn n p o q

/-- What waits was published, and what is published or about to be published arises. -/
structure Traced (l : List Move) (r : Run σ) : Prop where
  pending : ∀ q ∈ r.pending, q ∈ r.visited
  visited : ∀ q ∈ r.visited, e.Arises r q
  coming {q : Pair} {operation : Option Operation} : r.outcome = none →
    .publish q operation ∈ l → e.Arises r q

variable {e} {l : List Move} {r t : Run σ} {p q : Pair}

theorem Arises.mono (arises : e.Arises r q) (more : ∀ p ∈ r.visited, p ∈ t.visited) :
    e.Arises t q := by
  rcases arises with entry | ⟨p, hp, origin⟩
  · exact Or.inl entry
  · exact Or.inr ⟨p, more p hp, origin⟩

theorem Traced.publish {operation : Option Operation}
    (traced : e.Traced (.publish p operation :: l) r) : e.Traced l (e.publish p operation r) := by
  apply e.publish_elim
  case ended =>
    exact fun ended => ⟨traced.pending, traced.visited, fun running => absurd running ended⟩
  case known =>
    exact fun running _ => ⟨traced.pending, traced.visited,
      fun _ hm => traced.coming running (List.mem_cons_of_mem _ hm)⟩
  case full => exact fun _ _ _ => ⟨traced.pending, traced.visited, nofun⟩
  case new =>
    intro running _ _
    have more : ∀ q ∈ r.visited, q ∈ (e.accept p operation r).visited := by
      intro q hq
      rw [accept_visited]
      exact Array.mem_push.mpr (Or.inl hq)
    constructor
    · intro q hq
      rw [accept_pending] at hq
      rcases List.mem_append.mp hq with hq | hq
      · exact more q (traced.pending q hq)
      · rw [accept_visited, List.mem_singleton.mp hq]
        exact Array.mem_push.mpr (Or.inr rfl)
    · intro q hq
      rw [accept_visited] at hq
      rcases Array.mem_push.mp hq with hq | rfl
      · exact (traced.visited q hq).mono more
      · exact (traced.coming running List.mem_cons_self).mono more
    · exact fun _ hm => (traced.coming running (List.mem_cons_of_mem _ hm)).mono more

theorem Traced.play {m : Move} (traced : e.Traced (m :: l) r) : e.Traced l (e.play r m) := by
  cases running : r.outcome with
  | some o =>
    rw [e.play_of_ended (by simp [running])]
    exact ⟨traced.pending, traced.visited, fun other => by simp [running] at other⟩
  | none =>
    rw [e.play_of_running running]
    cases m with
    | publish p operation => exact traced.publish
    | renumber | discard | skip | terminate =>
      exact ⟨traced.pending, traced.visited,
        fun _ hm => traced.coming running (List.mem_cons_of_mem _ hm)⟩
    | fail => exact ⟨traced.pending, traced.visited, nofun⟩

/-- What an expansion publishes is at the entry of a block or stands behind the operation. -/
theorem arises_of_mem_moves {n : Numbering} (made : Numbering.start.Grows Numbering.InScope n)
    (sound : e.Sound n p) (hp : p ∈ r.visited) {operation : Option Operation}
    (hm : .publish q operation ∈ e.moves p n) : e.Arises r q := by
  have makes := makes_of_mem hm
  generalize same : Move.publish q operation = m at makes
  cases makes with
  | next evaluated successors mem =>
    cases same
    exact Or.inr ⟨p, hp, n, _, made, sound, evaluated, rfl, _, successors, mem⟩
  | thrown | goTo | side | raised =>
    cases same
    exact Or.inl rfl
  | _ => cases same

/-- Every moment is traced. -/
theorem Moment.traced (closed : e.routine.Closed) (builtin : e.semantics = .builtin) {memory : σ}
    (moment : e.Moment memory l r) : e.Traced l r := by
  induction moment with
  | start cancelled =>
    refine ⟨by simp [Run.start], by simp [Run.start], fun _ hm => Or.inl ?_⟩
    cases List.mem_singleton.mp hm
    rfl
  | play _ ih => exact ih.play
  | @take r p rest before _ pending ih =>
    have here : p ∈ r.pending := pending ▸ List.mem_cons_self
    have orderly := before.orderly closed builtin
    exact ⟨fun q hq => ih.pending q (pending ▸ List.mem_cons_of_mem p hq), ih.visited,
      fun _ hm => arises_of_mem_moves orderly.made (orderly.pending p here) (ih.pending p here) hm⟩
  | halt _ running idle ih =>
    obtain ⟨o, same, _⟩ := e.advance_of_next?_none idle running
    rw [same]
    exact ⟨ih.pending, ih.visited, fun _ hm => by cases hm⟩
  | cancel _ ih => exact ⟨ih.pending, ih.visited, ih.coming⟩

section Arrival

variable {o : Operation} (closed : e.routine.Closed)

/-- The pair behind an operation shows it. -/
theorem LeadsOn.arrival {n : Numbering} (leads : e.LeadsOn n p o q) :
    e.arrival? q.point = some o := by
  rw [leads.next]
  exact leads.operation

include closed

theorem operation?_of_arrival {p : Point} (arrival : e.arrival? p = some o) :
    e.routine.operation? o.id = some o := by
  simp only [arrival?] at arrival
  split at arrival
  · cases arrival
  · obtain ⟨i, _, found⟩ := Option.bind_eq_some_iff.mp arrival
    rw [closed.label found]
    exact found

/-- A published pair behind an operation was led on to from another one. -/
theorem exists_leadsOn_of_arrival (builtin : e.semantics = .builtin) {memory : σ} {cancelled : Bool}
    (published : q ∈ (e.run memory cancelled).visited) (arrival : e.arrival? q.point = some o) :
    ∃ p ∈ (e.run memory cancelled).visited, ∃ n, e.LeadsOn n p o q := by
  obtain ⟨k, attains⟩ := e.attains_run memory cancelled
  -- no operation leads to the entry of a block
  rcases (attains.moment.traced closed builtin).visited q published with
    entry | ⟨p, hp, n, o', leads⟩
  · simp [arrival?, entry] at arrival
  · cases arrival.symm.trans leads.arrival
    exact ⟨p, hp, n, leads⟩

end Arrival

end SymbolicExecution.Exploration
