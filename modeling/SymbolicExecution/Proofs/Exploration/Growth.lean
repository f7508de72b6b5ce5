import SymbolicExecution.Report

/-!
# What an expansion publishes

Publishing only appends: new pairs go to the end of the published ones and to the end of the waiting
ones, and steps are left alone. An expansion is a few publications in a row, so the same holds of
it, except that a path that leaves the routine is counted instead. If the run goes on after an
expansion, all that the expanded pair yields is published.
-/

namespace SymbolicExecution

/-- The paths through the block end at its exit. -/
def Block.ends (b : Block) : Bool :=
  match b.exit with
  | .leave _ => true
  | .raise _ => b.handler.isNone
  | .goTo _ | .branch _ _ _ => false

namespace Exploration

variable {σ : Type} (e : Exploration σ)

/-- The operation that is evaluated at a point. -/
def operationAt? (p : Point) : Option Operation :=
  (e.routine.order p.block)[p.index]?.bind e.routine.operation?

/-- The block that is left at a point. -/
def exitAt? (p : Point) : Option Block :=
  if p.index = (e.routine.order p.block).size then e.routine.block? p.block else none

/-- Paths end at the point: it is the exit of a block that returns, or that raises without a
handler. -/
def endsAt (p : Point) : Bool := (e.exitAt? p).any Block.ends

/-- The successors of a pair at an operation; one that is refused is skipped. -/
def successors? (p : Pair) (o : Operation) (n : Numbering) : Option (List State) :=
  match (e.semantics.process ⟨o, p.state, e.routine, e.symbols⟩ n).1 with
  | .ok states => some states
  | .error (.unsupported _ _ _) => some [p.state]
  | .error (.foreign _) => none

/-- `e.Yields n p q` says that the expansion of `p` with the values numbered by `n` produces `q`. -/
inductive Yields (n : Numbering) (p : Pair) : Pair → Prop
  | next {o : Operation} {states : List State} {s : State}
      (operation : e.operationAt? p.point = some o)
      (successors : e.successors? p o n = some states) (mem : s ∈ states) :
      Yields n p ⟨p.point.next, s⟩
  | thrown {o : Operation} {states : List State} {s : State} {h : BlockId}
      (operation : e.operationAt? p.point = some o) (throws : o.form.mayThrow)
      (handler : e.handler? p.point.block = some h)
      (successors : e.successors? p o n = some states) (mem : s ∈ states) :
      Yields n p ⟨Point.entry h, e.crossing s⟩
  | goTo {b : Block} {target : BlockId} (left : e.exitAt? p.point = some b)
      (exit : b.exit = .goTo target) : Yields n p ⟨Point.entry target, e.crossing p.state⟩
  | branch {b : Block} {condition : OpId} {whenTrue whenFalse : BlockId}
      {sides : List (Bool × State)} {side : Bool × State} (left : e.exitAt? p.point = some b)
      (exit : b.exit = .branch condition whenTrue whenFalse)
      (split : ((e.routine.split e.config.learnAtBranches p.state condition) n).1 = .result sides)
      (mem : side ∈ sides) :
      Yields n p ⟨Point.entry (if side.1 then whenTrue else whenFalse), e.crossing side.2⟩
  | raise {b : Block} {value : Option OpId} {h : BlockId} (left : e.exitAt? p.point = some b)
      (exit : b.exit = .raise value) (handler : b.handler = some h) :
      Yields n p ⟨Point.entry h, e.crossing p.state⟩

/-- The point is not behind the exit of its block. -/
def Within (p : Point) : Prop := p.index ≤ (e.routine.order p.block).size

theorem within_entry (b : BlockId) : e.Within (Point.entry b) := Nat.zero_le _

/-- `t` comes from `r` by publishing pairs. -/
structure Grows (r t : Run σ) : Prop where
  published : ∃ l : List Pair, t.visited.toList = r.visited.toList ++ l ∧
    t.pending = r.pending ++ l ∧ ∀ p ∈ l, e.Within p.point
  distinct : r.visited.toList.Nodup → t.visited.toList.Nodup
  steps : t.counters.steps = r.counters.steps
  terminal : t.counters.terminal = r.counters.terminal
  ended : t.outcome = none → r.outcome = none
  completed : t.outcome = some .completed → r.outcome = some .completed

namespace Grows

variable {e}

theorem refl (r : Run σ) : e.Grows r r :=
  ⟨⟨[], by simp⟩, id, rfl, rfl, id, id⟩

theorem trans {r t u : Run σ} (first : e.Grows r t) (second : e.Grows t u) : e.Grows r u := by
  obtain ⟨l, visited, pending, within⟩ := first.published
  obtain ⟨m, visited', pending', within'⟩ := second.published
  refine ⟨⟨l ++ m, ?_, ?_, ?_⟩, fun h => second.distinct (first.distinct h),
    second.steps.trans first.steps, second.terminal.trans first.terminal,
    fun h => first.ended (second.ended h), fun h => first.completed (second.completed h)⟩
  · rw [visited', visited, List.append_assoc]
  · rw [pending', pending, List.append_assoc]
  · intro p hp
    rcases List.mem_append.mp hp with hp | hp
    · exact within p hp
    · exact within' p hp

/-- What was published stays published. -/
theorem mem {r t : Run σ} (grows : e.Grows r t) {p : Pair} (hp : p ∈ r.visited) :
    p ∈ t.visited := by
  obtain ⟨l, visited, _, _⟩ := grows.published
  rw [← Array.mem_toList_iff] at hp ⊢
  rw [visited]
  exact List.mem_append_left l hp

/-- A run that differs only in other counters, in the numbering or by a halt. -/
theorem ofSame {r t : Run σ} (visited : t.visited = r.visited) (pending : t.pending = r.pending)
    (steps : t.counters.steps = r.counters.steps)
    (terminal : t.counters.terminal = r.counters.terminal)
    (outcome : t.outcome = r.outcome ∨ ∃ o, t.outcome = some o ∧ o ≠ .completed) :
    e.Grows r t := by
  refine ⟨⟨[], by simp [visited], by simp [pending], by simp⟩, fun h => visited ▸ h, steps,
    terminal, ?_, ?_⟩
  · intro h
    rcases outcome with same | ⟨o, halted, _⟩
    · exact same ▸ h
    · rw [halted] at h
      cases h
  · intro h
    rcases outcome with same | ⟨o, halted, other⟩
    · exact same ▸ h
    · rw [halted] at h
      exact absurd (Option.some.inj h) other

end Grows

/-- Checks see the run but do not move it. -/
theorem consult_frame (sighting : Sighting) (checks : List (Check σ)) (r : Run σ) :
    ∃ findings memory cancelled, checks.foldl (Run.consult sighting) r =
      { r with findings := findings, memory := memory, cancelled := cancelled } := by
  induction checks generalizing r with
  | nil => exact ⟨r.findings, r.memory, r.cancelled, rfl⟩
  | cons c rest ih =>
    obtain ⟨findings, memory, cancelled, same⟩ := ih (r.consult sighting c)
    exact ⟨findings, memory, cancelled, by rw [List.foldl_cons, same]; rfl⟩

/-- The ways a publication can go. -/
theorem publish_cases (p : Pair) (operation : Option Operation) (r : Run σ) :
    (r.outcome ≠ none ∧ e.publish p operation r = r) ∨
    (p ∈ r.visited ∧ e.publish p operation r = r.countDuplicate) ∨
    (e.publish p operation r = r.finish (.incomplete (.visited e.config.maxVisited))) ∨
    (p ∉ r.visited ∧ r.outcome = none ∧ ∃ findings memory cancelled,
      e.publish p operation r =
        { r with
          visited := r.visited.push p
          pending := r.pending ++ [p]
          findings := findings
          memory := memory
          cancelled := cancelled }) := by
  simp only [publish]
  by_cases ended : r.outcome.isSome
  · exact Or.inl ⟨Option.isSome_iff_ne_none.mp ended, if_pos ended⟩
  by_cases known : r.visited.contains p
  · refine Or.inr (Or.inl ⟨Array.contains_iff_mem.mp known, ?_⟩)
    rw [if_neg ended, if_pos known]
  by_cases full : e.config.maxVisited ≤ r.visited.size
  · refine Or.inr (Or.inr (Or.inl ?_))
    rw [if_neg ended, if_neg known, if_pos full]
  · refine Or.inr (Or.inr (Or.inr ⟨fun h => known (Array.contains_iff_mem.mpr h),
      Option.not_isSome_iff_eq_none.mp ended, ?_⟩))
    rw [if_neg ended, if_neg known, if_neg full]
    obtain ⟨findings, memory, cancelled, same⟩ := consult_frame
      ⟨e.routine, e.symbols, p.point, operation, p.state⟩ e.checks
      { r with visited := r.visited.push p }
    exact ⟨findings, memory, cancelled, by simp only [same]⟩

theorem publish_grows {p : Pair} (within : e.Within p.point) (operation : Option Operation)
    (r : Run σ) : e.Grows r (e.publish p operation r) := by
  rcases e.publish_cases p operation r with
    ⟨_, same⟩ | ⟨_, same⟩ | same | ⟨new, running, findings, memory, cancelled, same⟩
  · rw [same]
    exact Grows.refl r
  · rw [same]
    exact Grows.ofSame rfl rfl rfl rfl (Or.inl rfl)
  · rw [same]
    exact Grows.ofSame rfl rfl rfl rfl (Or.inr ⟨_, rfl, by simp⟩)
  · rw [same]
    refine ⟨⟨[p], Array.toList_push, rfl, by simpa using within⟩, ?_, rfl, rfl, id, id⟩
    intro distinct
    rw [Array.toList_push, List.nodup_append]
    refine ⟨distinct, by simp, ?_⟩
    rintro a ha b hb rfl
    rw [List.mem_singleton.mp hb] at ha
    exact new (Array.mem_toList_iff.mp ha)

/-- Unless the run has ended, a publication leaves its pair among the published ones. -/
theorem mem_publish {p : Pair} {operation : Option Operation} {r : Run σ}
    (running : (e.publish p operation r).outcome = none) :
    p ∈ (e.publish p operation r).visited := by
  rcases e.publish_cases p operation r with
    ⟨ended, same⟩ | ⟨known, same⟩ | same | ⟨_, _, _, _, _, same⟩
  · rw [same] at running
    exact absurd running ended
  · rw [same]
    exact known
  · rw [same] at running
    cases running
  · rw [same]
    exact Array.mem_push_self

theorem jump_grows (b : BlockId) (s : State) (r : Run σ) : e.Grows r (e.jump b s r) :=
  e.publish_grows (e.within_entry b) none r

theorem mem_jump {b : BlockId} {s : State} {r : Run σ} (running : (e.jump b s r).outcome = none) :
    ⟨Point.entry b, e.crossing s⟩ ∈ (e.jump b s r).visited :=
  e.mem_publish running

/-- Publications one after another, and what each of them leaves published. -/
theorem foldl_grows {α : Type} {f : Run σ → α → Run σ} (grows : ∀ r a, e.Grows r (f r a))
    (l : List α) (r : Run σ) :
    e.Grows r (l.foldl f r) ∧ ((l.foldl f r).outcome = none → ∀ a ∈ l, ∀ p,
      (∀ t, (f t a).outcome = none → p ∈ (f t a).visited) → p ∈ (l.foldl f r).visited) := by
  induction l generalizing r with
  | nil => exact ⟨Grows.refl r, by simp⟩
  | cons a rest ih =>
    obtain ⟨others, reached⟩ := ih (f r a)
    refine ⟨(grows r a).trans others, ?_⟩
    intro running b hb p publishes
    rcases List.mem_cons.mp hb with rfl | hb
    · exact others.mem (publishes r (others.ended running))
    · exact reached running b hb p publishes

theorem succeed_grows {p : Point} (below : e.Within p.next) (o : Operation) (r : Run σ)
    (s : State) : e.Grows r (e.succeed p o r s) := by
  simp only [succeed]
  split
  · exact (e.jump_grows _ _ _).trans (e.publish_grows below _ _)
  · exact e.publish_grows below _ _

theorem mem_succeed_next {p : Point} {o : Operation} {r : Run σ} {s : State}
    (running : (e.succeed p o r s).outcome = none) : ⟨p.next, s⟩ ∈ (e.succeed p o r s).visited :=
  e.mem_publish running

theorem mem_succeed_thrown {p : Point} {o : Operation} {r : Run σ} {s : State} {h : BlockId}
    (below : e.Within p.next) (throws : o.form.mayThrow) (handler : e.handler? p.block = some h)
    (running : (e.succeed p o r s).outcome = none) :
    ⟨Point.entry h, e.crossing s⟩ ∈ (e.succeed p o r s).visited := by
  have same : e.succeed p o r s = e.publish ⟨p.next, s⟩ (some o) (e.jump h s r) := by
    simp only [succeed]
    rw [if_pos throws, handler]
  rw [same] at running ⊢
  have grows := e.publish_grows (p := ⟨p.next, s⟩) below (some o) (e.jump h s r)
  exact grows.mem (e.mem_jump (grows.ended running))

/-- A step at an operation publishes what the operation yields. -/
theorem evaluate_grows {p : Pair} {o : Operation} (operation : e.operationAt? p.point = some o)
    (below : e.Within p.point.next) (r : Run σ) :
    e.Grows r (e.evaluate p o r) ∧ ((e.evaluate p o r).outcome = none →
      ∀ q, e.Yields r.numbering p q → q ∈ (e.evaluate p o r).visited) := by
  have inner : e.exitAt? p.point = none := by
    simp only [exitAt?]
    rw [if_neg]
    simp only [Within, Point.next] at below
    exact Nat.ne_of_lt below
  -- every yield comes from one of the successors
  have gathered : ∀ (states : List State) (t : Run σ),
      e.successors? p o r.numbering = some states → e.Grows r t →
      e.Grows r (states.foldl (e.succeed p.point o) t) ∧
      ((states.foldl (e.succeed p.point o) t).outcome = none → ∀ q,
        e.Yields r.numbering p q → q ∈ (states.foldl (e.succeed p.point o) t).visited) := by
    intro states t answered started
    obtain ⟨grows, reached⟩ := e.foldl_grows (e.succeed_grows below o) states t
    refine ⟨started.trans grows, ?_⟩
    intro running q yields
    cases yields with
    | next operation' successors mem =>
      cases Option.some.inj (operation.symm.trans operation')
      cases Option.some.inj (answered.symm.trans successors)
      exact reached running _ mem _ fun _ => e.mem_succeed_next
    | thrown operation' throws handler successors mem =>
      cases Option.some.inj (operation.symm.trans operation')
      cases Option.some.inj (answered.symm.trans successors)
      exact reached running _ mem _ fun _ => e.mem_succeed_thrown below throws handler
    | goTo left | branch left | raise left =>
      rw [inner] at left
      cases left
  generalize answer : e.semantics.process ⟨o, p.state, e.routine, e.symbols⟩ r.numbering = result
  have successors : e.successors? p o r.numbering = match result.1 with
      | .ok states => some states
      | .error (.unsupported _ _ _) => some [p.state]
      | .error (.foreign _) => none := by
    rw [← answer]
    rfl
  simp only [evaluate]
  rw [answer]
  obtain ⟨verdict, n⟩ := result
  cases verdict with
  | ok states =>
    cases states with
    | nil => exact gathered [] _ successors (Grows.ofSame rfl rfl rfl rfl (Or.inl rfl))
    | cons s rest =>
      exact gathered (s :: rest) _ successors (Grows.ofSame rfl rfl rfl rfl (Or.inl rfl))
  | error refusal =>
    cases refusal with
    | unsupported =>
      exact gathered [p.state] _ successors (Grows.ofSame rfl rfl rfl rfl (Or.inl rfl))
    | foreign f =>
      refine ⟨Grows.ofSame rfl rfl rfl rfl (Or.inr ⟨_, rfl, by simp⟩), ?_⟩
      intro running
      cases running

theorem fork_grows (s : State) (condition : OpId) (whenTrue whenFalse : BlockId) (r : Run σ) :
    e.Grows r (e.fork s condition whenTrue whenFalse r) ∧
    ((e.fork s condition whenTrue whenFalse r).outcome = none → ∀ sides,
      ((e.routine.split e.config.learnAtBranches s condition) r.numbering).1 = .result sides →
      ∀ side ∈ sides, ⟨Point.entry (if side.1 then whenTrue else whenFalse), e.crossing side.2⟩ ∈
        (e.fork s condition whenTrue whenFalse r).visited) := by
  generalize answer :
    (e.routine.split e.config.learnAtBranches s condition) r.numbering = result
  simp only [fork]
  rw [answer]
  obtain ⟨verdict, n⟩ := result
  cases verdict with
  | result sides =>
    have started : e.Grows r (if isDecided s condition then { r with numbering := n } else
        Run.countInfeasible { r with numbering := n } (2 - sides.length)) := by
      split
      · exact Grows.ofSame rfl rfl rfl rfl (Or.inl rfl)
      · exact Grows.ofSame rfl rfl rfl rfl (Or.inl rfl)
    obtain ⟨grows, reached⟩ := e.foldl_grows
      (fun t (side : Bool × State) =>
        e.jump_grows (if side.1 then whenTrue else whenFalse) side.2 t) sides
      (if isDecided s condition then { r with numbering := n } else
        Run.countInfeasible { r with numbering := n } (2 - sides.length))
    refine ⟨started.trans grows, ?_⟩
    rintro running _ ⟨⟩ side mem
    exact reached running side mem _ fun _ => e.mem_jump
  | infeasible =>
    refine ⟨Grows.ofSame rfl rfl rfl rfl (Or.inl rfl), ?_⟩
    rintro _ _ ⟨⟩
  | refused f =>
    refine ⟨Grows.ofSame rfl rfl rfl rfl (Or.inr ⟨_, rfl, by simp⟩), ?_⟩
    intro running
    cases running

theorem exitAt?_eq_some_iff {p : Point} {b : Block} : e.exitAt? p = some b ↔
    p.index = (e.routine.order p.block).size ∧ e.routine.block? p.block = some b := by
  simp [exitAt?]

theorem operationAt?_of_exit {p : Point} {b : Block} (left : e.exitAt? p = some b) :
    e.operationAt? p = none := by
  simp [operationAt?, (e.exitAt?_eq_some_iff.mp left).1]

/-- What a pair at an exit yields. -/
theorem Yields.of_exit {e : Exploration σ} {n : Numbering} {p q : Pair} {b : Block}
    (yields : e.Yields n p q) (left : e.exitAt? p.point = some b) :
    (∃ target, b.exit = .goTo target ∧ q = ⟨Point.entry target, e.crossing p.state⟩) ∨
    (∃ condition whenTrue whenFalse sides, b.exit = .branch condition whenTrue whenFalse ∧
      (e.routine.split e.config.learnAtBranches p.state condition n).1 = .result sides ∧
      ∃ side ∈ sides,
        q = ⟨Point.entry (if side.1 then whenTrue else whenFalse), e.crossing side.2⟩) ∨
    ∃ value h, b.exit = .raise value ∧ b.handler = some h ∧
      q = ⟨Point.entry h, e.crossing p.state⟩ := by
  have outer := e.operationAt?_of_exit left
  cases yields with
  | next operation | thrown operation =>
    rw [outer] at operation
    cases operation
  | goTo left' exit =>
    cases Option.some.inj (left.symm.trans left')
    exact Or.inl ⟨_, exit, rfl⟩
  | branch left' exit split mem =>
    cases Option.some.inj (left.symm.trans left')
    exact Or.inr (Or.inl ⟨_, _, _, _, exit, split, _, mem, rfl⟩)
  | raise left' exit handler =>
    cases Option.some.inj (left.symm.trans left')
    exact Or.inr (Or.inr ⟨_, _, exit, handler, rfl⟩)

/-- A step at an exit where paths go on publishes what the exit yields. -/
theorem leave_grows {p : Pair} {b : Block} (left : e.exitAt? p.point = some b)
    (goesOn : b.ends = false) (r : Run σ) :
    e.Grows r (e.leave p r) ∧ ((e.leave p r).outcome = none →
      ∀ q, e.Yields r.numbering p q → q ∈ (e.leave p r).visited) := by
  have found := (e.exitAt?_eq_some_iff.mp left).2
  cases exit : b.exit with
  | goTo target =>
    have same : e.leave p r = e.jump target p.state r := by
      simp only [leave, found, exit]
    rw [same]
    refine ⟨e.jump_grows target p.state r, ?_⟩
    intro running q yields
    rcases yields.of_exit left with
      ⟨_, exit', rfl⟩ | ⟨_, _, _, _, exit', _⟩ | ⟨_, _, exit', _⟩
    · cases exit.symm.trans exit'
      exact e.mem_jump running
    · cases exit.symm.trans exit'
    · cases exit.symm.trans exit'
  | branch condition whenTrue whenFalse =>
    have same : e.leave p r = e.fork p.state condition whenTrue whenFalse r := by
      simp only [leave, found, exit]
    rw [same]
    obtain ⟨grows, reached⟩ := e.fork_grows p.state condition whenTrue whenFalse r
    refine ⟨grows, ?_⟩
    intro running q yields
    rcases yields.of_exit left with
      ⟨_, exit', _⟩ | ⟨_, _, _, sides, exit', split, side, mem, rfl⟩ | ⟨_, _, exit', _⟩
    · cases exit.symm.trans exit'
    · cases exit.symm.trans exit'
      exact reached running sides split side mem
    · cases exit.symm.trans exit'
  | leave value => simp [Block.ends, exit] at goesOn
  | raise value =>
    cases handler : b.handler with
    | none => simp [Block.ends, exit, handler] at goesOn
    | some h =>
      have same : e.leave p r = e.jump h p.state r := by
        simp only [leave, found, exit, handler]
      rw [same]
      refine ⟨e.jump_grows h p.state r, ?_⟩
      intro running q yields
      rcases yields.of_exit left with
        ⟨_, exit', _⟩ | ⟨_, _, _, _, exit', _⟩ | ⟨_, _, _, handler', rfl⟩
      · cases exit.symm.trans exit'
      · cases exit.symm.trans exit'
      · cases Option.some.inj (handler.symm.trans handler')
        exact e.mem_jump running

/-- A path that ends is counted, and nothing else happens. -/
theorem leave_ends {p : Pair} {b : Block} (left : e.exitAt? p.point = some b)
    (ends : b.ends = true) (r : Run σ) : e.leave p r = r.countTerminal := by
  cases exit : b.exit with
  | goTo | branch => simp [Block.ends, exit] at ends
  | leave value => simp only [leave, (e.exitAt?_eq_some_iff.mp left).2, exit]
  | raise value =>
    have unhandled : b.handler = none := by simpa [Block.ends, exit] using ends
    simp only [leave, (e.exitAt?_eq_some_iff.mp left).2, exit, unhandled]

/-- Where paths end, nothing is yielded. -/
theorem not_yields_of_ends {n : Numbering} {p q : Pair} {b : Block}
    (left : e.exitAt? p.point = some b) (ends : b.ends = true) : ¬e.Yields n p q := by
  intro yields
  rcases yields.of_exit left with
    ⟨_, exit, _⟩ | ⟨_, _, _, _, exit, _⟩ | ⟨_, _, exit, handler, _⟩
  · simp [Block.ends, exit] at ends
  · simp [Block.ends, exit] at ends
  · simp [Block.ends, exit, handler] at ends

/-- Count a path that ends at the point. -/
def tally (p : Point) (r : Run σ) : Run σ := if e.endsAt p then r.countTerminal else r

/-- One expansion: pairs are only published, a path that ends is counted, and all that the pair
yields is published unless the run ends. -/
theorem expand_grows {p : Pair} (within : e.Within p.point) (r : Run σ) :
    e.Grows (e.tally p.point r) (e.expand p r) ∧
    ((e.expand p r).outcome = none →
      ∀ q, e.Yields r.numbering p q → q ∈ (e.expand p r).visited) := by
  have failing : ∀ message, e.Grows r (r.finish (.failed message)) ∧
      ((r.finish (.failed message)).outcome = none → ∀ q, e.Yields r.numbering p q →
        q ∈ (r.finish (.failed message)).visited) := by
    intro message
    exact ⟨Grows.ofSame rfl rfl rfl rfl (Or.inr ⟨_, rfl, by simp⟩), fun running => by cases running⟩
  cases here : (e.routine.order p.point.block)[p.point.index]? with
  | some i =>
    have below : p.point.index < (e.routine.order p.point.block).size :=
      (Array.getElem?_eq_some_iff.mp here).1
    have inner : e.endsAt p.point = false := by simp [endsAt, exitAt?, Nat.ne_of_lt below]
    cases found : e.routine.operation? i with
    | some o =>
      have operation : e.operationAt? p.point = some o := by simp [operationAt?, here, found]
      have same : e.expand p r = e.evaluate p o r := by simp only [expand, here, found]
      rw [same, tally, if_neg (by simp [inner])]
      exact e.evaluate_grows operation below r
    | none =>
      simp only [expand, here, found, tally, inner]
      exact failing _
  | none =>
    have atEnd : p.point.index = (e.routine.order p.point.block).size :=
      Nat.le_antisymm within (Array.getElem?_eq_none_iff.mp here)
    cases found : e.routine.block? p.point.block with
    | none =>
      have missing : e.endsAt p.point = false := by simp [endsAt, exitAt?, found]
      simp only [expand, here, leave, found, tally, missing]
      exact failing _
    | some b =>
      have left : e.exitAt? p.point = some b := e.exitAt?_eq_some_iff.mpr ⟨atEnd, found⟩
      have same : e.expand p r = e.leave p r := by simp only [expand, here]
      have counted : e.endsAt p.point = b.ends := by simp [endsAt, left]
      rw [same, tally, counted]
      cases ends : b.ends with
      | false => exact e.leave_grows left ends r
      | true =>
        rw [e.leave_ends left ends]
        exact ⟨Grows.refl _, fun _ q yields => absurd yields (e.not_yields_of_ends left ends)⟩

end Exploration

end SymbolicExecution
