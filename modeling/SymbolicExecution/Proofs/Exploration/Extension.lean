import SymbolicExecution.Check.NullDereference
import SymbolicExecution.Proofs.Exploration.Call

/-!
# Larger budgets extend a run

Explorations that differ in their budgets only play the same moves, so their runs are the same for
as long as the smaller budgets last. Where one of these runs out, the one run ends and the other
goes on, and whatever it does from there it only adds to what was published and reported.
-/

namespace SymbolicExecution

namespace Findings

theorem prefix_report (l : Findings) (f : Finding) :
    l.kept.toList <+: (l.report f).kept.toList := by
  simp only [report]
  split
  · exact List.prefix_refl _
  · rw [Array.toList_push]
    exact List.prefix_append _ _

theorem prefix_reportAll (l : Findings) (fs : List Finding) :
    l.kept.toList <+: (l.reportAll fs).kept.toList := by
  simp only [reportAll]
  induction fs generalizing l with
  | nil => exact List.prefix_refl _
  | cons f rest ih => exact (l.prefix_report f).trans (ih (l.report f))

end Findings

variable {σ : Type}

/-- `t` has published all that `r` has and has reported all that `r` has, and then perhaps more. -/
structure Run.Continues (r t : Run σ) : Prop where
  visited : r.visited.toList <+: t.visited.toList
  findings : r.findings.kept.toList <+: t.findings.kept.toList

namespace Run.Continues

variable {r t u : Run σ}

/-- What is neither published nor reported does not matter. -/
theorem ofSame (visited : t.visited = r.visited) (findings : t.findings = r.findings) :
    r.Continues t :=
  ⟨visited ▸ List.prefix_refl _, findings ▸ List.prefix_refl _⟩

theorem refl (r : Run σ) : r.Continues r := .ofSame rfl rfl

theorem trans (first : r.Continues t) (second : t.Continues u) : r.Continues u :=
  ⟨first.visited.trans second.visited, first.findings.trans second.findings⟩

end Run.Continues

namespace Exploration

variable (e : Exploration σ)

theorem continues_foldl_consult (s : Sighting) (checks : List (Check σ)) (r : Run σ) :
    r.Continues (checks.foldl (Run.consult s) r) := by
  induction checks generalizing r with
  | nil => exact .refl r
  | cons c rest ih =>
    have first : r.Continues (r.consult s c) :=
      ⟨List.prefix_refl _, Findings.prefix_reportAll _ _⟩
    exact first.trans (ih (r.consult s c))

theorem continues_accept (p : Pair) (operation : Option Operation) (r : Run σ) :
    r.Continues (e.accept p operation r) := by
  have pushed : r.Continues { r with visited := r.visited.push p } :=
    ⟨by simp, List.prefix_refl _⟩
  have shown := continues_foldl_consult ⟨e.routine, e.symbols, p.point, operation, p.state⟩
    e.checks { r with visited := r.visited.push p }
  exact ⟨(pushed.trans shown).visited, (pushed.trans shown).findings⟩

theorem continues_play (r : Run σ) (m : Move) : r.Continues (e.play r m) := by
  simp only [play]
  split
  · exact .refl r
  · cases m with
    | publish p operation =>
      apply e.publish_elim
      case ended => exact fun _ => .refl r
      case known => exact fun _ _ => .ofSame rfl rfl
      case full => exact fun _ _ _ => .ofSame rfl rfl
      case new => exact fun _ _ _ => e.continues_accept p operation r
    | renumber | discard | skip | terminate | fail => exact .ofSame rfl rfl

theorem continues_foldl (l : List Move) (r : Run σ) : r.Continues (l.foldl e.play r) := by
  induction l generalizing r with
  | nil => exact .refl r
  | cons m rest ih => exact (e.continues_play r m).trans (ih (e.play r m))

theorem continues_advance {r : Run σ} (running : r.outcome = none) :
    r.Continues (e.advance r) := by
  rcases e.advance_cases running with ⟨o, _, same⟩ | ⟨p, rest, _, _, _, same⟩
  · rw [same]
    exact .ofSame rfl rfl
  · rw [same]
    have taken : r.Continues (step rest r) := .ofSame rfl rfl
    exact taken.trans (e.continues_foldl _ _)

/-- The same exploration with other budgets. -/
def withBudgets (pairs steps : Nat) : Exploration σ :=
  { e with config := { e.config with maxVisited := pairs, maxSteps := steps } }

/-- The runs are the same, or else a budget ended the first one and the second one went on. -/
def Outlasts (r t : Run σ) : Prop :=
  r = t ∨ (∃ s, r.outcome = some (.incomplete s)) ∧ r.Continues t

variable {e} {pairs steps : Nat} {r t : Run σ}

/-- A run that a budget has ended is outlasted by all that goes on. -/
theorem Outlasts.continue {u : Run σ} {s : Shortage} (ended : r.outcome = some (.incomplete s))
    (outlasts : Outlasts r t) (continues : t.Continues u) : Outlasts r u := by
  rcases outlasts with rfl | ⟨_, before⟩
  · exact Or.inr ⟨⟨s, ended⟩, continues⟩
  · exact Or.inr ⟨⟨s, ended⟩, before.trans continues⟩

variable (enough : e.config.maxVisited ≤ pairs)

include enough

theorem outlasts_publish (p : Pair) (operation : Option Operation) (running : r.outcome = none) :
    Outlasts (e.publish p operation r) ((e.withBudgets pairs steps).publish p operation r) := by
  apply e.publish_elim
    (P := fun t => Outlasts t ((e.withBudgets pairs steps).publish p operation r))
  case ended => exact fun ended => absurd running ended
  case known =>
    intro _ known
    refine Or.inl ?_
    simp [publish, running, known]
  case full =>
    intro _ _ _
    have continues := (e.withBudgets pairs steps).continues_play r (.publish p operation)
    rw [play_publish] at continues
    exact Or.inr ⟨⟨_, rfl⟩, ⟨continues.visited, continues.findings⟩⟩
  case new =>
    intro _ new room
    have room' : r.visited.size < (e.withBudgets pairs steps).config.maxVisited :=
      Nat.lt_of_lt_of_le room enough
    rw [(e.withBudgets pairs steps).publish_of_new running new room']
    exact Or.inl rfl

theorem Outlasts.play (outlasts : Outlasts r t) (m : Move) :
    Outlasts (e.play r m) ((e.withBudgets pairs steps).play t m) := by
  rcases outlasts with rfl | ⟨⟨s, ended⟩, continues⟩
  · cases running : r.outcome with
    | none =>
      rw [e.play_of_running running, (e.withBudgets pairs steps).play_of_running running]
      cases m with
      | publish p operation => exact outlasts_publish enough p operation running
      | renumber | discard | skip | terminate | fail => exact Or.inl rfl
    | some o =>
      have ended : r.outcome ≠ none := by simp [running]
      rw [e.play_of_ended ended, (e.withBudgets pairs steps).play_of_ended ended]
      exact Or.inl rfl
  · rw [e.play_of_ended (by simp [ended])]
    exact Outlasts.continue ended (Or.inr ⟨⟨s, ended⟩, continues⟩)
      ((e.withBudgets pairs steps).continues_play t m)

theorem Outlasts.foldl (outlasts : Outlasts r t) (l : List Move) :
    Outlasts (l.foldl e.play r) (l.foldl (e.withBudgets pairs steps).play t) := by
  induction l generalizing r t with
  | nil => exact outlasts
  | cons m rest ih => exact ih (outlasts.play enough m)

variable (more : e.config.maxSteps ≤ steps)

include more

theorem outlasts_advance (running : r.outcome = none) :
    Outlasts (e.advance r) ((e.withBudgets pairs steps).advance r) := by
  rcases e.advance_cases running with
    ⟨o, ends, same⟩ | ⟨p, rest, pending, uncancelled, budget, same⟩
  · rw [same]
    cases ends with
    | completed done =>
      refine Or.inl ?_
      simp [advance, done]
    | cancelled waits raised =>
      obtain ⟨p, rest, pending⟩ := List.exists_cons_of_ne_nil waits
      refine Or.inl ?_
      simp [advance, pending, raised]
    | spent =>
      have continues := (e.withBudgets pairs steps).continues_advance running
      exact Or.inr ⟨⟨_, rfl⟩, ⟨continues.visited, continues.findings⟩⟩
  · have budget' : r.counters.steps < (e.withBudgets pairs steps).config.maxSteps :=
      Nat.lt_of_lt_of_le budget more
    have taken : (e.withBudgets pairs steps).advance r =
        (e.withBudgets pairs steps).expand p (step rest r) := by
      simp [advance, pending, uncancelled, Nat.not_le.mpr budget', step]
    rw [same, taken, (e.withBudgets pairs steps).expand_eq (r := step rest r) running]
    exact Outlasts.foldl enough (Or.inl rfl) (e.moves p r.numbering)

theorem outlasts_after (memory : σ) (cancelled : Bool) (k : Nat) :
    Outlasts (e.after memory cancelled k)
      ((e.withBudgets pairs steps).after memory cancelled k) := by
  induction k with
  | zero => exact outlasts_publish enough (r := Run.start memory cancelled) _ none rfl
  | succ k ih =>
    rw [after_succ, after_succ]
    rcases ih with same | ⟨⟨s, ended⟩, continues⟩
    · rw [← same]
      split
      · rename_i running
        exact outlasts_advance enough more running
      · exact Or.inl rfl
    · rw [if_neg (by simp [ended])]
      split
      · rename_i running
        exact Or.inr ⟨⟨s, ended⟩,
          continues.trans ((e.withBudgets pairs steps).continues_advance running)⟩
      · exact Or.inr ⟨⟨s, ended⟩, continues⟩

theorem outlasts_run (memory : σ) (cancelled : Bool) :
    Outlasts (e.run memory cancelled) ((e.withBudgets pairs steps).run memory cancelled) := by
  have outlasts := outlasts_after enough more memory cancelled (steps + 1)
  -- The first run has ended by then.
  rw [e.after_of_ended memory cancelled (Nat.succ_le_succ more)
    (e.outcome_run_ne_none memory cancelled)] at outlasts
  exact outlasts

omit enough more

/-- Only a raised signal cancels a run. -/
theorem invariant_raised (memory : σ) : e.Invariant memory (fun _ => True)
    (fun r => r.outcome = some .cancelled → r.cancelled = true) where
  start _ ended := nomatch ended
  entry := trivial
  waiting _ _ _ _ := trivial
  take raised _ _ _ := raised
  act {r m} _ running _ := by
    cases m with
    | publish p operation =>
      apply e.publish_elim (P := fun t => t.outcome = some .cancelled → t.cancelled = true)
      case ended => exact fun ended => absurd running ended
      case known => exact fun _ _ ended => by simp [Run.countDuplicate, running] at ended
      case full => exact fun _ _ _ ended => nomatch ended
      case new => exact fun _ _ _ ended => by simp [running] at ended
    | fail => exact fun ended => nomatch ended
    | renumber => exact fun ended => by simp [act, running] at ended
    | discard => exact fun ended => by simp [act, Run.countInfeasible, running] at ended
    | skip => exact fun ended => by simp [act, Run.countSkipped, running] at ended
    | terminate => exact fun ended => by simp [act, Run.countTerminal, running] at ended
  finish _ ends ended := by
    cases ends with
    | cancelled _ raised => exact raised
    | completed | spent => cases ended
  cancel _ _ := rfl

section Quiet

variable (quiet : ∀ c ∈ e.checks, ∀ s m, (c.observe s m).cancels = false)

include quiet

theorem cancelled_accept (p : Pair) (operation : Option Operation) (r : Run σ) :
    (e.accept p operation r).cancelled = r.cancelled := by
  have consulted : ∀ checks : List (Check σ), (∀ c ∈ checks, c ∈ e.checks) → ∀ s (t : Run σ),
      (checks.foldl (Run.consult s) t).cancelled = t.cancelled := by
    intro checks
    induction checks with
    | nil => exact fun _ _ _ => rfl
    | cons c rest ih =>
      intro all s t
      rw [List.foldl_cons, ih (fun d hd => all d (List.mem_cons_of_mem c hd))]
      simp [Run.consult, quiet c (all c List.mem_cons_self)]
  exact consulted e.checks (fun _ hc => hc) _ _

theorem cancelled_play (r : Run σ) (m : Move) : (e.play r m).cancelled = r.cancelled := by
  simp only [play]
  split
  · rfl
  · cases m with
    | publish p operation =>
      apply e.publish_elim (P := fun t => t.cancelled = r.cancelled)
      case ended => exact fun _ => rfl
      case known => exact fun _ _ => rfl
      case full => exact fun _ _ _ => rfl
      case new => exact fun _ _ _ => cancelled_accept quiet p operation r
    | renumber | discard | skip | terminate | fail => rfl

theorem cancelled_advance {r : Run σ} (running : r.outcome = none) :
    (e.advance r).cancelled = r.cancelled := by
  rcases e.advance_cases running with ⟨o, _, same⟩ | ⟨p, rest, _, _, _, same⟩
  · rw [same]
    rfl
  · rw [same]
    generalize e.moves p r.numbering = l
    have taken : (step rest r).cancelled = r.cancelled := rfl
    rw [← taken]
    generalize step rest r = t
    induction l generalizing t with
    | nil => rfl
    | cons m l ih => rw [List.foldl_cons, ih, cancelled_play quiet]

/-- Checks that do not cancel leave the signal as it was. -/
theorem cancelled_after (memory : σ) (cancelled : Bool) (k : Nat) :
    (e.after memory cancelled k).cancelled = cancelled := by
  induction k with
  | zero =>
    have entered := cancelled_play quiet (Run.start memory cancelled)
      (.publish ⟨Point.entry e.routine.entry, State.entry e.routine.id⟩ none)
    rw [play_publish] at entered
    exact entered
  | succ k ih =>
    rw [after_succ]
    split
    · rename_i running
      rw [cancelled_advance quiet running, ih]
    · exact ih

theorem cancelled_of_result {memory : σ} {cancelled : Bool}
    (result : (e.run memory cancelled).result = .cancelled) : cancelled = true := by
  have ended : (e.run memory cancelled).outcome = some .cancelled := by
    cases ended : (e.run memory cancelled).outcome with
    | none => exact absurd ended (e.outcome_run_ne_none memory cancelled)
    | some o => simpa [Run.result, ended] using result
  obtain ⟨k, attains⟩ := e.attains_run memory cancelled
  rw [← cancelled_after quiet memory cancelled (e.config.maxSteps + 1), ← run_eq_after]
  exact (invariant_raised memory).attains attains ended

/-- Where the signal is raised at the start, a budget ends the run only before the first pair. -/
theorem findings_of_raised {memory : σ} {s : Shortage}
    (ended : (e.run memory true).outcome = some (.incomplete s)) :
    (e.run memory true).findings = Findings.empty := by
  have entered : (e.after memory true 0).outcome ≠ none ∧
        (e.after memory true 0).findings = Findings.empty ∨
      (e.after memory true 0).outcome = none := by
    apply e.publish_elim (P := fun t => t.outcome ≠ none ∧ t.findings = .empty ∨ t.outcome = none)
    case ended => exact fun _ => Or.inr rfl
    case known => exact fun _ _ => Or.inr rfl
    case full => exact fun _ _ _ => Or.inl ⟨by simp [Run.finish], rfl⟩
    case new => exact fun _ _ _ => Or.inr (e.accept_outcome _ _ _)
  rcases entered with ⟨halted, none⟩ | running
  · rw [run_eq_after, e.after_of_ended memory true (Nat.zero_le _) halted]
    exact none
  · have turn : ∃ o, (e.after memory true 1).outcome = some o ∧ ∀ s, o ≠ .incomplete s := by
      have raised := cancelled_after quiet memory true 0
      rw [after_succ, if_pos running]
      cases pending : (e.after memory true 0).pending with
      | nil => exact ⟨.completed, by simp [advance, pending, Run.finish], by simp⟩
      | cons p rest => exact ⟨.cancelled, by simp [advance, pending, raised, Run.finish], by simp⟩
    obtain ⟨o, halted, other⟩ := turn
    rw [run_eq_after, e.after_of_ended memory true (Nat.le_add_left 1 _) (by simp [halted]),
      halted] at ended
    exact absurd (Option.some.inj ended) (other s)

/-- Two explorations that differ in their budgets only, the second one having at least those of the
first, and checks that do not cancel: the calls of the checks and the findings of the second begin
with those of the first, and if the first is completed, then both report the same. -/
theorem run_withBudgets (enough : e.config.maxVisited ≤ pairs) (more : e.config.maxSteps ≤ steps)
    (memory : σ) (cancelled : Bool) :
    e.calls memory cancelled <+: (e.withBudgets pairs steps).calls memory cancelled ∧
    ((e.run memory cancelled).report e.routine).findings <+:
      (((e.withBudgets pairs steps).run memory cancelled).report e.routine).findings ∧
    ((e.run memory cancelled).result = .completed →
      (e.run memory cancelled).report e.routine =
        ((e.withBudgets pairs steps).run memory cancelled).report e.routine) := by
  have groups : (e.withBudgets pairs steps).group = e.group := rfl
  have quiet' : ∀ c ∈ (e.withBudgets pairs steps).checks, ∀ s m, (c.observe s m).cancels = false :=
    quiet
  rw [calls_eq, calls_eq, groups]
  rcases outlasts_run enough more memory cancelled with same | ⟨⟨s, ended⟩, continues⟩
  · rw [← same]
    exact ⟨List.prefix_refl _, List.prefix_refl _, fun _ => rfl⟩
  · have result : (e.run memory cancelled).result = .incomplete s := by simp [Run.result, ended]
    refine ⟨?_, ?_, fun completed => by simp [result] at completed⟩
    · obtain ⟨l, visited⟩ := continues.visited
      rw [← visited, List.flatMap_append]
      exact List.prefix_append _ _
    · simp only [Run.report, result, reduceCtorEq, if_false]
      split
      · rename_i stopped
        obtain rfl := cancelled_of_result quiet' stopped
        rw [findings_of_raised quiet ended]
        exact List.nil_prefix
      · exact continues.findings

end Quiet

/-- Two members of the null constant are called. The budget runs out behind the first call. -/
def dereferencing : Exploration Unit where
  routine :=
    { id := ⟨0⟩
      name := "dereferencing"
      blocks := #[⟨⟨0⟩, [⟨⟨0⟩, 1⟩, ⟨⟨0⟩, 2⟩], .leave none, none⟩]
      operations := #[⟨⟨⟨0⟩, 0⟩, .literal .null, none⟩,
        ⟨⟨⟨0⟩, 1⟩, .call (some ⟨⟨0⟩, 0⟩) "first" [], none⟩,
        ⟨⟨⟨0⟩, 2⟩, .call (some ⟨⟨0⟩, 0⟩) "second" [], none⟩]
      closures := Table.empty
      orders := #[#[⟨⟨0⟩, 0⟩, ⟨⟨0⟩, 1⟩, ⟨⟨0⟩, 2⟩]]
      written := [] }
  symbols := ⟨fun _ => none⟩
  semantics := .builtin
  checks := [.nullDereference]
  config := { (default : Config) with maxVisited := 3, maxSteps := 3 }

theorem run_withBudgets_dereferencing :
    dereferencing.calls () false <+: (dereferencing.withBudgets 10 10).calls () false ∧
    ((dereferencing.run () false).report dereferencing.routine).findings <+:
      (((dereferencing.withBudgets 10 10).run () false).report dereferencing.routine).findings ∧
    ((dereferencing.run () false).report dereferencing.routine).findings.length = 1 ∧
    (((dereferencing.withBudgets 10 10).run () false).report
      dereferencing.routine).findings.length = 2 := by
  have quiet : ∀ c ∈ dereferencing.checks, ∀ s m, (c.observe s m).cancels = false := by
    intro c hc s m
    rw [List.mem_singleton.mp hc]
    rfl
  have enough : dereferencing.config.maxVisited ≤ 10 := by decide
  have more : dereferencing.config.maxSteps ≤ 10 := by decide
  obtain ⟨calls, findings, _⟩ := run_withBudgets quiet enough more () false
  exact ⟨calls, findings, by decide +kernel, by decide +kernel⟩

end Exploration

end SymbolicExecution
