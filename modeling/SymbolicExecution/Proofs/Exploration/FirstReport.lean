import Mathlib.Data.List.Induction
import SymbolicExecution.Proofs.Exploration.Reporting

/-!
# First reports

Of all that the checks report in a run, call after call, the run keeps what was not reported before,
in the order in which it was reported.
-/

namespace SymbolicExecution

/-- Findings are anchored at their operations, or at their points if both have none. -/
theorem Finding.anchor_eq_iff {f g : Finding} : f.anchor = g.anchor ↔
    (∃ i, f.operation = some i ∧ g.operation = some i) ∨
      f.operation = none ∧ g.operation = none ∧ f.point = g.point := by
  simp only [anchor]
  cases f.operation with
  | none => cases g.operation <;> simp
  | some i => cases g.operation <;> simp [eq_comm]

namespace Findings

/-- The findings that no earlier one of the list shares check and anchor with, in order. -/
def firsts (fs : List Finding) : List Finding :=
  (fs.zipIdx.filter fun (f, k) => ∀ g ∈ fs.take k, ¬g.Repeats f).map Prod.fst

theorem firsts_append_singleton (fs : List Finding) (f : Finding) :
    firsts (fs ++ [f]) = if ∃ g ∈ fs, g.key = f.key then firsts fs else firsts fs ++ [f] := by
  have before : (fs.zipIdx.filter fun (g, k) => ∀ h ∈ (fs ++ [f]).take k, ¬h.Repeats g) =
      fs.zipIdx.filter fun (g, k) => ∀ h ∈ fs.take k, ¬h.Repeats g := by
    apply List.filter_congr
    rintro ⟨g, k⟩ mem
    have inside : k < 0 + fs.length := (List.mem_zipIdx mem).2.1
    simp only [List.take_append_of_le_length (show k ≤ fs.length by omega)]
  simp only [firsts, List.zipIdx_append, List.filter_append, List.map_append, before]
  simp only [List.zipIdx_singleton, Nat.zero_add, List.take_left, List.filter_cons, List.filter_nil,
    Finding.repeats_iff, decide_eq_true_eq]
  by_cases old : ∃ g ∈ fs, g.key = f.key
  · rw [if_pos old, if_neg (by simpa using old)]
    simp
  · rw [if_neg old, if_pos (by simpa using old)]
    rfl

/-- Kept are the first reports. -/
theorem kept_reportAll (fs : List Finding) :
    (Findings.empty.reportAll fs).kept.toList = firsts fs := by
  induction fs using List.reverseRecOn with
  | nil => rfl
  | append_singleton fs f ih =>
    have last : Findings.empty.reportAll (fs ++ [f]) = (Findings.empty.reportAll fs).report f := by
      simp [reportAll]
    have known : f.key ∈ (Findings.empty.reportAll fs).keys ↔ ∃ g ∈ fs, g.key = f.key := by
      rw [mem_keys_reportAll]
      simp [keys, empty, eq_comm]
    rw [last, kept_report, ih, firsts_append_singleton]
    simp only [known]

theorem pairwise_firsts (fs : List Finding) : (firsts fs).Pairwise fun f g => ¬f.Repeats g := by
  have distinct : (Findings.empty.reportAll fs).keys.Nodup := nodup_reportAll List.nodup_nil
  rw [keys, kept_reportAll, List.Nodup, List.pairwise_map] at distinct
  exact distinct.imp fun other repeats => other (Finding.repeats_iff.mp repeats)

end Findings

namespace Exploration

variable {σ : Type} (e : Exploration σ)

/-- Behind what was reported before, what the called check reports, and what the checks remember
then. -/
def respond (a : List Finding × σ) (c : Call) : List Finding × σ :=
  match e.checks[c.position]? with
  | some check =>
    (a.1 ++ (check.observe c.sighting a.2).findings, (check.observe c.sighting a.2).memory)
  | none => a

/-- All that the checks report when they are called like this, in order, and what they remember in
the end. -/
def responses (memory : σ) (calls : List Call) : List Finding × σ :=
  calls.foldl e.respond ([], memory)

/-- The run has collected what the checks reported at its calls. -/
structure Collects (memory : σ) (r : Run (σ × List Call)) : Prop where
  findings : r.findings = Findings.empty.reportAll (e.responses memory r.memory.2).1
  memory : r.memory.1 = (e.responses memory r.memory.2).2

variable {e} {memory : σ} {r : Run (σ × List Call)}

theorem Collects.consult (collects : e.Collects memory r) (s : Sighting) {c : Check σ} {k : Nat}
    (here : e.checks[k]? = some c) : e.Collects memory (r.consult s (c.recording k)) := by
  have answered : e.responses memory (r.memory.2 ++ [⟨k, s⟩]) =
      ((e.responses memory r.memory.2).1 ++ (c.observe s r.memory.1).findings,
        (c.observe s r.memory.1).memory) := by
    rw [responses, List.foldl_append, ← responses, List.foldl_cons, List.foldl_nil, respond]
    simp only [here, collects.memory]
  constructor
  · simp only [Run.consult, Check.recording, answered]
    rw [collects.findings, Findings.reportAll, Findings.reportAll, Findings.reportAll,
      List.foldl_append]
  · simp only [Run.consult, Check.recording, answered]

theorem Collects.accept (collects : e.Collects memory r) (p : Pair)
    (operation : Option Operation) : e.Collects memory (e.recording.accept p operation r) := by
  have consulted : ∀ (s : Sighting) (checks : List (Check (σ × List Call))),
      (∀ d ∈ checks, ∃ c k, d = Check.recording c k ∧ e.checks[k]? = some c) →
      ∀ t, e.Collects memory t → e.Collects memory (checks.foldl (Run.consult s) t) := by
    intro s checks
    induction checks with
    | nil => exact fun _ _ collects => collects
    | cons d rest ih =>
      intro all t collects
      obtain ⟨c, k, rfl, here⟩ := all d List.mem_cons_self
      exact ih (fun d hd => all d (List.mem_cons_of_mem _ hd)) _ (collects.consult s here)
  have all : ∀ d ∈ e.recording.checks, ∃ c k, d = Check.recording c k ∧ e.checks[k]? = some c := by
    intro d hd
    obtain ⟨⟨c, k⟩, mem, rfl⟩ := List.mem_map.mp hd
    exact ⟨c, k, rfl, List.mem_zipIdx_iff_getElem?.mp mem⟩
  obtain ⟨findings, memory⟩ := consulted ⟨e.routine, e.symbols, p.point, operation, p.state⟩ _ all
    { r with visited := r.visited.push p } ⟨collects.findings, collects.memory⟩
  exact ⟨findings, memory⟩

variable (e memory)

theorem invariant_collects :
    e.recording.Invariant (memory, []) (fun _ => True) (e.Collects memory) where
  start _ := ⟨rfl, rfl⟩
  entry := trivial
  waiting _ _ _ _ := trivial
  take collects _ _ _ := ⟨collects.findings, collects.memory⟩
  act {r m} collects _ _ := by
    cases m with
    | publish p operation =>
      apply e.recording.publish_elim
      case ended => exact fun _ => collects
      case known => exact fun _ _ => ⟨collects.findings, collects.memory⟩
      case full => exact fun _ _ _ => ⟨collects.findings, collects.memory⟩
      case new => exact fun _ _ _ => collects.accept p operation
    | renumber | discard | skip | terminate | fail => exact ⟨collects.findings, collects.memory⟩
  finish collects _ := ⟨collects.findings, collects.memory⟩
  cancel collects := ⟨collects.findings, collects.memory⟩

variable {e memory}

/-- The report of a run that is not cancelled has the first reports of its calls. -/
theorem Collects.report (collects : e.Collects memory r)
    (kept : (r.forget.report e.routine).outcome ≠ .cancelled) :
    (r.forget.report e.routine).findings = Findings.firsts (e.responses memory r.memory.2).1 ∧
      (r.forget.report e.routine).findings.Pairwise fun f g => ¬f.Repeats g := by
  have findings : (r.forget.report e.routine).findings =
      Findings.firsts (e.responses memory r.memory.2).1 := by
    rw [← Findings.kept_reportAll, ← collects.findings]
    exact if_neg kept
  exact ⟨findings, findings ▸ Findings.pairwise_firsts _⟩

variable (e memory)

/-- Whatever is reported to a collector, it keeps what was not reported before, in order. Reports
are the same if they come from the same check and have the same operation, or the same point and
neither an operation. So a run that is not cancelled, whether it is interrupted or not, has in its
report what its checks reported first, call after call, and no two of these findings are the same.
-/
theorem run_keeps_firsts :
    (∀ fs, (Findings.empty.reportAll fs).kept.toList = Findings.firsts fs) ∧
    (∀ f g : Finding, f.Repeats g ↔ f.check = g.check ∧
      ((∃ i, f.operation = some i ∧ g.operation = some i) ∨
        f.operation = none ∧ g.operation = none ∧ f.point = g.point)) ∧
    (∀ cancelled, ((e.run memory cancelled).report e.routine).outcome ≠ .cancelled →
      ((e.run memory cancelled).report e.routine).findings =
          Findings.firsts (e.responses memory (e.calls memory cancelled)).1 ∧
        ((e.run memory cancelled).report e.routine).findings.Pairwise fun f g => ¬f.Repeats g) ∧
    ∀ k t, e.Attains memory k t → ∃ r, e.recording.Attains (memory, []) k r ∧ r.forget = t ∧
      ((t.report e.routine).outcome ≠ .cancelled →
        (t.report e.routine).findings = Findings.firsts (e.responses memory r.memory.2).1 ∧
          (t.report e.routine).findings.Pairwise fun f g => ¬f.Repeats g) := by
  have invariant := invariant_collects e memory
  refine ⟨Findings.kept_reportAll, ?_, ?_, ?_⟩
  · intro f g
    rw [Finding.Repeats, Finding.anchor_eq_iff]
  · intro cancelled
    obtain ⟨k, attains⟩ := e.recording.attains_run (memory, []) cancelled
    rw [← e.forget_run memory cancelled]
    exact (invariant.attains attains).report
  · intro k t attains
    obtain ⟨r, recorded, rfl⟩ := attains.recorded
    exact ⟨r, recorded, rfl, (invariant.attains recorded).report⟩

/-- The same check twice: what the one reports, the other repeats. -/
def echoing : Exploration Unit :=
  { dereferencing with checks := [.nullDereference, .nullDereference], config := default }

theorem run_keeps_firsts_echoing :
    ((echoing.run () false).report echoing.routine).findings =
      Findings.firsts (echoing.responses () (echoing.calls () false)).1 ∧
    ((echoing.run () false).report echoing.routine).findings.length = 2 ∧
    (echoing.responses () (echoing.calls () false)).1.length = 4 := by
  have kept : ((echoing.run () false).report echoing.routine).outcome ≠ .cancelled := by
    decide +kernel
  exact ⟨((run_keeps_firsts echoing ()).2.2.1 false kept).1, by decide +kernel, by decide +kernel⟩

end Exploration

end SymbolicExecution
