import Mathlib.Data.List.Nodup
import SymbolicExecution.Proofs.Exploration.Extension

/-!
# What a run reports

Of a check without memory, a run reports what the check finds at the published pairs, once for each
anchor, as long as no other check reports under its name.
-/

namespace SymbolicExecution

/-- Findings with the same key repeat each other. -/
def Finding.key (f : Finding) : String × Anchor := (f.check, f.anchor)

theorem Finding.repeats_iff {f g : Finding} : f.Repeats g ↔ f.key = g.key := by
  simp [Repeats, key]

theorem Finding.key_eq_iff {f : Finding} {name : String} {i : OpId} :
    f.key = (name, .operation i) ↔ f.check = name ∧ f.operation = some i := by
  simp only [key, anchor, Prod.mk.injEq]
  cases f.operation with
  | none => simp
  | some j => simp

namespace Findings

def keys (l : Findings) : List (String × Anchor) := l.kept.toList.map Finding.key

variable {l : Findings} {f : Finding}

theorem kept_report (l : Findings) (f : Finding) : (l.report f).kept.toList =
    if f.key ∈ l.keys then l.kept.toList else l.kept.toList ++ [f] := by
  have repeated : (l.kept.any fun g => f.Repeats g) = true ↔ f.key ∈ l.keys := by
    rw [← Array.any_toList, List.any_eq_true, keys, List.mem_map]
    constructor
    · rintro ⟨g, hg, repeats⟩
      exact ⟨g, hg, (Finding.repeats_iff.mp (of_decide_eq_true repeats)).symm⟩
    · rintro ⟨g, hg, same⟩
      exact ⟨g, hg, decide_eq_true (Finding.repeats_iff.mpr same.symm)⟩
  simp only [report]
  split
  · rename_i old
    rw [if_pos (repeated.mp old)]
  · rename_i new
    rw [if_neg fun old => new (repeated.mpr old), Array.toList_push]

theorem keys_report (l : Findings) (f : Finding) :
    (l.report f).keys = if f.key ∈ l.keys then l.keys else l.keys ++ [f.key] := by
  rw [keys, kept_report]
  split
  · rfl
  · simp [keys]

theorem mem_report {g : Finding} (hg : g ∈ (l.report f).kept) : g ∈ l.kept ∨ g = f := by
  simp only [report] at hg
  split at hg
  · exact Or.inl hg
  · exact Array.mem_push.mp hg

theorem mem_keys_report {k : String × Anchor} :
    k ∈ (l.report f).keys ↔ k ∈ l.keys ∨ k = f.key := by
  rw [keys_report]
  split
  · rename_i old
    exact ⟨Or.inl, fun known => known.elim id fun same => same ▸ old⟩
  · simp

theorem nodup_report (distinct : l.keys.Nodup) : (l.report f).keys.Nodup := by
  rw [keys_report]
  split
  · exact distinct
  · rename_i new
    refine List.nodup_append.mpr ⟨distinct, by simp, ?_⟩
    rintro a old b hb rfl
    exact new (List.mem_singleton.mp hb ▸ old)

variable {fs : List Finding}

theorem mem_reportAll {g : Finding} (hg : g ∈ (l.reportAll fs).kept) : g ∈ l.kept ∨ g ∈ fs := by
  simp only [reportAll] at hg
  induction fs generalizing l with
  | nil => exact Or.inl hg
  | cons f rest ih =>
    rcases ih hg with old | later
    · rcases mem_report old with old | rfl
      · exact Or.inl old
      · exact Or.inr List.mem_cons_self
    · exact Or.inr (List.mem_cons_of_mem f later)

theorem mem_keys_reportAll {k : String × Anchor} :
    k ∈ (l.reportAll fs).keys ↔ k ∈ l.keys ∨ ∃ f ∈ fs, k = f.key := by
  simp only [reportAll]
  induction fs generalizing l with
  | nil => simp
  | cons f rest ih =>
    rw [List.foldl_cons, ih, mem_keys_report]
    simp [or_assoc]

theorem nodup_reportAll (distinct : l.keys.Nodup) : (l.reportAll fs).keys.Nodup := by
  simp only [reportAll]
  induction fs generalizing l with
  | nil => exact distinct
  | cons f rest ih => exact ih (nodup_report distinct)

end Findings

namespace Exploration

variable {σ : Type} {e : Exploration σ}

section Consult

variable {s : Sighting} {checks : List (Check σ)} {r : Run σ}

theorem mem_consult {f : Finding} (hf : f ∈ (checks.foldl (Run.consult s) r).findings.kept) :
    f ∈ r.findings.kept ∨ ∃ c ∈ checks, ∃ m, f ∈ (c.observe s m).findings := by
  induction checks generalizing r with
  | nil => exact Or.inl hf
  | cons c rest ih =>
    rcases ih hf with old | ⟨d, hd, m, found⟩
    · rcases Findings.mem_reportAll old with old | found
      · exact Or.inl old
      · exact Or.inr ⟨c, List.mem_cons_self, r.memory, found⟩
    · exact Or.inr ⟨d, List.mem_cons_of_mem c hd, m, found⟩

theorem mem_keys_consult {k : String × Anchor} (known : k ∈ r.findings.keys) :
    k ∈ (checks.foldl (Run.consult s) r).findings.keys := by
  induction checks generalizing r with
  | nil => exact known
  | cons c rest ih =>
    have first : k ∈ (r.consult s c).findings.keys := Findings.mem_keys_reportAll.mpr (Or.inl known)
    exact ih first

/-- What a check without memory finds is reported. -/
theorem mem_keys_consult_of_find {name : String} {find : Sighting → List Finding}
    (registered : Check.ofFindings name find ∈ checks) {f : Finding} (hf : f ∈ find s) :
    f.key ∈ (checks.foldl (Run.consult s) r).findings.keys := by
  induction checks generalizing r with
  | nil => cases registered
  | cons c rest ih =>
    rcases List.mem_cons.mp registered with rfl | registered
    · have first : f.key ∈ (r.consult s (.ofFindings name find)).findings.keys :=
        Findings.mem_keys_reportAll.mpr (Or.inr ⟨f, hf, rfl⟩)
      exact mem_keys_consult (r := r.consult s (.ofFindings name find)) first
    · exact ih registered

theorem nodup_consult (distinct : r.findings.keys.Nodup) :
    (checks.foldl (Run.consult s) r).findings.keys.Nodup := by
  induction checks generalizing r with
  | nil => exact distinct
  | cons c rest ih => exact ih (Findings.nodup_reportAll distinct)

end Consult

variable {name : String} {find : Sighting → List Finding} {r : Run σ} {p : Pair}

variable (e name find) in
/-- What is reported under the name is what is found at the published pairs, with every key once. -/
structure Reports (r : Run σ) : Prop where
  sound {f : Finding} : f ∈ r.findings.kept → f.check = name →
    ∃ q ∈ r.visited, f ∈ find (e.sighting q)
  complete {q : Pair} {f : Finding} : q ∈ r.visited → f ∈ find (e.sighting q) →
    f.key ∈ r.findings.keys
  distinct : r.findings.keys.Nodup

/-- The check is registered, and no other check reports under its name. -/
structure Registers (checks : List (Check σ)) (name : String) (find : Sighting → List Finding) :
    Prop where
  registered : Check.ofFindings name find ∈ checks
  apart {c : Check σ} : c ∈ checks → c = Check.ofFindings name find ∨
    ∀ s m, ∀ f ∈ (c.observe s m).findings, f.check ≠ name

variable (registers : Registers e.checks name find)

include registers

theorem Reports.accept (reports : e.Reports name find r) {operation : Option Operation}
    (labels : e.Labels (.publish p operation)) :
    e.Reports name find (e.accept p operation r) := by
  have shown : (⟨e.routine, e.symbols, p.point, operation, p.state⟩ : Sighting) = e.sighting p := by
    rw [sighting, labels.1]
  constructor
  · intro f hf under
    have hf : f ∈ (e.checks.foldl (Run.consult ⟨e.routine, e.symbols, p.point, operation, p.state⟩)
        { r with visited := r.visited.push p }).findings.kept := hf
    rw [accept_visited]
    rcases mem_consult hf with old | ⟨c, hc, m, found⟩
    · obtain ⟨q, hq, found⟩ := reports.sound old under
      exact ⟨q, Array.mem_push.mpr (Or.inl hq), found⟩
    · rcases registers.apart hc with rfl | apart
      · exact ⟨p, Array.mem_push.mpr (Or.inr rfl), shown ▸ found⟩
      · exact absurd under (apart _ m f found)
  · intro q f hq found
    rw [accept_visited] at hq
    rcases Array.mem_push.mp hq with hq | rfl
    · exact mem_keys_consult (r := { r with visited := r.visited.push p })
        (reports.complete hq found)
    · rw [← shown] at found
      exact mem_keys_consult_of_find (r := { r with visited := r.visited.push q })
        registers.registered found
  · exact nodup_consult (r := { r with visited := r.visited.push p }) reports.distinct

theorem Reports.publish (reports : e.Reports name find r) {operation : Option Operation}
    (labels : e.Labels (.publish p operation)) :
    e.Reports name find (e.publish p operation r) := by
  apply e.publish_elim
  case ended => exact fun _ => reports
  case known => exact fun _ _ => ⟨reports.sound, reports.complete, reports.distinct⟩
  case full => exact fun _ _ _ => ⟨reports.sound, reports.complete, reports.distinct⟩
  case new => exact fun _ _ _ => reports.accept registers labels

theorem invariant_reports (memory : σ) : e.Invariant memory e.Labels (e.Reports name find) where
  start _ := by
    constructor
    · intro f hf
      simp [Run.start, Findings.empty] at hf
    · intro q f hq
      simp [Run.start] at hq
    · exact List.nodup_nil
  entry := ⟨rfl, Or.inl rfl⟩
  waiting _ _ := e.labels_moves _ _
  take reports _ _ _ := ⟨reports.sound, reports.complete, reports.distinct⟩
  act {r m} reports _ labels := by
    cases m with
    | publish p operation => exact reports.publish registers labels
    | renumber | discard | skip | terminate | fail =>
      exact ⟨reports.sound, reports.complete, reports.distinct⟩
  finish reports _ := ⟨reports.sound, reports.complete, reports.distinct⟩
  cancel reports := ⟨reports.sound, reports.complete, reports.distinct⟩

omit registers

/-- Something is reported at an operation if it is found there at some published pair. -/
theorem Reports.reported_iff (reports : e.Reports name find r) (i : OpId) :
    (∃ f ∈ r.findings.kept, f.check = name ∧ f.operation = some i) ↔
      ∃ q ∈ r.visited, ∃ f ∈ find (e.sighting q), f.check = name ∧ f.operation = some i := by
  constructor
  · rintro ⟨f, hf, under, here⟩
    obtain ⟨q, hq, found⟩ := reports.sound hf under
    exact ⟨q, hq, f, found, under, here⟩
  · rintro ⟨q, hq, f, found, here⟩
    have known := reports.complete hq found
    rw [Finding.key_eq_iff.mpr here, Findings.keys] at known
    obtain ⟨g, hg, same⟩ := List.mem_map.mp known
    exact ⟨g, Array.mem_toList_iff.mp hg, Finding.key_eq_iff.mp same⟩

theorem Reports.count_le_one (reports : e.Reports name find r) (i : OpId) :
    r.findings.kept.toList.countP (fun f => f.check = name ∧ f.operation = some i) ≤ 1 := by
  have counted : r.findings.kept.toList.countP (fun f => f.check = name ∧ f.operation = some i) =
      r.findings.keys.count (name, .operation i) := by
    rw [Findings.keys, List.count, List.countP_map]
    apply List.countP_congr
    intro f _
    simp [Finding.key_eq_iff]
  rw [counted]
  exact List.nodup_iff_count_le_one.mp reports.distinct _

/-- Something is reported once at an operation if it is found there at some published pair. -/
theorem Reports.count_eq_one_iff (reports : e.Reports name find r) (i : OpId) :
    r.findings.kept.toList.countP (fun f => f.check = name ∧ f.operation = some i) = 1 ↔
      ∃ q ∈ r.visited, ∃ f ∈ find (e.sighting q), f.check = name ∧ f.operation = some i := by
  rw [← reports.reported_iff i]
  have reported : 0 < r.findings.kept.toList.countP
      (fun f => f.check = name ∧ f.operation = some i) ↔
      ∃ f ∈ r.findings.kept, f.check = name ∧ f.operation = some i := by
    simp only [List.countP_pos_iff, Array.mem_toList_iff, decide_eq_true_eq]
  rw [← reported]
  have most := reports.count_le_one i
  omega

end Exploration

end SymbolicExecution
