import SymbolicExecution.Json.Operation
import SymbolicExecution.Report

/-!
# Reports as JSON
-/

namespace SymbolicExecution

open Json (required optional list? ofOption)

instance : Codec Severity := Codec.ofTexts Severity.all Severity.text

instance : Codec Finding where
  encode f :=
    .object
      [("check", encode f.check), ("severity", encode f.severity), ("routine", encode f.routine),
        ("operation", ofOption encode f.operation), ("point", encode f.point),
        ("line", ofOption Json.ofNat f.line), ("message", encode f.message)]
  decode? j :=
    match j.fields? ["check", "severity", "routine", "operation", "point", "line", "message"] with
    | some [check, severity, routine, operation, point, line, message] => do
      return ⟨← required decode? check, ← required decode? severity, ← required decode? routine,
        ← optional decode? operation, ← required decode? point, ← optional Json.nat32? line,
        ← required decode? message⟩
    | _ => none

namespace Shortage

/-- The shortage of a kind, with its limit in a record. -/
def ofKind? (kind : Json) (rest : Json) : Option Shortage :=
  match kind, rest.fields? ["limit"] with
  | .str "visited_limit", some [limit] => (required Json.nat64? limit).map visited
  | .str "step_limit", some [limit] => (required Json.nat64? limit).map steps
  | _, _ => none

/-- The name of a kind that may be given by its number. -/
def kindName : Json → Json
  | .int 0 => .str "visited_limit"
  | .int 1 => .str "step_limit"
  | kind => kind

/-- The reason of an outcome may give its kind by number. -/
def ofReason? (j : Json) : Option Shortage := do
  let (kind, rest) ← j.marked? "kind"
  ofKind? (kindName kind) rest

end Shortage

instance : Codec Shortage where
  encode
    | .visited limit => .object [("kind", .str "visited_limit"), ("limit", Json.ofNat limit)]
    | .steps limit => .object [("kind", .str "step_limit"), ("limit", Json.ofNat limit)]
  decode? j := do
    let (kind, rest) ← j.marked? "kind"
    Shortage.ofKind? kind rest

instance : Codec Outcome where
  encode
    | .completed => .object [("status", .str "completed")]
    | .incomplete s => .object [("status", .str "incomplete"), ("reason", encode s)]
    | .cancelled => .object [("status", .str "cancelled")]
    | .failed message => .object [("status", .str "failed"), ("error", encode message)]
  decode? j :=
    match j.marked? "status" with
    | some (.str "completed", rest) => if rest.isSpent then some .completed else none
    | some (.str "cancelled", rest) => if rest.isSpent then some .cancelled else none
    | some (.str "incomplete", rest) =>
      match rest.fields? ["reason"] with
      | some [reason] => (required Shortage.ofReason? reason).map .incomplete
      | _ => none
    | some (.str "failed", rest) =>
      match rest.fields? ["error"] with
      | some [message] => (required decode? message).map .failed
      | _ => none
    | _ => none

namespace Stats

def fieldNames : List String :=
  ["steps", "visited_pairs", "duplicates_dropped", "infeasible_paths", "skipped_operations",
    "terminal_states", "values_created", "analysis_time_ms"]

def counts (s : Stats) : List Nat :=
  [s.steps, s.visited, s.duplicates, s.infeasible, s.skipped, s.terminal, s.values,
    s.milliseconds]

def ofCounts? : List Nat → Option Stats
  | [steps, visited, duplicates, infeasible, skipped, terminal, values, milliseconds] =>
    some ⟨steps, visited, duplicates, infeasible, skipped, terminal, values, milliseconds⟩
  | _ => none

end Stats

instance : Codec Stats where
  encode s := .object (Stats.fieldNames.zip (s.counts.map Json.ofNat))
  decode? j := do
    let fields ← j.fields? Stats.fieldNames
    Stats.ofCounts? (← fields.mapM (required Json.nat64?))

instance : Codec Report where
  encode r :=
    .object
      [("routine", encode r.routine), ("name", encode r.name), ("outcome", encode r.outcome),
        ("findings", .list (r.findings.map encode)), ("stats", encode r.stats)]
  decode? j :=
    match j.fields? ["routine", "name", "outcome", "findings", "stats"] with
    | some [routine, name, outcome, findings, stats] => do
      return ⟨← required decode? routine, ← required decode? name, ← required decode? outcome,
        ← required (list? decode?) findings, ← required decode? stats⟩
    | _ => none

/-- The report as indented JSON. -/
def Report.text (r : Report) : String := (encode r).indented

end SymbolicExecution
