import SymbolicExecution.Config.Document
import SymbolicExecution.Yaml.Anchor

/-!
# The text of configurations

A configuration document is written and read as YAML. Every key is known and occurs once. Plain
`null`, `~` and nothing stand for an absent value; numbers and truth values are plain scalars, or
literal ones with the tag of their type.
-/

namespace SymbolicExecution

namespace Yaml

def nullWords : List String := ["~", "null", "Null", "NULL"]

def trueWords : List String := ["true", "True", "TRUE"]

def falseWords : List String := ["false", "False", "FALSE"]

def digits? (radix : Nat) (l : List Char) : Option Nat :=
  if l.isEmpty then none
  else l.foldlM (fun n c => ((hexDigit? c).filter (· < radix)).map fun d => radix * n + d) 0

/-- A decimal number has no superfluous leading zero. -/
def decimal? (l : List Char) : Option Nat :=
  if 1 < l.length ∧ l.head? = some '0' then none else digits? 10 l

/-- An unsigned number, after a plus sign if there is one. -/
def nat? (text : String) : Option Nat :=
  match text.toList with
  | '+' :: rest => unsigned rest
  | rest => unsigned rest
where
  unsigned : List Char → Option Nat
    | '0' :: 'x' :: rest => digits? 16 rest
    | '0' :: 'o' :: rest => digits? 8 rest
    | '0' :: 'b' :: rest => digits? 2 rest
    | rest => decimal? rest

def bool? (text : String) : Option Bool :=
  if trueWords.contains text then some true
  else if falseWords.contains text then some false
  else none

namespace Node

/-- Absent are an untagged plain scalar that is empty or a null word, and a plain null word with the
tag of null. With that tag no other plain scalar is allowed. -/
def isAbsent? : Node Nat → Option Bool
  | .scalar _ none .plain text => some (text.isEmpty || nullWords.contains text)
  | .scalar _ (some tag) .plain text =>
    if tag = coreLead ++ "null" then (if nullWords.contains text then some true else none)
    else some false
  | _ => some false

/-- An optional value: nothing, when there is no entry or an absent one. -/
def optional {α : Type} (root : Node Nat) (read? : Node Nat → Option α) :
    Option (Node Nat) → Option (Option α)
  | none => some none
  | some n => do
    let n ← root.resolve? n
    if ← n.isAbsent? then return none else (read? n).map some

def text? : Node Nat → Option String
  | .scalar _ _ _ text => some text
  | _ => none

/-- The word of a plain scalar, or of a literal one with the tag of its type. -/
def word? (type : String) : Node Nat → Option String
  | .scalar _ _ .plain text => some text
  | .scalar _ (some tag) .literal text => if tag = coreLead ++ type then some text else none
  | _ => none

def natBelow? (limit : Nat) (n : Node Nat) : Option Nat := do
  let k ← nat? (← n.word? "int")
  if k < limit then return k else none

def bool? (n : Node Nat) : Option Bool := (n.word? "bool").bind Yaml.bool?

/-- The values of the given keys, where a mapping has no others and none twice. -/
def fields? (root : Node Nat) (keys : List String) : Node Nat → Option (List (Option (Node Nat)))
  | .scalar _ _ .plain "" => some (keys.map fun _ => none)
  | .mapping _ entries => do
    let names ← entries.mapM fun e => (root.resolve? e.1).bind text?
    if names.Nodup ∧ names.all keys.contains then
      return keys.map fun k => (names.zip (entries.map Prod.snd)).lookup k
    else none
  | _ => none

end Node

end Yaml

open Yaml (Node)
open Yaml.Node (optional natBelow?)

namespace Overrides

def ofNode? (root n : Node Nat) : Option Overrides :=
  match Node.fields? root
    [Config.maxVisitedField, Config.maxStepsField, Config.resetField, Config.learnField,
      Config.parallelField] n with
  | some [maxVisited, maxSteps, reset, learn, parallel] => do
    return ⟨← optional root (natBelow? (Nat.pow 2 64)) maxVisited,
      ← optional root (natBelow? (Nat.pow 2 64)) maxSteps, ← optional root Node.bool? reset,
      ← optional root Node.bool? learn, ← optional root Node.bool? parallel⟩
  | _ => none

def fieldText (name : String) (value : Option String) : String :=
  match value with
  | some v => "  " ++ name ++ ": " ++ v ++ "\n"
  | none => ""

def text (o : Overrides) : String :=
  let lines :=
    fieldText Config.maxVisitedField (o.maxVisited.map toString) ++
    fieldText Config.maxStepsField (o.maxSteps.map toString) ++
    fieldText Config.resetField (o.resetAtBoundary.map Config.switchText) ++
    fieldText Config.learnField (o.learnAtBranches.map Config.switchText) ++
    fieldText Config.parallelField (o.parallel.map Config.switchText)
  if lines.isEmpty then "overrides: \x7b\x7d\n" else "overrides:\n" ++ lines

end Overrides

namespace ConfigDocument

def ofNode? (root : Node Nat) : Option ConfigDocument :=
  match Node.fields? root ["version", "preset", "overrides"] root with
  | some [version, preset, overrides] => do
    return ⟨← optional root (natBelow? (Nat.pow 2 32)) version, ← optional root Node.text? preset,
      ← optional root (Overrides.ofNode? root) overrides⟩
  | _ => none

def ofText? (text : String) : Option ConfigDocument := do
  let (root, _) ← (← Node.ofText? text).number? []
  ofNode? root

/-- The names of presets stand plain. -/
def text (d : ConfigDocument) : String :=
  "version: " ++ (d.version.map toString).getD "null" ++ "\n" ++
  ((d.preset.map fun p => "preset: " ++ p ++ "\n").getD "") ++
  (d.overrides.map Overrides.text).getD ""

end ConfigDocument

namespace Config

/-- The configuration in a text that is read as a document. -/
def decode (read? : String → Option ConfigDocument) (text : String) : Except ConfigError Config :=
  match read? text with
  | some d => d.toConfig
  | none => .error .malformed

/-- A configuration, written as a document that gives every value. -/
def encode (write : ConfigDocument → String) (c : Config) : String := write (.ofConfig c)

/-- Read a configuration document. -/
def ofText (text : String) : Except ConfigError Config := decode ConfigDocument.ofText? text

def text (c : Config) : String := encode ConfigDocument.text c

end Config

end SymbolicExecution
