import SymbolicExecution.Fact
import SymbolicExecution.Json.Operation

/-!
# Facts as JSON
-/

namespace SymbolicExecution

open Json (required optional ofOption)

instance : Codec Nullness := Codec.ofTexts Nullness.all Nullness.text

/-- Truth values are coded by their texts. -/
abbrev Facts.truthCodec : Codec Bool := Codec.ofTexts [true, false] Facts.truthText

instance : Codec Interval where
  encode r := .object [("min", ofOption encode r.lo), ("max", ofOption encode r.hi)]
  decode? j :=
    match j.fields? ["min", "max"] with
    | some [lo, hi] => do return ⟨← optional decode? lo, ← optional decode? hi⟩
    | _ => none

instance : Codec Fact where
  encode
    | .truth b => .object [("Bool", Facts.truthCodec.encode b)]
    | .nullness n => .object [("Object", encode n)]
    | .within r => .object [("Range", encode r)]
  decode? j :=
    match j.case? with
    | some ("Bool", some c) => (Facts.truthCodec.decode? c).map .truth
    | some ("Object", some c) => (decode? c).map .nullness
    | some ("Range", some c) => (decode? c).map .within
    | _ => none

instance : Codec Facts where
  encode f :=
    .object
      [("bool", ofOption Facts.truthCodec.encode f.truth), ("object", ofOption encode f.nullness),
        ("range", ofOption encode f.interval)]
  decode? j :=
    match j.fields? ["bool", "object", "range"] with
    | some [truth, nullness, interval] => do
      return ⟨← optional Facts.truthCodec.decode? truth, ← optional decode? nullness,
        ← optional decode? interval⟩
    | _ => none

end SymbolicExecution
