import SymbolicExecution.Json.Codec
import SymbolicExecution.Operation
import SymbolicExecution.Word

/-!
# Operations as JSON
-/

namespace SymbolicExecution

open Json (required optional list? ofOption)

instance {n : Named} : Codec (Id n) where
  encode i := Json.ofNat i.index
  decode? j := j.nat32?.map Id.mk

instance : Codec OpId where
  encode i := .object [("routine", encode i.routine), ("index", Json.ofNat i.index)]
  decode? j :=
    match j.fields? ["routine", "index"] with
    | some [routine, index] => do
      return ⟨← required decode? routine, ← required Json.nat32? index⟩
    | _ => none

instance : Codec Point where
  encode p := .object [("block", encode p.block), ("index", Json.ofNat p.index)]
  decode? j :=
    match j.fields? ["block", "index"] with
    | some [block, index] => do
      return ⟨← required decode? block, ← required Json.nat64? index⟩
    | _ => none

instance : Codec Int64 where
  encode n := .int n.toInt
  decode?
    | .int n => word? n
    | _ => none

instance : Codec BinOp := Codec.ofTexts BinOp.all BinOp.text

instance : Codec UnOp := Codec.ofTexts UnOp.all UnOp.text

instance : Codec Tag := Codec.ofTexts Tag.all Tag.text

instance : Codec Passing := Codec.ofTexts Passing.all Passing.text

instance : Codec Literal where
  encode
    | .int n => .object [("Int", encode n)]
    | .bool b => .object [("Bool", encode b)]
    | .str s => .object [("Str", encode s)]
    | .null => .str "Null"
  decode? j :=
    match j.case? with
    | some ("Int", some c) => (decode? c).map .int
    | some ("Bool", some c) => (decode? c).map .bool
    | some ("Str", some c) => (decode? c).map .str
    | _ => if j.name? = some "Null" then some .null else none

instance : Codec Pattern where
  encode
    | .null => .str "Null"
    | .notNull => .str "NotNull"
    | .constant l => .object [("Constant", encode l)]
    | .type name => .object [("Type", encode name)]
    | .discard => .str "Discard"
  decode? j :=
    match j.case?, j.name? with
    | some ("Constant", some c), _ => (decode? c).map .constant
    | some ("Type", some c), _ => (decode? c).map .type
    | _, some "Null" => some .null
    | _, some "NotNull" => some .notNull
    | _, some "Discard" => some .discard
    | _, _ => none

instance : Codec Argument where
  encode a := .object [("value", encode a.value), ("kind", encode a.passing)]
  decode? j :=
    match j.fields? ["value", "kind"] with
    | some [value, kind] => do return ⟨← required decode? value, ← required decode? kind⟩
    | _ => none

namespace Form

def content : Form → Option Json
  | literal l => some (encode l)
  | localRef x | paramRef x => some (encode x)
  | fieldRef receiver x =>
    some (.object [("instance", ofOption encode receiver), ("field", encode x)])
  | this => none
  | element array index => some (.object [("array", encode array), ("index", encode index)])
  | paren inner | convert inner => some (encode inner)
  | capture slot value => some (.object [("id", encode slot), ("value", encode value)])
  | captureRef slot => some (encode slot)
  | assign target value => some (.object [("target", encode target), ("value", encode value)])
  | compound operator target value =>
    some (.object
      [("target", encode target), ("value", encode value), ("operator", encode operator)])
  | step target down postfixed =>
    some (.object
      [("target", encode target), ("decrement", encode down), ("postfix", encode postfixed)])
  | declare x initial =>
    some (.object [("symbol", encode x), ("initializer", ofOption encode initial)])
  | binary operator left right =>
    some (.object [("operator", encode operator), ("left", encode left), ("right", encode right)])
  | unary operator operand =>
    some (.object [("operator", encode operator), ("operand", encode operand)])
  | call receiver method args =>
    some (.object
      [("instance", ofOption encode receiver), ("method", encode method),
        ("arguments", .list (args.map encode))])
  | create typeName args =>
    some (.object [("type_name", encode typeName), ("arguments", .list (args.map encode))])
  | isType value typeName =>
    some (.object [("value", encode value), ("type_name", encode typeName)])
  | isPattern value pattern =>
    some (.object [("value", encode value), ("pattern", encode pattern)])
  | other description => some (encode description)

/-- The form with a tag and a content. -/
def ofContent? (t : Tag) (c : Json) : Option Form :=
  match t with
  | .literal => (decode? c).map literal
  | .localRef => (decode? c).map localRef
  | .paramRef => (decode? c).map paramRef
  | .fieldRef =>
    match c.caseFields? ["instance", "field"] with
    | some [receiver, x] => do
      return fieldRef (← optional decode? receiver) (← required decode? x)
    | _ => none
  | .this => none
  | .element =>
    match c.caseFields? ["array", "index"] with
    | some [array, index] => do
      return element (← required decode? array) (← required decode? index)
    | _ => none
  | .paren => (decode? c).map paren
  | .convert => (decode? c).map convert
  | .capture =>
    match c.caseFields? ["id", "value"] with
    | some [slot, value] => do
      return capture (← required decode? slot) (← required decode? value)
    | _ => none
  | .captureRef => (decode? c).map captureRef
  | .assign =>
    match c.caseFields? ["target", "value"] with
    | some [target, value] => do
      return assign (← required decode? target) (← required decode? value)
    | _ => none
  | .compound =>
    match c.caseFields? ["target", "value", "operator"] with
    | some [target, value, operator] => do
      let target ← required decode? target
      let value ← required decode? value
      return compound (← required decode? operator) target value
    | _ => none
  | .step =>
    match c.caseFields? ["target", "decrement", "postfix"] with
    | some [target, down, postfixed] => do
      return step (← required decode? target) (← required decode? down)
        (← required decode? postfixed)
    | _ => none
  | .declare =>
    match c.caseFields? ["symbol", "initializer"] with
    | some [x, initial] => do
      return declare (← required decode? x) (← optional decode? initial)
    | _ => none
  | .binary =>
    match c.caseFields? ["operator", "left", "right"] with
    | some [operator, left, right] => do
      return binary (← required decode? operator) (← required decode? left)
        (← required decode? right)
    | _ => none
  | .unary =>
    match c.caseFields? ["operator", "operand"] with
    | some [operator, operand] => do
      return unary (← required decode? operator) (← required decode? operand)
    | _ => none
  | .call =>
    match c.caseFields? ["instance", "method", "arguments"] with
    | some [receiver, method, args] => do
      return call (← optional decode? receiver) (← required decode? method)
        (← required (list? decode?) args)
    | _ => none
  | .create =>
    match c.caseFields? ["type_name", "arguments"] with
    | some [typeName, args] => do
      return create (← required decode? typeName) (← required (list? decode?) args)
    | _ => none
  | .isType =>
    match c.caseFields? ["value", "type_name"] with
    | some [value, typeName] => do
      return isType (← required decode? value) (← required decode? typeName)
    | _ => none
  | .isPattern =>
    match c.caseFields? ["value", "pattern"] with
    | some [value, pattern] => do
      return isPattern (← required decode? value) (← required decode? pattern)
    | _ => none
  | .other => (decode? c).map other

end Form

instance : Codec Form where
  encode f :=
    match f.content with
    | some c => .object [(f.tag.text, c)]
    | none => .str f.tag.text
  decode? j :=
    if j.name? = some Tag.this.text then some .this
    else
      match j.case? with
      | some (name, some c) =>
        (Tag.all.find? fun t => t.text == name).bind fun t => Form.ofContent? t c
      | _ => none

instance : Codec Operation where
  encode o :=
    .object [("id", encode o.id), ("kind", encode o.form), ("line", ofOption Json.ofNat o.line)]
  decode? j :=
    match j.fields? ["id", "kind", "line"] with
    | some [i, form, line] => do
      return ⟨← required decode? i, ← required decode? form, ← optional Json.nat32? line⟩
    | _ => none

end SymbolicExecution
