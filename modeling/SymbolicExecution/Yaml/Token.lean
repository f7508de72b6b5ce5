import SymbolicExecution.Yaml.Scalar

/-!
# The tokens of a YAML text

A text is cut into tokens from its start to its end. A block mapping has no sign of its own: it
opens before its first key and closes where a line begins further left. What is a key shows only at
its colon, so a place where a key may begin is remembered, and the key is marked when the colon is
met on the same line and not too far away. Sequences are refused.
-/

namespace SymbolicExecution.Yaml

inductive Token where
  | version
  | handle (name lead : String)
  | documentStart
  | documentEnd
  | blockMapping
  | blockEnd
  | openMapping
  | closeMapping
  | comma
  | key
  | value
  | alias (name : String)
  | anchor (name : String)
  | tag (handle suffix : String)
  | scalar (style : Style) (text : String)
  deriving DecidableEq

/-- A place where a key may begin. -/
structure SimpleKey where
  /-- Nothing but a key may stand here. -/
  required : Bool
  /-- The number of tokens before the key. -/
  position : Nat
  line : Nat
  column : Nat

namespace SimpleKey

/-- The greatest distance from the start of a key to its colon. -/
def reach : Nat := 1024

def isOver (k : SimpleKey) (c : Cursor) : Bool := k.line < c.line || k.column + reach < c.column

end SimpleKey

/-- A text that is cut up to a place. -/
structure Cutting where
  place : Cursor
  tokens : Array Token
  /-- Content of the innermost block mapping stands at this column or further right; zero outside
  of all mappings. -/
  margin : Nat
  /-- The margins around the innermost block mapping. -/
  outer : List Nat
  /-- The last place for a key outside of flow style. -/
  blockKey : Option SimpleKey
  /-- The last place for a key in each open flow mapping, the innermost first. -/
  flowKeys : List (Option SimpleKey)
  /-- A key may begin here. -/
  keyAllowed : Bool

namespace Cutting

def start (text : List Char) : Cutting := ⟨Cursor.start text, #[], 0, [], none, [], true⟩

def inFlow (s : Cutting) : Bool := !s.flowKeys.isEmpty

def emit (t : Token) (s : Cutting) : Cutting := { s with tokens := s.tokens.push t }

def goTo (c : Cursor) (s : Cutting) : Cutting := { s with place := c }

def allowKey (b : Bool) (s : Cutting) : Cutting := { s with keyAllowed := b }

/-- The place for a key that is open now. -/
def openKey? (s : Cutting) : Option SimpleKey :=
  match s.flowKeys with
  | [] => s.blockKey
  | k :: _ => k

def setKey (k : Option SimpleKey) (s : Cutting) : Cutting :=
  match s.flowKeys with
  | [] => { s with blockKey := k }
  | _ :: others => { s with flowKeys := k :: others }

/-- Give up a place for a key, unless a key is required there. -/
def abandon? : Option SimpleKey → Option (Option SimpleKey)
  | some k => if k.required then none else some none
  | none => some none

def dropKey? (s : Cutting) : Option Cutting := do
  let k ← abandon? s.openKey?
  return s.setKey k

/-- Remember this place for a key, if one may begin here. -/
def markKey? (s : Cutting) : Option Cutting :=
  if s.keyAllowed then do
    let s ← s.dropKey?
    let required := !s.inFlow && s.margin = s.place.column + 1
    return s.setKey (some ⟨required, s.tokens.size, s.place.line, s.place.column⟩)
  else some s

/-- Give up the places for keys that are too far back. -/
def expireKeys? (s : Cutting) : Option Cutting := do
  let expire (k : Option SimpleKey) : Option (Option SimpleKey) :=
    if k.any fun k => k.isOver s.place then abandon? k else some k
  return { s with blockKey := ← expire s.blockKey, flowKeys := ← s.flowKeys.mapM expire }

/-- Open a block mapping at a column, unless one is open there. -/
def openBlock (column position : Nat) (s : Cutting) : Cutting :=
  if !s.inFlow && s.margin ≤ column then
    { s with
      tokens := s.tokens.insertIdxIfInBounds position .blockMapping
      margin := column + 1
      outer := s.margin :: s.outer }
  else s

/-- The margins that stay when block mappings close until the margin is at most `limit`. -/
def unwind (limit margin : Nat) : List Nat → Nat × List Nat
  | [] => (margin, [])
  | m :: outer => if limit < margin then unwind limit m outer else (margin, m :: outer)

/-- Close the block mappings whose margin is beyond `limit`. -/
def closeBlocks (limit : Nat) (s : Cutting) : Cutting :=
  if s.inFlow then s
  else
    let (margin, outer) := unwind limit s.margin s.outer
    { s with
      tokens := s.tokens ++ Array.replicate (s.outer.length - outer.length) Token.blockEnd
      margin := margin
      outer := outer }

/-- Skip to the next token, over spaces, comments and lines. A line may begin with a byte order
mark. Tabs are skipped unless a key may begin there. -/
def skipFrom (flow keyAllowed inComment : Bool) (line column : Nat) : List Char → Cursor × Bool
  | [] => (⟨line, column, []⟩, keyAllowed)
  | c :: rest =>
    if isBreak c then skipFrom flow (keyAllowed || !flow) false (line + 1) 0 rest
    else if inComment || c = '#' then skipFrom flow keyAllowed true line (column + 1) rest
    else if c = ' ' || c = '\t' && (flow || !keyAllowed) || c = '\ufeff' && column = 0 then
      skipFrom flow keyAllowed false line (column + 1) rest
    else (⟨line, column, c :: rest⟩, keyAllowed)

def skip (s : Cutting) : Cutting :=
  let (c, keyAllowed) :=
    skipFrom s.inFlow s.keyAllowed false s.place.line s.place.column s.place.rest
  { s with place := c, keyAllowed := keyAllowed }

/-- Leave all blocks for a directive or a document marker. -/
def leaveBlocks? (s : Cutting) : Option Cutting := do
  let s ← (s.closeBlocks 0).dropKey?
  return s.allowKey false

def marker? (t : Token) (s : Cutting) : Option Cutting := do
  let s ← s.leaveBlocks?
  return (s.emit t).goTo (s.place.skip 3)

def openFlow? (s : Cutting) : Option Cutting := do
  let s ← s.markKey?
  let s := ((s.emit .openMapping).goTo (s.place.skip 1)).allowKey true
  return { s with flowKeys := none :: s.flowKeys }

def closeFlow? (s : Cutting) : Option Cutting := do
  let s ← s.dropKey?
  let s := ((s.emit .closeMapping).goTo (s.place.skip 1)).allowKey false
  return { s with flowKeys := s.flowKeys.drop 1 }

def comma? (s : Cutting) : Option Cutting := do
  let s ← s.dropKey?
  return ((s.emit .comma).goTo (s.place.skip 1)).allowKey true

/-- An explicit key. -/
def key? (s : Cutting) : Option Cutting :=
  if s.inFlow || s.keyAllowed then do
    let s ← (s.openBlock s.place.column s.tokens.size).dropKey?
    return ((s.emit .key).goTo (s.place.skip 1)).allowKey (!s.inFlow)
  else none

/-- A colon marks the key before it, or follows an explicit key. -/
def value? (s : Cutting) : Option Cutting :=
  let after (s : Cutting) : Cutting := (s.emit .value).goTo (s.place.skip 1)
  match s.openKey? with
  | some k =>
    let s := { s with tokens := s.tokens.insertIdxIfInBounds k.position .key }
    some ((after ((s.openBlock k.column k.position).setKey none)).allowKey false)
  | none =>
    if s.inFlow || s.keyAllowed then
      some ((after (s.openBlock s.place.column s.tokens.size)).allowKey (!s.inFlow))
    else none

/-- A token that a key may consist of. -/
def keyPart? (s : Cutting) (read? : Option (Token × Cursor)) : Option Cutting := do
  let s ← s.markKey?
  let (t, stop) ← read?
  return ((s.emit t).goTo stop).allowKey false

/-- The name after the sign of an anchor or alias. -/
def name? (c : Cursor) : Option (String × Cursor) :=
  let c := c.skip 1
  let name := c.rest.takeWhile isWord
  let stop := c.skip name.length
  let ends := endsWord stop.rest || stop.rest.head?.any fun d => "?:,]\x7d%@\x60".toList.contains d
  if name.isEmpty || !ends then none else some (String.ofList name, stop)

/-- Octets that go on after a first one, by its leading bits. -/
def trailing? (octet : Nat) : Option Nat :=
  if octet < 0x80 then some 0
  else if octet < 0xC0 then none
  else if octet < 0xE0 then some 1
  else if octet < 0xF0 then some 2
  else if octet < 0xF8 then some 3
  else none

/-- The characters of a tag, and what follows them. An escape stands for one octet; `missing` octets
of the last character are still to come. -/
def uriFrom (verbatim : Bool) (missing : Nat) : List Char → Option (List Char × List Char)
  | '%' :: a :: b :: rest => do
    let octet := 16 * (← hexDigit? a) + (← hexDigit? b)
    let missing ←
      if missing = 0 then trailing? octet
      else if 0x80 ≤ octet && octet < 0xC0 then some (missing - 1)
      else none
    let (text, stop) ← uriFrom verbatim missing rest
    return (Char.ofNat octet :: text, stop)
  | c :: rest =>
    if isWord c || ";/?:@&=+$.!~*'()".toList.contains c || verbatim && ",[]".toList.contains c then
      if missing = 0 then do
        let (text, stop) ← uriFrom verbatim 0 rest
        return (c :: text, stop)
      else none
    else if missing = 0 && c ≠ '%' then some ([], c :: rest)
    else none
  | [] => if missing = 0 then some ([], []) else none

/-- A tag ends at a null character. -/
def uriText (l : List Char) : String := String.ofList (l.takeWhile (· ≠ '\x00'))

def uri? (verbatim : Bool) (c : Cursor) : Option (String × Cursor) := do
  let (text, rest) ← uriFrom verbatim 0 c.rest
  if text.isEmpty then none else return (uriText text, c.skipTo rest)

/-- A tag that a handle shortens, or a verbatim one. -/
def tag? (flow : Bool) (c : Cursor) : Option (Token × Cursor) := do
  let (t, stop) ← content
  if endsWord stop.rest || flow && stop.rest.head? = some ',' then return (t, stop) else none
where
  content : Option (Token × Cursor) :=
    let c := c.skip 1
    let word := c.rest.takeWhile isWord
    match c.rest, c.rest.drop word.length with
    | '<' :: _, _ => do
      let (suffix, stop) ← uri? true (c.skip 1)
      if stop.rest.head? = some '>' then return (.tag "" suffix, stop.skip 1) else none
    | _, '!' :: _ => do
      let (suffix, stop) ← uri? false (c.skip (word.length + 1))
      return (.tag ("!" ++ String.ofList word ++ "!") suffix, stop)
    | _, rest => do
      let (text, rest) ← uriFrom false 0 rest
      let suffix := uriText (word ++ text)
      return (if suffix.isEmpty then .tag "" "!" else .tag "!" suffix, c.skipTo rest)

/-- A number of a version, of at most nine digits. -/
def number? (c : Cursor) : Option (Nat × Cursor) :=
  let digits := c.rest.takeWhile Char.isDigit
  if digits.isEmpty || 9 < digits.length then none
  else some (digits.foldl (fun n d => 10 * n + (d.toNat - '0'.toNat)) 0, c.skip digits.length)

/-- Versions 1.1 and 1.2 are read. -/
def version? (c : Cursor) : Option (Token × Cursor) := do
  let (major, c) ← number? c.skipBlanks
  if c.rest.head? = some '.' then
    let (minor, c) ← number? (c.skip 1)
    if major = 1 ∧ (minor = 1 ∨ minor = 2) then return (.version, c) else none
  else none

def handle? (c : Cursor) : Option (Token × Cursor) := do
  let c := c.skipBlanks
  if c.rest.head? = some '!' then
    let word := (c.rest.drop 1).takeWhile isWord
    let after := c.skip (word.length + 1)
    let (name, after) ←
      if after.rest.head? = some '!' then
        some ("!" ++ String.ofList word ++ "!", after.skip 1)
      else if word.isEmpty then some ("!", after)
      else none
    if after.rest.head?.any isBlank then
      let (lead, stop) ← uri? true after.skipBlanks
      if endsWord stop.rest then return (.handle name lead, stop) else none
    else none
  else none

def directive? (s : Cutting) : Option Cutting := do
  let s ← s.leaveBlocks?
  let c := s.place.skip 1
  let name := c.rest.takeWhile isWord
  let c := c.skip name.length
  if endsWord c.rest then
    let (t, c) ←
      if name = "YAML".toList then version? c
      else if name = "TAG".toList then handle? c
      else none
    return (s.emit t).goTo (← c.finishLine?)
  else none

def blockScalar? (folds : Bool) (s : Cutting) : Option Cutting := do
  let s ← s.dropKey?
  let (text, stop) ← block? folds s.margin (s.place.skip 1)
  let t := Token.scalar (if folds then .folded else .literal) (String.ofList text)
  return ((s.emit t).goTo stop).allowKey true

def quotedScalar? (s : Cutting) (double : Bool) : Option Cutting :=
  let c := s.place.skip 1
  s.keyPart? <|
    (if double then doubleFrom Gap.empty .absent c.line c.column c.rest
      else singleFrom Gap.empty c.line c.column c.rest).map fun (text, stop) =>
        (.scalar .quoted (String.ofList text), stop)

/-- A plain scalar that ends on a later line makes room for a key. -/
def plainScalar? (s : Cutting) : Option Cutting := do
  let c := s.place
  let (text, stop, breaksLine) ← plainFrom s.inFlow s.margin none c.line c.column c.rest
  let s ← s.keyPart? (some (.scalar .plain (String.ofList text), stop))
  return if breaksLine then s.allowKey true else s

def startsPlain (flow : Bool) (c : Char) (rest : List Char) : Bool :=
  if c = '-' then !endsWord rest
  else if c = '?' || c = ':' then !flow && !endsWord rest
  else !(isBlank c || isPunctuation c || "#&*!|>'\"%@\x60".toList.contains c)

/-- Cut off the token that begins with `c` and goes on with `rest`. -/
def token? (s : Cutting) (c : Char) (rest : List Char) : Option Cutting :=
  let ends := endsWord rest
  if c = '%' && s.place.column = 0 then s.directive?
  else if s.place.isMarker "---" then s.marker? .documentStart
  else if s.place.isMarker "..." then s.marker? .documentEnd
  else if c = '\x7b' then s.openFlow?
  else if c = '\x7d' then s.closeFlow?
  else if c = ',' then s.comma?
  else if c = '?' && (s.inFlow || ends) then s.key?
  else if c = ':' && (s.inFlow || ends) then s.value?
  else if c = '*' then s.keyPart? ((name? s.place).map fun (n, stop) => (.alias n, stop))
  else if c = '&' then s.keyPart? ((name? s.place).map fun (n, stop) => (.anchor n, stop))
  else if c = '!' then s.keyPart? (tag? s.inFlow s.place)
  else if (c = '|' || c = '>') && !s.inFlow then s.blockScalar? (c = '>')
  else if c = '\'' || c = '"' then s.quotedScalar? (c = '"')
  else if startsPlain s.inFlow c rest then s.plainScalar?
  else none

/-- Cut to the end of the text. Each token takes at least one character. -/
def finish? : Nat → Cutting → Option Cutting
  | 0, _ => none
  | fuel + 1, s => do
    let s ← s.skip.expireKeys?
    let s := s.closeBlocks (s.place.column + 1)
    match s.place.rest with
    | [] => (s.closeBlocks 0).dropKey?
    | c :: rest => finish? fuel (← s.token? c rest)

end Cutting

namespace Token

def ofText? (text : String) : Option (List Token) :=
  if text.toList.all isPrintable then
    let chars := unifyBreaks text.toList
    (Cutting.finish? (chars.length + 1) (Cutting.start chars)).map fun s => s.tokens.toList
  else none

end Token

end SymbolicExecution.Yaml
