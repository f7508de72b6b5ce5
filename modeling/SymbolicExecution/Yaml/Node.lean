import SymbolicExecution.Yaml.Token

/-!
# The node of a YAML text

A text holds at most one document, and a document one node: a scalar, a mapping, or an alias of an
anchored node.
-/

namespace SymbolicExecution.Yaml

/-- A node whose anchors and aliases are of type `α`. -/
inductive Node (α : Type) where
  | alias (target : α)
  | scalar (anchor : Option α) (tag : Option String) (style : Style) (text : String)
  | mapping (anchor : Option α) (entries : List (Node α × Node α))

namespace Node

/-- What stands for a missing key or value. -/
def empty {α : Type} : Node α := .scalar none none .plain ""

/-- The lead of the tags that every text knows. -/
def coreLead : String := "tag:yaml.org,2002:"

/-- The leads of tag handles. -/
abbrev Handles := List (String × String)

def defaultHandles : Handles := [("!", "!"), ("!!", coreLead)]

/-- The tag meant by a handle and a suffix. -/
def tag? (handles : Handles) (handle suffix : String) : Option String :=
  if handle.isEmpty then some suffix else (handles.lookup handle).map (· ++ suffix)

/-- The anchor and the tag of a node, in either order, and what follows them. -/
def properties? (handles : Handles) :
    List Token → Option (Option String × Option String × List Token)
  | .anchor a :: .tag h s :: rest | .tag h s :: .anchor a :: rest =>
    (tag? handles h s).map fun t => (some a, some t, rest)
  | .anchor a :: rest => some (some a, none, rest)
  | .tag h s :: rest => (tag? handles h s).map fun t => (none, some t, rest)
  | rest => some (none, none, rest)

/-- The given tokens begin what follows a missing node. -/
def isMissing (ends : List Token) (rest : List Token) : Bool := rest.head?.any ends.contains

mutual

/-- A node and what follows it. -/
def ofTokens? (handles : Handles) (fuel : Nat) (tokens : List Token) :
    Option (Node String × List Token) :=
  match fuel, tokens with
  | 0, _ => none
  | _ + 1, .alias name :: rest => some (.alias name, rest)
  | fuel + 1, tokens => do
    let (anchor, tag, rest) ← properties? handles tokens
    match rest with
    | .scalar style text :: rest =>
      return (.scalar anchor tag style text, rest)
    | .openMapping :: rest =>
      let (entries, rest) ← flowEntries? handles fuel true rest
      return (.mapping anchor entries, rest)
    | .blockMapping :: rest =>
      let (entries, rest) ← blockEntries? handles fuel rest
      return (.mapping anchor entries, rest)
    | rest =>
      if anchor.isSome || tag.isSome then return (.scalar anchor tag .plain "", rest) else none

/-- The entries of a block mapping and what follows it. -/
def blockEntries? (handles : Handles) (fuel : Nat) (tokens : List Token) :
    Option (List (Node String × Node String) × List Token) :=
  match fuel, tokens with
  | fuel + 1, .key :: rest => do
    let (k, rest) ← part? fuel rest
    let (v, rest) ←
      match rest with
      | .value :: rest => part? fuel rest
      | rest => some (empty, rest)
    let (others, rest) ← blockEntries? handles fuel rest
    return ((k, v) :: others, rest)
  | _ + 1, .blockEnd :: rest => some ([], rest)
  | _, _ => none
where
  part? (fuel : Nat) (tokens : List Token) : Option (Node String × List Token) :=
    if isMissing [.key, .value, .blockEnd] tokens then some (empty, tokens)
    else ofTokens? handles fuel tokens

/-- The entries of a flow mapping, from the first or the next on, and what follows it. -/
def flowEntries? (handles : Handles) (fuel : Nat) (first : Bool) (tokens : List Token) :
    Option (List (Node String × Node String) × List Token) :=
  match fuel, tokens with
  | 0, _ => none
  | _ + 1, .closeMapping :: rest => some ([], rest)
  | fuel + 1, tokens => do
    let tokens ← if first then some tokens else afterComma? tokens
    match tokens with
    | .closeMapping :: rest => return ([], rest)
    | .key :: rest =>
      let (k, rest) ← part? fuel [.value, .comma, .closeMapping] rest
      let (v, rest) ←
        match rest with
        | .value :: rest => part? fuel [.comma, .closeMapping] rest
        | rest => some (empty, rest)
      let (others, rest) ← flowEntries? handles fuel false rest
      return ((k, v) :: others, rest)
    | tokens =>
      let (k, rest) ← ofTokens? handles fuel tokens
      let (others, rest) ← flowEntries? handles fuel false rest
      return ((k, empty) :: others, rest)
where
  afterComma? : List Token → Option (List Token)
    | .comma :: rest => some rest
    | _ => none
  part? (fuel : Nat) (ends tokens : List Token) : Option (Node String × List Token) :=
    if isMissing ends tokens then some (empty, tokens) else ofTokens? handles fuel tokens

end

/-- The handles that the directives of a document declare, and what follows. -/
def directives? (versioned : Bool) (handles : Handles) :
    List Token → Option (Handles × List Token)
  | .version :: rest => if versioned then none else directives? true handles rest
  | .handle name lead :: rest =>
    if (handles.lookup name).isSome then none
    else directives? versioned ((name, lead) :: handles) rest
  | rest => some (handles, rest)

def isDirective : Token → Bool
  | .version | .handle _ _ => true
  | _ => false

/-- The node of the first document, and what follows. -/
def document? (tokens : List Token) : Option (Node String × List Token) :=
  let fuel := 2 * tokens.length + 2
  if tokens.head?.any fun t => isDirective t || t = .documentStart then do
    let (declared, rest) ← directives? false [] tokens
    match rest with
    | .documentStart :: rest =>
      if rest.head?.all fun t => isDirective t || t = .documentStart || t = .documentEnd then
        return (empty, rest)
      else ofTokens? (declared ++ defaultHandles) fuel rest
    | _ => none
  else ofTokens? defaultHandles fuel tokens

/-- The node of a text with one document; a text without tokens has an empty one. -/
def ofText? (text : String) : Option (Node String) := do
  let tokens ← Token.ofText? text
  if tokens.isEmpty then return empty
  else
    let (n, rest) ← document? tokens
    if rest.all (· = .documentEnd) then return n else none

end Node

end SymbolicExecution.Yaml
