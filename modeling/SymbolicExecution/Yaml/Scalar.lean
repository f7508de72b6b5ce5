import SymbolicExecution.Yaml.Cursor

/-!
# The text of YAML scalars

Plain and quoted scalars fold their lines: a single line feed becomes a space, of several the first
is dropped, and other breaks stay. Block scalars keep their lines or fold those that are not
indented further.
-/

namespace SymbolicExecution.Yaml

inductive Style where
  | plain
  | quoted
  | literal
  | folded
  deriving DecidableEq

/-- What lies between two words: blanks, or line breaks with the blanks around them. -/
structure Gap where
  blanks : List Char
  breaks : List Char
  /-- The line goes on although it breaks. -/
  escaped : Bool

namespace Gap

def empty : Gap := ⟨[], [], false⟩

/-- An escaped line break. -/
def continued : Gap := ⟨[], [], true⟩

def breaksLine (g : Gap) : Bool := g.escaped || !g.breaks.isEmpty

def addBlank (g : Gap) (c : Char) : Gap :=
  if g.breaksLine then g else { g with blanks := g.blanks ++ [c] }

def addBreak (g : Gap) (c : Char) : Gap := { g with blanks := [], breaks := g.breaks ++ [c] }

def text (g : Gap) : List Char :=
  if g.escaped then g.breaks
  else
    match g.breaks with
    | [] => g.blanks
    | ['\n'] => [' ']
    | '\n' :: more => more
    | breaks => breaks

end Gap

/-- The rest of a plain scalar, after a gap if there is one, its end, and whether the line broke
before the end. Lines go on from `margin`, and have no tabs before it. -/
def plainFrom (flow : Bool) (margin : Nat) (gap : Option Gap) (line column : Nat) :
    List Char → Option (List Char × Cursor × Bool)
  | [] => some ([], ⟨line, column, []⟩, gap.any Gap.breaksLine)
  | c :: rest =>
    let before := gap.getD Gap.empty
    if isBlank c then
      if c = '\t' && before.breaksLine && column < margin then none
      else plainFrom flow margin (some (before.addBlank c)) line (column + 1) rest
    else if isBreak c then plainFrom flow margin (some (before.addBreak c)) (line + 1) 0 rest
    else
      let here : Cursor := ⟨line, column, c :: rest⟩
      if gap.isSome && (!flow && column < margin || here.atMarker || c = '#') ||
          c = ':' && endsWord rest || flow && isPunctuation c then
        some ([], here, before.breaksLine)
      else if flow && c = ':' && rest.head?.any fun d => isPunctuation d || d = '?' then none
      else do
        let (text, stop) ← plainFrom flow margin none line (column + 1) rest
        return (before.text ++ c :: text, stop)

/-- The rest of a scalar in single quotes after a gap, and its end. -/
def singleFrom (gap : Gap) (line column : Nat) : List Char → Option (List Char × Cursor)
  | [] => none
  | '\'' :: '\'' :: rest => do
    let (text, stop) ← singleFrom Gap.empty line (column + 2) rest
    return (gap.text ++ '\'' :: text, stop)
  | '\'' :: rest => some (gap.text, ⟨line, column + 1, rest⟩)
  | c :: rest =>
    if isBlank c then singleFrom (gap.addBlank c) line (column + 1) rest
    else if isBreak c then singleFrom (gap.addBreak c) (line + 1) 0 rest
    else if (⟨line, column, c :: rest⟩ : Cursor).atMarker then none
    else do
      let (text, stop) ← singleFrom Gap.empty line (column + 1) rest
      return (gap.text ++ c :: text, stop)

def hexDigit? (c : Char) : Option Nat :=
  if c.isDigit then some (c.toNat - '0'.toNat)
  else if 'a' ≤ c ∧ c ≤ 'f' then some (c.toNat - 'a'.toNat + 10)
  else if 'A' ≤ c ∧ c ≤ 'F' then some (c.toNat - 'A'.toNat + 10)
  else none

def charOfCode? (n : Nat) : Option Char :=
  if n < 0xD800 ∨ 0xDFFF < n ∧ n < 0x110000 then some (Char.ofNat n) else none

inductive Escape where
  | absent
  /-- After the backslash. -/
  | begun
  /-- After some digits of a code, with the number of those to come. -/
  | code (missing value : Nat)

namespace Escape

/-- The number of digits after the letter of a code. -/
def digits? : Char → Option Nat
  | 'x' => some 2
  | 'u' => some 4
  | 'U' => some 8
  | _ => none

def char? : Char → Option Char
  | '0' => some '\x00'
  | 'a' => some '\x07'
  | 'b' => some '\x08'
  | 't' | '\t' => some '\t'
  | 'n' => some '\n'
  | 'v' => some '\x0b'
  | 'f' => some '\x0c'
  | 'r' => some '\r'
  | 'e' => some '\x1b'
  | ' ' => some ' '
  | '"' => some '"'
  | '/' => some '/'
  | '\\' => some '\\'
  | 'N' => some '\u0085'
  | '_' => some '\u00a0'
  | 'L' => some '\u2028'
  | 'P' => some '\u2029'
  | _ => none

end Escape

/-- The rest of a scalar in double quotes after a gap, and its end. -/
def doubleFrom (gap : Gap) (escape : Escape) (line column : Nat) :
    List Char → Option (List Char × Cursor)
  | [] => none
  | c :: rest =>
    match escape with
    | .absent =>
      if c = '"' then some (gap.text, ⟨line, column + 1, rest⟩)
      else if isBlank c then doubleFrom (gap.addBlank c) .absent line (column + 1) rest
      else if isBreak c then doubleFrom (gap.addBreak c) .absent (line + 1) 0 rest
      else if (⟨line, column, c :: rest⟩ : Cursor).atMarker then none
      else if c = '\\' then do
        let (text, stop) ← doubleFrom Gap.empty .begun line (column + 1) rest
        return (gap.text ++ text, stop)
      else do
        let (text, stop) ← doubleFrom Gap.empty .absent line (column + 1) rest
        return (gap.text ++ c :: text, stop)
    | .begun =>
      if isBreak c then doubleFrom Gap.continued .absent (line + 1) 0 rest
      else
        match Escape.digits? c with
        | some n => doubleFrom gap (.code n 0) line (column + 1) rest
        | none => do
          let meant ← Escape.char? c
          let (text, stop) ← doubleFrom Gap.empty .absent line (column + 1) rest
          return (meant :: text, stop)
    | .code missing value => do
      let value := 16 * value + (← hexDigit? c)
      if 1 < missing then doubleFrom gap (.code (missing - 1) value) line (column + 1) rest
      else do
        let meant ← charOfCode? value
        let (text, stop) ← doubleFrom Gap.empty .absent line (column + 1) rest
        return (meant :: text, stop)

/-- What becomes of the line breaks at the end of a block scalar. -/
inductive Chomping where
  | strip
  | clip
  | keep
  deriving DecidableEq

def Chomping.ofChar? : Char → Option Chomping
  | '-' => some .strip
  | '+' => some .keep
  | _ => none

/-- The indicators after the sign of a block scalar, in either order: what to do with the last line
breaks, and an indentation, zero when it is to be found out. -/
def blockHeader? (c : Cursor) : Option (Chomping × Nat × Cursor) := do
  let (first, c) := chomping c
  let (indent, c) ← increment? c
  let (second, c) := if first.isSome then (none, c) else chomping c
  return ((first <|> second).getD .clip, indent, ← c.finishLine?)
where
  chomping (c : Cursor) : Option Chomping × Cursor :=
    match c.rest.head?.bind Chomping.ofChar? with
    | some k => (some k, c.skip 1)
    | none => (none, c)
  increment? (c : Cursor) : Option (Nat × Cursor) :=
    match c.rest.head? with
    | some d =>
      if d = '0' then none
      else if d.isDigit then some (d.toNat - '0'.toNat, c.skip 1)
      else some (0, c)
    | none => some (0, c)

structure Block where
  folds : Bool
  chomping : Chomping
  /-- The indentation; zero until the first line that is not empty. -/
  indent : Nat
  /-- The widest indentation met so far. -/
  widest : Nat
  /-- The break that ended the last line. -/
  ending : List Char
  /-- The breaks of empty lines since. -/
  blankLines : List Char
  /-- The last line began with a blank. -/
  indented : Bool
  /-- Inside a line, after its indentation. -/
  inLine : Bool

namespace Block

/-- What stands between the last line and one that begins with `c`. -/
def joint (b : Block) (c : Char) : List Char :=
  if b.folds && b.ending = ['\n'] && !b.indented && !isBlank c then
    (if b.blankLines.isEmpty then [' '] else b.blankLines)
  else b.ending ++ b.blankLines

def tail (b : Block) : List Char :=
  (if b.chomping = .strip then [] else b.ending) ++
    if b.chomping = .keep then b.blankLines else []

end Block

/-- The rest of a block scalar, and its end. Its lines are indented at least to `margin`. -/
def blockFrom (margin : Nat) (b : Block) (line column : Nat) :
    List Char → Option (List Char × Cursor)
  | [] => some (b.tail, ⟨line, column, []⟩)
  | c :: rest =>
    if b.inLine then
      if isBreak c then
        blockFrom margin { b with ending := [c], inLine := false } (line + 1) 0 rest
      else do
        let (text, stop) ← blockFrom margin b line (column + 1) rest
        return (c :: text, stop)
    else if c = ' ' && (b.indent = 0 || column < b.indent) then
      blockFrom margin { b with widest := max b.widest (column + 1) } line (column + 1) rest
    else if c = '\t' && (b.indent = 0 || column < b.indent) then none
    else if isBreak c then
      blockFrom margin { b with blankLines := b.blankLines ++ [c] } (line + 1) 0 rest
    else
      let indent := if b.indent = 0 then max 1 (max margin b.widest) else b.indent
      if column = indent then do
        let inside :=
          { b with
            indent := indent, ending := [], blankLines := [], indented := isBlank c
            inLine := true }
        let (text, stop) ← blockFrom margin inside line (column + 1) rest
        return (b.joint c ++ c :: text, stop)
      else some (b.tail, ⟨line, column, c :: rest⟩)

/-- A block scalar after its sign. -/
def block? (folds : Bool) (margin : Nat) (c : Cursor) : Option (List Char × Cursor) := do
  let (chomping, increment, c) ← blockHeader? c
  let indent := if increment = 0 then 0 else (margin - 1) + increment
  blockFrom margin ⟨folds, chomping, indent, 0, [], [], false, false⟩ c.line c.column c.rest

end SymbolicExecution.Yaml
