/-!
# Places in a YAML text

The characters that divide a text, and the places between them.
-/

namespace SymbolicExecution.Yaml

def isBlank (c : Char) : Bool := c = ' ' || c = '\t'

/-- The line breaks of a text whose breaks are unified. -/
def isBreak (c : Char) : Bool := c = '\n' || c = '\u2028' || c = '\u2029'

/-- The characters that divide flow style. -/
def isPunctuation (c : Char) : Bool := ",[]\x7b\x7d".toList.contains c

/-- The letters of anchors and tag handles. -/
def isWord (c : Char) : Bool := c.isAlphanum || c = '-' || c = '_'

/-- Characters that a text may contain. -/
def isPrintable (c : Char) : Bool :=
  let n := c.toNat
  n = 0x09 || n = 0x0A || n = 0x0D || 0x20 ≤ n && n ≤ 0x7E || n = 0x85 ||
    0xA0 ≤ n && n ≤ 0xFFFD || 0x10000 ≤ n

/-- Write a line feed for every carriage return, for both together, and for every next line. -/
def unifyBreaks : List Char → List Char
  | '\r' :: '\n' :: rest => '\n' :: unifyBreaks rest
  | '\r' :: rest | '\u0085' :: rest => '\n' :: unifyBreaks rest
  | c :: rest => c :: unifyBreaks rest
  | [] => []

/-- No word goes on here. -/
def endsWord (rest : List Char) : Bool := rest.head?.all fun c => isBlank c || isBreak c

structure Cursor where
  line : Nat
  column : Nat
  rest : List Char

namespace Cursor

def start (text : List Char) : Cursor := ⟨0, 0, text⟩

/-- Go on by `n` characters of the line. -/
def skip (n : Nat) (c : Cursor) : Cursor := ⟨c.line, c.column + n, c.rest.drop n⟩

/-- Go on to the rest `rest` of the line. -/
def skipTo (rest : List Char) (c : Cursor) : Cursor :=
  ⟨c.line, c.column + (c.rest.length - rest.length), rest⟩

def skipWhile (p : Char → Bool) (c : Cursor) : Cursor := c.skip (c.rest.takeWhile p).length

def skipBlanks (c : Cursor) : Cursor := c.skipWhile isBlank

def skipComment (c : Cursor) : Cursor :=
  if c.rest.head? = some '#' then c.skipWhile fun d => !isBreak d else c

def nextLine (c : Cursor) : Cursor := ⟨c.line + 1, 0, c.rest.drop 1⟩

/-- Go on to the next line, if nothing but a comment stands in between. -/
def finishLine? (c : Cursor) : Option Cursor :=
  let c := c.skipBlanks.skipComment
  match c.rest with
  | [] => some c
  | d :: _ => if isBreak d then some c.nextLine else none

def isMarker (mark : String) (c : Cursor) : Bool :=
  c.column = 0 && mark.toList.isPrefixOf c.rest && endsWord (c.rest.drop mark.length)

/-- A document starts or ends here. -/
def atMarker (c : Cursor) : Bool := c.isMarker "---" || c.isMarker "..."

end Cursor

end SymbolicExecution.Yaml
