/-!
# JSON values and their text

Objects keep their members in order. The indented text puts every element and member on a line of
its own, two spaces deeper than its container.
-/

namespace SymbolicExecution

inductive Json where
  | null
  | bool (b : Bool)
  | int (n : Int)
  /-- A number that is not written as an integer. -/
  | real (text : String)
  | str (s : String)
  | list (elements : List Json)
  | object (members : List (String × Json))
  deriving Inhabited

namespace Json

def hexDigit (n : Nat) : Char := "0123456789abcdef".toList.getD n '0'

/-- Quotes, backslashes and control characters are escaped; every other character stands for
itself. -/
def escape (c : Char) : String :=
  match c with
  | '"' => "\\\""
  | '\\' => "\\\\"
  | '\n' => "\\n"
  | '\r' => "\\r"
  | '\t' => "\\t"
  | '\x08' => "\\b"
  | '\x0c' => "\\f"
  | c =>
    if c.toNat < 32 then
      "\\u00" ++ String.singleton (hexDigit (c.toNat / 16)) ++
        String.singleton (hexDigit (c.toNat % 16))
    else String.singleton c

def quote (s : String) : String := "\"" ++ String.join (s.toList.map escape) ++ "\""

def indent (depth : Nat) : String := "\n" ++ String.ofList (List.replicate (2 * depth) ' ')

/-- Elements between brackets, one a line. -/
def enclose (opening closing : String) (depth : Nat) : List String → String
  | [] => opening ++ closing
  | l =>
    opening ++ indent (depth + 1) ++ ("," ++ indent (depth + 1)).intercalate l ++ indent depth ++
      closing

mutual

def indentedAt (depth : Nat) : Json → String
  | null => "null"
  | bool b => if b then "true" else "false"
  | int n => toString n
  | real text => text
  | str s => quote s
  | list elements => enclose "[" "]" depth (elementLines (depth + 1) elements)
  | object members => enclose "\x7b" "\x7d" depth (memberLines (depth + 1) members)

def elementLines (depth : Nat) : List Json → List String
  | [] => []
  | j :: rest => indentedAt depth j :: elementLines depth rest

def memberLines (depth : Nat) : List (String × Json) → List String
  | [] => []
  | (k, j) :: rest => (quote k ++ ": " ++ indentedAt depth j) :: memberLines depth rest

end

def indented (j : Json) : String := indentedAt 0 j

end Json

end SymbolicExecution
