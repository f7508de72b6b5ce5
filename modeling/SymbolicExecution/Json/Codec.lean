import SymbolicExecution.Json

/-!
# Coding data as JSON

A record is an object with a member for each field, and is also read from the list of its fields. A
missing field is read as absent where the field is optional. A case of a variant is its name, or an
object with the name as its only member, whose fields are only read from an object. A case may
instead be marked by a member of its record.
-/

namespace SymbolicExecution

class Codec (α : Type) where
  encode : α → Json
  decode? : Json → Option α

export Codec (encode decode?)

namespace Json

def field? (name : String) (members : List (String × Json)) : Option Json := members.lookup name

/-- The given fields of a record, in order. -/
def fields? (names : List String) : Json → Option (List (Option Json))
  | object members => some (names.map fun n => field? n members)
  | list elements => if elements.length = names.length then some (elements.map some) else none
  | _ => none

/-- The given fields of a case, in order. -/
def caseFields? (names : List String) : Json → Option (List (Option Json))
  | object members => some (names.map fun n => field? n members)
  | _ => none

/-- As `fields?`, where a list may leave out fields at its end. -/
def someFields? (names : List String) : Json → Option (List (Option Json))
  | list elements =>
    if elements.length ≤ names.length then
      some (elements.map some ++ List.replicate (names.length - elements.length) none)
    else none
  | j => j.fields? names

/-- A case and its content. -/
def case? : Json → Option (String × Option Json)
  | str name => some (name, none)
  | object [(name, content)] => some (name, some content)
  | _ => none

/-- A case without content. -/
def name? (j : Json) : Option String :=
  match j.case? with
  | some (name, none) | some (name, some null) => some name
  | _ => none

/-- The member `mark` that marks a case, and the record without it. -/
def marked? (mark : String) : Json → Option (Json × Json)
  | object members =>
    (field? mark members).map fun m => (m, object (members.filter fun m => m.1 != mark))
  | list (m :: rest) => some (m, list rest)
  | _ => none

/-- Nothing is left over of a record without fields. -/
def isSpent : Json → Bool
  | object _ | list [] => true
  | _ => false

def natBelow? (limit : Nat) : Json → Option Nat
  | int n => if 0 ≤ n ∧ n < limit then some n.toNat else none
  | _ => none

def nat32? : Json → Option Nat := natBelow? (Nat.pow 2 32)

def nat64? : Json → Option Nat := natBelow? (Nat.pow 2 64)

def ofNat (n : Nat) : Json := int n

def ofOption {α : Type} (f : α → Json) : Option α → Json
  | some a => f a
  | none => null

def list? {α : Type} (read? : Json → Option α) : Json → Option (List α)
  | list elements => elements.mapM read?
  | _ => none

section Field

variable {α : Type} (read? : Json → Option α)

def required (j : Option Json) : Option α := j.bind read?

def optional : Option Json → Option (Option α)
  | none | some null => some none
  | some j => (read? j).map some

def withDefault (a : α) : Option Json → Option α
  | none => some a
  | some j => read? j

end Field

end Json

namespace Codec

/-- The cases of an enumeration are coded by their texts. -/
abbrev ofTexts {α : Type} (all : List α) (text : α → String) : Codec α where
  encode a := .str (text a)
  decode? j := j.name?.bind fun name => all.find? fun a => text a == name

instance : Codec Bool where
  encode := .bool
  decode?
    | .bool b => some b
    | _ => none

instance : Codec String where
  encode := .str
  decode?
    | .str s => some s
    | _ => none

end Codec

end SymbolicExecution
