import SymbolicExecution.Check

/-!
# Useless increments

In `x = x++` the increment is lost: its old value is written back over the new one.
-/

namespace SymbolicExecution

namespace UselessIncrement

def name : String := "useless-increment"

def message (down : Bool) : String :=
  "Remove this " ++ (if down then "decrement" else "increment") ++
    " or correct the code not to waste it."

def find (s : Sighting) : List Finding :=
  match s.operation with
  | some assignment =>
    match assignment.form with
    | .assign target value =>
      match (s.routine.unwrap? value).bind s.routine.operation? with
      | some stepped =>
        match stepped.form with
        | .step location down true =>
          let written := s.state.storage? s.routine target
          if written.isSome && written = s.state.storage? s.routine location then
            [{ s.finding name .error (message down) with
                operation := some stepped.id
                line := stepped.line <|> assignment.line }]
          else []
        | _ => []
      | none => []
    | _ => []
  | none => []

end UselessIncrement

/-- Reports steps whose result is overwritten by their old value. -/
def Check.uselessIncrement {σ : Type} : Check σ :=
  Check.ofFindings UselessIncrement.name UselessIncrement.find

end SymbolicExecution
