/-!
# Cancellation

A token asks for the cancellation of what polls it. Clones of a token share its signal, and a raised
signal stays raised.
-/

namespace SymbolicExecution

structure Signals where
  /-- Which signals are raised. -/
  raised : Array Bool
  /-- The signal of each token. -/
  tokens : Array Nat

namespace Signals

/-- One token. -/
def start : Signals := ⟨#[false], #[0]⟩

def create (s : Signals) : Signals := ⟨s.raised.push false, s.tokens.push s.raised.size⟩

def clone (s : Signals) (token : Nat) : Signals :=
  match s.tokens[token]? with
  | some signal => { s with tokens := s.tokens.push signal }
  | none => s

def cancel (s : Signals) (token : Nat) : Signals :=
  match s.tokens[token]? with
  | some signal => { s with raised := s.raised.modify signal fun _ => true }
  | none => s

def isCancelled (s : Signals) (token : Nat) : Bool :=
  (s.tokens[token]?.bind fun signal => s.raised[signal]?).getD false

/-- The answer of every token, in order. -/
def answers (s : Signals) : List Bool := (List.range s.tokens.size).map s.isCancelled

end Signals

end SymbolicExecution
