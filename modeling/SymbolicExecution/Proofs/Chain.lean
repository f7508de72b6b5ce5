import SymbolicExecution.Semantics

/-!
# Chains of rules

A link of a chain takes the states that come to it one after the other, and a chain takes its links
one after the other. The numbering goes along. The first refusal ends it, and all that was answered
before is lost.
-/

namespace SymbolicExecution.Rule

variable {rule : Rule} {rules : List Rule} {c : Situation} {states out : List State}
  {n m : Numbering} {f : Refusal}

/-- The rule answers the states up to one that it refuses. -/
inductive Breaks (rule : Rule) (c : Situation) :
    List State → Numbering → Refusal → Numbering → Prop
  | here {s : State} {rest : List State} {n m : Numbering} {f : Refusal}
      (refused : rule { c with state := s } n = (.error f, m)) : Breaks rule c (s :: rest) n f m
  | later {s : State} {rest first : List State} {n m k : Numbering} {f : Refusal}
      (answered : rule { c with state := s } n = (.ok first, m))
      (breaks : Breaks rule c rest m f k) : Breaks rule c (s :: rest) n f k

end SymbolicExecution.Rule
