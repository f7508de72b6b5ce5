import SymbolicExecution.Config
import SymbolicExecution.Json.Codec

/-!
# Configurations as JSON

A missing field has the value of the default configuration.
-/

namespace SymbolicExecution

open Json (withDefault)

instance : Codec Preset := Codec.ofTexts Preset.all Preset.text

instance : Codec Config where
  encode c :=
    .object
      [(Config.maxVisitedField, Json.ofNat c.maxVisited),
        (Config.maxStepsField, Json.ofNat c.maxSteps),
        (Config.resetField, encode c.resetAtBoundary),
        (Config.learnField, encode c.learnAtBranches), (Config.parallelField, encode c.parallel)]
  decode? j :=
    let usual : Config := default
    match j.someFields?
      [Config.maxVisitedField, Config.maxStepsField, Config.resetField, Config.learnField,
        Config.parallelField] with
    | some [maxVisited, maxSteps, reset, learn, parallel] => do
      return ⟨← withDefault Json.nat64? usual.maxVisited maxVisited,
        ← withDefault Json.nat64? usual.maxSteps maxSteps,
        ← withDefault decode? usual.resetAtBoundary reset,
        ← withDefault decode? usual.learnAtBranches learn,
        ← withDefault decode? usual.parallel parallel⟩
    | _ => none

end SymbolicExecution
