import SymbolicExecution.Config.Text

/-!
# Configuration files
-/

namespace SymbolicExecution

/-- Read the configuration document in a file. -/
def Config.load (path : String) : IO (Except ConfigError Config) := do
  try
    let text ← IO.FS.readFile path
    return Config.ofText text
  catch _ => return .error .unreadable

end SymbolicExecution
