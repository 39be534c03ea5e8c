/-
# `Unmask.RunError` — why a command ends without a report

A command reads settings, reads a script, unmasks it and writes a report; each
of these can fail, and the error says which of them did.
-/
import Unmask.Settings

namespace Unmask

/-- What ended a command. -/
inductive RunError where
  | settings (e : SettingsError)
  | unmasking (f : Failure)
  | storage (message : String)
deriving Repr, DecidableEq, Inhabited

def RunError.message : RunError → String
  | .settings e => "config error: " ++ e.message
  | .unmasking f => "deobfuscation error: " ++ f.message
  | .storage m => "io error: " ++ m

end Unmask
