/-!
# Levels of notes

What a client or an engine has to report about its work it keeps as notes.  Each note has a level,
which tells how much it matters.
-/

namespace NetHost

/-- How much a note matters. -/
inductive Level where
  | info
  | warn
  | debug
  deriving DecidableEq, Repr

namespace Level

def name : Level → String
  | info => "INFO"
  | warn => "WARN"
  | debug => "DEBUG"

end Level

end NetHost
