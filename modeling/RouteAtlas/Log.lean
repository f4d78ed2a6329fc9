/-!
# Log records

What a scan says while it runs. Every record has a level and names the component that it comes from;
components are named below one logger.
-/

namespace RouteAtlas.Log

/-- How important a record is. -/
inductive Level where
  | debug
  | info
  | warning
  | error
  deriving Repr, DecidableEq, Inhabited

/-- The written name of a level. -/
def Level.name : Level → String
  | debug => "DEBUG"
  | info => "INFO"
  | warning => "WARNING"
  | error => "ERROR"

/-- Whether a level is important enough to be shown to everyone. -/
def Level.isImportant : Level → Bool
  | debug | info => false
  | warning | error => true

/-- The logger below which all components are named. -/
def defaultLogger : String :=
  "routescope"

/-- The line that is written for a message of a component at a level. -/
def line (logger component level message : String) : String :=
  "[" ++ level ++ "] [" ++ logger ++ "." ++ component ++ "] " ++ message

/-- Something that was said. -/
structure Record where
  level : Level
  component : String
  message : String
  deriving Repr, DecidableEq, Inhabited

/-- The line that is written for a record. -/
def Record.line (r : Record) : String :=
  Log.line defaultLogger r.component r.level.name r.message

end RouteAtlas.Log
