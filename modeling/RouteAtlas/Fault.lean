/-!
# Faults

Why an operation gives no answer. Settings may hold any value, so some faults say that a value is
not of the type that is needed, or lacks what is asked of it.
-/

namespace RouteAtlas

/-- A cause of failure. -/
inductive Fault where
  | unexpectedType
  | unsupportedOperation
  | invalidValue
  | tooLarge
  | pathMissing (path : String)
  | pathNotDirectory (path : String)
  | configMissing (path : String)
  | configNotMapping (path : String)
  | projectConfigMissing (path : String)
  | missingKey (key : String)
  | malformedJson
  | malformedYaml
  | invalidEncoding
  | fileMissing
  | fileIsDirectory
  | endlessInheritance
  deriving Repr, DecidableEq, Inhabited

namespace Fault

/-- What is said about a fault whose message users rely on. -/
def message? : Fault → Option String
  | pathMissing p => some ("Path does not exist: " ++ p)
  | pathNotDirectory p => some ("Path is not a directory: " ++ p)
  | configMissing p => some ("Config file not found: " ++ p)
  | configNotMapping p => some ("Config file must contain a mapping: " ++ p)
  | projectConfigMissing p => some ("No tsconfig.json found in " ++ p)
  | _ => none

/-- A fault in words. -/
def text (f : Fault) : String :=
  f.message?.getD (match f with
    | unexpectedType => "a setting has a value of the wrong type"
    | unsupportedOperation => "a setting has a value that lacks what is asked of it"
    | invalidValue => "a value is not allowed"
    | tooLarge => "a number is too large"
    | missingKey k => "the key '" ++ k ++ "' is missing"
    | malformedJson => "the text is no JSON"
    | malformedYaml => "the text is no YAML"
    | invalidEncoding => "the bytes are no UTF-8"
    | fileMissing => "the file does not exist"
    | fileIsDirectory => "the file is a directory"
    | endlessInheritance => "an interface inherits from itself"
    | _ => "")

end Fault

end RouteAtlas
