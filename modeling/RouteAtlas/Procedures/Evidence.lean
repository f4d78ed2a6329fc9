import RouteAtlas.Text.Pattern

/-!
# What the text of a resolver suggests

Phrases in the body of a procedure suggest that it reads a database or that it changes something
outside of it.
-/

namespace RouteAtlas.Procedures.Evidence

open Text (Pattern)

/-- Objects that reach a database. -/
def database : Pattern :=
  .seq (.boundary true) (.words ["db.", "prisma."])

/-- Calls that change something elsewhere, in any letter case. -/
def sideEffects : Pattern :=
  .words ["sendMail", "sendEmail", "resend.", "mail(", "writeFile", "fs.", "axios(", "fetch(",
    "update(", "insert(", "delete("]

/-- The name of the error that procedures raise. -/
def errorName : String :=
  "TRPCError"

end RouteAtlas.Procedures.Evidence
