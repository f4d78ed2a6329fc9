import RouteAtlas.Text.Case

/-!
# Request methods

The methods that routes are reported for, in the order in which they are listed, and those among
them whose requests carry a body.
-/

namespace RouteAtlas.Route

/-- The methods of requests, in listing order. -/
def verbs : List String :=
  ["GET", "POST", "PUT", "PATCH", "DELETE", "HEAD", "OPTIONS"]

/-- The place of a method in listing order. -/
def verbRank? (m : String) : Option Nat :=
  verbs.findIdx? fun v => v == m

/-- Whether requests of a method carry a body, in any letter case. -/
def carriesBody (m : String) : Bool :=
  ["POST", "PUT", "PATCH"].contains (Text.upper m)

/-- The method that a text names in any letter case. -/
def verb? (s : String) : Option String :=
  let v := Text.upper s
  if verbs.contains v then some v else none

end RouteAtlas.Route
