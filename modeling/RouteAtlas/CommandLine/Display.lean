import RouteAtlas.CommandLine.Run

/-!
# Display

How output is laid out on a screen: tables have a title and a header, and their columns are as wide
as their widest cell.
-/

namespace RouteAtlas.CommandLine.Printed

section Tables

/-- A cell filled up to a width. -/
def padded
    (width : Nat)
    (cell : String) :
    String :=
  cell ++ String.ofList (List.replicate (width - cell.length) ' ')

/-- The width of each column of some rows. -/
def widths (rows : List (List String)) : List Nat :=
  let columns := (rows.map List.length).foldl max 0
  (List.range columns).map fun i =>
    (rows.map fun r => (r.getD i "").length).foldl max 0

/-- A row with cells of given widths. -/
def rowLine
    (widths : List Nat)
    (row : List String) :
    String :=
  "│ " ++ Text.joinWith " │ " (List.zipWith padded widths row) ++ " │"

/-- The line below the header. -/
def ruleLine (widths : List Nat) : String :=
  "├" ++ Text.joinWith "┼" (widths.map fun w => String.ofList (List.replicate (w + 2) '─')) ++ "┤"

end Tables

/-- The text of a piece of output. -/
def text : Printed → String
  | line s => s ++ "\n"
  | document s => s
  | table title header rows =>
    let ws := widths (header :: rows)
    Text.joinWith "\n" (title :: rowLine ws header :: ruleLine ws :: rows.map (rowLine ws)) ++ "\n"

end RouteAtlas.CommandLine.Printed
