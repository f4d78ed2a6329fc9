import RouteAtlas.Procedures.Basic
import RouteAtlas.Procedures.Evidence
import RouteAtlas.Syntax.Literal

/-!
# Chains of builder calls

A procedure is written as a chain of calls on a builder. The chain is read from its end towards the
builder, and what is read later counts: the kind is that of the leftmost call that has one, the input
and the resolver are the leftmost that are given, and the builder that begins the chain tells the
visibility. A chain may be an argument of other calls.
-/

namespace RouteAtlas.Procedures

open Syntax

/-- What is known of a chain of calls. -/
structure Chain where
  kind : Option ProcedureKind
  input : Option Node
  hasInput : Bool
  hasOutput : Bool
  resolver : Option Node
  visibility : String

namespace Chain

section Calls

/-- A chain of which nothing is known. -/
def unknown : Chain :=
  ⟨none, none, false, false, none, Procedure.unknownVisibility⟩

/-- The visibility of the procedures that a builder makes, by its name. -/
def visibilities : List (String × String) :=
  [("publicProcedure", "public"), ("privateProcedure", "private"),
    ("protectedProcedure", "protected"), ("adminProcedure", "admin")]

/-- The chain with the visibility that the name of a builder tells, if it tells one. -/
def withBuilder
    (c : Chain)
    (name : String) :
    Chain :=
  { c with visibility := (entryOf? name visibilities).getD c.visibility }

/-- The function among the arguments of a call that ends a chain: the first one. -/
def resolverAmong? (args : List Node) : Option Node :=
  (args.head?.map Node.unwrap).filter Node.isFunction

/-- The chain with a call of a method. -/
def withCall
    (c : Chain)
    (method : String)
    (args : List Node) :
    Chain :=
  if method == "input" then { c with hasInput := true, input := args.head?.or c.input }
  else if method == "output" then { c with hasOutput := true }
  else if method == "query" || method == "mutation" then
    { c with
      kind := some (ProcedureKind.ofTag method)
      resolver := (resolverAmong? args).or c.resolver }
  else c

end Calls

section Reading

/-- The chain with the builder in front of a method. -/
def withBase
    (c : Chain)
    (base : Node) :
    Chain :=
  let b := base.unwrap
  if b.kind == .identifier then c.withBuilder b.text else c

mutual

/-- What is known of a chain after reading an expression. -/
def read
    (c : Chain)
    (expression : Node) :
    Chain :=
  let call := expression.unwrap
  if call.kind == .callExpression then
    match _hf : call.child? .function with
    | none => c
    | some f =>
      let callee := f.unwrap
      match callee.kind with
      | .memberExpression =>
        let c := c.withCall callee.propertyText call.callArguments
        match _h : callee.child? .object with
        | some base => read (c.withBase base) base
        | none => c
      | .identifier => readAll (c.withBuilder callee.text) call.namedChildren
      | _ => readAll c call.namedChildren
  else c
  termination_by 2 * expression.count
  decreasing_by
    all_goals have h₁ := Node.count_unwrap_le expression
    · have h₂ := Node.count_lt_of_child? _h
      have h₃ : callee.count ≤ f.count := Node.count_unwrap_le f
      have h₄ : f.count < expression.unwrap.count := Node.count_lt_of_child? _hf
      omega
    · have h₂ := Node.countForest_namedChildren_lt expression.unwrap
      omega
    · have h₂ := Node.countForest_namedChildren_lt expression.unwrap
      omega

/-- What is known of a chain after reading expressions one after the other. -/
def readAll
    (c : Chain) :
    List Node → Chain
  | [] => c
  | e :: rest => readAll (read c e) rest
  termination_by es => 2 * Node.countForest es + 1
  decreasing_by
    · simp only [Node.countForest]
      omega
    · have := Node.count_pos e
      simp only [Node.countForest]
      omega

end

end Reading

section Resolvers

/-- The part of a resolver that is looked through: its body. -/
def resolverBody (resolver : Node) : Node :=
  (resolver.child? .body).getD resolver

/-- Whether a resolver handles errors. -/
def handlesErrors (body : Node) : Bool :=
  Text.contains body.text Evidence.errorName || !(body.descendantsOf .tryStatement).isEmpty

/-- The procedure with what its resolver suggests. -/
def withResolver
    (p : Procedure)
    (resolver : Option Node) :
    Procedure :=
  match resolver with
  | none => p
  | some r =>
    let body := resolverBody r
    { p with
      resolverLines := r.lineCount
      usesDatabase := Evidence.database.occursIn body.text
      handlesErrors := handlesErrors body
      hasSideEffects := Evidence.sideEffects.occursInAnyCase body.text }

end Resolvers

end Chain

end RouteAtlas.Procedures
