import Mathlib
import RouteAtlas.Proofs.RouterReadings
import RouteAtlas.Proofs.SchemaChains

/-!
# Procedures written as chains of calls

A procedure is a chain of calls of methods on a builder. The chain is read from its last call towards
the builder, and each call writes over what the calls to its right have said. So for the kind, the input
and the resolver the leftmost call counts that says anything about them, while for the presence of an
input or an output any call does. A call that is repeated can therefore decide one thing and leave
another one to a call further to the right: an `input` without an argument says that there is an input
and not which one it is.

The reading of one call is the step lemma; what a whole chain says follows from it by induction on the
chain. Casts and parentheses may stand around every receiver.
-/

namespace RouteAtlas.Procedures

open Syntax
open Schema (MethodCall Chained methodCall leading bareFile chained_methodCall)
open Project (Scope)

section Calls

/-- The kind of procedure that a call makes, if it ends the procedure. -/
def kindOf? (m : MethodCall) : Option ProcedureKind :=
  if m.method = "query" then some .query
  else if m.method = "mutation" then some .mutation
  else none

/-- The schema that a call gives for the input. -/
def inputOf? (m : MethodCall) : Option Node :=
  if m.method = "input" then m.args.head? else none

/-- The function that a call which ends the procedure gives as its resolver. -/
def resolverOf? (m : MethodCall) : Option Node :=
  if m.method = "query" ∨ m.method = "mutation" then
    (m.args.head?.map Node.unwrap).filter Node.isFunction
  else none

theorem kindOf?_eq_none_iff (m : MethodCall) :
    kindOf? m = none ↔ m.method ≠ "query" ∧ m.method ≠ "mutation" := by
  unfold kindOf?
  split_ifs <;> simp_all

/-- A chain of which some is known, with what calls say to the left of what was read. -/
def Chain.afterCalls
    (c : Chain)
    (calls : List MethodCall) :
    Chain :=
  { c with
    kind := (calls.findSome? kindOf?).or c.kind
    input := (calls.findSome? inputOf?).or c.input
    hasInput := calls.any (fun m => m.method = "input") || c.hasInput
    hasOutput := calls.any (fun m => m.method = "output") || c.hasOutput
    resolver := (calls.findSome? resolverOf?).or c.resolver }

theorem Chain.afterCalls_nil (c : Chain) : c.afterCalls [] = c := by
  simp [Chain.afterCalls]

/-- What a single call writes. -/
theorem Chain.withCall_eq_afterCalls
    (c : Chain)
    (m : MethodCall) :
    c.withCall m.method m.args = c.afterCalls [m] := by
  obtain ⟨method, args⟩ := m
  unfold Chain.withCall Chain.afterCalls
  by_cases hinput : method = "input"
  · simp [hinput, kindOf?, inputOf?, resolverOf?]
  · by_cases houtput : method = "output"
    · simp [houtput, kindOf?, inputOf?, resolverOf?]
    · by_cases hquery : method = "query"
      · simp [hquery, kindOf?, inputOf?, resolverOf?, ProcedureKind.ofTag, Chain.resolverAmong?]
      · by_cases hmutation : method = "mutation"
        · simp [hmutation, kindOf?, inputOf?, resolverOf?, ProcedureKind.ofTag, Chain.resolverAmong?]
        · simp [hinput, houtput, hquery, hmutation, kindOf?, inputOf?, resolverOf?]

/-- What is read later stands further to the left and counts. -/
theorem Chain.afterCalls_afterCalls
    (c : Chain)
    (left right : List MethodCall) :
    (c.afterCalls right).afterCalls left = c.afterCalls (left ++ right) := by
  simp [Chain.afterCalls, List.findSome?_append, Option.or_assoc, Bool.or_assoc]

/-- What calls of methods on a named builder say. -/
def Chain.ofCalls
    (builder : String)
    (calls : List MethodCall) :
    Chain :=
  (Chain.unknown.afterCalls calls).withBuilder builder

@[simp] theorem Chain.ofCalls_kind
    (builder : String)
    (calls : List MethodCall) :
    (Chain.ofCalls builder calls).kind = calls.findSome? kindOf? :=
  Option.or_none

@[simp] theorem Chain.ofCalls_input
    (builder : String)
    (calls : List MethodCall) :
    (Chain.ofCalls builder calls).input = calls.findSome? inputOf? :=
  Option.or_none

@[simp] theorem Chain.ofCalls_resolver
    (builder : String)
    (calls : List MethodCall) :
    (Chain.ofCalls builder calls).resolver = calls.findSome? resolverOf? :=
  Option.or_none

end Calls

section Reading

/-- The builder in front of a method tells the visibility only if it is a name. -/
theorem Chain.withBase_eq_self
    (c : Chain)
    {base : Node}
    (h : base.unwrap.kind ≠ .identifier) :
    c.withBase base = c := by
  simp [Chain.withBase, h]

theorem Chain.read_of_kind_ne
    (c : Chain)
    {e : Node}
    (h : e.unwrap.kind ≠ .callExpression) :
    c.read e = c := by
  rw [Chain.read]
  simp [h]

/-- A call of a method is read before its receiver. -/
theorem Chain.read_call
    (c : Chain)
    {e f receiver : Node}
    (hcall : e.unwrap.kind = .callExpression)
    (hfunction : (e.unwrap.child? .function).map Node.unwrap = some f)
    (hmember : f.kind = .memberExpression)
    (hreceiver : f.child? .object = some receiver) :
    c.read e =
      ((c.withCall f.propertyText e.unwrap.callArguments).withBase receiver).read receiver := by
  obtain ⟨g, hg, rfl⟩ := Option.map_eq_some_iff.1 hfunction
  rw [Chain.read]
  simp only [hcall, beq_self_eq_true, if_true]
  split
  · simp_all
  · next g' hg' =>
    obtain rfl : g = g' := by simpa [hg] using hg'
    rw [hmember]
    dsimp only
    split
    · next b hb =>
      obtain rfl : receiver = b := by simpa [hreceiver] using hb
      rfl
    · simp_all

/-- What a chain on a named builder says, to the left of what was read before. -/
theorem Chain.read_of_chained
    {base e : Node}
    {calls : List MethodCall}
    (hchain : Chained base e calls)
    (hbase : base.unwrap.kind = .identifier)
    (c : Chain) :
    (c.withBase e).read e = (c.afterCalls calls).withBuilder base.unwrap.text := by
  induction hchain generalizing c with
  | @start e he =>
    rw [Chain.read_of_kind_ne _ (by simp [he, hbase]), Chain.afterCalls_nil]
    simp [Chain.withBase, he, hbase]
  | @call e f receiver calls hcall hfunction hmember hreceiver hchain ih =>
    rw [Chain.withBase_eq_self c (by simp [hcall]),
      Chain.read_call c hcall hfunction hmember hreceiver, ih,
      Chain.withCall_eq_afterCalls c ⟨f.propertyText, e.unwrap.callArguments⟩,
      Chain.afterCalls_afterCalls]

/-- A chain that has a call says what its calls and its builder say. -/
theorem Chain.read_unknown
    {base e : Node}
    {calls : List MethodCall}
    (hchain : Chained base e calls)
    (hbase : base.unwrap.kind = .identifier)
    (hcalls : calls ≠ []) :
    Chain.unknown.read e = Chain.ofCalls base.unwrap.text calls := by
  have hread := Chain.read_of_chained hchain hbase Chain.unknown
  cases hchain with
  | start => exact absurd rfl hcalls
  | call hcall => rwa [Chain.withBase_eq_self _ (by simp [hcall])] at hread

/-- Whether a chain makes a procedure, and of which kind, is told by its calls alone. -/
theorem Chain.read_unknown_kind
    {base e : Node}
    {calls : List MethodCall}
    (hchain : Chained base e calls)
    (hbase : base.unwrap.kind = .identifier) :
    (Chain.unknown.read e).kind = calls.findSome? kindOf? := by
  cases hchain with
  | start he =>
    rw [Chain.read_of_kind_ne _ (by simp [he, hbase])]
    rfl
  | call hcall hfunction hmember hreceiver hchain =>
    have hread := Chain.read_unknown (.call hcall hfunction hmember hreceiver hchain) hbase (by simp)
    rw [hread, Chain.ofCalls_kind]

end Reading

section Procedures

/-- The procedure that calls on a builder describe. -/
def described
    (r : EntryReader)
    (router name : String)
    (line : Nat)
    (file : SourceFile)
    (builder : String)
    (calls : List MethodCall)
    (kind : ProcedureKind)
    (body : Option String) :
    Procedure :=
  let resolver := calls.findSome? resolverOf?
  { router := router
    name := name
    kind := kind
    filePath := r.relative file.path
    line := line
    visibility := (entryOf? builder Chain.visibilities).getD "unknown"
    hasInput := calls.any fun m => m.method = "input"
    hasOutput := calls.any fun m => m.method = "output"
    body := body
    resolverLines := (resolver.map Node.lineCount).getD 0
    usesDatabase := resolver.any fun f => Evidence.database.occursIn (Chain.resolverBody f).text
    handlesErrors := resolver.any fun f => Chain.handlesErrors (Chain.resolverBody f)
    hasSideEffects :=
      resolver.any fun f => Evidence.sideEffects.occursInAnyCase (Chain.resolverBody f).text
    headers := [("Content-Type", "application/json")] }

/-- The chain of a list of calls on a builder describes the procedure of these calls. -/
theorem withResolver_plainProcedure
    (r : EntryReader)
    (router name : String)
    (line : Nat)
    (file : SourceFile)
    (builder : String)
    (calls : List MethodCall)
    (kind : ProcedureKind)
    (body : Option String) :
    Chain.withResolver
        (plainProcedure r router name line file (Chain.ofCalls builder calls) kind body)
        (calls.findSome? resolverOf?) =
      described r router name line file builder calls kind body := by
  cases hresolver : calls.findSome? resolverOf? with
  | none =>
    simp [described, plainProcedure, Chain.withResolver, Chain.ofCalls, Chain.withBuilder,
      Chain.afterCalls, Chain.unknown, Procedure.unknownVisibility, hresolver]
  | some f =>
    simp [described, plainProcedure, Chain.withResolver, Chain.ofCalls, Chain.withBuilder,
      Chain.afterCalls, Chain.unknown, Procedure.unknownVisibility, hresolver]

/-- A procedure is found exactly if some call ends it, and then everything about it is told by the
leftmost calls. The only fault is one of the schema of its input. -/
theorem procedure?_of_chained
    (r : EntryReader)
    (router name : String)
    (line : Nat)
    (file : SourceFile)
    {base e : Node}
    {calls : List MethodCall}
    (hchain : Chained base e calls)
    (hbase : base.unwrap.kind = .identifier) :
    (r.procedure? router name line file e = .ok none ↔
      ∀ m ∈ calls, m.method ≠ "query" ∧ m.method ≠ "mutation") ∧
    ∀ kind, calls.findSome? kindOf? = some kind →
      r.procedure? router name line file e =
        (bodyFrom r.scope file (calls.findSome? inputOf?)).map fun body =>
          some (described r router name line file base.unwrap.text calls kind body) := by
  have hchainKind := Chain.read_unknown_kind hchain hbase
  constructor
  · rw [procedure?_eq_ok_none_iff, hchainKind, List.findSome?_eq_none_iff]
    simp only [kindOf?_eq_none_iff]
  · intro kind hkind
    have hcalls : calls ≠ [] := by
      rintro rfl
      cases hkind
    rw [procedure?_eq, Chain.read_unknown hchain hbase hcalls, Chain.ofCalls_kind, hkind]
    simp only [Chain.ofCalls_input, Chain.ofCalls_resolver, withResolver_plainProcedure]

/-- A reader that looks no names up, for a single file. -/
def lone : EntryReader :=
  ⟨.ofTexts [] "", ⟨none⟩, fun _ => "router.ts"⟩

/-- The builder `(adminProcedure as any)`. -/
def castBuilder : Node :=
  leading .parenthesizedExpression (some .object) "" [
    leading .asExpression none "" [
      leading .identifier none "adminProcedure" [], leading .predefinedType none "any" []]]

/-- The resolver `() => db.save()`. -/
def saving : Node :=
  leading .arrowFunction none "() => db.save()" [
    leading .formalParameters (some .parameters) "()" [],
    leading .callExpression (some .body) "db.save()" []]

/-- The schema `z.object({ n: z.number() })`. -/
def countedObject : Node :=
  let z := leading .identifier (some .object) "z" []
  methodCall none z "object" [
    leading .object none "" [
      leading .pair none "" [
        leading .propertyIdentifier (some .key) "n" [],
        methodCall (some .value) z "number" []]]]

/-- The chain `(adminProcedure as any).input().input(schema).query(find).mutation(() => db.save())`. -/
def twiceEnded : Node :=
  methodCall none
    (methodCall (some .object)
      (methodCall (some .object)
        (methodCall (some .object) castBuilder "input" [])
        "input" [countedObject])
      "query" [leading .identifier none "find" []])
    "mutation" [saving]

/-- The body of the schema. -/
def countedBody : String :=
  "\x7b\n  \"n\": 0\n\x7d"

theorem bodyFrom_countedObject :
    bodyFrom lone.scope bareFile (some countedObject) = .ok (some countedBody) := by
  decide +kernel

theorem procedure?_twiceEnded :
    lone.procedure? "router" "save" 1 bareFile twiceEnded =
      .ok (some {
        router := "router", name := "save", kind := .query, filePath := "router.ts", line := 1,
        visibility := "admin", hasInput := true, hasOutput := false, body := some countedBody,
        resolverLines := 1, usesDatabase := true, handlesErrors := false, hasSideEffects := false,
        headers := [("Content-Type", "application/json")] }) := by
  have hstart : Chained castBuilder castBuilder [] := .start rfl
  have hempty := chained_methodCall rfl hstart (some .object) "input" []
  have hinput := chained_methodCall rfl hempty (some .object) "input" [countedObject]
  have hquery := chained_methodCall rfl hinput (some .object) "query"
    [leading .identifier none "find" []]
  have hchain := chained_methodCall rfl hquery none "mutation" [saving]
  have hresult := (procedure?_of_chained lone "router" "save" 1 bareFile hchain (by decide +kernel)).2
    .query (by decide +kernel)
  refine hresult.trans ?_
  rw [show List.findSome? inputOf? _ = some countedObject from rfl, bodyFrom_countedObject]
  cbv

end Procedures

end RouteAtlas.Procedures
