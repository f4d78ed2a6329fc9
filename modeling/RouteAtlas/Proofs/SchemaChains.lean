import Mathlib
import RouteAtlas.Proofs.LostComments
import RouteAtlas.Schema.Interpret

/-!
# Chains of methods on a schema

A schema is often written as some other schema followed by calls of methods. As long as no call makes
a list of the schema and none reshapes an object, all that a chain can do is to set flags and defaults.
The schema at its end is the one at its start with these flags added and with the outermost static
default in place of its own, so the order of the calls shows in the default only.

The example of such a chain follows. The chain is as deep as it is long: its start is read with one
level less for each call, and `NestsWithin` says that the start has levels enough.
-/

namespace RouteAtlas.Schema

open Syntax Project

section Calls

/-- A call of a method in a chain. -/
structure MethodCall where
  method : String
  args : List Node

/-- An expression is a start followed by calls of methods, the innermost call first. Casts and
parentheses may stand around every part of the chain. -/
inductive Chained (base : Node) : Node → List MethodCall → Prop
  | start
      {e : Node}
      (hbase : e.unwrap = base.unwrap) :
      Chained base e []
  | call
      {e f receiver : Node}
      {calls : List MethodCall}
      (hcall : e.unwrap.kind = .callExpression)
      (hfunction : (e.unwrap.child? .function).map Node.unwrap = some f)
      (hmember : f.kind = .memberExpression)
      (hreceiver : f.child? .object = some receiver)
      (hchain : Chained base receiver calls) :
      Chained base e (calls ++ [⟨f.propertyText, e.unwrap.callArguments⟩])

namespace MethodCall

/-- The methods that change the shape of an object. -/
def shapeMethods : List String :=
  ["partial", "required", "extend", "merge", "pick", "omit"]

/-- A modifier or a refinement: the call neither makes a list nor reshapes an object. -/
def KeepsShape
    (kind : SchemaKind)
    (c : MethodCall) :
    Prop :=
  c.method ∈ modifiers ∨
    (c.method ≠ "array" ∧ (kind = .object → c.method ∉ shapeMethods))

/-- The default that a call sets, if its argument is static. -/
def staticDefault? (c : MethodCall) : Option Value :=
  if c.method = "default" then c.args.head?.bind Node.staticValue? else none

/-- Whether null is accepted after a call. -/
def acceptsNull (c : MethodCall) : Bool :=
  c.method = "nullable" || c.method = "nullish"

/-- Whether the value may be missing after a call. -/
def acceptsAbsence (c : MethodCall) : Bool :=
  c.method = "optional" || c.method = "nullish"

/-- The schema after a call that keeps its shape. -/
def after
    (c : MethodCall)
    (s : Schema) :
    Schema :=
  { s with
    default := c.staticDefault?.or s.default
    nullable := s.nullable || c.acceptsNull
    optional := s.optional || c.acceptsAbsence }

theorem modified_eq_after
    {c : MethodCall}
    (s : Schema)
    (h : c.method ∈ modifiers) :
    modified s c.method c.args = c.after s := by
  obtain ⟨method, args⟩ := c
  simp only [modifiers, List.mem_cons, List.not_mem_nil, or_false] at h
  rcases h with rfl | rfl | rfl | rfl
  · simp [modified, after, staticDefault?, acceptsNull, acceptsAbsence]
  · simp [modified, after, staticDefault?, acceptsNull, acceptsAbsence]
  · simp [modified, after, staticDefault?, acceptsNull, acceptsAbsence]
  · cases hv : args.head?.bind Node.staticValue? with
    | none =>
      simp only [modified, after, staticDefault?, acceptsNull, acceptsAbsence, hv]
      cases s
      simp
    | some v => simp [modified, after, staticDefault?, acceptsNull, acceptsAbsence, hv]

theorem after_eq_self
    {c : MethodCall}
    (s : Schema)
    (h : c.method ∉ modifiers) :
    c.after s = s := by
  simp only [modifiers, List.mem_cons, List.not_mem_nil, or_false, not_or] at h
  cases s
  simp [after, staticDefault?, acceptsNull, acceptsAbsence, h]

/-- An object keeps its shape under every method that is not made to change it. -/
theorem reshaped_eq_self
    {read : Reading}
    {file : SourceFile}
    {open_ : List (Files.Path × String)}
    {c : MethodCall}
    (s : Schema)
    (h : c.method ∉ shapeMethods) :
    reshaped read file open_ s c.method c.args = .ok s := by
  simp only [shapeMethods, List.mem_cons, List.not_mem_nil, or_false, not_or] at h
  unfold reshaped
  split <;> simp_all

/-- What a method that keeps the shape does to a schema. -/
theorem applied_eq_after
    {read : Reading}
    {file : SourceFile}
    {open_ : List (Files.Path × String)}
    {c : MethodCall}
    (s : Schema)
    (h : c.KeepsShape s.kind) :
    applied read file open_ s c.method c.args = .ok (c.after s) := by
  unfold applied
  by_cases hmodifier : c.method ∈ modifiers
  · simp [hmodifier, modified_eq_after s hmodifier]
  · obtain ⟨harray, hshape⟩ := h.resolve_left hmodifier
    rw [after_eq_self s hmodifier]
    by_cases hobject : s.kind = .object
    · simp [hmodifier, harray, hobject, reshaped_eq_self s (hshape hobject)]
    · simp [hmodifier, harray, hobject]

end MethodCall

/-- The outermost static default that calls set. -/
def outermostDefault? (calls : List MethodCall) : Option Value :=
  calls.reverse.findSome? MethodCall.staticDefault?

/-- The schema after calls that keep its shape. -/
def afterAll
    (calls : List MethodCall)
    (s : Schema) :
    Schema :=
  { s with
    default := (outermostDefault? calls).or s.default
    nullable := s.nullable || calls.any MethodCall.acceptsNull
    optional := s.optional || calls.any MethodCall.acceptsAbsence }

theorem afterAll_nil (s : Schema) : afterAll [] s = s := by
  cases s
  simp [afterAll, outermostDefault?]

theorem afterAll_append_singleton
    (calls : List MethodCall)
    (c : MethodCall)
    (s : Schema) :
    afterAll (calls ++ [c]) s = c.after (afterAll calls s) := by
  have hdefault : outermostDefault? (calls ++ [c]) =
      c.staticDefault?.or (outermostDefault? calls) := by
    cases hc : c.staticDefault? <;> simp [outermostDefault?, hc]
  simp [afterAll, MethodCall.after, hdefault, Option.or_assoc, Bool.or_assoc]

end Calls

section Reading

/-- Casts and parentheses around an expression do not change its schema. -/
theorem readUpTo_congr
    (scope : Scope)
    {e e' : Node}
    (h : e.unwrap = e'.unwrap)
    (levels : Nat)
    (file : SourceFile)
    (open_ : List (Files.Path × String)) :
    readUpTo scope levels (some e) file open_ = readUpTo scope levels (some e') file open_ := by
  cases levels with
  | zero => rfl
  | succ levels => simp only [readUpTo, Option.map_some, h]

/-- Only a name or a member access can be the library. -/
theorem isLibrary_of_call
    {file : SourceFile}
    {e : Node}
    (h : e.kind = .callExpression) :
    isLibrary file e = false := by
  simp [isLibrary, h]

theorem Chained.isLibrary_eq_false
    {file : SourceFile}
    {base e : Node}
    {calls : List MethodCall}
    (h : Chained base e calls)
    (hbase : isLibrary file base.unwrap = false) :
    isLibrary file e.unwrap = false := by
  cases h with
  | start he => rw [he, hbase]
  | call hcall => exact isLibrary_of_call hcall

/-- A call on an expression that is not the library applies its method to the schema of that
expression, which is read with one level less. -/
theorem readUpTo_call
    {scope : Scope}
    {file : SourceFile}
    {e f receiver : Node}
    {levels : Nat}
    {open_ : List (Files.Path × String)}
    (hcall : e.unwrap.kind = .callExpression)
    (hfunction : (e.unwrap.child? .function).map Node.unwrap = some f)
    (hmember : f.kind = .memberExpression)
    (hreceiver : f.child? .object = some receiver)
    (hlibrary : isLibrary file receiver.unwrap = false) :
    readUpTo scope (levels + 1) (some e) file open_ =
      (readUpTo scope levels (some receiver) file open_).bind fun s =>
        applied (readUpTo scope levels) file open_ s f.propertyText e.unwrap.callArguments := by
  have hunwrap := readUpTo_congr scope (Node.unwrap_unwrap receiver) levels file open_
  simp only [readUpTo, Option.map_some, hcall, called, hfunction, hmember, hreceiver, beq_self_eq_true,
    if_true, hlibrary, Option.getD_some, Bool.false_eq_true, if_false, hunwrap]
  rfl

/-- The schema of a chain is that of its start with the flags and defaults of its calls. -/
theorem readUpTo_chain
    (scope : Scope)
    {file : SourceFile}
    {base e : Node}
    {calls : List MethodCall}
    (hchain : Chained base e calls)
    (hbase : isLibrary file base.unwrap = false)
    (levels : Nat)
    (hkeep : ∀ s, readUpTo scope levels (some base) file [] = .ok s →
      ∀ c ∈ calls, c.KeepsShape s.kind) :
    readUpTo scope (levels + calls.length) (some e) file [] =
      (readUpTo scope levels (some base) file []).map (afterAll calls) := by
  induction hchain with
  | start he =>
    rw [readUpTo_congr scope he]
    cases readUpTo scope levels (some base) file [] with
    | error fault => rfl
    | ok s => simp [Except.map, afterAll_nil]
  | @call e f receiver calls hcall hfunction hmember hreceiver hchain ih =>
    have hlibrary := hchain.isLibrary_eq_false hbase
    have hkeep' : ∀ s, readUpTo scope levels (some base) file [] = .ok s →
        ∀ c ∈ calls, c.KeepsShape s.kind :=
      fun s hs c hc => hkeep s hs c (List.mem_append_left _ hc)
    rw [List.length_append, List.length_singleton, ← Nat.add_assoc,
      readUpTo_call hcall hfunction hmember hreceiver hlibrary, ih hkeep']
    cases hs : readUpTo scope levels (some base) file [] with
    | error fault => rfl
    | ok s =>
      have hlast := hkeep s hs ⟨f.propertyText, e.unwrap.callArguments⟩ (by simp)
      change applied _ file [] (afterAll calls s) f.propertyText e.unwrap.callArguments =
        .ok (afterAll (calls ++ [_]) s)
      rw [afterAll_append_singleton]
      exact MethodCall.applied_eq_after (afterAll calls s) hlast

end Reading

section Examples

/-- The value that stands for a schema by its kind alone. -/
def placeholder (s : Schema) : Value :=
  match s.kind with
  | .string => .str ""
  | .number => .int 0
  | .boolean => .bool false
  | .array => .list (s.items.bind example?).toList
  | .object => .map ((s.children.getD []).filterMap fun c => c.2.example?.map fun v => (c.1, v))
  | .enum => s.options.headD .null
  | .literal => s.literal
  | .other _ => .null

/-- The example after calls on a schema: the outermost static default, else the default of the schema,
else null where it is accepted, else nothing where the value may be missing, else the placeholder. -/
def exampleAfter
    (calls : List MethodCall)
    (s : Schema) :
    Option Value :=
  match outermostDefault? calls, s.default with
  | some v, _ => some v
  | none, some v => some v
  | none, none =>
    if (∃ c ∈ calls, c.method = "nullable" ∨ c.method = "nullish") ∨ s.nullable then some .null
    else if (∃ c ∈ calls, c.method = "optional" ∨ c.method = "nullish") ∨ s.optional then none
    else some s.placeholder

theorem exampleEntries_eq (children : List (String × Schema)) :
    exampleEntries children =
      children.filterMap fun c => c.2.example?.map fun v => (c.1, v) := by
  induction children with
  | nil => simp [exampleEntries]
  | cons c rest ih =>
    obtain ⟨k, s⟩ := c
    cases hs : s.example? with
    | none => simp [exampleEntries, hs, ih]
    | some v => simp [exampleEntries, hs, ih]

theorem example?_eq (s : Schema) :
    s.example? =
      match s.default with
      | some v => some v
      | none =>
        if s.nullable then some .null else if s.optional then none else some s.placeholder := by
  obtain ⟨kind, optional, nullable, default, literal, options, children, items, reason⟩ := s
  cases default with
  | some v => simp [example?, exampleWith]
  | none =>
    have hitems : exampleOfItems items = items.bind example? := by
      cases items <;> simp [exampleOfItems]
    have hchildren : exampleOfChildren children = exampleEntries (children.getD []) := by
      cases children <;> simp [exampleOfChildren, exampleEntries]
    cases kind <;> simp [example?, exampleWith, placeholder, hitems, hchildren, exampleEntries_eq]

theorem example?_afterAll
    (calls : List MethodCall)
    (s : Schema) :
    (afterAll calls s).example? = exampleAfter calls s := by
  have hplaceholder : (afterAll calls s).placeholder = s.placeholder := rfl
  rw [example?_eq, hplaceholder]
  unfold exampleAfter
  cases houter : outermostDefault? calls with
  | some v => simp [afterAll, houter]
  | none =>
    cases hown : s.default with
    | some v => simp [afterAll, houter, hown]
    | none =>
      simp [afterAll, houter, hown, MethodCall.acceptsNull, MethodCall.acceptsAbsence, or_comm]

/-- An expression is nested no deeper than a number of levels: with more levels it reads the same. -/
def NestsWithin
    (scope : Scope)
    (file : SourceFile)
    (e : Node)
    (levels : Nat) :
    Prop :=
  ∀ more, readUpTo scope (levels + more) (some e) file [] = readUpTo scope levels (some e) file []

/-- The example of a chain of modifiers and refinements, by the schema at its start alone. The two
sides fail together when the start cannot be read. -/
theorem example?_of_chained
    (scope : Scope)
    (file : SourceFile)
    (base e : Node)
    (calls : List MethodCall)
    (hchain : Chained base e calls)
    (hbase : isLibrary file base.unwrap = false)
    (hlength : calls.length < maxNesting)
    (hnest : NestsWithin scope file base (maxNesting - calls.length))
    (hkeep : ∀ s, ofExpression scope file (some base) = .ok s →
      ∀ c ∈ calls, c.KeepsShape s.kind) :
    (ofExpression scope file (some e)).map example? =
      (ofExpression scope file (some base)).map (exampleAfter calls) := by
  have hlevels : maxNesting - calls.length + calls.length = maxNesting := by omega
  have hstart : readUpTo scope (maxNesting - calls.length) (some base) file [] =
      ofExpression scope file (some base) := by
    rw [← hnest calls.length, hlevels]
    rfl
  have hread := readUpTo_chain scope hchain hbase (maxNesting - calls.length)
    (by rwa [hstart])
  rw [hlevels, hstart] at hread
  have hend : ofExpression scope file (some e) =
      (ofExpression scope file (some base)).map (afterAll calls) := hread
  rw [hend]
  cases ofExpression scope file (some base) with
  | error fault => rfl
  | ok s => exact congrArg Except.ok (example?_afterAll calls s)

/-- A node that stands at the start of its source. -/
def leading
    (kind : Kind)
    (role : Option Role)
    (text : String)
    (children : List Node) :
    Node :=
  .mk kind role ⟨0, 0, 1, 1⟩ text children

/-- A call of a method of a receiver. -/
def methodCall
    (role : Option Role)
    (receiver : Node)
    (method : String)
    (args : List Node) :
    Node :=
  leading .callExpression role "" [
    leading .memberExpression (some .function) "" [
      receiver, leading .propertyIdentifier (some .property) method []],
    leading .arguments (some .arguments) "" args]

/-- The call `z.number()`. -/
def numberCall : Node :=
  methodCall (some .object) (leading .identifier (some .object) "z" []) "number" []

/-- The call `z.number().default(7).nullable()`. -/
def nullableSeven : Node :=
  methodCall none
    (methodCall (some .object) numberCall "default" [leading .number none "7" []]) "nullable" []

/-- A file in which nothing is declared. -/
def bareFile : SourceFile :=
  ⟨⟨true, ["schema.ts"]⟩, "", leading .program none "" []⟩

theorem chained_methodCall
    {base receiver : Node}
    {calls : List MethodCall}
    (hobject : receiver.role = some .object)
    (hchain : Chained base receiver calls)
    (role : Option Role)
    (method : String)
    (args : List Node) :
    Chained base (methodCall role receiver method args)
      (calls ++ [⟨method, (methodCall role receiver method args).callArguments⟩]) := by
  let function := leading .memberExpression (some .function) "" [
    receiver, leading .propertyIdentifier (some .property) method []]
  have hcall : (methodCall role receiver method args).unwrap =
      methodCall role receiver method args := Node.unwrap_of_not_isWrapper rfl
  have hproperty : function.propertyText = method := by
    simp only [function, Node.propertyText, Node.child?, leading, Node.children]
    rw [List.find?_cons_of_neg (by simp [hobject])]
    rfl
  have hmember := Chained.call (e := methodCall role receiver method args) (f := function)
    (by rw [hcall]; rfl)
    (by rw [hcall]; exact congrArg some (Node.unwrap_of_not_isWrapper rfl))
    rfl
    (by simp [function, Node.child?, leading, Node.children, hobject])
    hchain
  rwa [hcall, hproperty] at hmember

theorem readUpTo_numberCall
    (scope : Scope)
    (levels : Nat) :
    readUpTo scope (levels + 1) (some numberCall) bareFile [] = .ok (ofKind .number) := by
  cbv

theorem example?_nullableSeven :
    (ofExpression ⟨none⟩ bareFile (some nullableSeven)).map example? = .ok (some (.int 7)) := by
  have hstart : Chained numberCall numberCall [] := .start rfl
  have hdefault := chained_methodCall rfl hstart (some .object) "default"
    [leading .number none "7" []]
  have hchain := chained_methodCall rfl hdefault none "nullable" []
  have hnest : NestsWithin ⟨none⟩ bareFile numberCall 15 := by
    intro more
    rw [Nat.add_comm 15 more]
    exact (readUpTo_numberCall _ (more + 14)).trans (readUpTo_numberCall _ 14).symm
  have hexample := example?_of_chained ⟨none⟩ bareFile numberCall nullableSeven _ hchain
    (by cbv) (by decide) hnest (by simp [MethodCall.KeepsShape, modifiers])
  have hread : ofExpression ⟨none⟩ bareFile (some numberCall) = .ok (ofKind .number) :=
    readUpTo_numberCall _ 16
  rw [hexample, hread]
  cbv

end Examples

end RouteAtlas.Schema
