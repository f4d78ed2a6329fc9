import Mathlib
import RouteAtlas.Proofs.ProcedureChains

/-!
# Procedures inside calls of functions

A procedure may be handed to a function that returns it with something added, as in
`cached(publicProcedure.query(f))`. Such a call is read by reading its parts. These are the name that is
called, the type arguments and the list of arguments, and none of them is a call: the arguments are the
parts of the list, which is not opened. So a call of a name says nothing but what the name itself tells of
the visibility. A procedure inside one or more such calls is therefore not found, whatever the procedure
is and however deep and at which place among the arguments it stands, and an entry with such a value is
left out.
-/

namespace RouteAtlas.Procedures

open Syntax
open Schema (Chained methodCall leading bareFile chained_methodCall)

section Calls

/-- The kinds of the parts that a call has besides what is called. -/
def callParts : List Kind :=
  [.optionalChain, .typeArguments, .arguments, .templateString, .comment]

/-- An expression is a call of a name, casts and parentheses aside. -/
structure CallsName
    (w : Node)
    (name : String) :
    Prop where
  isCall : w.unwrap.kind = .callExpression
  called : ∃ f, w.unwrap.child? .function = some f ∧ f.unwrap.kind = .identifier ∧
    f.unwrap.text = name ∧ ∀ part ∈ w.unwrap.namedChildren, part = f ∨ part.kind ∈ callParts

/-- A call of a name that tells no visibility, with an expression among its arguments. -/
structure Wraps (w inner : Node) : Prop where
  callsName : ∃ name, CallsName w name ∧ entryOf? name Chain.visibilities = none
  isArgument : inner ∈ w.unwrap.callArguments

theorem Wraps.of_unwrap_eq
    {w w' inner : Node}
    (h : Wraps w inner)
    (heq : w'.unwrap = w.unwrap) :
    Wraps w' inner := by
  obtain ⟨name, ⟨hcall, hcalled⟩, htag⟩ := h.callsName
  exact ⟨⟨name, ⟨heq ▸ hcall, heq ▸ hcalled⟩, htag⟩, heq ▸ h.isArgument⟩

/-- An expression is inside a number of calls of names that tell no visibility. Casts and parentheses may
stand around it and around every call. -/
inductive Wrapped (e : Node) : Nat → Node → Prop
  | bare
      {w : Node}
      (hsame : w.unwrap = e.unwrap) :
      Wrapped e 0 w
  | call
      {n : Nat}
      {w inner : Node}
      (hwraps : Wraps w inner)
      (hinner : Wrapped e n inner) :
      Wrapped e (n + 1) w

/-- The outermost call decides how an expression inside of it is read. -/
theorem Wrapped.exists_wraps
    {e w : Node}
    {n : Nat}
    (h : Wrapped e n w)
    (hn : n ≠ 0) :
    ∃ inner, Wraps w inner := by
  cases h with
  | bare => exact absurd rfl hn
  | call hwraps => exact ⟨_, hwraps⟩

end Calls

section Reading

/-- Casts and parentheses around an expression do not change what its chain says. -/
theorem Chain.read_congr
    (c : Chain)
    {e e' : Node}
    (h : e.unwrap = e'.unwrap) :
    c.read e = c.read e' := by
  rw [Chain.read, Chain.read, h]

/-- A part of a call is no call. -/
theorem kind_ne_of_mem_callParts
    {part : Node}
    (h : part.kind ∈ callParts) :
    part.unwrap.kind ≠ .callExpression := by
  have hself : part.unwrap = part := by
    refine Node.unwrap_of_not_isWrapper ?_
    simp only [callParts, List.mem_cons, List.not_mem_nil, or_false] at h
    rcases h with h | h | h | h | h <;> simp [Node.isWrapper, h]
  rw [hself]
  rintro hcall
  simp [callParts, hcall] at h

theorem Chain.readAll_eq_self
    (c : Chain)
    {parts : List Node}
    (h : ∀ part ∈ parts, part.unwrap.kind ≠ .callExpression) :
    c.readAll parts = c := by
  induction parts with
  | nil => rw [Chain.readAll]
  | cons part rest ih =>
    rw [Chain.readAll, Chain.read_of_kind_ne c (h part (List.mem_cons_self ..))]
    exact ih fun p hp => h p (List.mem_cons_of_mem _ hp)

/-- A call of a name says what the name tells of the visibility; the arguments are not read. -/
theorem Chain.read_of_callsName
    (c : Chain)
    {w : Node}
    {name : String}
    (h : CallsName w name) :
    c.read w = c.withBuilder name := by
  obtain ⟨f, hf, hname, rfl, hparts⟩ := h.called
  have hnone : ∀ part ∈ w.unwrap.namedChildren, part.unwrap.kind ≠ .callExpression := by
    intro part hpart
    rcases hparts part hpart with rfl | hkind
    · simp [hname]
    · exact kind_ne_of_mem_callParts hkind
  rw [Chain.read]
  simp only [h.isCall, beq_self_eq_true, if_true]
  split
  · simp_all
  · next g hg =>
    obtain rfl : f = g := by simpa [hf] using hg
    rw [hname]
    exact Chain.readAll_eq_self _ hnone

theorem Chain.withBuilder_eq_self
    (c : Chain)
    {name : String}
    (h : entryOf? name Chain.visibilities = none) :
    c.withBuilder name = c := by
  simp [Chain.withBuilder, h]

theorem Chain.read_of_wraps
    (c : Chain)
    {w inner : Node}
    (h : Wraps w inner) :
    c.read w = c := by
  obtain ⟨name, hcalls, htag⟩ := h.callsName
  rw [Chain.read_of_callsName c hcalls, Chain.withBuilder_eq_self c htag]

end Reading

section Procedures

theorem isName_of_wraps
    {w inner : Node}
    (h : Wraps w inner) :
    EntryReader.isName w = false := by
  obtain ⟨name, hcalls, -⟩ := h.callsName
  simp [EntryReader.isName, hcalls.isCall]

theorem procedure?_congr
    (r : EntryReader)
    (router name : String)
    (line : Nat)
    (file : SourceFile)
    {e e' : Node}
    (h : e.unwrap = e'.unwrap) :
    r.procedure? router name line file e = r.procedure? router name line file e' := by
  rw [procedure?_eq, procedure?_eq, Chain.read_congr _ h]

/-- A procedure is found in an expression exactly if no call stands around it. With a call around it
nothing is found, and an entry with such a value is no procedure unless it is taken for a router. -/
theorem procedure?_of_wrapped
    (r : EntryReader)
    (router name : String)
    (line : Nat)
    (file : SourceFile)
    {e w : Node}
    {n : Nat}
    {q : Procedure}
    (h : Wrapped e n w)
    (he : r.procedure? router name line file e = .ok (some q)) :
    (r.procedure? router name line file w = .ok (some q) ↔ n = 0) ∧
    (n ≠ 0 →
      (∀ name line, r.procedure? router name line file w = .ok none) ∧
      ∀ p : Node.Property, p.value = w → r.recognition.isReference w = false →
        r.entry router file p = .ok (.other p.name)) := by
  have hlost : n ≠ 0 → ∀ name line, r.procedure? router name line file w = .ok none := by
    intro hn name line
    obtain ⟨inner, hwraps⟩ := h.exists_wraps hn
    rw [procedure?_eq_ok_none_iff, Chain.read_of_wraps _ hwraps]
    rfl
  refine ⟨⟨fun hw => ?_, ?_⟩, fun hn => ⟨hlost hn, ?_⟩⟩
  · by_contra hn
    rw [hlost hn name line] at hw
    cases hw
  · rintro rfl
    cases h with
    | bare hsame => rw [procedure?_congr r router name line file hsame, he]
  · rintro p rfl hreference
    obtain ⟨inner, hwraps⟩ := h.exists_wraps hn
    simp only [EntryReader.entry, hreference, isName_of_wraps hwraps, Bool.false_eq_true, if_false,
      EntryReader.ofExpression, hlost hn]
    rfl

/-- A call of a name that stands at the start of its source. -/
def nameCall
    (role : Option Role)
    (name : String)
    (args : List Node) :
    Node :=
  leading .callExpression role "" [
    leading .identifier (some .function) name [], leading .arguments (some .arguments) "" args]

theorem wraps_nameCall
    {role : Option Role}
    {name : String}
    {args : List Node}
    {inner : Node}
    (htag : entryOf? name Chain.visibilities = none)
    (hinner : inner ∈ (nameCall role name args).callArguments) :
    Wraps (nameCall role name args) inner := by
  have hself : (nameCall role name args).unwrap = nameCall role name args :=
    Node.unwrap_of_not_isWrapper rfl
  let f := leading .identifier (some .function) name []
  have hname : f.unwrap = f := Node.unwrap_of_not_isWrapper rfl
  refine ⟨⟨name, ?_, htag⟩, hself.symm ▸ hinner⟩
  refine ⟨hself.symm ▸ rfl, f, hself.symm ▸ rfl, hname.symm ▸ rfl, hname.symm ▸ rfl, ?_⟩
  rw [hself]
  intro part hpart
  rcases List.mem_cons.1 (List.mem_of_mem_filter hpart) with rfl | hpart
  · exact .inl rfl
  · obtain rfl := List.mem_singleton.1 hpart
    exact .inr (by simp [callParts, leading, Node.kind])

/-- The builder `publicProcedure`. -/
def publicBuilder : Node :=
  leading .identifier (some .object) "publicProcedure" []

/-- The chain `publicProcedure.query(find)`. -/
def listing : Node :=
  methodCall none publicBuilder "query" [leading .identifier none "find" []]

/-- The call `logged(1, (cached(publicProcedure.query(find)) as any))`. -/
def loggedListing : Node :=
  nameCall none "logged" [
    leading .number none "1" [],
    leading .parenthesizedExpression none "" [
      leading .asExpression none "" [
        nameCall none "cached" [listing], leading .predefinedType none "any" []]]]

/-- The procedure of the chain, as an entry of the first line. -/
def listed : Procedure where
  router := "router"
  name := "list"
  kind := .query
  filePath := "router.ts"
  line := 1
  visibility := "public"
  hasInput := false
  hasOutput := false
  body := none
  resolverLines := 0
  usesDatabase := false
  handlesErrors := false
  hasSideEffects := false
  headers := [("Content-Type", "application/json")]

theorem procedure?_listing :
    lone.procedure? "router" "list" 1 bareFile listing = .ok (some listed) := by
  have hstart : Chained publicBuilder publicBuilder [] := .start rfl
  have hchain := chained_methodCall rfl hstart none "query" [leading .identifier none "find" []]
  rw [procedure?_eq, listing, Chain.read_unknown hchain (by decide +kernel) (by simp)]
  cbv

theorem wraps_cachedListing : Wraps (nameCall none "cached" [listing]) listing :=
  wraps_nameCall (by decide +kernel) (List.mem_singleton.2 rfl)

theorem wrapped_loggedListing : Wrapped listing 2 loggedListing := by
  have hlogged : ∃ inner, Wraps loggedListing inner ∧
      inner.unwrap = (nameCall none "cached" [listing]).unwrap :=
    ⟨_, wraps_nameCall (by decide +kernel) (List.mem_cons_of_mem _ (List.mem_singleton.2 rfl)), by cbv⟩
  obtain ⟨inner, hwraps, hsame⟩ := hlogged
  exact .call hwraps (.call (wraps_cachedListing.of_unwrap_eq hsame) (.bare rfl))

theorem procedure?_loggedListing :
    lone.procedure? "router" "list" 1 bareFile loggedListing = .ok none ∧
    lone.entry "router" bareFile ⟨"list", loggedListing, loggedListing⟩ = .ok (.other "list") := by
  have h := (procedure?_of_wrapped lone "router" "list" 1 bareFile wrapped_loggedListing
    procedure?_listing).2 (by decide)
  exact ⟨h.1 "list" 1, h.2 ⟨"list", loggedListing, loggedListing⟩ rfl (by decide +kernel)⟩

/-- A procedure is lost by a single call around it. -/
theorem procedure?_wrapped_ne :
    Wrapped listing 1 (nameCall none "cached" [listing]) ∧
    lone.procedure? "router" "list" 1 bareFile listing = .ok (some listed) ∧
    lone.procedure? "router" "list" 1 bareFile (nameCall none "cached" [listing]) = .ok none := by
  refine ⟨.call wraps_cachedListing (.bare rfl), procedure?_listing, ?_⟩
  rw [procedure?_eq_ok_none_iff, Chain.read_of_wraps _ wraps_cachedListing]
  rfl

end Procedures

end RouteAtlas.Procedures
