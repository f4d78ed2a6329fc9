import Mathlib
import RouteAtlas.Proofs.Entries
import RouteAtlas.Proofs.InheritedFields
import RouteAtlas.Proofs.SettledHandlers

/-!
# Inferred content types

A handler that answers in JSON, or that answers a request with a body, is given a content type where it
sets none itself. The name of a header may be written in any letter case, so one that is set in another
case must keep the inferred one away as well.

For the methods of a controller it does: whatever its decorators set, a content type is inferred only if
no header is a content type. The text of a file route is asked for a header `Content-Type` in exactly this
spelling. There the inferred content type comes to stand beside one that is set exactly if the handler
answers in JSON and sets the content type in other spellings only.
-/

namespace RouteAtlas

open Syntax
open Project (Scope)
open Extraction

section Headers

/-- A header of this name says what the content of an answer is; the letter case does not matter. -/
def IsContentType (name : String) : Prop :=
  Text.lower name = "content-type"

instance (name : String) : Decidable (IsContentType name) :=
  inferInstanceAs (Decidable (_ = _))

/-- To headers that are set at most the content type of JSON is added, and it is added only if no content
type is set. -/
def AddsOnlyMissing (set answer : List (String × String)) : Prop :=
  answer = set ∨
    (answer = set ++ [("Content-Type", "application/json")] ∧ ∀ e ∈ set, ¬ IsContentType e.1)

theorem Route.filled?_eq_some_iff
    (s : Option String)
    (t : String) :
    Route.filled? s = some t ↔ s = some t ∧ t ≠ "" := by
  simp [Route.filled?, Option.filter_eq_some_iff]

end Headers

namespace FileRoutes.Evidence

section Texts

/-- A handler sets a header: in a block of headers, on its answer, or on the headers of its answer. -/
inductive Sets (text name : String) : Prop
  | inBlock
      {block entry : Text.Pattern.Match}
      (hblock : block ∈ headerBlock.allIn text)
      (hentry : entry ∈ headerEntry.allIn (block.group 1))
      (hname : entry.group 1 = name) :
      Sets text name
  | onAnswer
      {call : Text.Pattern.Match}
      (hcall : call ∈ (callOfTwo "res.setHeader(").allIn text)
      (hname : call.group 1 = name) :
      Sets text name
  | onHeaders
      {call : Text.Pattern.Match}
      (hcall : call ∈ (callOfTwo "headers().set(").allIn text)
      (hname : call.group 1 = name) :
      Sets text name

/-- The pairs of a name and a value that the text of a handler sets as headers. -/
def setPairs (text : String) : List (String × String) :=
  ((headerBlock.allIn text).flatMap fun m => pairsOf headerEntry (m.group 1)) ++
    pairsOf (callOfTwo "res.setHeader(") text ++ pairsOf (callOfTwo "headers().set(") text

/-- The headers that the text of a handler sets; of several values for a name the last counts. -/
def setHeaders (text : String) : List (String × String) :=
  ofPairs (setPairs text)

theorem exists_mem_pairsOf_iff
    (p : Text.Pattern)
    (text name : String) :
    (∃ value, (name, value) ∈ pairsOf p text) ↔ ∃ m ∈ p.allIn text, m.group 1 = name := by
  simp [pairsOf]

/-- A header that is set is one of the headers. -/
theorem mem_keys_setHeaders_iff (text name : String) :
    name ∈ (setHeaders text).map Prod.fst ↔ Sets text name := by
  have hblock : (∃ value, (name, value) ∈
      (headerBlock.allIn text).flatMap fun m => pairsOf headerEntry (m.group 1)) ↔
      ∃ block ∈ headerBlock.allIn text,
        ∃ entry ∈ headerEntry.allIn (block.group 1), entry.group 1 = name := by
    simp only [List.mem_flatMap, ← exists_mem_pairsOf_iff]
    constructor
    · rintro ⟨value, block, hblock, h⟩
      exact ⟨block, hblock, value, h⟩
    · rintro ⟨block, hblock, value, h⟩
      exact ⟨value, block, hblock, h⟩
  simp only [setHeaders, mem_keys_ofPairs_iff, setPairs, List.mem_append, exists_or, hblock,
    exists_mem_pairsOf_iff]
  constructor
  · rintro ((⟨block, hblock, entry, hentry, hname⟩ | ⟨call, hcall, hname⟩) | ⟨call, hcall, hname⟩)
    · exact .inBlock hblock hentry hname
    · exact .onAnswer hcall hname
    · exact .onHeaders hcall hname
  · rintro (⟨hblock, hentry, hname⟩ | ⟨hcall, hname⟩ | ⟨hcall, hname⟩)
    · exact .inl (.inl ⟨_, hblock, _, hentry, hname⟩)
    · exact .inl (.inr ⟨_, hcall, hname⟩)
    · exact .inr ⟨_, hcall, hname⟩

instance (text name : String) : Decidable (Sets text name) :=
  decidable_of_iff _ (mem_keys_setHeaders_iff text name)

/-- A content type is inferred for an answer in JSON if none is set in the usual spelling. -/
theorem headers_eq (text : String) :
    headers text =
      if jsonAnswer.occursIn text = true ∧ ¬ Sets text "Content-Type" then
        setHeaders text ++ [("Content-Type", "application/json")]
      else setHeaders text := by
  have hkey : (entryOf? "Content-Type" (setHeaders text)).isNone = true ↔
      ¬ Sets text "Content-Type" := by
    rw [Option.isNone_iff_eq_none, entryOf?_eq_none_iff, mem_keys_setHeaders_iff]
  have hunfold : headers text =
      if (entryOf? "Content-Type" (setHeaders text)).isNone && jsonAnswer.occursIn text then
        setHeaders text ++ [("Content-Type", "application/json")]
      else setHeaders text := rfl
  rw [hunfold]
  simp only [Bool.and_eq_true, hkey, and_comm]

/-- The content types that a handler sets are those among its headers. -/
theorem exists_sets_iff (text : String) :
    (∃ name, Sets text name ∧ IsContentType name) ↔ ∃ e ∈ setHeaders text, IsContentType e.1 := by
  simp only [← mem_keys_setHeaders_iff, List.mem_map]
  constructor
  · rintro ⟨name, ⟨e, he, rfl⟩, hname⟩
    exact ⟨e, he, hname⟩
  · rintro ⟨e, he, hname⟩
    exact ⟨e.1, ⟨e, he, rfl⟩, hname⟩

theorem addsOnlyMissing_headers_iff (text : String) :
    AddsOnlyMissing (setHeaders text) (headers text) ↔
      (jsonAnswer.occursIn text = true → (∃ name, Sets text name ∧ IsContentType name) →
        Sets text "Content-Type") := by
  rw [headers_eq, exists_sets_iff]
  by_cases hadded : jsonAnswer.occursIn text = true ∧ ¬ Sets text "Content-Type"
  · rw [if_pos hadded]
    simp [AddsOnlyMissing, hadded.1, hadded.2]
  · rw [if_neg hadded]
    refine iff_of_true (.inl rfl) fun hjson _ => ?_
    by_contra hsets
    exact hadded ⟨hjson, hsets⟩

end Texts

end FileRoutes.Evidence

namespace Controllers

section Decorators

variable {scope : Scope} {file : SourceFile}

/-- A decorator sets a header: its first two arguments stand for texts that are not empty. -/
structure SetsHeader
    (scope : Scope)
    (file : SourceFile)
    (decorator : Node)
    (name value : String) :
    Prop where
  decoratorName_eq : decorator.decoratorName? = some "Header"
  name_given : textArgument scope file decorator 0 = .ok (some name)
  value_given : textArgument scope file decorator 1 = .ok (some value)
  name_ne_empty : name ≠ ""
  value_ne_empty : value ≠ ""

/-- The header that a decorator of two arguments sets, if it sets one. -/
def headerOf?
    (scope : Scope)
    (file : SourceFile)
    (decorator : Node) :
    Except Fault (Option (String × String)) := do
  let name ← textArgument scope file decorator 0
  let value ← textArgument scope file decorator 1
  return (Route.filled? name).bind fun n => (Route.filled? value).map fun v => (n, v)

theorem headerOf?_eq_ok_some_iff
    (decorator : Node)
    (name value : String) :
    headerOf? scope file decorator = .ok (some (name, value)) ↔
      textArgument scope file decorator 0 = .ok (some name) ∧ name ≠ "" ∧
        textArgument scope file decorator 1 = .ok (some value) ∧ value ≠ "" := by
  constructor
  · intro h
    obtain ⟨first, hfirst, h⟩ := exists_of_bind_eq_ok h
    obtain ⟨second, hsecond, h⟩ := exists_of_bind_eq_ok h
    obtain ⟨n, hn, h⟩ := Option.bind_eq_some_iff.1 (Except.ok.inj h)
    obtain ⟨v, hv, h⟩ := Option.map_eq_some_iff.1 h
    cases h
    obtain ⟨rfl, hname⟩ := (Route.filled?_eq_some_iff _ _).1 hn
    obtain ⟨rfl, hvalue⟩ := (Route.filled?_eq_some_iff _ _).1 hv
    exact ⟨hfirst, hname, hsecond, hvalue⟩
  · rintro ⟨hfirst, hname, hsecond, hvalue⟩
    have hn := (Route.filled?_eq_some_iff (some name) name).2 ⟨rfl, hname⟩
    have hv := (Route.filled?_eq_some_iff (some value) value).2 ⟨rfl, hvalue⟩
    simp only [headerOf?, hfirst, hsecond, hn, hv, bind, Except.bind, Option.bind_some, Option.map_some,
      pure, Except.pure]

/-- A header that some decorator sets is one of the headers. -/
theorem mem_keys_headersOf_iff
    {decorators : List Node}
    {given : List (String × String)}
    (h : headersOf scope file decorators = .ok given)
    (name : String) :
    name ∈ given.map Prod.fst ↔ ∃ d ∈ decorators, ∃ value, SetsHeader scope file d name value := by
  obtain ⟨found, hfound, h⟩ := exists_of_bind_eq_ok h
  obtain rfl := Except.ok.inj h
  have hall : List.Forall₂ (fun d header => headerOf? scope file d = .ok header)
      (decorators.filter fun d => d.decoratorName? = some "Header" && 1 < d.decoratorArguments.length)
      found :=
    mapM_eq_ok_iff_forall₂.1 hfound
  rw [mem_keys_ofPairs_iff]
  constructor
  · rintro ⟨value, hvalue⟩
    obtain ⟨header, hheader, hsome⟩ := List.mem_filterMap.1 hvalue
    obtain ⟨d, hd, hgiven⟩ := exists_of_forall₂_of_mem_right hall hheader
    obtain ⟨hmem, hkept⟩ := List.mem_filter.1 hd
    simp only [Bool.and_eq_true, decide_eq_true_eq] at hkept
    rw [show header = some (name, value) from hsome] at hgiven
    obtain ⟨hname, hname', hvalue, hvalue'⟩ := (headerOf?_eq_ok_some_iff d name value).1 hgiven
    exact ⟨d, hmem, value, hkept.1, hname, hvalue, hname', hvalue'⟩
  · rintro ⟨d, hd, value, hset⟩
    have hlength : 1 < d.decoratorArguments.length := by
      by_contra hshort
      have hvalue := hset.value_given
      rw [textArgument, List.getElem?_eq_none (by omega)] at hvalue
      cases hvalue
    have hkept : d ∈ decorators.filter fun d =>
        d.decoratorName? = some "Header" && 1 < d.decoratorArguments.length :=
      List.mem_filter.2 ⟨hd, by simp [hset.decoratorName_eq, hlength]⟩
    obtain ⟨header, hheader, hgiven⟩ := exists_of_forall₂_of_mem_left hall hkept
    rw [(headerOf?_eq_ok_some_iff d name value).2
      ⟨hset.name_given, hset.name_ne_empty, hset.value_given, hset.value_ne_empty⟩] at hgiven
    obtain rfl := Except.ok.inj hgiven
    exact ⟨value, List.mem_filterMap.2 ⟨_, hheader, rfl⟩⟩

/-- A content type is inferred only if no decorator sets one. -/
theorem addsOnlyMissing_withContentType
    (given : List (String × String))
    (body : Option String) :
    AddsOnlyMissing given (withContentType given body) := by
  unfold withContentType
  split
  · next hmissing =>
    rw [Bool.and_eq_true, Bool.not_eq_true', List.any_eq_false] at hmissing
    exact .inr ⟨rfl, by simpa [IsContentType] using hmissing.2⟩
  · exact .inl rfl

end Decorators

end Controllers

section Inference

open FileRoutes

/-- A content type is inferred beside one that is set for no method of a controller; and for the text of a
file route exactly if it answers in JSON and sets a content type, but not in the usual spelling. -/
theorem inferredContentType_iff
    (text : String)
    (s : Site)
    (scope : Scope)
    (c : Controllers.Controller)
    (m : Method) :
    (AddsOnlyMissing (Evidence.setHeaders text) (Evidence.headers text) ↔
      (Evidence.jsonAnswer.occursIn text = true →
        (∃ name, Evidence.Sets text name ∧ IsContentType name) → Evidence.Sets text "Content-Type")) ∧
    Settled
      (fun handlers => ∀ h ∈ handlers, ∃ given,
        (∀ name, name ∈ given.map Prod.fst ↔
          ∃ d ∈ m.decorators, ∃ value, Controllers.SetsHeader scope c.file d name value) ∧
        AddsOnlyMissing given h.headers)
      (Controllers.ofMethod s scope c m) := by
  refine ⟨Evidence.addsOnlyMissing_headers_iff text, ?_⟩
  refine Controllers.settled_ofMethod (fun facts hfacts verb path _ => ?_) s
  exact ⟨facts.headers, Controllers.mem_keys_headersOf_iff hfacts,
    Controllers.addsOnlyMissing_withContentType _ _⟩

/-- A handler that sets its content type in lower case. -/
def loweredText : String :=
  "res.setHeader('content-type', 'text/html'); res.json(1)"

/-- A content type is inferred beside one in lower case. -/
theorem headers_loweredText :
    Evidence.setHeaders loweredText = [("content-type", "text/html")] ∧
    Evidence.headers loweredText =
      [("content-type", "text/html"), ("Content-Type", "application/json")] ∧
    ¬ AddsOnlyMissing (Evidence.setHeaders loweredText) (Evidence.headers loweredText) := by
  have hset : Evidence.setHeaders loweredText = [("content-type", "text/html")] := by decide +kernel
  have hheaders : Evidence.headers loweredText =
      [("content-type", "text/html"), ("Content-Type", "application/json")] := by decide +kernel
  refine ⟨hset, hheaders, ?_⟩
  rw [hset, hheaders]
  rintro (hsame | ⟨-, hnone⟩)
  · simp at hsame
  · exact hnone _ (List.mem_singleton.2 rfl) (by decide +kernel)

end Inference

end RouteAtlas
