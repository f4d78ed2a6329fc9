import Mathlib
import RouteAtlas.Proofs.Entries
import RouteAtlas.Proofs.PlainPaths
import RouteAtlas.Route.Basic

/-!
# What is reported of a handler

A handler of a supported method is reported by one route, whatever texts the handler holds. The path
of the route is canonical, and its headers, its query and its body are there only if they say
something. A body that travels in the query adds parameters there and changes none.
-/

namespace RouteAtlas

namespace Route

section Paths

/-- A path starts with a slash, never has two in a row, and ends with one only if it is the root. -/
structure IsCanonical (path : String) : Prop where
  starts : path.toList.head? = some '/'
  apart : ¬ ['/', '/'] <:+: path.toList
  ends : path.toList.getLast? = some '/' → path = "/"

/-- No slash follows another one. -/
def SlashesApart (cs : List Char) : Prop :=
  cs.IsChain fun c d => ¬ (c = '/' ∧ d = '/')

theorem head?_singleSlashes (cs : List Char) : (singleSlashes cs).head? = cs.head? := by
  fun_induction singleSlashes cs with
  | case1 => rfl
  | case2 c => rfl
  | case3 c d rest h ih =>
    obtain ⟨rfl, rfl⟩ : c = '/' ∧ d = '/' := by simpa using h
    exact ih
  | case4 c d rest h ih => rfl

theorem slashesApart_singleSlashes (cs : List Char) : SlashesApart (singleSlashes cs) := by
  fun_induction singleSlashes cs with
  | case1 => exact .nil
  | case2 c => exact .singleton c
  | case3 c d rest h ih => exact ih
  | case4 c d rest h ih =>
    -- what follows `c` starts as the text after it does, so `c` and `d` stay neighbours
    refine List.isChain_cons.2 ⟨fun e he => ?_, ih⟩
    rw [head?_singleSlashes] at he
    obtain rfl : d = e := by simpa using he
    simpa using h

theorem head?_withLeadingSlash (cs : List Char) : (withLeadingSlash cs).head? = some '/' := by
  unfold withLeadingSlash
  split <;> rfl

theorem SlashesApart.withLeadingSlash
    {cs : List Char}
    (h : SlashesApart cs) :
    SlashesApart (withLeadingSlash cs) := by
  unfold Route.withLeadingSlash
  split
  · exact h
  · next hcs =>
    refine List.isChain_cons.2 ⟨fun c hc hslashes => ?_, h⟩
    obtain ⟨rest, rfl⟩ := List.head?_eq_some_iff.1 hc
    exact hcs rest (by rw [hslashes.2])

theorem isCanonical_withoutFinalSlash
    {cs : List Char}
    (hstart : cs.head? = some '/')
    (h : SlashesApart cs) :
    IsCanonical (String.ofList (withoutFinalSlash cs)) := by
  have hkept : Text.dropLastWhile (· = '/') cs = cs.rdropWhile (· = '/') := rfl
  unfold withoutFinalSlash
  rw [hkept]
  split
  · exact ⟨rfl, by decide, fun _ => rfl⟩
  · -- what is kept starts as the path does and ends with no slash
    next hne =>
    have hprefix : cs.rdropWhile (· = '/') <+: cs := List.rdropWhile_prefix _ _
    refine ⟨?_, fun hslashes => ?_, fun hlast => ?_⟩
    · obtain ⟨rest, hrest⟩ := hprefix
      rw [String.toList_ofList, ← hstart, ← hrest, List.head?_append_of_ne_nil _ hne, hrest]
    · rw [String.toList_ofList] at hslashes
      have hpair := h.infix (hslashes.trans hprefix.isInfix)
      simp at hpair
    · rw [String.toList_ofList] at hlast
      have hlast' := List.rdropWhile_last_not (· = '/') cs hne
      rw [List.getLast?_eq_some_getLast hne, Option.some.injEq] at hlast
      simp [hlast] at hlast'

/-- Whatever characters a path holds, its canonical form is one. -/
theorem isCanonical_normalizePath (path : String) : IsCanonical (normalizePath path) :=
  isCanonical_withoutFinalSlash (head?_withLeadingSlash _)
    (slashesApart_singleSlashes _).withLeadingSlash

end Paths

section FixedPaths

theorem slashesApart_iff (cs : List Char) : SlashesApart cs ↔ ¬ ['/', '/'] <:+: cs := by
  constructor
  · intro h hpair
    simpa using h.infix hpair
  · intro h
    induction cs with
    | nil => exact .nil
    | cons c rest ih =>
      have hrest : SlashesApart rest := ih fun hpair => h (hpair.trans (List.suffix_cons c rest).isInfix)
      refine List.isChain_cons.2 ⟨fun d hd hslashes => h ?_, hrest⟩
      obtain ⟨more, rfl⟩ := List.head?_eq_some_iff.1 hd
      obtain ⟨rfl, rfl⟩ := hslashes
      exact ⟨[], more, rfl⟩

theorem singleSlashes_of_apart
    {cs : List Char}
    (h : SlashesApart cs) :
    singleSlashes cs = cs := by
  fun_induction singleSlashes cs with
  | case1 => rfl
  | case2 c => rfl
  | case3 c d rest hslashes ih =>
    have hpair := (List.isChain_cons_cons.1 h).1
    exact absurd (by simpa using hslashes) hpair
  | case4 c d rest hslashes ih => rw [ih (List.isChain_cons_cons.1 h).2]

theorem length_singleSlashes_le (cs : List Char) : (singleSlashes cs).length ≤ cs.length := by
  fun_induction singleSlashes cs with
  | case1 => exact le_rfl
  | case2 c => exact le_rfl
  | case3 c d rest h ih => exact ih.trans (Nat.le_succ _)
  | case4 c d rest h ih => simpa using ih

theorem length_withoutFinalSlash_le
    {cs : List Char}
    (h : cs ≠ []) :
    (withoutFinalSlash cs).length ≤ cs.length := by
  have hkept : Text.dropLastWhile (· = '/') cs = cs.rdropWhile (· = '/') := rfl
  unfold withoutFinalSlash
  rw [hkept]
  split
  · exact List.length_pos_of_ne_nil h
  · exact (List.rdropWhile_prefix _ _).length_le

/-- Whether a text ends with white space. -/
def EndsBlank (s : String) : Prop :=
  ∃ c, s.toList.getLast? = some c ∧ Text.isBlank c

theorem withLeadingSlash_of_head?
    {cs : List Char}
    (h : cs.head? = some '/') :
    withLeadingSlash cs = cs := by
  obtain ⟨rest, rfl⟩ := List.head?_eq_some_iff.1 h
  rfl

/-- Trimming a path that starts with a slash drops the white space at its end. -/
theorem dropEnds_isBlank_of_head?
    {cs : List Char}
    (h : cs.head? = some '/') :
    Text.dropEnds Text.isBlank cs = cs.rdropWhile Text.isBlank := by
  obtain ⟨rest, rfl⟩ := List.head?_eq_some_iff.1 h
  rw [Text.dropEnds, List.dropWhile_cons_of_neg (by decide)]
  rfl

/-- White space at the end of a path that starts with a slash is lost. -/
theorem length_normalizeChars_lt
    {cs : List Char}
    {c : Char}
    (hstart : cs.head? = some '/')
    (hlast : cs.getLast? = some c)
    (hblank : Text.isBlank c) :
    (normalizeChars cs).length < cs.length := by
  obtain ⟨before, rfl⟩ := List.getLast?_eq_some_iff.1 hlast
  let kept := (before ++ [c]).rdropWhile Text.isBlank
  have hslash : '/' ∈ before ++ [c] := List.mem_of_head? hstart
  have hne : kept ≠ [] := by
    intro hnil
    have hall := List.rdropWhile_eq_nil_iff.1 hnil '/' hslash
    exact absurd hall (by decide)
  have hprefix : kept <+: before ++ [c] := List.rdropWhile_prefix _ _
  have hhead : kept.head? = some '/' := by
    obtain ⟨dropped, hdropped⟩ := hprefix
    rw [← hstart, ← hdropped, List.head?_append_of_ne_nil _ hne]
  have hlength : kept.length < (before ++ [c]).length := by
    have hkept : kept = before.rdropWhile Text.isBlank := List.rdropWhile_concat_pos _ _ _ hblank
    rw [hkept, List.length_append, List.length_singleton]
    exact Nat.lt_succ_of_le (List.rdropWhile_prefix _ _).length_le
  have hsingle : (singleSlashes kept).head? = some '/' := (head?_singleSlashes kept).trans hhead
  have hsingle' : singleSlashes kept ≠ [] := List.ne_nil_of_mem (List.mem_of_head? hsingle)
  calc (normalizeChars (before ++ [c])).length
      = (withoutFinalSlash (singleSlashes kept)).length := by
        rw [normalizeChars, dropEnds_isBlank_of_head? hstart, withLeadingSlash_of_head? hsingle]
    _ ≤ (singleSlashes kept).length := length_withoutFinalSlash_le hsingle'
    _ ≤ kept.length := length_singleSlashes_le kept
    _ < (before ++ [c]).length := hlength

/-- A path is its own canonical form exactly if it is canonical and does not end with white space. -/
theorem normalizePath_eq_self_iff (path : String) :
    normalizePath path = path ↔ IsCanonical path ∧ ¬EndsBlank path := by
  constructor
  · intro h
    have hcanonical : IsCanonical path := h ▸ isCanonical_normalizePath path
    refine ⟨hcanonical, ?_⟩
    rintro ⟨c, hlast, hblank⟩
    have hshorter := length_normalizeChars_lt hcanonical.starts hlast hblank
    have hchars : normalizeChars path.toList = path.toList := by
      conv_rhs => rw [← h, normalizePath, String.toList_ofList]
    rw [hchars] at hshorter
    exact lt_irrefl _ hshorter
  · rintro ⟨⟨hstart, hapart, hend⟩, hblank⟩
    have htrimmed : Text.dropEnds Text.isBlank path.toList = path.toList := by
      rw [dropEnds_isBlank_of_head? hstart, List.rdropWhile_eq_self_iff]
      exact fun hne hlast => hblank ⟨_, List.getLast?_eq_some_getLast hne, hlast⟩
    have hfinal : withoutFinalSlash path.toList = path.toList := by
      by_cases hroot : path = "/"
      · subst hroot
        decide
      · have hkept : Text.dropLastWhile (· = '/') path.toList = path.toList := by
          refine List.rdropWhile_eq_self_iff.2 fun hne hlast => hroot (hend ?_)
          rw [List.getLast?_eq_some_getLast hne]
          simpa using hlast
        unfold withoutFinalSlash
        rw [hkept]
        split
        · next hnil => simp [hnil] at hstart
        · rfl
    rw [normalizePath, normalizeChars, htrimmed, singleSlashes_of_apart ((slashesApart_iff _).2 hapart),
      withLeadingSlash_of_head? hstart, hfinal, String.ofList_toList]

end FixedPaths

end Route

section Bodies

theorem Json.readNumber_ne_map
    {cs rest : List Char}
    {entries : List (String × Value)} :
    readNumber cs ≠ .ok (.map entries, rest) := by
  intro h
  unfold readNumber at h
  grind

/-- A mapping that is read from a text has every key once. -/
theorem Json.nodup_keys_of_readValue
    {n : Nat}
    {cs rest : List Char}
    {entries : List (String × Value)}
    (h : readValue n cs = .ok (.map entries, rest)) :
    (entries.map Prod.fst).Nodup := by
  cases n with
  | zero => simp [readValue] at h
  | succ n =>
    unfold readValue at h
    split at h
    · obtain ⟨r, -, hr⟩ := exists_of_map_eq_ok h
      simp at hr
    · split at h
      · simp at h
      · obtain ⟨r, -, hr⟩ := exists_of_map_eq_ok h
        simp at hr
    · split at h
      · obtain ⟨rfl, -⟩ : entries = [] ∧ _ := by simpa using h
        exact List.nodup_nil
      · obtain ⟨r, -, hr⟩ := exists_of_map_eq_ok h
        obtain ⟨rfl, -⟩ : ofPairs r.1 = entries ∧ r.2 = rest := by simpa using hr
        exact nodup_keys_ofPairs r.1
    · split at h
      · next r hword =>
        obtain ⟨w, hw, hr⟩ := List.exists_of_findSome?_eq_some hword
        obtain ⟨_, -, rfl⟩ := Option.map_eq_some_iff.1 hr
        obtain ⟨hmap, -⟩ : w.2 = .map entries ∧ _ := by simpa using h
        simp only [words, List.mem_cons, List.not_mem_nil, or_false] at hw
        rcases hw with rfl | rfl | rfl | rfl | rfl | rfl <;> cases hmap
      · exact absurd h readNumber_ne_map

theorem Json.nodup_keys_of_parse
    {text : String}
    {entries : List (String × Value)}
    (h : parse text = .ok (.map entries)) :
    (entries.map Prod.fst).Nodup := by
  unfold parse parseChars at h
  split at h
  · cases h
  · next v rest hread =>
    split at h
    · obtain rfl : v = .map entries := Except.ok.inj h
      exact nodup_keys_of_readValue hread
    · cases h

namespace Route

theorem keys_queryOfEntries_sublist (entries : List (String × Value)) :
    ((queryOfEntries entries).map Prod.fst).Sublist (entries.map Prod.fst) := by
  induction entries with
  | nil => simp [queryOfEntries]
  | cons e rest ih =>
    rw [queryOfEntries, List.filterMap_cons]
    cases queryText? e.2 with
    | none => exact ih.cons _
    | some t => exact ih.cons_cons _

/-- The query parameters that stand for a body have different names. -/
theorem nodup_keys_queryOfBody (body : Option String) :
    ((queryOfBody body).map Prod.fst).Nodup := by
  unfold queryOfBody
  split
  · exact List.nodup_nil
  · split
    · next hparse =>
      exact (Json.nodup_keys_of_parse hparse).sublist (keys_queryOfEntries_sublist _)
    · exact List.nodup_nil

theorem queryOfHandler_of_bodyToQuery
    {h : Handler}
    (htravels : h.bodyToQuery = true) :
    queryOfHandler h =
      h.query ++ (queryOfBody h.body).filter fun e => e.1 ∉ h.query.map Prod.fst := by
  rw [queryOfHandler, if_pos htravels]
  exact foldl_putMissing (nodup_keys_queryOfBody h.body) h.query

end Route

end Bodies

namespace Route

section Reporting

variable {h : Handler} {r : Route}

/-- What a route says of the handler that it reports. -/
structure Represents
    (h : Handler)
    (r : Route) :
    Prop where
  path : r.path = normalizePath h.path
  canonical : IsCanonical r.path
  method : r.method = Text.upper h.method
  supported : r.method ∈ verbs
  headers : r.headers.getD [] = h.headers
  headers_filled : r.headers ≠ some []
  query : r.query.getD [] =
    if h.bodyToQuery then
      h.query ++ (queryOfBody h.body).filter fun e => e.1 ∉ h.query.map Prod.fst
    else
      h.query
  query_filled : r.query ≠ some []
  body : ∀ b, r.body = some b ↔
    r.method ∈ ["POST", "PUT", "PATCH"] ∧ h.bodyToQuery = false ∧ h.body = some b ∧
      Text.trim b ≠ "" ∧ Text.trim b ≠ "\x7b\x7d"

theorem verb?_eq_some_iff
    {s method : String} :
    verb? s = some method ↔ method = Text.upper s ∧ method ∈ verbs := by
  rw [verb?]
  simp only [List.contains_iff_mem]
  split
  · next hmem =>
    rw [Option.some.injEq]
    exact ⟨fun h => ⟨h.symm, h ▸ hmem⟩, fun h => h.1.symm⟩
  · next hmem =>
    exact ⟨fun h => (Option.some_ne_none _ h.symm).elim, fun h => absurd (h.1 ▸ h.2) hmem⟩

theorem carriesBody_iff
    {method : String}
    (hmethod : method ∈ verbs) :
    carriesBody method = true ↔ method ∈ ["POST", "PUT", "PATCH"] := by
  revert method
  decide +kernel

theorem getD_nonEmpty? (entries : List (String × String)) :
    (nonEmpty? entries).getD [] = entries := by
  cases entries <;> rfl

theorem nonEmpty?_ne_some_nil (entries : List (String × String)) :
    nonEmpty? entries ≠ some [] := by
  cases entries <;> simp [nonEmpty?]

theorem bodyOfHandler_eq_some_iff
    {method b : String}
    (hmethod : method ∈ verbs) :
    bodyOfHandler h method = some b ↔
      method ∈ ["POST", "PUT", "PATCH"] ∧ h.bodyToQuery = false ∧ h.body = some b ∧
        Text.trim b ≠ "" ∧ Text.trim b ≠ "\x7b\x7d" := by
  rw [bodyOfHandler, ← carriesBody_iff hmethod]
  cases h.bodyToQuery <;> cases carriesBody method <;>
    simp [Option.filter_eq_some_iff, isBareBody]

theorem represents_of_ofHandler? (hr : ofHandler? h = some r) : Represents h r := by
  obtain ⟨method, hverb, rfl⟩ := Option.map_eq_some_iff.1 hr
  obtain ⟨hmethod, hsupported⟩ := verb?_eq_some_iff.1 hverb
  exact {
    path := rfl
    canonical := isCanonical_normalizePath h.path
    method := hmethod
    supported := hsupported
    headers := getD_nonEmpty? h.headers
    headers_filled := nonEmpty?_ne_some_nil h.headers
    query := by
      rw [getD_nonEmpty?]
      split
      · next htravels => exact queryOfHandler_of_bodyToQuery htravels
      · next htravels => rw [queryOfHandler, if_neg htravels]
    query_filled := nonEmpty?_ne_some_nil _
    body := fun b => bodyOfHandler_eq_some_iff hsupported }

theorem ofHandler?_eq_none_iff : ofHandler? h = none ↔ Text.upper h.method ∉ verbs := by
  rw [ofHandler?, Option.map_eq_none_iff, Option.eq_none_iff_forall_ne_some]
  simp only [ne_eq, verb?_eq_some_iff, not_and]
  exact ⟨fun h => h _ rfl, fun h method hm => hm ▸ h⟩

theorem forall₂_ofHandlers (handlers : List Handler) :
    List.Forall₂ (fun h r => ofHandler? h = some r)
      (handlers.filter fun h => Text.upper h.method ∈ verbs) (ofHandlers handlers) := by
  induction handlers with
  | nil => exact .nil
  | cons h rest ih =>
    rw [ofHandlers, List.filterMap_cons]
    cases hr : ofHandler? h with
    | none =>
      rw [List.filter_cons_of_neg (by simpa using ofHandler?_eq_none_iff.1 hr)]
      exact ih
    | some r =>
      have hmem : Text.upper h.method ∈ verbs := by
        by_contra hno
        simp [ofHandler?_eq_none_iff.2 hno] at hr
      rw [List.filter_cons_of_pos (by simpa using hmem)]
      exact .cons hr ih

/-- A handler of a supported method is reported by one route, which represents it, and any other
handler by none. Routes come in the order of their handlers. -/
theorem ofHandlers_represents :
    (∀ h, (ofHandler? h = none ↔ Text.upper h.method ∉ verbs) ∧
      ∀ r, ofHandler? h = some r → Represents h r) ∧
    ∀ handlers, List.Forall₂ (fun h r => ofHandler? h = some r)
      (handlers.filter fun h => Text.upper h.method ∈ verbs) (ofHandlers handlers) :=
  ⟨fun _ => ⟨ofHandler?_eq_none_iff, fun _ => represents_of_ofHandler?⟩, forall₂_ofHandlers⟩

/-- A handler of a query whose body gives one parameter more. -/
def searchHandler : Handler :=
  { Handler.at_ .trpc " //api//items/ " "get" "/app/items.ts" with
    query := [("page", "1")]
    body := some "\x7b\"page\": 2, \"all\": true, \"ids\": [1]\x7d"
    bodyToQuery := true }

/-- The route that reports a handler of a query. -/
def searchRoute : Route :=
  ⟨"GET /api/items", "/api/items", "GET", some "/app/items.ts", "trpc", none, none,
    some [("page", "1"), ("all", "true")], none⟩

theorem represents_searchRoute :
    ofHandler? searchHandler = some searchRoute ∧ Represents searchHandler searchRoute := by
  have hroute : ofHandler? searchHandler = some searchRoute := by decide +kernel
  exact ⟨hroute, (ofHandlers_represents.1 searchHandler).2 searchRoute hroute⟩

end Reporting

end Route

end RouteAtlas
