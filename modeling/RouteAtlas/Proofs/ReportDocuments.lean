import Mathlib
import RouteAtlas.Proofs.Entries
import RouteAtlas.Proofs.InheritedFields
import RouteAtlas.Proofs.RouteListings
import RouteAtlas.Report

/-!
# Documents of a scan

A scan is reported in two documents. One lists the routes in listing order, and each of its entries can be
read back as the route that it stands for. The other has a group for every type that occurs, with the same
entries in the same order but without their types. Both give the same numbers: how many routes there are,
and how many of each type and of each method.
-/

namespace RouteAtlas

section Gathering

variable {α β : Type} (key : α → String) (step : β → α → β) (start : β)

/-- The elements of a list by their keys, those of one key being put together one after the other. -/
def gathered (xs : List α) : List (String × β) :=
  xs.foldl (fun acc x => putEntry (key x) (step ((entryOf? (key x) acc).getD start) x) acc) []

theorem gathered_concat
    (xs : List α)
    (x : α) :
    gathered key step start (xs ++ [x]) =
      putEntry (key x) (step ((entryOf? (key x) (gathered key step start xs)).getD start) x)
        (gathered key step start xs) := by
  simp [gathered]

theorem nodup_keys_gathered (xs : List α) : ((gathered key step start xs).map Prod.fst).Nodup := by
  induction xs using List.reverseRecOn with
  | nil => exact .nil
  | append_singleton xs x ih =>
    rw [gathered_concat]
    exact nodup_keys_putEntry _ _ ih

/-- What is gathered under a key is made of the elements that have it. -/
theorem entryOf?_gathered
    (k : String)
    (xs : List α) :
    entryOf? k (gathered key step start xs) =
      if k ∈ xs.map key then some ((xs.filter (key · == k)).foldl step start) else none := by
  induction xs using List.reverseRecOn with
  | nil => rfl
  | append_singleton xs x ih =>
    -- nothing is gathered yet under a key that no element has
    have hbefore : (entryOf? k (gathered key step start xs)).getD start =
        (xs.filter (key · == k)).foldl step start := by
      rw [ih]
      split
      · rfl
      · next hk =>
        rw [List.filter_eq_nil_iff.2 fun y hy hkey => hk (List.mem_map.2 ⟨y, hy, by simpa using hkey⟩)]
        rfl
    rw [gathered_concat, entryOf?_putEntry]
    by_cases hx : key x = k
    · subst hx
      simp [hbefore]
    · simp [hx, Ne.symm hx, ih]

theorem mem_gathered_iff
    (xs : List α)
    (k : String)
    (v : β) :
    (k, v) ∈ gathered key step start xs ↔
      k ∈ xs.map key ∧ v = (xs.filter (key · == k)).foldl step start := by
  rw [← entryOf?_eq_some_iff (nodup_keys_gathered key step start xs), entryOf?_gathered]
  split <;> simp_all [eq_comm]

end Gathering

section OptionalEntries

variable {α β : Type}

theorem entryOf?_append
    (key : String)
    (front back : List (String × α)) :
    entryOf? key (front ++ back) = (entryOf? key front).or (entryOf? key back) := by
  induction front with
  | nil => rfl
  | cons e rest ih =>
    rw [List.cons_append, entryOf?, entryOf?, ih]
    split <;> rfl

/-- An entry that may be left out. -/
theorem entryOf?_optional
    (key k : String)
    (given : Option α) :
    entryOf? k (given.map fun v => (key, v)).toList = if key = k then given else none := by
  cases given with
  | none => simp [entryOf?]
  | some v => simp [entryOf?]

theorem keys_optional_sublist
    (key : String)
    (given : Option α) :
    ((given.map fun v => (key, v)).toList.map Prod.fst).Sublist [key] := by
  cases given with
  | none => simp
  | some v => simp

/-- What is read of an optional part is the part, if it is read back from what is written of it. -/
theorem bind_map_of_read
    {write : α → β}
    {read : β → Option α}
    (h : ∀ a, read (write a) = some a)
    (part : Option α) :
    (part.map write).bind read = part := by
  cases part with
  | none => rfl
  | some a => exact h a

end OptionalEntries

section Counting

/-- Every text that occurs is counted once, with the number of its occurrences. -/
structure Counts
    (counts : List (String × Nat))
    (texts : List String) :
    Prop where
  once : (counts.map Prod.fst).Nodup
  mem_iff : ∀ t n, (t, n) ∈ counts ↔ t ∈ texts ∧ n = texts.count t

theorem counts_tally (texts : List String) : Counts (Scan.tally texts) texts where
  once := nodup_keys_gathered id (fun n _ => n + 1) 0 texts
  mem_iff t n := by
    have hcount : (texts.filter (id · == t)).foldl (fun n _ => n + 1) 0 = texts.count t := by
      rw [List.foldl_add_const, List.count_eq_length_filter]
      simp
    have hmem := mem_gathered_iff id (fun n _ => n + 1) 0 texts t n
    rwa [List.map_id, hcount] at hmem

theorem Counts.perm
    {counts : List (String × Nat)}
    {texts texts' : List String}
    (h : Counts counts texts)
    (hperm : texts.Perm texts') :
    Counts counts texts' where
  once := h.once
  mem_iff t n := by rw [h.mem_iff, hperm.mem_iff, hperm.count_eq]

theorem Counts.unique
    {counts counts' : List (String × Nat)}
    {texts : List String}
    (h : Counts counts texts)
    (h' : Counts counts' texts) :
    counts.Perm counts' := by
  refine (List.perm_ext_iff_of_nodup h.once.of_map h'.once.of_map).2 fun c => ?_
  rw [h.mem_iff, h'.mem_iff]

/-- Numbers of occurrences add up to the number of texts. -/
theorem Counts.sum
    {counts : List (String × Nat)}
    {texts : List String}
    (h : Counts counts texts) :
    (counts.map Prod.snd).sum = texts.length := by
  have hkeys : (counts.map Prod.fst).Perm texts.dedup := by
    refine (List.perm_ext_iff_of_nodup h.once texts.nodup_dedup).2 fun t => ?_
    rw [List.mem_dedup, List.mem_map]
    constructor
    · rintro ⟨c, hc, rfl⟩
      exact ((h.mem_iff c.1 c.2).1 hc).1
    · intro ht
      exact ⟨_, (h.mem_iff t _).2 ⟨ht, rfl⟩, rfl⟩
  calc (counts.map Prod.snd).sum
      = ((counts.map Prod.fst).map fun t => texts.count t).sum := by
        rw [List.map_map]
        refine congrArg List.sum (List.map_congr_left fun c hc => ?_)
        exact ((h.mem_iff c.1 c.2).1 hc).2
    _ = (texts.dedup.map fun t => texts.count t).sum := (hkeys.map _).sum_eq
    _ = texts.length := List.sum_map_count_dedup_eq_length texts

end Counting

namespace Route

section Entries

theorem textEntriesOf?_textEntries (entries : List (String × String)) :
    textEntriesOf? (textEntries entries) = some entries := by
  show some ((entries.map fun e => (e.1, Value.str e.2)).map fun e => (e.1, e.2.str?.getD "")) =
    some entries
  rw [List.map_map]
  exact congrArg some (List.map_id entries)

/-- The entries of a route as data before its type and those after it. -/
def entriesAround (r : Route) : List (String × Value) × List (String × Value) :=
  ([("name", .str r.name), ("path", .str r.path), ("method", .str r.method)] ++
      ((r.filePath.map Value.str).map fun v => ("filePath", v)).toList,
    ((r.handlerName.map Value.str).map fun v => ("handlerName", v)).toList ++
      ((r.headers.map textEntries).map fun v => ("headers", v)).toList ++
      ((r.query.map textEntries).map fun v => ("query", v)).toList ++
      ((r.body.map Value.str).map fun v => ("body", v)).toList)

theorem toValue_eq (r : Route) :
    r.toValue = .map (r.entriesAround.1 ++ ("type", .str r.type) :: r.entriesAround.2) := by
  simp [toValue, entriesAround]

/-- A route that names its file is read back from its data. -/
theorem ofValue?_toValue
    {r : Route}
    (hfile : r.filePath.isSome) :
    ofValue? r.toValue = .ok r := by
  obtain ⟨file, hfile⟩ := Option.isSome_iff_exists.1 hfile
  have hstr : ∀ s, (Value.str s).str? = some s := fun _ => rfl
  simp only [ofValue?, requiredText, toValue_eq, entriesAround, Value.get?, entryOf?_append,
    entryOf?_optional, entryOf?, String.reduceEq, if_true, if_false, Option.or_none, Option.none_or,
    Option.or_some]
  simp only [hfile, Option.map_some, Option.getD_none, hstr, bind_map_of_read hstr,
    bind_map_of_read textEntriesOf?_textEntries]
  rw [← hfile]
  rfl

/-- No key comes twice in the data of a route. -/
theorem nodup_keys_entriesAround (r : Route) :
    ((r.entriesAround.1 ++ ("type", Value.str r.type) :: r.entriesAround.2).map Prod.fst).Nodup := by
  have hkeys : ((r.entriesAround.1 ++ ("type", Value.str r.type) :: r.entriesAround.2).map
      Prod.fst).Sublist ((["name", "path", "method"] ++ ["filePath"]) ++
        "type" :: (["handlerName"] ++ ["headers"] ++ ["query"] ++ ["body"])) := by
    simp only [entriesAround, List.map_append, List.map_cons, List.map_nil]
    refine .append (.append (.refl _) (keys_optional_sublist ..)) (.cons_cons _ ?_)
    exact (((keys_optional_sublist ..).append (keys_optional_sublist ..)).append
      (keys_optional_sublist ..)).append (keys_optional_sublist ..)
  exact hkeys.nodup (by decide)

end Entries

section Types

/-- The type that an entry gives. -/
def typeOf? (entry : Value) : Option String :=
  (entry.get? "type").bind Value.str?

/-- An entry is an item with a type put to it: both are mappings, and their entries are the same. -/
def IsTyped
    (t : String)
    (item entry : Value) :
    Prop :=
  ∃ entries typed, item = .map entries ∧ entry = .map typed ∧ (typed.map Prod.fst).Nodup ∧
    typed.Perm (("type", .str t) :: entries)

theorem type_notMem_entriesAround (r : Route) :
    "type" ∉ (r.entriesAround.1 ++ r.entriesAround.2).map Prod.fst := by
  have hperm : (r.entriesAround.1 ++ ("type", Value.str r.type) :: r.entriesAround.2).Perm
      (("type", Value.str r.type) :: (r.entriesAround.1 ++ r.entriesAround.2)) :=
    List.perm_middle
  exact (List.nodup_cons.1 ((hperm.map Prod.fst).nodup_iff.1 r.nodup_keys_entriesAround)).1

theorem typeOf?_toValue (r : Route) : typeOf? r.toValue = some r.type := by
  have hmem : ("type", Value.str r.type) ∈
      r.entriesAround.1 ++ ("type", Value.str r.type) :: r.entriesAround.2 := by
    simp
  have htype := (entryOf?_eq_some_iff r.nodup_keys_entriesAround _ _).2 hmem
  rw [typeOf?, toValue_eq, Value.get?, htype]
  rfl

theorem isTyped_untyped (r : Route) : IsTyped r.type (Report.untyped r) r.toValue := by
  refine ⟨r.entriesAround.1 ++ r.entriesAround.2, _, ?_, r.toValue_eq, r.nodup_keys_entriesAround,
    List.perm_middle⟩
  have hkept : ∀ e ∈ r.entriesAround.1 ++ r.entriesAround.2, e.1 != "type" := by
    intro e he
    have hne : e.1 ≠ "type" := fun h => r.type_notMem_entriesAround (h ▸ List.mem_map_of_mem he)
    simpa using hne
  rw [List.forall_mem_append] at hkept
  rw [Report.untyped, toValue_eq]
  simp only [List.filter_append, List.filter_cons_of_neg, bne_self_eq_false, Bool.false_eq_true,
    not_false_eq_true, List.filter_eq_self.2 hkept.1, List.filter_eq_self.2 hkept.2]

end Types

end Route

namespace Report

section Groups

theorem mem_routeGroups_iff
    (routes : List Route)
    (t : String)
    (items : List Value) :
    (t, items) ∈ routeGroups routes ↔
      t ∈ routes.map Route.type ∧ items = (routes.filter (·.type == t)).map untyped := by
  have hitems (rs : List Route) :
      rs.foldl (fun items r => items ++ [untyped r]) [] = rs.map untyped := by
    rw [List.foldl_append_eq_append, List.nil_append, ← List.flatMap_def, ← List.map_eq_flatMap]
  have hmem := mem_gathered_iff Route.type (fun items r => items ++ [untyped r]) [] routes t items
  rwa [hitems] at hmem

theorem nodup_keys_routeGroups (routes : List Route) : ((routeGroups routes).map Prod.fst).Nodup :=
  nodup_keys_gathered Route.type (fun items r => items ++ [untyped r]) [] routes

theorem mem_keys_routeGroups_iff
    (routes : List Route)
    (t : String) :
    t ∈ (routeGroups routes).map Prod.fst ↔ t ∈ routes.map Route.type := by
  constructor
  · intro ht
    obtain ⟨g, hg, rfl⟩ := List.mem_map.1 ht
    exact ((mem_routeGroups_iff routes g.1 g.2).1 hg).1
  · intro ht
    exact List.mem_map_of_mem ((mem_routeGroups_iff ..).2 ⟨ht, rfl⟩)

/-- The sizes of groups are the numbers of routes of each type. -/
theorem counts_routeGroups (routes : List Route) :
    Counts ((routeGroups routes).map fun g => (g.1, g.2.length)) (routes.map Route.type) where
  once := by
    rw [List.map_map]
    exact nodup_keys_routeGroups routes
  mem_iff t n := by
    have hcount : ((routes.filter (·.type == t)).map untyped).length =
        (routes.map Route.type).count t := by
      rw [List.count_eq_length_filter, List.filter_map, List.length_map, List.length_map]
      rfl
    rw [List.mem_map, ← hcount]
    constructor
    · rintro ⟨⟨t, items⟩, hg, ⟨⟩⟩
      obtain ⟨ht, hitems⟩ := (mem_routeGroups_iff ..).1 hg
      exact ⟨ht, congrArg List.length hitems⟩
    · rintro ⟨ht, rfl⟩
      exact ⟨_, (mem_routeGroups_iff ..).2 ⟨ht, rfl⟩, rfl⟩

/-- The items of a group are the entries of its type. -/
theorem forall₂_isTyped_of_mem_routeGroups
    {routes : List Route}
    {g : String × List Value}
    (hg : g ∈ routeGroups routes) :
    List.Forall₂ (Route.IsTyped g.1) g.2
      ((routes.map Route.toValue).filter fun entry => Route.typeOf? entry == some g.1) := by
  obtain ⟨t, items⟩ := g
  obtain ⟨-, rfl⟩ := (mem_routeGroups_iff ..).1 hg
  have hkept : ((fun entry => Route.typeOf? entry == some t) ∘ Route.toValue) =
      fun r : Route => r.type == t := by
    funext r
    simp [Route.typeOf?_toValue]
  rw [List.filter_map, hkept, List.forall₂_map_left_iff, List.forall₂_map_right_iff, List.forall₂_same]
  intro r hr
  obtain rfl : r.type = t := by simpa using (List.mem_filter.1 hr).2
  exact r.isTyped_untyped

end Groups

section Documents

/-- What two documents say of routes: the entries of the one, the groups of the other, and the numbers in
both. -/
structure Contents where
  entries : List Value
  groups : List (String × List Value)
  total : Nat
  byType : List (String × Nat)
  byMethod : List (String × Nat)

/-- Two documents, one that lists its routes and one that groups them, say what is given. -/
structure Say
    (listing grouping : List (String × Value))
    (c : Contents) :
    Prop where
  entries : entryOf? "routes" listing = some (.list c.entries)
  groups : entryOf? "routes" grouping = some (.map (c.groups.map fun g => (g.1, .list g.2)))
  summary : ∃ summary, entryOf? "summary" listing = some summary ∧
    entryOf? "summary" grouping = some summary ∧
    summary.get? "total_routes" = some (.int c.total) ∧
    summary.get? "by_type" = some (Scan.countsValue c.byType) ∧
    summary.get? "by_method" = some (Scan.countsValue c.byMethod)

/-- What is said of routes holds all of them, and nothing in it contradicts another part. -/
structure Contents.Agrees
    (c : Contents)
    (routes : List Route) :
    Prop where
  read : c.entries.mapM Route.ofValue? = .ok routes
  grouped : (c.groups.map Prod.fst).Nodup ∧
    ∀ t, t ∈ c.groups.map Prod.fst ↔ ∃ entry ∈ c.entries, Route.typeOf? entry = some t
  items : ∀ g ∈ c.groups, List.Forall₂ (Route.IsTyped g.1) g.2
    (c.entries.filter fun entry => Route.typeOf? entry == some g.1)
  total : c.total = c.entries.length
  byType : c.byType.Perm (c.groups.map fun g => (g.1, g.2.length))
  byMethod : Counts c.byMethod (routes.map Route.method)
  sums : (c.byType.map Prod.snd).sum = c.total ∧ (c.byMethod.map Prod.snd).sum = c.total ∧
    (c.groups.map fun g => g.2.length).sum = c.total

theorem document_of_sort
    {s : Scan}
    {routes : List Route}
    (hroutes : Route.sort s.routes = .ok routes)
    (f : ReportFormat)
    (subject : Option ReportSubject)
    (findings : Option (List Finding)) :
    ∃ front, document f ⟨subject, some s, findings⟩ = .ok (front ++
        (overviewEntries s ++ [("routes", routesValue f routes)]) ++ part findings findingEntries) ∧
      entryOf? "routes" front = none ∧ entryOf? "summary" front = none := by
  cases f with
  | json =>
    refine ⟨part subject subjectEntries, ?_, ?_⟩
    · simp only [document, hroutes]
      rfl
    · cases subject with
      | none => exact ⟨rfl, rfl⟩
      | some given => exact ⟨rfl, rfl⟩
  | yaml =>
    refine ⟨[], ?_, rfl, rfl⟩
    simp only [document, hroutes]
    rfl

/-- A document of a scan gives its routes and its summary. -/
theorem entries_of_document
    {s : Scan}
    {routes : List Route}
    (hroutes : Route.sort s.routes = .ok routes)
    (f : ReportFormat)
    (subject : Option ReportSubject)
    (findings : Option (List Finding)) :
    ∃ entries, document f ⟨subject, some s, findings⟩ = .ok entries ∧
      entryOf? "routes" entries = some (routesValue f routes) ∧
      entryOf? "summary" entries = some s.summary := by
  obtain ⟨front, hdocument, hfront, hfront'⟩ := document_of_sort hroutes f subject findings
  refine ⟨_, hdocument, ?_, ?_⟩
  · rw [entryOf?_append, entryOf?_append, hfront]
    rfl
  · rw [entryOf?_append, entryOf?_append, hfront']
    rfl

/-- What the two documents of a scan say of its routes. -/
def contentsOf
    (s : Scan)
    (routes : List Route) :
    Contents where
  entries := routes.map Route.toValue
  groups := routeGroups routes
  total := s.routes.length
  byType := Scan.tally (s.routes.map Route.type)
  byMethod := Scan.tally (s.routes.map Route.method)

theorem agrees_contentsOf
    {s : Scan}
    {routes : List Route}
    (hperm : routes.Perm s.routes)
    (hfiles : ∀ r ∈ routes, r.filePath.isSome) :
    (contentsOf s routes).Agrees routes := by
  have hgroups := counts_routeGroups routes
  have htypes := (counts_tally (s.routes.map Route.type)).perm (hperm.map Route.type).symm
  have hmethods := (counts_tally (s.routes.map Route.method)).perm (hperm.map Route.method).symm
  have htotal : routes.length = s.routes.length := hperm.length_eq
  refine ⟨?_, ⟨nodup_keys_routeGroups routes, fun t => ?_⟩,
    fun g => forall₂_isTyped_of_mem_routeGroups, ?_, htypes.unique hgroups, hmethods, ?_, ?_, ?_⟩
  · refine mapM_eq_ok_iff_forall₂.2 (List.forall₂_map_left_iff.2 (List.forall₂_same.2 ?_))
    exact fun r hr => Route.ofValue?_toValue (hfiles r hr)
  · rw [show (contentsOf s routes).groups = routeGroups routes from rfl, mem_keys_routeGroups_iff]
    simp [contentsOf, Route.typeOf?_toValue]
  · simp [contentsOf, htotal]
  · exact htypes.sum.trans (by rw [List.length_map, htotal]; rfl)
  · exact hmethods.sum.trans (by rw [List.length_map, htotal]; rfl)
  · have hsum := hgroups.sum
    rw [List.map_map, List.length_map, htotal] at hsum
    exact hsum

/-- The two documents of a scan whose routes have supported methods, and files as all routes that are
found, hold everything and say the same. The entries of the listing are read back as the routes in listing
order, and the other document has one group for each type that occurs, with the entries of this type, in
their order and without the type. The numbers of routes of each type are the sizes of the groups, and these,
the numbers of routes of each type and those of each method all add up to the number of routes. -/
theorem documents_agree
    {s : Scan}
    (hverbs : ∀ r ∈ s.routes, r.method ∈ Route.verbs)
    (hfiles : ∀ r ∈ s.routes, r.filePath.isSome)
    (subject subject' : Option ReportSubject)
    (findings findings' : Option (List Finding)) :
    ∃ routes listing grouping c,
      Route.sort s.routes = .ok routes ∧
      document .json ⟨subject, some s, findings⟩ = .ok listing ∧
      document .yaml ⟨subject', some s, findings'⟩ = .ok grouping ∧
      Say listing grouping c ∧ c.Agrees routes := by
  have hsort := Route.sort_of_verbs hverbs
  have hperm := List.mergeSort_perm s.routes Route.listedBefore
  obtain ⟨listing, hlisting, hentries, hsummary⟩ := entries_of_document hsort .json subject findings
  obtain ⟨grouping, hgrouping, hgroups, hsummary'⟩ :=
    entries_of_document hsort .yaml subject' findings'
  refine ⟨_, listing, grouping, contentsOf s _, hsort, hlisting, hgrouping,
    ⟨hentries, hgroups, s.summary, hsummary, hsummary', rfl, rfl, rfl⟩, ?_⟩
  exact agrees_contentsOf hperm fun r hr => hfiles r (hperm.mem_iff.1 hr)

/-- A scan with routes of two types, which are not found in listing order. -/
def mixedScan : Scan where
  root := ⟨true, ["app"]⟩
  detection := [("trpc", true), ("nestjs", true)]
  routes := [{ listedRoute "/list" "app.list" with type := "trpc", query := some [("page", "1")] },
    listedRoute "/b" "C.m", { listedRoute "/a" "C.n" with body := some "[]", method := "POST" }]

theorem documents_agree_mixedScan :
    (∀ r ∈ mixedScan.routes, r.method ∈ Route.verbs) ∧ (∀ r ∈ mixedScan.routes, r.filePath.isSome) ∧
      ∃ routes listing grouping c,
        Route.sort mixedScan.routes = .ok routes ∧
        document .json ⟨none, some mixedScan, none⟩ = .ok listing ∧
        document .yaml ⟨none, some mixedScan, some []⟩ = .ok grouping ∧
        Say listing grouping c ∧ c.Agrees routes := by
  have hverbs : ∀ r ∈ mixedScan.routes, r.method ∈ Route.verbs := by decide
  have hfiles : ∀ r ∈ mixedScan.routes, r.filePath.isSome := by decide
  exact ⟨hverbs, hfiles, documents_agree hverbs hfiles none none none (some [])⟩

end Documents

end Report

end RouteAtlas
