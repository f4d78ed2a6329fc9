import Mathlib
import RouteAtlas.Proofs.OutlinePaths
import RouteAtlas.Proofs.RouterCalls
import RouteAtlas.Proofs.SettledHandlers

/-!
# The procedures of nested routers

A file with an outline is read router by router. Each router declares itself under the name of its last
key, mounts the routers that are built in its entries, and holds the procedures of its other entries. So
the survey of a project in which no other file builds a router is made of the routers, the mounts and the
procedures of the outline, and its procedures have the paths of the outline's routers in its graph.
-/

namespace RouteAtlas.Procedures

open Syntax
open Router (Outline)
open Router.Outline (nameAt)
open Extraction
open Text (joinWith)

section Entries

/-- Whether an expression is a procedure does not depend on the router. -/
theorem procedure?_of_procedure?
    {r : EntryReader}
    (router : String)
    {name : String}
    {line : Nat}
    {file : SourceFile}
    {e : Node}
    {q : Procedure}
    (h : r.procedure? "" name line file e = .ok (some q)) :
    ∃ q', r.procedure? router name line file e = .ok (some q') ∧
      q'.router = router ∧ q'.name = name := by
  rw [procedure?_eq] at h ⊢
  cases hkind : (Chain.unknown.read e).kind with
  | none =>
    rw [hkind] at h
    cases h
  | some kind =>
    rw [hkind] at h
    obtain ⟨body, hbody, -⟩ := exists_of_map_eq_ok h
    dsimp only
    rw [hbody]
    exact ⟨_, rfl, withResolver_router _ _, withResolver_name _ _⟩

theorem ofExpression_of_ofExpression
    {r : EntryReader}
    {router : String}
    {p : Node.Property}
    {file : SourceFile}
    {e : Node}
    {q : Procedure}
    (h : r.ofExpression "" p file e = .ok (.procedure q)) :
    ∃ q', r.ofExpression router p file e = .ok (.procedure q') ∧
      q'.router = router ∧ q'.name = p.name := by
  unfold EntryReader.ofExpression at h ⊢
  cases hfound : r.procedure? "" p.name p.entry.line file e with
  | error fault =>
    rw [hfound] at h
    cases h
  | ok found =>
    rw [hfound] at h
    cases found with
    | none => cases h
    | some q =>
      obtain ⟨q', hq', hrouter, hname⟩ := procedure?_of_procedure? router hfound
      rw [hq']
      exact ⟨q', rfl, hrouter, hname⟩

/-- An entry that is a procedure is one of any router that has the entry. -/
theorem entry_of_holdsProcedure
    {r : EntryReader}
    {file : SourceFile}
    {p : Node.Property}
    (h : holdsProcedure r file p)
    (router : String) :
    ∃ q, r.entry router file p = .ok (.procedure q) ∧ q.router = router ∧ q.name = p.name := by
  obtain ⟨q, hq⟩ : ∃ q, r.entry "" file p = .ok (.procedure q) := by
    unfold holdsProcedure at h
    split at h
    · next q hq => exact ⟨q, hq⟩
    · cases h
  unfold EntryReader.entry at hq ⊢
  by_cases href : r.recognition.isReference p.value
  · rw [if_pos href] at hq
    cases hq
  · rw [if_neg href] at hq ⊢
    by_cases hisName : EntryReader.isName p.value
    · rw [if_pos hisName] at hq ⊢
      cases hvalue : r.scope.value p.value.text file with
      | error fault =>
        rw [hvalue] at hq
        cases hq
      | ok answer =>
        rw [hvalue] at hq
        cases answer with
        | error why => cases hq
        | ok found =>
          simp only [bind, Except.bind] at hq ⊢
          split at hq
          · cases hq
          · next hother =>
            rw [if_neg hother]
            exact ofExpression_of_ofExpression hq
    · rw [if_neg hisName] at hq ⊢
      exact ofExpression_of_ofExpression hq

/-- An entry whose value builds a router mounts what the value calls. -/
theorem entry_of_nestedObject?
    {r : EntryReader}
    {n o : Node}
    {p : Node.Property}
    (hp : n.property? = some p)
    (ho : nestedObject? r.recognition p = some o)
    (router : String)
    (file : SourceFile) :
    r.entry router file p = .ok (.reference ⟨router, p.name, targetOf p⟩) := by
  obtain ⟨hcall, -⟩ := nestedObject?_eq_some hp ho
  have hkind := isRouterCall_kind hcall
  have href : r.recognition.isReference p.value := by
    simp only [isRouterCall, Bool.and_eq_true] at hcall
    simp only [Recognition.isReference, hkind, hcall.2]
  unfold EntryReader.entry
  rw [if_pos href]
  rfl

/-- The entries of a router of a name are those of an outline. -/
structure Lists
    (es : List Entry)
    (name : String)
    (o : Outline) :
    Prop where
  mounts : es.filterMap mountOf? = o.mounted.map fun m => ⟨name, m.1, m.2⟩
  procedures :
    (es.filterMap procedureOf?).map (fun q => (q.router, q.name)) =
      o.procedures.map fun procedure => (name, procedure)

/-- The entries of an object that has an outline are read without a fault, under any name. -/
theorem entries_of_outline?
    {r : EntryReader}
    {file : SourceFile}
    {ns : List Node}
    {o : Outline}
    (h : outline? r file ns = some o)
    (name : String) :
    ∃ es, r.entries name file (ns.filterMap Node.property?) = (es, none) ∧ Lists es name o := by
  refine outline?_induction (motive := fun ns o => ∃ es,
    r.entries name file (ns.filterMap Node.property?) = (es, none) ∧ Lists es name o)
    ?nil ?other ?router ?procedure h
  case nil => exact ⟨[], rfl, rfl, rfl⟩
  case other =>
    rintro n rest o hp - ⟨es, hes, hlists⟩
    exact ⟨es, by rw [List.filterMap_cons_none hp, hes], hlists⟩
  case router =>
    rintro n rest p object holds later hp hobject - - - ⟨es, hes, hlists⟩
    refine ⟨.reference ⟨name, p.name, targetOf p⟩ :: es, ?_, ?_, ?_⟩
    · rw [List.filterMap_cons_some hp]
      simp only [EntryReader.entries, entry_of_nestedObject? hp hobject, hes]
    · simp [mountOf?, Outline.mounted, hlists.mounts]
    · rw [List.filterMap_cons_none rfl]
      exact hlists.procedures
  case procedure =>
    rintro n rest p later hp - hprocedure ⟨es, hes, hlists⟩
    obtain ⟨q, hq, hrouter, hname⟩ := entry_of_holdsProcedure hprocedure name
    refine ⟨.procedure q :: es, ?_, ?_, ?_⟩
    · rw [List.filterMap_cons_some hp]
      simp only [EntryReader.entries, hq, hes]
    · rw [List.filterMap_cons_none rfl]
      exact hlists.mounts
    · simp [procedureOf?, Outline.procedures, hlists.procedures, hrouter, hname]

end Entries

section Readings

/-- A router that was read is one of an outline whose routers are named in some way. -/
structure IsReadingOf
    (name : List String → String)
    (x : RouterReading)
    (l : Outline.Level) :
    Prop where
  complete : x.fault = none
  declared : x.declaration.name = name l.path
  lists : Lists x.entries (name l.path) l.holds

theorem properties_of_object
    {o : Node}
    (h : o.kind = .object) :
    o.properties = o.children.filterMap Node.property? := by
  have hself : o.unwrap = o := by
    rw [Node.unwrap, if_neg (by simp [Node.isWrapper, h])]
  have htoken : ∀ n : Node, (if n.isNamed then n.property? else none) = n.property? := by
    intro n
    split
    · rfl
    · next hnamed =>
      have hkind : n.kind = .token := by simpa [Node.isNamed] using hnamed
      simp [Node.property?, hkind]
  simp only [Node.properties, hself, h, Node.namedChildren, List.filterMap_filter, htoken]
  rfl

theorem exists_router?_of_isCallOf
    {r : EntryReader}
    {file : SourceFile}
    {variableName : String}
    {c : RouterCall}
    {l : Outline.Level}
    (h : IsCallOf r file variableName c l) :
    ∃ x, r.router? file c = some x ∧
      IsReadingOf (nameAt variableName (r.relative file.path)) x l := by
  obtain ⟨o, hobject, houtline⟩ := h.object
  obtain ⟨hfirst, hkind⟩ := objectOf?_eq_some hobject
  have hname : Router.title c.name (r.relative file.path) =
      nameAt variableName (r.relative file.path) l.path := by
    rw [h.named, nameAt]
  generalize nameAt variableName (r.relative file.path) = name at hname ⊢
  obtain ⟨es, hes, hlists⟩ := entries_of_outline? houtline (name l.path)
  refine ⟨⟨c.name, ⟨name l.path, r.relative file.path, c.node.line, c.node.endLine⟩, es, none⟩,
    ?_, rfl, rfl, hlists⟩
  simp only [EntryReader.router?, hfirst, hkind, hname, properties_of_object hkind, hes]
  rfl

theorem forall₂_routersAmong
    {r : EntryReader}
    {file : SourceFile}
    {variableName : String}
    {cs : List RouterCall}
    {ls : List Outline.Level}
    (h : List.Forall₂ (IsCallOf r file variableName) cs ls) :
    List.Forall₂ (IsReadingOf (nameAt variableName (r.relative file.path)))
      (r.routersAmong file cs) ls := by
  induction h with
  | nil => exact .nil
  | cons hc _ ih =>
    obtain ⟨x, hx, hreading⟩ := exists_router?_of_isCallOf hc
    have hfault := hreading.complete
    simp only [EntryReader.routersAmong, hx, hfault, Option.isSome_none]
    exact .cons hreading ih

/-- A survey is made of the routers, mounts and procedures of an outline. -/
structure IsSurveyOf
    (name : List String → String)
    (found : Survey)
    (o : Outline) :
    Prop where
  procedures :
    found.procedures.map (fun q => (q.router, q.name)) =
      o.places.map fun place => (name place.1, place.2)
  routers :
    found.graph.routers.map Router.Declaration.name =
      (o.graph name).routers.map Router.Declaration.name
  mounts : found.graph.mounts = (o.graph name).mounts

variable {name : List String → String}

theorem fault_of_readings
    {xs : List RouterReading}
    {ls : List Outline.Level}
    (h : List.Forall₂ (IsReadingOf name) xs ls) :
    ∀ x ∈ xs, x.fault = none := by
  induction h with
  | nil => simp
  | cons hx _ ih =>
    intro y hy
    rcases List.mem_cons.1 hy with rfl | hy
    · exact hx.complete
    · exact ih y hy

theorem procedures_of_readings
    {xs : List RouterReading}
    {ls : List Outline.Level}
    (h : List.Forall₂ (IsReadingOf name) xs ls) :
    (xs.flatMap fun x => x.entries.filterMap procedureOf?).map (fun q => (q.router, q.name)) =
      ls.flatMap fun l => l.holds.procedures.map fun procedure => (name l.path, procedure) := by
  induction h with
  | nil => rfl
  | cons hx _ ih =>
    rw [List.flatMap_cons, List.flatMap_cons, List.map_append, ih, hx.lists.procedures]

theorem mounts_of_readings
    {xs : List RouterReading}
    {ls : List Outline.Level}
    (h : List.Forall₂ (IsReadingOf name) xs ls) :
    (xs.flatMap fun x => x.entries.filterMap mountOf?) =
      ls.flatMap fun l => l.holds.mounted.map fun m => ⟨name l.path, m.1, m.2⟩ := by
  induction h with
  | nil => rfl
  | cons hx _ ih => rw [List.flatMap_cons, List.flatMap_cons, ih, hx.lists.mounts]

theorem names_of_readings
    {xs : List RouterReading}
    {ls : List Outline.Level}
    (h : List.Forall₂ (IsReadingOf name) xs ls) :
    xs.map (fun x => x.declaration.name) = ls.map fun l => name l.path := by
  induction h with
  | nil => rfl
  | cons hx _ ih => rw [List.map_cons, List.map_cons, ih, hx.declared]

/-- What is read of the routers of an outline, and nothing else, is a survey of the outline. -/
theorem isSurveyOf_of_readings
    {xs : List RouterReading}
    {o : Outline}
    (h : List.Forall₂ (IsReadingOf name) xs o.levels) :
    IsSurveyOf name (xs.foldl Survey.addRouter .empty) o := by
  rw [foldl_addRouter, List.filter_eq_self.2 fun x hx => by rw [fault_of_readings h x hx]; rfl]
  refine ⟨?_, ?_, ?_⟩
  · simp only [Survey.empty, List.nil_append, procedures_of_readings h, Outline.places,
      List.map_flatMap, List.map_map, Function.comp_def]
  · simpa [Survey.empty, Router.Graph.empty, Outline.graph, Function.comp_def] using
      names_of_readings h
  · simp only [Survey.empty, Router.Graph.empty, List.nil_append]
    exact mounts_of_readings h

/-- Files that build no routers add nothing to a survey. -/
theorem foldl_surveyed_of_no_calls
    {r : EntryReader}
    {files : List SourceFile}
    (h : ∀ f ∈ files, routerCalls r.recognition f = [])
    (found : Survey) :
    files.foldl (fun found file =>
      (r.routersAmong file (routerCalls r.recognition file)).foldl Survey.addRouter found) found =
        found := by
  induction files generalizing found with
  | nil => rfl
  | cons file rest ih =>
    rw [List.foldl_cons, h file List.mem_cons_self]
    exact ih (fun f hf => h f (List.mem_cons_of_mem _ hf)) found

/-- When one file has an outline and no other builds a router, the survey is one of the outline. -/
theorem isSurveyOf_surveyed
    {r : EntryReader}
    {before after : List SourceFile}
    {file : SourceFile}
    {variableName : String}
    {o : Outline}
    (hothers : ∀ f ∈ before ++ after, routerCalls r.recognition f = [])
    (h : outlineOf? r file = some (variableName, o)) :
    IsSurveyOf (nameAt variableName (r.relative file.path))
      (surveyed r (before ++ file :: after)) o := by
  have hbefore : ∀ f ∈ before, routerCalls r.recognition f = [] :=
    fun f hf => hothers f (List.mem_append_left _ hf)
  have hafter : ∀ f ∈ after, routerCalls r.recognition f = [] :=
    fun f hf => hothers f (List.mem_append_right _ hf)
  rw [surveyed, List.foldl_append, foldl_surveyed_of_no_calls hbefore, List.foldl_cons,
    foldl_surveyed_of_no_calls hafter]
  exact isSurveyOf_of_readings (forall₂_routersAmong (forall₂_routerCalls h))

end Readings

section Results

/-- Procedures are named by the keys of an outline: one by one they are its procedures, and each below
the root has the keys of its router in front of its name. -/
def NamedByKeys
    (o : Outline)
    (found : List Procedure) :
    Prop :=
  List.Forall₂ (fun place q => q.name = place.2 ∧
    (place.1 ≠ [] → q.qualifiedName = joinWith "." (place.1 ++ [place.2]))) o.places found

/-- No two procedures at different key paths below the root are requested under one path. -/
def RequestedApart
    (o : Outline)
    (found : List Procedure) :
    Prop :=
  ∀ basePath, ∀ a ∈ o.places.zip found, ∀ b ∈ o.places.zip found,
    a.1.1 ≠ [] → b.1.1 ≠ [] → requestPath basePath a.2 = requestPath basePath b.2 → a.1.1 = b.1.1

variable {name : List String → String} {o : Outline}

/-- A procedure has the keys of its router in front of its name if its router is renamed to them. -/
theorem qualifiedName_withPath_iff
    {paths : List (String × String)}
    {q : Procedure}
    {path : List String}
    (hrouter : q.router ≠ "")
    (hpath : path ≠ []) :
    (q.withPath paths).qualifiedName = joinWith "." (path ++ [q.name]) ↔
      Router.Graph.renamed paths q.router = joinWith "." path := by
  have hrenamed := renamed_ne_empty paths hrouter
  have hqualified : (q.withPath paths).qualifiedName =
      Router.Graph.renamed paths q.router ++ "." ++ q.name := by
    simp [Procedure.qualifiedName, Procedure.withPath, hrenamed]
  rw [hqualified, Outline.joinWith_concat hpath, String.append_left_inj, String.append_left_inj]

theorem namedByKeys_iff_followsKeys
    {found : Survey}
    (hnames : ∀ l ∈ o.levels, name l.path ≠ "")
    (h : IsSurveyOf name found o) :
    NamedByKeys o found.withPaths.procedures ↔ o.FollowsKeys name := by
  have hpaths : found.graph.resolvePaths = (o.graph name).resolvePaths :=
    Router.Graph.resolvePaths_congr h.routers h.mounts
  have hplaces : ∀ place ∈ o.places, name place.1 ≠ "" := by
    intro place hplace
    obtain ⟨l, hl, -, hpath⟩ := Outline.mem_places.1 hplace
    exact hpath ▸ hnames l hl
  have hprocedures := h.procedures
  simp only [NamedByKeys, Outline.FollowsKeys, Survey.withPaths, hpaths]
  generalize (o.graph name).resolvePaths = paths
  generalize found.procedures = qs at hprocedures
  generalize o.places = places at hplaces hprocedures
  induction places generalizing qs with
  | nil =>
    obtain rfl : qs = [] := by simpa using hprocedures
    simp
  | cons place rest ih =>
    cases qs with
    | nil => cases hprocedures
    | cons q later =>
      simp only [List.map_cons, List.cons.injEq, Prod.mk.injEq] at hprocedures
      obtain ⟨⟨hrouter, hname⟩, hlater⟩ := hprocedures
      have hfull : q.router ≠ "" := hrouter ▸ hplaces place List.mem_cons_self
      have hfirst : place.1 ≠ [] →
          ((q.withPath paths).qualifiedName = joinWith "." (place.1 ++ [place.2]) ↔
            Router.Graph.renamed paths (name place.1) = joinWith "." place.1) := by
        intro hpath
        rw [← hname, ← hrouter]
        exact qualifiedName_withPath_iff hfull hpath
      have hname' : (q.withPath paths).name = place.2 := hname
      have hrest := ih later (fun p hp => hplaces p (List.mem_cons_of_mem _ hp)) hlater
      rw [List.map_cons, List.forall₂_cons, List.forall_mem_cons]
      simp only [hname', true_and]
      exact and_congr (forall_congr' hfirst) hrest

/-- Procedures that are named by keys are requested under different paths when their routers stand at
different key paths below the root. -/
theorem NamedByKeys.requestedApart
    {found : List Procedure}
    (ho : o.isKeyed)
    (h : NamedByKeys o found) :
    RequestedApart o found := by
  have hkeys : ∀ place ∈ o.places, ∀ key ∈ place.1 ++ [place.2], Outline.isKey key := by
    intro place hplace key hkey
    obtain ⟨l, hl, hprocedure, hpath⟩ := Outline.mem_places.1 hplace
    obtain ⟨hkeyed, hpathKeys⟩ := Outline.isKeyed_of_mem_levels ho hl
    rcases List.mem_append.1 hkey with hkey | hkey
    · exact hpathKeys key (hpath ▸ hkey)
    · obtain rfl := List.mem_singleton.1 hkey
      exact Outline.isKey_of_mem_procedures hkeyed hprocedure
  intro basePath a ha b hb haPath hbPath hsame
  have haName := (List.forall₂_zip h ha).2 haPath
  have hbName := (List.forall₂_zip h hb).2 hbPath
  have hnames : a.2.qualifiedName = b.2.qualifiedName := by
    simpa [requestPath] using hsame
  rw [haName, hbName] at hnames
  have hjoined := Outline.joinWith_inj (hkeys _ (List.of_mem_zip ha).1)
    (hkeys _ (List.of_mem_zip hb).1) hnames
  exact (List.append_inj' hjoined rfl).1

/-- In a project whose only routers are those of one outline, the survey finds its procedures. They are
named by the keys of their routers, and requested apart, if every router below the root that holds one is
mounted in place or stands alone. This is also needed when names are plain, or when every router below
the root holds a procedure. It is so when names are apart. -/
theorem survey_namedByKeys
    (s : Site)
    (recognition : Recognition)
    (project : Project)
    (before after : List SourceFile)
    (file : SourceFile)
    (variableName : String)
    (o : Outline)
    (hproject : projectOf s = .ok project)
    (hfiles : project.sourceFiles = before ++ file :: after)
    (hothers : ∀ f ∈ before ++ after, routerCalls recognition f = [])
    (houtline : outlineOf? ⟨recognition, ⟨some project⟩, relativePath s⟩ file =
      some (variableName, o)) :
    ∃ found, EndsIn (survey s recognition) (.ok found) ∧
      (o.InPlace (nameAt variableName (relativePath s file.path)) →
        NamedByKeys o found.procedures ∧ RequestedApart o found.procedures) ∧
      (o.IsPlain (nameAt variableName (relativePath s file.path)) ∨ o.IsInhabited →
        NamedByKeys o found.procedures →
        o.InPlace (nameAt variableName (relativePath s file.path))) ∧
      (o.NamesApart (nameAt variableName (relativePath s file.path)) →
        o.InPlace (nameAt variableName (relativePath s file.path))) := by
  obtain ⟨hvariable, hkeyed, -, -⟩ := forall₂_builds_levels houtline
  have hends := endsIn_survey recognition hproject
  have hsurvey := isSurveyOf_surveyed hothers houtline
  rw [hfiles] at hends
  have hnames : ∀ l ∈ o.levels, nameAt variableName (relativePath s file.path) l.path ≠ "" :=
    fun l hl => Outline.nameAt_ne_empty hvariable (Outline.isKeyed_of_mem_levels hkeyed hl).2
  have hiff := namedByKeys_iff_followsKeys hnames hsurvey
  refine ⟨_, hends, ?_, ?_, Outline.inPlace_of_namesApart⟩
  · intro hplace
    have hnamed := hiff.2 (Outline.followsKeys_of_inPlace hkeyed hplace)
    exact ⟨hnamed, hnamed.requestedApart hkeyed⟩
  · rintro (hplain | hfull) hnamed
    · exact Outline.inPlace_of_isPlain hkeyed hplain (hiff.1 hnamed)
    · exact Outline.inPlace_of_isInhabited hvariable hkeyed hfull (hiff.1 hnamed)

/-- A package of one file, with its configuration above it. -/
def packageOf (source : String) : Site where
  tree := ⟨.directory [("package", .directory [("root.ts", .file (.text source))]),
    ("tsconfig.json", .file (.text "\x7b\x7d"))]⟩
  root := ⟨true, ["package"]⟩
  options := { Options.default with configPath := some ⟨true, ["tsconfig.json"]⟩ }

/-- How routers are recognised when nothing is set. -/
def byDefault : Recognition :=
  .ofTexts [] ""

/-- The files of a site with their outlines. -/
def outlinesOf (s : Site) : Except Fault (List (String × Option (String × Outline))) :=
  (projectOf s).map fun project => project.sourceFiles.map fun file =>
    (relativePath s file.path,
      outlineOf? ⟨byDefault, ⟨some project⟩, relativePath s⟩ file)

theorem exists_file_of_outlinesOf
    {s : Site}
    {path variableName : String}
    {o : Outline}
    (h : outlinesOf s = .ok [(path, some (variableName, o))]) :
    ∃ project file, projectOf s = .ok project ∧ project.sourceFiles = [file] ∧
      relativePath s file.path = path ∧
      outlineOf? ⟨byDefault, ⟨some project⟩, relativePath s⟩ file = some (variableName, o) := by
  unfold outlinesOf at h
  cases hproject : projectOf s with
  | error fault =>
    rw [hproject] at h
    cases h
  | ok project =>
    rw [hproject] at h
    obtain ⟨file, rest, hfiles, hfile, hrest⟩ := List.map_eq_cons_iff.1 (Except.ok.inj h)
    obtain rfl := List.map_eq_nil_iff.1 hrest
    obtain ⟨hpath, houtline⟩ := Prod.mk.inj hfile
    exact ⟨project, file, rfl, hfiles, hpath, houtline⟩

/-- Routers under different keys, one inside the other. -/
def chainPackage : Site :=
  packageOf "const app=router(\x7ba:router(\x7bx:router(\x7bp:q.query()\x7d)\x7d)\x7d)"

/-- The outline of routers under different keys. -/
def chainOutline : Outline :=
  .router "a" "router" (.router "x" "router" (.procedure "p" .nil) .nil) .nil

theorem survey_namedByKeys_chain :
    ∃ project file, projectOf chainPackage = .ok project ∧
      project.sourceFiles = [] ++ file :: [] ∧
      (∀ f ∈ ([] ++ [] : List SourceFile), routerCalls byDefault f = []) ∧
      outlineOf? ⟨byDefault, ⟨some project⟩, relativePath chainPackage⟩ file =
        some ("app", chainOutline) ∧
      ∃ found, EndsIn (survey chainPackage byDefault) (.ok found) ∧
        NamedByKeys chainOutline found.procedures ∧ RequestedApart chainOutline found.procedures := by
  have houtlines : outlinesOf chainPackage = .ok [("root.ts", some ("app", chainOutline))] := by
    decide +kernel
  obtain ⟨project, file, hproject, hfiles, hpath, houtline⟩ := exists_file_of_outlinesOf houtlines
  have hothers : ∀ f ∈ ([] ++ [] : List SourceFile), routerCalls byDefault f = [] := by simp
  obtain ⟨found, hends, hnamed, -, hplace⟩ := survey_namedByKeys chainPackage byDefault project
    [] [] file "app" chainOutline hproject hfiles hothers houtline
  have hapart : chainOutline.NamesApart (nameAt "app" (relativePath chainPackage file.path)) := by
    rw [hpath]
    exact ⟨⟨by decide +kernel, by decide +kernel, by decide +kernel, by decide +kernel⟩,
      by decide +kernel⟩
  exact ⟨project, file, hproject, hfiles, hothers, houtline, found, hends, hnamed (hplace hapart)⟩

/-- Routers under the same key, inside different ones. -/
def sharedKeyPackage : Site :=
  packageOf ("const app=router(\x7ba:router(\x7bx:router(\x7bp:q.query()\x7d)\x7d)," ++
    "b:router(\x7bx:router(\x7bp:q.query()\x7d)\x7d)\x7d)")

/-- The outline of routers that share a key. -/
def sharedKeyOutline : Outline :=
  .router "a" "router" (.router "x" "router" (.procedure "p" .nil) .nil)
    (.router "b" "router" (.router "x" "router" (.procedure "p" .nil) .nil) .nil)

/-- Procedures do not always follow keys that look like those of no router: when two routers share their
last key, both have the path of the first, and so have their procedures. -/
theorem not_namedByKeys_sharedKey :
    ¬∀ (s : Site) (recognition : Recognition) (project : Project) (file : SourceFile)
      (variableName : String) (o : Outline),
      projectOf s = .ok project → project.sourceFiles = [file] →
      outlineOf? ⟨recognition, ⟨some project⟩, relativePath s⟩ file = some (variableName, o) →
      (∀ l ∈ o.levels, ∀ m ∈ l.holds.mounted, recognition.namesRouter m.1 = false) →
      ∃ found, EndsIn (survey s recognition) (.ok found) ∧
        NamedByKeys o found.procedures ∧ RequestedApart o found.procedures := by
  intro h
  have houtlines : outlinesOf sharedKeyPackage =
      .ok [("root.ts", some ("app", sharedKeyOutline))] := by
    decide +kernel
  obtain ⟨project, file, hproject, hfiles, -, houtline⟩ := exists_file_of_outlinesOf houtlines
  obtain ⟨found, hends, hnamed, -⟩ := h sharedKeyPackage byDefault project file "app"
    sharedKeyOutline hproject hfiles houtline (by decide +kernel)
  have hnames : (ends (survey sharedKeyPackage byDefault) .start).map
      (fun found => found.procedures.map Procedure.qualifiedName) = .ok ["a.x.p", "a.x.p"] := by
    decide +kernel
  rw [(hends .start).1] at hnames
  have hqualified : found.procedures.map Procedure.qualifiedName = ["a.x.p", "a.x.p"] :=
    Except.ok.inj hnames
  have hplaces : sharedKeyOutline.places = [(["a", "x"], "p"), (["b", "x"], "p")] := by decide
  rw [NamedByKeys, hplaces] at hnamed
  generalize found.procedures = qs at hqualified hnamed
  cases hnamed with
  | cons _ hrest =>
    cases hrest with
    | cons hsecond hnil =>
      cases hnil
      have hkeys := hsecond.2 (by decide)
      simp only [List.map_cons, List.map_nil, List.cons.injEq] at hqualified
      rw [hqualified.2.1] at hkeys
      revert hkeys
      decide

end Results

end RouteAtlas.Procedures
