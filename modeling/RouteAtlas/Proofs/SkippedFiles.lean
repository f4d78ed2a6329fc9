import Mathlib
import RouteAtlas.Proofs.FileIsolation
import RouteAtlas.Proofs.RecordPlaces

/-!
# Files that end by a fault

The routers of a file are added to a survey one by one, and the entries of a router too, until a fault ends
the reading of the file. What has been added by then stays, although the file is said to be skipped. So a
file is skipped indeed exactly if the fault comes before anything is found in it: in the first object that
a router is built from, after no entry but those that are neither procedures nor mounts.
-/

namespace RouteAtlas.Procedures

open Syntax
open Extraction

section Places

variable {r : EntryReader} {file : SourceFile}

/-- The properties of the object that a call builds a router from. -/
def RouterCall.listed? (c : RouterCall) : Option (List Node.Property) :=
  ((c.node.callArguments.head?).map Node.unwrap).bind fun o =>
    if o.kind == .object then some o.properties else none

/-- The name of the router that a call of a file builds. -/
def EntryReader.nameOf
    (r : EntryReader)
    (file : SourceFile)
    (c : RouterCall) :
    String :=
  Router.title c.name (r.relative file.path)

/-- The router that a call of a file builds, with its entries up to a fault if there is one. -/
def EntryReader.readingOf
    (r : EntryReader)
    (file : SourceFile)
    (c : RouterCall)
    (read : List Entry × Option Fault) :
    RouterReading :=
  ⟨c.name, ⟨r.nameOf file c, r.relative file.path, c.node.line, c.node.endLine⟩, read.1, read.2⟩

@[simp] theorem entries_readingOf
    (r : EntryReader)
    (file : SourceFile)
    (c : RouterCall)
    (read : List Entry × Option Fault) :
    (r.readingOf file c read).entries = read.1 :=
  rfl

theorem router?_eq
    (r : EntryReader)
    (file : SourceFile)
    (c : RouterCall) :
    r.router? file c =
      c.listed?.map fun ps => r.readingOf file c (r.entries (r.nameOf file c) file ps) := by
  unfold EntryReader.router? RouterCall.listed?
  cases (c.node.callArguments.head?).map Node.unwrap with
  | none => rfl
  | some o =>
    dsimp only [Option.bind]
    split <;> rfl

/-- The reading of a file ends by a fault, in the object of a call, when the calls before it have built
some routers and some entries of the object have been read. -/
structure FaultsAt
    (r : EntryReader)
    (file : SourceFile)
    (routers : List RouterReading)
    (c : RouterCall)
    (entries : List Entry)
    (e : Fault) :
    Prop where
  calls : ∃ before after, routerCalls r.recognition file = before ++ c :: after ∧
    before.filterMap (r.router? file) = routers
  complete : ∀ x ∈ routers, x.fault = none
  properties : ∃ before p after, c.listed? = some (before ++ p :: after) ∧
    List.Forall₂ (fun p x => r.entry (r.nameOf file c) file p = .ok x) before entries ∧
    r.entry (r.nameOf file c) file p = .error e

theorem entries_append
    {router : String}
    {before : List Node.Property}
    {es : List Entry}
    (h : List.Forall₂ (fun p x => r.entry router file p = .ok x) before es)
    (rest : List Node.Property) :
    r.entries router file (before ++ rest) =
      (es ++ (r.entries router file rest).1, (r.entries router file rest).2) := by
  induction h with
  | nil => rfl
  | cons hx _ ih => simp only [List.cons_append, EntryReader.entries, hx, ih]

theorem exists_of_entries_error
    {router : String}
    {ps : List Node.Property}
    {es : List Entry}
    {e : Fault}
    (h : r.entries router file ps = (es, some e)) :
    ∃ before p after, ps = before ++ p :: after ∧
      List.Forall₂ (fun p x => r.entry router file p = .ok x) before es ∧
      r.entry router file p = .error e := by
  induction ps generalizing es with
  | nil => cases h
  | cons p rest ih =>
    unfold EntryReader.entries at h
    cases hp : r.entry router file p with
    | error e' =>
      rw [hp] at h
      cases h
      exact ⟨[], p, rest, rfl, .nil, hp⟩
    | ok x =>
      rw [hp] at h
      obtain ⟨rfl, hfault⟩ : x :: (r.entries router file rest).1 = es ∧
          (r.entries router file rest).2 = some e := Prod.mk.inj h
      obtain ⟨before, q, after, rfl, hbefore, hq⟩ := ih (Prod.ext rfl hfault)
      exact ⟨p :: before, q, after, rfl, .cons hp hbefore, hq⟩

theorem routersAmong_append
    {before : List RouterCall}
    (h : ∀ x ∈ before.filterMap (r.router? file), x.fault = none)
    (rest : List RouterCall) :
    r.routersAmong file (before ++ rest) =
      before.filterMap (r.router? file) ++ r.routersAmong file rest := by
  induction before with
  | nil => rfl
  | cons c before ih =>
    rw [List.cons_append, EntryReader.routersAmong]
    cases hc : r.router? file c with
    | none =>
      rw [List.filterMap_cons_none hc] at h ⊢
      exact ih h
    | some x =>
      rw [List.filterMap_cons_some hc] at h ⊢
      obtain ⟨hx, hrest⟩ := List.forall_mem_cons.1 h
      simp only [hx, ih hrest, List.cons_append]
      rfl

/-- The routers of a file whose reading ends by a fault: the last of them is the one with the fault. -/
theorem FaultsAt.routersAmong_eq
    {routers : List RouterReading}
    {c : RouterCall}
    {es : List Entry}
    {e : Fault}
    (h : FaultsAt r file routers c es e) :
    r.routersAmong file (routerCalls r.recognition file) =
      routers ++ [r.readingOf file c (es, some e)] := by
  obtain ⟨before, after, hcalls, rfl⟩ := h.calls
  obtain ⟨ps, p, rest, hlisted, hentries, hfault⟩ := h.properties
  have hread : r.entries (r.nameOf file c) file (ps ++ p :: rest) = (es, some e) := by
    rw [entries_append hentries, EntryReader.entries, hfault, List.append_nil]
  rw [hcalls, routersAmong_append h.complete, EntryReader.routersAmong, router?_eq, hlisted]
  simp only [Option.map_some, hread]
  rfl

/-- The first fault of some calls is that of the object of one of them. -/
theorem exists_of_findSome?_fault
    {calls : List RouterCall}
    {e : Fault}
    (h : (r.routersAmong file calls).findSome? RouterReading.fault = some e) :
    ∃ before c after ps es, calls = before ++ c :: after ∧
      (∀ x ∈ before.filterMap (r.router? file), x.fault = none) ∧
      c.listed? = some ps ∧ r.entries (r.nameOf file c) file ps = (es, some e) := by
  induction calls with
  | nil => cases h
  | cons c rest ih =>
    rw [EntryReader.routersAmong] at h
    cases hc : r.router? file c with
    | none =>
      rw [hc] at h
      obtain ⟨before, c', after, ps, es, rfl, hbefore, hread⟩ := ih h
      refine ⟨c :: before, c', after, ps, es, rfl, ?_, hread⟩
      rwa [List.filterMap_cons_none hc]
    | some x =>
      rw [hc] at h
      cases hx : x.fault with
      | none =>
        simp only [hx, Option.isSome_none, Bool.false_eq_true, if_false, List.findSome?_cons] at h
        obtain ⟨before, c', after, ps, es, rfl, hbefore, hread⟩ := ih h
        refine ⟨c :: before, c', after, ps, es, rfl, ?_, hread⟩
        rw [List.filterMap_cons_some hc]
        exact List.forall_mem_cons.2 ⟨hx, hbefore⟩
      | some e' =>
        simp only [hx, Option.isSome_some, if_true, List.findSome?_cons] at h
        obtain rfl := Option.some.inj h
        rw [router?_eq] at hc
        obtain ⟨ps, hlisted, rfl⟩ := Option.map_eq_some_iff.1 hc
        exact ⟨[], c, rest, ps, _, rfl, by simp, hlisted, Prod.ext rfl hx⟩

/-- A file is said to be skipped exactly if its reading ends by a fault. -/
theorem findSome?_fault_iff
    (r : EntryReader)
    (file : SourceFile)
    (e : Fault) :
    (r.routersAmong file (routerCalls r.recognition file)).findSome? RouterReading.fault = some e ↔
      ∃ routers c es, FaultsAt r file routers c es e := by
  constructor
  · intro h
    obtain ⟨before, c, after, ps, es, hcalls, hbefore, hlisted, hread⟩ := exists_of_findSome?_fault h
    obtain ⟨done, p, rest, rfl, hdone, hp⟩ := exists_of_entries_error hread
    exact ⟨_, c, es, ⟨before, after, hcalls, rfl⟩, hbefore, done, p, rest, hlisted, hdone, hp⟩
  · rintro ⟨routers, c, es, h⟩
    rw [h.routersAmong_eq, List.findSome?_append, List.findSome?_eq_none_iff.2 h.complete]
    rfl

end Places

section Traces

variable {s : Site} {r : EntryReader} {file : SourceFile}
variable {routers : List RouterReading} {c : RouterCall} {es : List Entry} {e : Fault}

/-- Whether an entry is a procedure or a mount. -/
def Entry.isFound : Entry → Bool
  | .reference _ | .mount _ | .procedure _ => true
  | .unresolved _ _ | .other _ => false

theorem forall_isFound_eq_false_iff (es : List Entry) :
    (∀ x ∈ es, x.isFound = false) ↔
      es.filterMap procedureOf? = [] ∧ es.filterMap mountOf? = [] := by
  simp only [List.filterMap_eq_nil_iff, ← forall_and]
  refine forall_congr' fun x => forall_congr' fun _ => ?_
  cases x <;> simp [Entry.isFound, procedureOf?, mountOf?]

/-- What a file leaves in a survey although its reading ends by a fault: the routers before the fault, and
the entries before it of the router that is not declared. -/
theorem FaultsAt.endsIn_surveyFile
    (h : FaultsAt r file routers c es e)
    (before : Survey) :
    EndsIn (surveyFile s r before file)
      (.ok ⟨before.procedures ++
          ((routers.flatMap fun x => x.entries.filterMap procedureOf?) ++ es.filterMap procedureOf?),
        ⟨before.graph.routers ++ routers.map RouterReading.declaration,
          before.graph.mounts ++
            ((routers.flatMap fun x => x.entries.filterMap mountOf?) ++ es.filterMap mountOf?)⟩⟩) := by
  have hcomplete : routers.filter (fun x => x.fault.isNone) = routers :=
    List.filter_eq_self.2 fun x hx => by rw [h.complete x hx]; rfl
  have hends := Procedures.endsIn_surveyFile s r before file
  rw [h.routersAmong_eq, foldl_addRouter, List.filter_append, hcomplete] at hends
  simpa [EntryReader.readingOf] using hends

/-- A file that ends by a fault leaves a survey as it is exactly if nothing has been found in it before. -/
theorem FaultsAt.leaves_iff (h : FaultsAt r file routers c es e) :
    (∀ before, EndsIn (surveyFile s r before file) (.ok before)) ↔
      routers = [] ∧ ∀ x ∈ es, x.isFound = false := by
  rw [forall_isFound_eq_false_iff]
  constructor
  · intro hsame
    have hends := (h.endsIn_surveyFile (s := s) .empty .start).1.symm.trans (hsame .empty .start).1
    simp only [Survey.empty, Router.Graph.empty, List.nil_append, Except.ok.injEq, Survey.mk.injEq,
      Router.Graph.mk.injEq, List.append_eq_nil_iff, List.map_eq_nil_iff] at hends
    exact ⟨hends.2.1, hends.1.2, hends.2.2.2⟩
  · rintro ⟨rfl, hprocedures, hmounts⟩ before
    simpa [hprocedures, hmounts] using h.endsIn_surveyFile (s := s) before

end Traces

section Surveys

variable {s : Site} {recognition : Recognition} {project : Project}
variable {earlier later : List SourceFile} {file : SourceFile}
variable {routers : List RouterReading} {c : RouterCall} {es : List Entry} {e : Fault}

/-- How the entries of the routers of a project are read. -/
def readerOf
    (s : Site)
    (recognition : Recognition)
    (project : Project) :
    EntryReader :=
  ⟨recognition, ⟨some project⟩, relativePath s⟩

/-- The handlers of what a survey has found. -/
def handlersOf
    (s : Site)
    (found : Survey) :
    Except Fault (List Handler) :=
  match s.options.basePath, found.procedures with
  | _, [] => .ok []
  | .str basePath, ps => .ok (ps.map (handlerOf s basePath))
  | _, _ => .error .unsupportedOperation

theorem structured_eq
    (s : Site)
    (recognition : Recognition) :
    structured s recognition =
      survey s recognition >>= fun found => Extraction.ofExcept (handlersOf s found) := by
  unfold structured
  refine congrArg _ (funext fun found => ?_)
  unfold handlersOf
  cases found.procedures with
  | nil => cases s.options.basePath <;> rfl
  | cons q rest => cases s.options.basePath <;> rfl

/-- The handlers of a project that is read are those of its survey. -/
theorem endsIn_structured
    (hproject : projectOf s = .ok project) :
    EndsIn (structured s recognition)
      (handlersOf s (surveyed (readerOf s recognition project) project.sourceFiles).withPaths) := by
  rw [structured_eq]
  exact (endsIn_survey recognition hproject).bind (endsIn_ofExcept _)

theorem surveyed_eq
    (r : EntryReader)
    (files : List SourceFile) :
    surveyed r files = (files.flatMap fun file =>
      r.routersAmong file (routerCalls r.recognition file)).foldl Survey.addRouter .empty := by
  rw [surveyed, List.foldl_flatMap]

/-- A file is skipped in the survey of a project: what has been found before it stays as it is, and the
procedures and routers of the project, and the handlers, are those that there are without the routers of the
file. -/
structure Skips
    (s : Site)
    (recognition : Recognition)
    (project : Project)
    (earlier : List SourceFile)
    (file : SourceFile)
    (later : List SourceFile) :
    Prop where
  leaves : ∀ before, EndsIn (surveyFile s (readerOf s recognition project) before file) (.ok before)
  surveys : EndsIn (survey s recognition)
    (.ok (surveyed (readerOf s recognition project) (earlier ++ later)).withPaths)
  handles : EndsIn (structured s recognition)
    (handlersOf s (surveyed (readerOf s recognition project) (earlier ++ later)).withPaths)

/-- Files before and after one that adds nothing to a survey. -/
theorem surveyed_append_of_leaves
    {r : EntryReader}
    (h : ∀ before, EndsIn (surveyFile s r before file) (.ok before)) :
    surveyed r (earlier ++ file :: later) = surveyed r (earlier ++ later) := by
  have hsame (before : Survey) :
      (r.routersAmong file (routerCalls r.recognition file)).foldl Survey.addRouter before = before :=
    Except.ok.inj ((endsIn_surveyFile s r before file .start).1.symm.trans (h before .start).1)
  rw [surveyed, surveyed, List.foldl_append, List.foldl_append, List.foldl_cons, hsame]

/-- How much a survey has found. -/
def Survey.sizes (found : Survey) : Nat × Nat × Nat :=
  (found.procedures.length, found.graph.routers.length, found.graph.mounts.length)

theorem sizes_withPaths (found : Survey) : found.withPaths.sizes = found.sizes := by
  simp [Survey.sizes, Survey.withPaths, Router.Graph.withPaths]

theorem sizes_surveyed
    (r : EntryReader)
    (files : List SourceFile) :
    let readings := files.flatMap fun file => r.routersAmong file (routerCalls r.recognition file)
    (surveyed r files).sizes =
      ((readings.flatMap fun x => x.entries.filterMap procedureOf?).length,
        (readings.filter fun x => x.fault.isNone).length,
        (readings.flatMap fun x => x.entries.filterMap mountOf?).length) := by
  rw [surveyed_eq, foldl_addRouter]
  simp [Survey.sizes, Survey.empty, Router.Graph.empty]

/-- Nothing has been found in a file if a survey finds as much without it. -/
theorem FaultsAt.nothing_of_sizes_eq
    {r : EntryReader}
    (hfault : FaultsAt r file routers c es e)
    (h : (surveyed r (earlier ++ file :: later)).sizes = (surveyed r (earlier ++ later)).sizes) :
    routers = [] ∧ ∀ x ∈ es, x.isFound = false := by
  have hcomplete : routers.filter (fun x => x.fault.isNone) = routers :=
    List.filter_eq_self.2 fun x hx => by rw [hfault.complete x hx]; rfl
  simp only [sizes_surveyed, List.flatMap_append, List.flatMap_cons, List.flatMap_nil,
    hfault.routersAmong_eq, entries_readingOf, List.filter_append, hcomplete, List.length_append,
    List.length_nil, Prod.mk.injEq] at h
  obtain ⟨hprocedures, hrouters, hmounts⟩ := h
  rw [forall_isFound_eq_false_iff]
  exact ⟨List.eq_nil_of_length_eq_zero (by omega), List.eq_nil_of_length_eq_zero (by omega),
    List.eq_nil_of_length_eq_zero (by omega)⟩

/-- A survey is that of a project without the file exactly if nothing has been found in it before its
fault. -/
theorem FaultsAt.endsIn_survey_iff
    (hproject : projectOf s = .ok project)
    (hfiles : project.sourceFiles = earlier ++ file :: later)
    (hfault : FaultsAt (readerOf s recognition project) file routers c es e) :
    EndsIn (survey s recognition)
        (.ok (surveyed (readerOf s recognition project) (earlier ++ later)).withPaths) ↔
      routers = [] ∧ ∀ x ∈ es, x.isFound = false := by
  have hsurvey : EndsIn (survey s recognition)
      (.ok (surveyed (readerOf s recognition project) (earlier ++ file :: later)).withPaths) :=
    hfiles ▸ endsIn_survey recognition hproject
  constructor
  · intro h
    have hsame := congrArg Survey.sizes
      (Except.ok.inj ((hsurvey .start).1.symm.trans (h .start).1))
    rw [sizes_withPaths, sizes_withPaths] at hsame
    exact hfault.nothing_of_sizes_eq hsame
  · intro h
    rwa [surveyed_append_of_leaves ((hfault.leaves_iff (s := s)).2 h)] at hsurvey

end Surveys

section HalfRead

/-- A project of two files, each with an entry that is imported from a module that stands for a path without
a name. It is the first entry of the one file, and stands behind a procedure in the other. -/
def halfRead : Site where
  tree := ⟨.directory [
    ("early.ts", .file (.text ("import \x7b other \x7d from \"/\";\n" ++
      "const user = router(\x7b other, list: t.query(() => 1) \x7d);\n"))),
    ("late.ts", .file (.text ("import \x7b other \x7d from \"/\";\n" ++
      "const app = router(\x7b ping: t.query(() => 1), other \x7d);\n"))),
    ("tsconfig.json", .file (.text
      "\x7b\"compilerOptions\":\x7b\"baseUrl\":\".\"\x7d\x7d"))]⟩
  root := ⟨true, []⟩
  options := .default

/-- What the project is loaded from. -/
def halfLoader : Project.Loader :=
  ⟨halfRead.tree, halfRead.root, none, .ofPatterns []⟩

/-- The project, loaded. -/
def halfProject : Project :=
  ⟨halfRead.tree, halfRead.root, some .basedAtTop,
    [⟨true, ["early.ts"]⟩, ⟨true, ["late.ts"]⟩], []⟩

theorem walk_halfRead (enter : String → Bool) :
    halfRead.tree.walk enter halfRead.root =
      [⟨true, ["early.ts"]⟩, ⟨true, ["late.ts"]⟩, ⟨true, ["tsconfig.json"]⟩] := by
  show Files.Tree.walkEntries _ _ 1 _ _ = _
  rw [Files.Tree.walkEntries, Files.Tree.sortEntries_of_pairwise (by decide)]
  rfl

theorem projectOf_halfRead : projectOf halfRead = .ok halfProject.readAll := by
  have hconfig : halfLoader.readConfig? = .ok (some .basedAtTop) :=
    Project.Loader.readConfig_of_isBasedAtTop (by decide +kernel)
  have hfound : halfLoader.findFiles ["src/server/api/**/*.\x7bts,tsx\x7d"] = [] := by
    rw [Project.Loader.findFiles, Project.Loader.walk,
      show halfLoader.tree.walk _ halfLoader.root = _ from walk_halfRead _]
    decide +kernel
  have hlisted : halfLoader.configFiles .basedAtTop =
      .ok [⟨true, ["early.ts"]⟩, ⟨true, ["late.ts"]⟩] := by
    have hbase : (if halfLoader.root.isBelow Project.Config.basedAtTop.directory then
        halfLoader.root else Project.Config.basedAtTop.directory) = halfLoader.root := rfl
    simp only [Project.Loader.configFiles, hbase, Project.Loader.walk,
      show halfLoader.tree.walk _ halfLoader.root = _ from walk_halfRead _]
    decide +kernel
  exact projectOf_eq_of_listed (l := halfLoader) rfl rfl rfl hconfig hlisted hfound

/-- How the entries of its routers are read. -/
def halfReader : EntryReader :=
  readerOf halfRead Site.usualRecognition halfProject.readAll

/-- Of each router of its files, which of the entries are procedures or mounts, and how its reading ended. -/
theorem readings_halfProject :
    halfProject.readAll.sourceFiles.map (fun file =>
      (halfReader.routersAmong file (routerCalls halfReader.recognition file)).map fun x =>
        (x.entries.map Entry.isFound, x.fault)) =
      [[([], some .invalidValue)], [([true], some .invalidValue)]] := by
  decide +kernel

/-- A file with one router, whose reading ends by a fault. -/
theorem exists_faultsAt_of_readings
    {r : EntryReader}
    {file : SourceFile}
    {marks : List Bool}
    {e : Fault}
    (h : ((r.routersAmong file (routerCalls r.recognition file)).map fun x =>
      (x.entries.map Entry.isFound, x.fault)) = [(marks, some e)]) :
    ∃ c es, FaultsAt r file [] c es e ∧ es.map Entry.isFound = marks := by
  obtain ⟨x, hx, hmarks⟩ := List.map_eq_singleton_iff.1 h
  obtain ⟨hentries, hfault⟩ := Prod.mk.inj hmarks
  obtain ⟨routers, c, es, hfaults⟩ := (findSome?_fault_iff r file e).1 (by simp [hx, hfault])
  have hreadings := hfaults.routersAmong_eq
  rw [hx] at hreadings
  obtain rfl : routers = [] := by
    have hlength := congrArg List.length hreadings
    simpa using hlength
  obtain rfl := List.singleton_inj.1 hreadings
  exact ⟨c, es, hfaults, hentries⟩

/-- The two files of the project, and where their reading ends. -/
theorem exists_files_halfProject :
    ∃ early late, halfProject.readAll.sourceFiles = [early, late] ∧
      (∃ c, FaultsAt halfReader early [] c [] .invalidValue) ∧
      ∃ c x, FaultsAt halfReader late [] c [x] .invalidValue ∧ x.isFound = true := by
  have hreadings := readings_halfProject
  obtain ⟨early, rest, hfiles, hearly, hrest⟩ := List.map_eq_cons_iff.1 hreadings
  obtain ⟨late, rfl, hlate⟩ := List.map_eq_singleton_iff.1 hrest
  obtain ⟨c, es, hfault, hes⟩ := exists_faultsAt_of_readings hearly
  obtain ⟨c', es', hfault', hes'⟩ := exists_faultsAt_of_readings hlate
  obtain rfl := List.map_eq_nil_iff.1 hes
  obtain ⟨x, rfl, hx⟩ := List.map_eq_singleton_iff.1 hes'
  exact ⟨early, late, hfiles, ⟨c, hfault⟩, c', x, hfault', hx⟩

end HalfRead

section Results

variable {s : Site} {recognition : Recognition} {project : Project}
variable {earlier later : List SourceFile} {file : SourceFile}
variable {routers : List RouterReading} {c : RouterCall} {es : List Entry} {e : Fault}

/-- A file whose reading ends by a fault is skipped exactly if the fault is in the first object that a router
is built from, and each entry before it is neither a procedure nor a mount. -/
theorem skips_iff
    (hproject : projectOf s = .ok project)
    (hfiles : project.sourceFiles = earlier ++ file :: later)
    (hfault : FaultsAt (readerOf s recognition project) file routers c es e) :
    Skips s recognition project earlier file later ↔
      routers = [] ∧ ∀ x ∈ es, x.isFound = false := by
  constructor
  · exact fun h => hfault.leaves_iff.1 h.leaves
  · intro h
    have hsurvey := (hfault.endsIn_survey_iff hproject hfiles).2 h
    refine ⟨hfault.leaves_iff.2 h, hsurvey, ?_⟩
    rw [structured_eq]
    exact hsurvey.bind (endsIn_ofExcept _)

theorem skips_iff_halfRead :
    projectOf halfRead = .ok halfProject.readAll ∧
      ∃ early late c, halfProject.readAll.sourceFiles = [] ++ early :: [late] ∧
        FaultsAt halfReader early [] c [] .invalidValue ∧
        Skips halfRead Site.usualRecognition halfProject.readAll [] early [late] := by
  obtain ⟨early, late, hfiles, ⟨c, hfault⟩, -⟩ := exists_files_halfProject
  exact ⟨projectOf_halfRead, early, late, c, hfiles, hfault,
    (skips_iff projectOf_halfRead hfiles hfault).2 ⟨rfl, nofun⟩⟩

/-- The second file is not skipped although its reading ends by a fault: its first entry stays. -/
theorem not_skips_halfRead :
    ¬ ∀ project earlier file later, projectOf halfRead = .ok project →
      project.sourceFiles = earlier ++ file :: later →
      ∀ routers c es e,
        FaultsAt (readerOf halfRead Site.usualRecognition project) file routers c es e →
        Skips halfRead Site.usualRecognition project earlier file later := by
  intro hall
  obtain ⟨early, late, hfiles, -, c, x, hfault, hx⟩ := exists_files_halfProject
  have hskips := hall _ [early] late [] projectOf_halfRead hfiles [] c [x] _ hfault
  have hnothing := (hfault.leaves_iff.1 hskips.leaves).2 x (List.mem_singleton_self x)
  rw [hx] at hnothing
  cases hnothing

end Results

end RouteAtlas.Procedures
