import Mathlib
import RouteAtlas.Lint
import RouteAtlas.Proofs.Constructs

/-!
# Where records point to

A procedure names a file and a line too. The line is that of an entry of a router, and the file is the one
where the procedure is written out, which is another one than that of the router when the entry is a name that
is imported. So all handlers and procedures of a project point to what they describe, and so do the findings
about them, exactly when the functions for methods are declared in the route files and the procedures are
written out in the files of their routers.
-/

namespace RouteAtlas

open Files
open Syntax (Node SourceFile)
open Extraction

namespace Procedures

section Entries

variable {s : Site} {recognition : Recognition}

/-- An entry of a router of a project of procedures. -/
structure RouterEntry where
  project : Project
  file : SourceFile
  property : Node.Property

namespace RouterEntry

/-- The entry as a construct. -/
def construct (e : RouterEntry) : Construct :=
  ⟨e.file, e.property.entry⟩

/-- How entries of a project of a site are read. -/
def reader
    (s : Site)
    (recognition : Recognition)
    (e : RouterEntry) :
    EntryReader :=
  ⟨recognition, ⟨some e.project⟩, relativePath s⟩

/-- The file where a procedure that is an entry is written out. -/
def home
    (s : Site)
    (recognition : Recognition)
    (e : RouterEntry) :
    SourceFile :=
  (e.reader s recognition).homeOf e.file e.property

/-- An entry is the one that a procedure of a survey describes. -/
structure Describes
    (s : Site)
    (recognition : Recognition)
    (q : Procedure)
    (e : RouterEntry) :
    Prop where
  project_eq : projectOf s = .ok e.project
  file_mem : e.file ∈ e.project.sourceFiles
  listed : ∃ call ∈ routerCalls recognition e.file, call.Lists e.property ∧
    ∃ q' paths, (e.reader s recognition).entry (Router.title call.name (relativePath s e.file.path))
      e.file e.property = .ok (.procedure q') ∧ q = q'.withPath paths

end RouterEntry

/-- A procedure that a survey of a site finds. -/
def Surveys
    (s : Site)
    (recognition : Recognition)
    (q : Procedure) :
    Prop :=
  ∃ p found, ends (survey s recognition) p = .ok found ∧ q ∈ found.procedures

theorem exists_routerEntry
    {q : Procedure}
    (h : Surveys s recognition q) :
    ∃ e, RouterEntry.Describes s recognition q e := by
  obtain ⟨p, found, hends, hq⟩ := h
  obtain ⟨answer, hanswer, hfound⟩ := settled_survey s recognition
  obtain ⟨project, hproject, rfl⟩ := hfound found ((hanswer p).1.symm.trans hends)
  obtain ⟨q', hq', rfl⟩ := List.mem_map.1 hq
  obtain ⟨file, hfile, call, property, hcall, hlists, hentry⟩ := foundIn_of_mem_surveyed hq'
  exact ⟨⟨project, file, property⟩, hproject, hfile, call, hcall, hlists, q', _, hentry, rfl⟩

namespace RouterEntry

variable {q : Procedure} {e : RouterEntry}

theorem Describes.standsIn (h : e.Describes s recognition q) : e.construct.StandsIn s := by
  obtain ⟨patterns, hsource⟩ := exists_isSource_of_projectOf h.project_eq h.file_mem
  obtain ⟨-, -, -, hread⟩ := readBelow_of_isSource hsource
  obtain ⟨call, hcall, hlists, -⟩ := h.listed
  exact ⟨hread, hlists.mem_subtree hcall⟩

/-- A procedure is recorded with the file where it is written out, but with the line of its entry. -/
theorem Describes.place_eq
    (h : e.Describes s recognition q) :
    Project.ReadBelow s.tree (s.tree.resolve s.root) (e.home s recognition) ∧
      q.filePath = relativePath s (e.home s recognition).path ∧ q.line = e.construct.node.line := by
  obtain ⟨patterns, hsource⟩ := exists_isSource_of_projectOf h.project_eq h.file_mem
  obtain ⟨htree, hroot, hholds, hread⟩ := readBelow_of_isSource hsource
  obtain ⟨call, -, -, q', paths, hentry, rfl⟩ := h.listed
  obtain ⟨value, hwritten⟩ := exists_written_homeOf (e.reader s recognition) e.file e.property
  have hrecorded := recorded_homeOf hentry
  refine ⟨?_, hrecorded.filePath_eq, hrecorded.line_eq⟩
  rw [← hroot, ← htree] at hread ⊢
  exact hwritten.readBelow hholds rfl hread

/-- A procedure points to the entry that it describes exactly if it is written out in the file of the
entry. -/
theorem Describes.isAt_iff
    (ht : s.tree.HasFileNames)
    (h : e.Describes s recognition q) :
    e.construct.IsAt s (relativePath s) q.filePath q.line ↔ (e.home s recognition).path = e.file.path := by
  obtain ⟨hhome, hfile, hline⟩ := h.place_eq
  have hstands := h.standsIn
  constructor
  · intro hat
    exact path_eq_of_relativePath_eq ht hhome hstands.read (hfile.symm.trans hat.file_eq)
  · intro hpath
    rw [hline]
    exact hstands.isAt (hpath ▸ hfile)

end RouterEntry

/-- The handler of a procedure is reported for the file of the procedure. -/
theorem isAt_handlerOf
    (ht : s.tree.HasFileNames)
    {q : Procedure}
    {c : Construct}
    (h : c.IsAt s (relativePath s) q.filePath q.line)
    (basePath : String) :
    c.IsAt s Path.toText (handlerOf s basePath q).filePath (handlerOf s basePath q).line := by
  refine ⟨h.read, ?_, h.one_le, h.le_lineCount, h.starts⟩
  show (s.root.join (Path.ofText q.filePath)).toText = c.file.path.toText
  rw [h.file_eq, join_relativePath ht h.read.absolute h.read.reached]

theorem exists_surveys
    {h : Handler}
    (hfinds : Finds (structured s recognition) h) :
    ∃ basePath q, Surveys s recognition q ∧ h = handlerOf s basePath q := by
  obtain ⟨p, hs, hends, hh⟩ := hfinds
  obtain ⟨found, hfound, hrest⟩ := exists_of_ends_bind hends
  split at hrest
  · cases hrest
    cases hh
  · next basePath hbase _ =>
    cases hrest
    obtain ⟨q, hq, rfl⟩ := List.mem_map.1 hh
    exact ⟨basePath, q, ⟨p, found, hfound, hq⟩, rfl⟩
  · cases hrest

end Entries

end Procedures

section Findings

theorem Lint.place_of_mem_findIf
    {condition : Bool}
    {f g : Finding}
    (h : g ∈ Lint.findIf condition f) :
    g.filePath = f.filePath ∧ g.line = f.line := by
  unfold Lint.findIf at h
  split at h
  · rw [List.mem_singleton.1 h]
    exact ⟨rfl, rfl⟩
  · cases h

theorem Lint.place_of_mem_heavy
    {lines line : Nat}
    {what filePath target : String}
    {g : Finding}
    (h : g ∈ Lint.heavy lines what filePath line target) :
    g.filePath = filePath ∧ g.line = line := by
  obtain ⟨severity, -, rfl⟩ := List.mem_map.1 h
  exact ⟨rfl, rfl⟩

/-- The findings about a handler point to where the handler points to. -/
theorem Lint.place_of_mem_ofHandler
    {h : Handler}
    {g : Finding}
    (hg : g ∈ Lint.ofHandler h) :
    g.filePath = h.filePath ∧ g.line = h.line := by
  unfold Lint.ofHandler at hg
  simp only [List.mem_append] at hg
  rcases hg with (hg | hg) | hg
  · exact Lint.place_of_mem_findIf hg
  · exact Lint.place_of_mem_findIf hg
  · exact Lint.place_of_mem_heavy hg

/-- The findings about a procedure point to where the procedure points to. -/
theorem Lint.place_of_mem_ofProcedure
    {q : Procedure}
    {g : Finding}
    (hg : g ∈ Lint.ofProcedure q) :
    g.filePath = q.filePath ∧ g.line = q.line := by
  unfold Lint.ofProcedure at hg
  simp only [List.mem_append] at hg
  rcases hg with ((((((hg | hg) | hg) | hg) | hg) | hg) | hg) | hg
  case inl.inl.inr => exact Lint.place_of_mem_heavy hg
  all_goals exact Lint.place_of_mem_findIf hg

end Findings

namespace Framework

section Frameworks

/-- How handlers of a framework are extracted by syntax trees. -/
def structured
    (f : Framework)
    (s : Site) :
    Except Fault (Extraction (List Handler)) :=
  match f with
  | appRouter => .ok (FileRoutes.App.structured s)
  | pagesRouter => .ok (FileRoutes.Pages.structured s)
  | trpc => do
    let r ← Procedures.Recognition.ofSettings s.options.routerFactories s.options.routerPattern
    return Procedures.structured s r
  | nest => .ok (Controllers.structured s)

/-- What a handler of a framework describes. -/
def Describes
    (f : Framework)
    (s : Site)
    (h : Handler)
    (c : Construct) :
    Prop :=
  match f with
  | appRouter => FileRoutes.App.Describes s h c
  | pagesRouter => FileRoutes.Pages.Describes s h c
  | trpc => ∃ recognition basePath q e, h = Procedures.handlerOf s basePath q ∧
      Procedures.RouterEntry.Describes s recognition q e ∧ c = e.construct
  | nest => Controllers.Describes s h c

end Frameworks

end Framework

namespace Site

section Records

variable {s : Site}

open Procedures (Recognition RouterEntry Surveys)

/-- All handlers and procedures that are extracted by syntax trees point to what they describe, and so do
the findings about them. -/
structure Locates (s : Site) : Prop where
  handlers : ∀ (f : Framework) work, f.structured s = .ok work → ∀ h, Finds work h →
    ∃ c, f.Describes s h c ∧ c.IsAt s Path.toText h.filePath h.line ∧
      ∀ g ∈ Lint.ofHandler h, c.IsAt s Path.toText g.filePath g.line
  procedures : ∀ recognition,
    Recognition.ofSettings s.options.routerFactories s.options.routerPattern = .ok recognition →
      ∀ q, Surveys s recognition q →
        ∃ e, RouterEntry.Describes s recognition q e ∧
          e.construct.IsAt s (relativePath s) q.filePath q.line ∧
          ∀ g ∈ Lint.ofProcedure q, e.construct.IsAt s (relativePath s) g.filePath g.line

/-- The functions for the methods of route files are declared in these files, and procedures are written out
in the files of their routers. -/
structure DeclaresInPlace (s : Site) : Prop where
  verbs : ∀ h, Finds (FileRoutes.App.structured s) h →
    ∃ project file, FileRoutes.App.IsFoundIn s project file h ∧
      (FileRoutes.App.constructOf project file h.method).file.path = file.path
  procedures : ∀ recognition,
    Recognition.ofSettings s.options.routerFactories s.options.routerPattern = .ok recognition →
      ∀ q, Surveys s recognition q →
        ∃ e, RouterEntry.Describes s recognition q e ∧ (e.home s recognition).path = e.file.path

/-- The findings about a handler are right about its place if the handler is. -/
theorem isAt_ofHandler
    {c : Construct}
    {h : Handler}
    (hat : c.IsAt s Path.toText h.filePath h.line) :
    ∀ g ∈ Lint.ofHandler h, c.IsAt s Path.toText g.filePath g.line := by
  intro g hg
  obtain ⟨hfile, hline⟩ := Lint.place_of_mem_ofHandler hg
  rwa [hfile, hline]

theorem isAt_ofProcedure
    {c : Construct}
    {q : Procedure}
    (hat : c.IsAt s (relativePath s) q.filePath q.line) :
    ∀ g ∈ Lint.ofProcedure q, c.IsAt s (relativePath s) g.filePath g.line := by
  intro g hg
  obtain ⟨hfile, hline⟩ := Lint.place_of_mem_ofProcedure hg
  rwa [hfile, hline]

theorem Locates.declaresInPlace
    (ht : s.tree.HasFileNames)
    (h : s.Locates) :
    s.DeclaresInPlace where
  verbs x hx := by
    obtain ⟨c, ⟨project, file, hfound, rfl⟩, hat, -⟩ := h.handlers .appRouter _ rfl x hx
    exact ⟨project, file, hfound, (hfound.isAt_iff ht).1 hat⟩
  procedures recognition hr q hq := by
    obtain ⟨e, hdescribes, hat, -⟩ := h.procedures recognition hr q hq
    exact ⟨e, hdescribes, (hdescribes.isAt_iff ht).1 hat⟩

theorem DeclaresInPlace.exists_isAt
    (ht : s.tree.HasFileNames)
    (h : s.DeclaresInPlace)
    {f : Framework}
    {work : Extraction (List Handler)}
    (hwork : f.structured s = .ok work)
    {x : Handler}
    (hx : Finds work x) :
    ∃ c, f.Describes s x c ∧ c.IsAt s Path.toText x.filePath x.line := by
  cases f with
  | appRouter =>
    obtain rfl := Except.ok.inj hwork
    obtain ⟨project, file, hfound, hpath⟩ := h.verbs x hx
    exact ⟨_, ⟨project, file, hfound, rfl⟩, (hfound.isAt_iff ht).2 hpath⟩
  | pagesRouter =>
    obtain rfl := Except.ok.inj hwork
    exact FileRoutes.exists_pagesDescribes hx
  | trpc =>
    obtain ⟨recognition, hr, hwork⟩ := exists_of_bind_eq_ok hwork
    obtain rfl := Except.ok.inj hwork
    obtain ⟨basePath, q, hq, rfl⟩ := Procedures.exists_surveys hx
    obtain ⟨e, hdescribes, hpath⟩ := h.procedures recognition hr q hq
    refine ⟨_, ⟨recognition, basePath, q, e, rfl, hdescribes, rfl⟩, ?_⟩
    exact Procedures.isAt_handlerOf ht ((hdescribes.isAt_iff ht).2 hpath) basePath
  | nest =>
    obtain rfl := Except.ok.inj hwork
    exact Controllers.exists_describes hx

/-- All handlers and procedures point to what they describe exactly if the functions for methods are declared
in the route files and the procedures are written out in the files of their routers. -/
theorem locates_iff (ht : s.tree.HasFileNames) : s.Locates ↔ s.DeclaresInPlace := by
  refine ⟨fun h => h.declaresInPlace ht, fun h => ⟨fun f work hwork x hx => ?_, fun recognition hr q hq => ?_⟩⟩
  · obtain ⟨c, hdescribes, hat⟩ := h.exists_isAt ht hwork hx
    exact ⟨c, hdescribes, hat, isAt_ofHandler hat⟩
  · obtain ⟨e, hdescribes, hpath⟩ := h.procedures recognition hr q hq
    have hat := (hdescribes.isAt_iff ht).2 hpath
    exact ⟨e, hdescribes, hat, isAt_ofProcedure hat⟩

/-- Whether a file exports nothing from other files. -/
def exportsOwn (f : SourceFile) : Bool :=
  f.exports.all fun e => (e.moduleName.filter fun m => !m.isEmpty).isNone

/-- Whether no entry of the routers of a file is a name. -/
def listsNoNames
    (recognition : Recognition)
    (f : SourceFile) :
    Bool :=
  (Procedures.routerCalls recognition f).all fun call =>
    ((call.node.callArguments.head?).map Node.unwrap).all fun o =>
      o.properties.all fun p => !Procedures.EntryReader.isName p.value

/-- What is exported from a route file is declared there unless another file is named, and what is an entry of
a router is written out there unless it is a name. -/
theorem declaresInPlace_of_all
    (hexports : ∀ project file, IsSource s FileRoutes.App.patterns project file → exportsOwn file)
    (hentries : ∀ recognition,
      Recognition.ofSettings s.options.routerFactories s.options.routerPattern = .ok recognition →
        ∀ project, Procedures.projectOf s = .ok project → ∀ file ∈ project.sourceFiles,
          listsNoNames recognition file) :
    s.DeclaresInPlace where
  verbs x hx := by
    obtain ⟨project, file, hfound⟩ := FileRoutes.exists_isFoundIn hx
    have hown := List.all_eq_true.1 (hexports project file hfound.source)
    refine ⟨project, file, hfound, ?_⟩
    rw [FileRoutes.constructOf_file_of_exports fun e he => Option.isNone_iff_eq_none.1 (hown e he)]
  procedures recognition hr q hq := by
    obtain ⟨e, hdescribes⟩ := Procedures.exists_routerEntry hq
    obtain ⟨call, hcall, ⟨o, ho, -, hproperty⟩, -⟩ := hdescribes.listed
    have hnone := List.all_eq_true.1 (hentries recognition hr e.project hdescribes.project_eq e.file
      hdescribes.file_mem) call hcall
    rw [ho] at hnone
    have hname : Procedures.EntryReader.isName e.property.value = false := by
      simpa using List.all_eq_true.1 hnone e.property hproperty
    refine ⟨e, hdescribes, ?_⟩
    rw [RouterEntry.home, Procedures.EntryReader.homeOf, hname]
    rfl

/-- The source files of the project that some globs select at a site. -/
def sourcesOf
    (s : Site)
    (patterns : List String) :
    Except Fault (List SourceFile) := do
  let l ← Project.Loader.make s.tree s.root s.options.configPath s.options.exclude
  let loaded ← l.load patterns true
  return loaded.readAll.sourceFiles

theorem exists_sourcesOf
    {patterns : List String}
    {project : Project}
    {file : SourceFile}
    (h : IsSource s patterns project file) :
    ∃ files, sourcesOf s patterns = .ok files ∧ file ∈ files := by
  obtain ⟨l, loaded, hl, hloaded, rfl, hfile⟩ := h
  refine ⟨_, ?_, hfile⟩
  rw [sourcesOf, hl]
  show (l.load patterns true >>= _) = _
  rw [hloaded]
  rfl

/-- How routers are recognised when nothing is set. -/
def usualRecognition : Recognition :=
  .ofTexts Recognition.defaultFactories Recognition.defaultPatternText

theorem ofSettings_default :
    Recognition.ofSettings Options.default.routerFactories Options.default.routerPattern =
      .ok usualRecognition := by
  have hfault : Text.Pattern.fault? Recognition.defaultPatternText = none := by decide +kernel
  simp only [Options.default, Recognition.ofSettings, hfault, List.map_cons, List.map_nil,
    Recognition.defaultFactories]
  rfl

/-- A project of one route file, in which a router is written out too, with its configuration above it. -/
def writtenInPlace : Site where
  tree := ⟨.directory [("package", .directory [("app", .directory [("route.ts", .file (.text
      ("const app = router(\x7b\n  ping: t.query(() => 1),\n\x7d);\n" ++
        "export function GET() \x7b\x7d\n")))])]),
    ("tsconfig.json", .file (.text "\x7b\x7d"))]⟩
  root := ⟨true, ["package"]⟩
  options := { Options.default with configPath := some ⟨true, ["tsconfig.json"]⟩ }

theorem hasFileNames_writtenInPlace : writtenInPlace.tree.HasFileNames := by
  unfold writtenInPlace
  repeat' first
    | exact Tree.hasFileNames_nil
    | exact Tree.hasFileNames_file _
    | refine Tree.hasFileNames_cons (by decide) ?_ ?_

theorem locates_writtenInPlace : writtenInPlace.tree.HasFileNames ∧ writtenInPlace.Locates := by
  refine ⟨hasFileNames_writtenInPlace, (locates_iff hasFileNames_writtenInPlace).2 ?_⟩
  refine declaresInPlace_of_all (fun project file hsource => ?_) fun recognition hr project hproject => ?_
  · have hall : (sourcesOf writtenInPlace FileRoutes.App.patterns).map (fun files => files.all exportsOwn) =
        .ok true := by
      decide +kernel
    obtain ⟨files, hfiles, hfile⟩ := exists_sourcesOf hsource
    rw [hfiles] at hall
    exact List.all_eq_true.1 (Except.ok.inj hall) file hfile
  · have hall : (Procedures.projectOf writtenInPlace).map
        (fun project => project.sourceFiles.all (listsNoNames usualRecognition)) = .ok true := by
      decide +kernel
    have hsettings : Recognition.ofSettings writtenInPlace.options.routerFactories
        writtenInPlace.options.routerPattern = .ok usualRecognition := ofSettings_default
    rw [hsettings] at hr
    rw [hproject] at hall
    rw [← Except.ok.inj hr]
    exact List.all_eq_true.1 (Except.ok.inj hall)

/-- A project with a router that names a procedure of another file. -/
def namedElsewhere : Site where
  tree := ⟨.directory [
    ("ping.ts", .file (.text "export const ping = publicProcedure.query(() => 1);\n")),
    ("root.ts", .file (.text ("import \x7b ping \x7d from \"./ping\";\n\n" ++
      "export const appRouter = createTRPCRouter(\x7b\n  ping,\n\x7d);\n"))),
    ("tsconfig.json", .file (.text "\x7b\x7d"))]⟩
  root := ⟨true, []⟩
  options := .default

/-- What the project is loaded from. -/
def namedLoader : Project.Loader :=
  ⟨namedElsewhere.tree, namedElsewhere.root, none, .ofPatterns []⟩

/-- The files of the project, loaded. -/
def namedProject : Project :=
  ⟨namedElsewhere.tree, namedElsewhere.root, some (.empty ⟨true, ["tsconfig.json"]⟩),
    [⟨true, ["ping.ts"]⟩, ⟨true, ["root.ts"]⟩], []⟩

theorem walk_namedElsewhere (enter : String → Bool) :
    namedElsewhere.tree.walk enter namedElsewhere.root =
      [⟨true, ["ping.ts"]⟩, ⟨true, ["root.ts"]⟩, ⟨true, ["tsconfig.json"]⟩] := by
  show Tree.walkEntries _ _ 1 _ _ = _
  rw [Tree.walkEntries, Tree.sortEntries_of_pairwise (by decide)]
  rfl

theorem projectOf_namedElsewhere : Procedures.projectOf namedElsewhere = .ok namedProject.readAll := by
  have hfound : namedLoader.findFiles ["src/server/api/**/*.\x7bts,tsx\x7d"] = [] := by
    rw [Project.Loader.findFiles, Project.Loader.walk]
    rw [show namedLoader.tree.walk _ namedLoader.root = _ from walk_namedElsewhere _]
    decide +kernel
  have hlisted : namedLoader.configFiles (.empty ⟨true, ["tsconfig.json"]⟩) =
      .ok [⟨true, ["ping.ts"]⟩, ⟨true, ["root.ts"]⟩] := by
    have hbase : (if namedLoader.root.isBelow (Project.Config.empty ⟨true, ["tsconfig.json"]⟩).directory then
        namedLoader.root else (Project.Config.empty ⟨true, ["tsconfig.json"]⟩).directory) =
          namedLoader.root := rfl
    simp only [Project.Loader.configFiles, hbase, Project.Loader.walk]
    rw [show namedLoader.tree.walk _ namedLoader.root = _ from walk_namedElsewhere _]
    decide +kernel
  exact Procedures.projectOf_eq_of_listed (l := namedLoader) rfl rfl rfl rfl hlisted hfound

theorem exists_surveys_namedElsewhere :
    ∃ q, Surveys namedElsewhere usualRecognition q ∧ q.filePath = "ping.ts" ∧ q.line = 4 := by
  have hends := Procedures.endsIn_survey usualRecognition projectOf_namedElsewhere
  generalize hfound : (Procedures.surveyed ⟨usualRecognition, ⟨some namedProject.readAll⟩,
    relativePath namedElsewhere⟩ namedProject.readAll.sourceFiles).withPaths = found at hends
  have hplaces : found.procedures.map (fun q => (q.filePath, q.line)) = [("ping.ts", 4)] := by
    rw [← hfound]
    decide +kernel
  obtain ⟨q, rest, hq, hplace, -⟩ := List.map_eq_cons_iff.1 hplaces
  obtain ⟨hfile, hline⟩ := Prod.mk.inj hplace
  exact ⟨q, ⟨.start, found, (hends .start).1, hq ▸ List.mem_cons_self ..⟩, hfile, hline⟩

theorem hasFileNames_namedElsewhere : namedElsewhere.tree.HasFileNames := by
  unfold namedElsewhere
  repeat' first
    | exact Tree.hasFileNames_nil
    | exact Tree.hasFileNames_file _
    | refine Tree.hasFileNames_cons (by decide) ?_ ?_

/-- A procedure that an entry names is reported for a line that its file may not have. -/
theorem not_locates_namedElsewhere : ¬namedElsewhere.Locates := by
  intro hlocates
  obtain ⟨q, hq, hfile, hline⟩ := exists_surveys_namedElsewhere
  obtain ⟨e, -, hat, -⟩ := hlocates.procedures usualRecognition ofSettings_default q hq
  have hpath := join_relativePath hasFileNames_namedElsewhere hat.read.absolute hat.read.reached
  rw [← hat.file_eq, hfile] at hpath
  obtain ⟨content, hcontent, hread⟩ := hat.read.read
  rw [← hpath] at hcontent
  have hlines : (namedElsewhere.tree.content? (namedElsewhere.root.join (Path.ofText "ping.ts"))).map
      (fun content => content.lenientText.toList.count '\n' + 1) = some 2 := by
    decide +kernel
  rw [hcontent] at hlines
  have hcount : e.construct.file.lineCount = 2 := by
    rw [hread]
    exact Option.some.inj hlines
  have hle := hat.le_lineCount
  rw [hcount, hline] at hle
  omega

end Records

end Site

end RouteAtlas
