import Mathlib
import RouteAtlas.Controllers.Handlers
import RouteAtlas.Procedures.Survey
import RouteAtlas.Proofs.RememberedPaths
import RouteAtlas.Proofs.RouterReadings

/-!
# Handlers that need no remembered paths

Controllers and procedures know their paths from the source alone. What is found of them is the same
whatever was remembered before, and nothing is remembered afterwards. What holds of each handler as it
is made holds of all that are found.
-/

namespace RouteAtlas

open Syntax

namespace Extraction

section Files

/-- Whether handlers are all of one framework. -/
def AllOf
    (f : Framework)
    (handlers : List Handler) :
    Prop :=
  ∀ h ∈ handlers, h.framework = f

theorem allOf_nil (f : Framework) : AllOf f [] := by
  simp [AllOf]

theorem settled_requireConfig
    (s : Site)
    (f : Framework)
    (l : Project.Loader) :
    Settled (fun _ => ∃ p, l.findConfig? = some p) (requireConfig s f l) := by
  unfold requireConfig
  split
  · next p hp => exact (settled_say _ _ _).mono fun _ _ => ⟨p, hp⟩
  · exact settled_throw _

theorem settled_load
    (l : Project.Loader)
    (patterns : List String) :
    Settled (fun p => ∃ loaded, l.load patterns true = .ok loaded ∧ loaded.readAll = p)
      (load l patterns) :=
  (settled_ofExcept _).bind fun loaded hloaded => settled_pure ⟨loaded, hloaded, rfl⟩

/-- A source file of a project that some globs select at a site, all its files read. -/
def IsSource
    (s : Site)
    (patterns : List String)
    (project : Project)
    (file : SourceFile) :
    Prop :=
  ∃ l loaded, Project.Loader.make s.tree s.root s.options.configPath s.options.exclude = .ok l ∧
    l.load patterns true = .ok loaded ∧ loaded.readAll = project ∧ file ∈ project.sourceFiles

/-- The handlers of several things, one after the other. -/
theorem settled_flatten
    {α : Type}
    {P : Handler → Prop}
    {f : α → Extraction (List Handler)}
    {as : List α}
    (h : ∀ a ∈ as, Settled (fun hs => ∀ h ∈ hs, P h) (f a)) :
    Settled (fun hs => ∀ h ∈ hs, P h) (do return (← as.mapM f).flatten) := by
  refine (settled_mapM h).bind fun lists hlists => settled_pure fun x hx => ?_
  obtain ⟨hs, hhs, hx⟩ := List.mem_flatten.1 hx
  exact hlists hs hhs x hx

theorem settled_perFile
    {P : Handler → Prop}
    {s : Site}
    {f : Framework}
    {handle : SourceFile → Extraction (List Handler)}
    {files : List SourceFile}
    (h : ∀ file ∈ files, Settled (fun hs => ∀ h ∈ hs, P h) (handle file)) :
    Settled (fun hs => ∀ h ∈ hs, P h) (perFile s f handle files) := by
  induction files with
  | nil => exact settled_pure (by simp)
  | cons file rest ih =>
    rw [List.forall_mem_cons] at h
    unfold perFile
    refine Settled.bind (P := fun hs => ∀ h ∈ hs, P h) ?_ fun found hfound => ?_
    · refine h.1.orElseWith fun e => ?_
      exact (settled_say _ _ _).bind fun _ _ => settled_pure (by simp)
    · refine (ih h.2).bind fun later hlater => settled_pure fun x hx => ?_
      exact (List.mem_append.1 hx).elim (hfound x) (hlater x)

/-- Handlers that are found in one way only. -/
theorem settled_handlers
    {P : Handler → Prop}
    {f : Framework}
    {structured : Extraction (List Handler)}
    (h : Settled (fun hs => ∀ h ∈ hs, P h) structured) :
    Settled (fun hs => ∀ h ∈ hs, P h) (handlers f structured none) := by
  refine h.orElseWith fun e => ?_
  cases e with
  | projectConfigMissing path =>
    exact (settled_say _ _ _).bind fun _ _ => settled_pure (by simp)
  | _ => exact settled_throw _

end Files

end Extraction

open Extraction

namespace Controllers

section Settings

theorem settled_ofFile
    (scope : Project.Scope)
    (file : SourceFile)
    (before : Overall) :
    Settled (fun _ => True) (Overall.ofFile scope file before) := by
  unfold Overall.ofFile
  refine (settled_ofExcept _).bind fun o _ => ?_
  have hversions : Settled (fun _ => True) (do
      if !o.versions.isEmpty then
        say framework .debug
          ("Detected NestJS default version(s): " ++ Text.joinWith ", " o.versions)
      return o : Extraction Overall) := by
    split
    · exact (settled_say _ _ _).bind fun _ _ => settled_pure trivial
    · exact settled_pure trivial
  cases Route.filled? o.pathPrefix with
  | none => exact hversions
  | some p => exact (settled_say _ _ _).bind fun _ _ => hversions

theorem settled_ofFiles
    (s : Site)
    (project : Project)
    (before : Overall)
    (names : List Value) :
    Settled (fun _ => True) (Overall.ofFiles s project before names) := by
  induction names generalizing before with
  | nil => exact settled_pure trivial
  | cons name rest ih =>
    unfold Overall.ofFiles
    refine (settled_ofExcept _).bind fun found _ => ?_
    cases found with
    | none => exact ih before
    | some file =>
      refine (settled_ofFile _ _ _).bind fun o _ => ?_
      split
      · exact settled_pure trivial
      · exact ih o

end Settings

section Methods

/-- The headers of all requests to a method are those that its decorators set. -/
theorem settled_factsOf
    (examples : Examples)
    (m : Method) :
    Settled (fun facts => headersOf examples.scope examples.file m.decorators = .ok facts.headers)
      (factsOf examples m) := by
  unfold factsOf
  refine (settled_ofExcept _).bind fun headers hheaders => ?_
  refine (settled_ofExcept _).bind fun bodies _ => ?_
  refine (settled_ofExcept _).bind fun body _ => ?_
  have hqueries : Settled
      (fun facts => headersOf examples.scope examples.file m.decorators = .ok facts.headers) (do
        let queries ← Extraction.ofExcept (examples.given "Query" m.node)
        let query ← Extraction.ofExcept (queryOf queries)
        return ⟨headers, query, body⟩ : Extraction RequestFacts) :=
    (settled_ofExcept _).bind fun _ _ => (settled_ofExcept _).bind fun _ _ => settled_pure hheaders
  split
  · exact (settled_say _ _ _).bind fun _ _ => hqueries
  · exact hqueries

/-- A method of HTTP and a path for which a controller may have a method. -/
structure Controller.Routes
    (c : Controller)
    (verb path : String) :
    Prop where
  verb_mem : verb ∈ Route.verbs
  path_mem : ∃ versions controllerPath methodPath, controllerPath ∈ c.paths ∧
    path ∈ routePaths c.overallPrefix versions controllerPath methodPath

theorem mem_verbs_of_mem_routedVerbs
    {decorator verb : String}
    (h : verb ∈ routedVerbs decorator) :
    verb ∈ Route.verbs := by
  unfold routedVerbs at h
  split at h
  · exact h
  · split at h
    · next hnamed =>
      have hverbs : ∀ d ∈ ["Get", "Post", "Put", "Patch", "Delete", "Head", "Options"],
          Text.upper d ∈ Route.verbs := by
        decide
      rw [List.mem_singleton.1 h]
      exact hverbs decorator (List.contains_iff_mem.1 hnamed)
    · cases h

variable {P : Handler → Prop}

theorem settled_handlersOfDecorators
    {c : Controller}
    {m : Node}
    {facts : RequestFacts}
    (hP : ∀ verb path, c.Routes verb path → P (handlerAt c m facts verb path))
    (scope : Project.Scope)
    (versions : List String)
    (routing : List (Node × List String))
    (hrouting : ∀ r ∈ routing, ∀ verb ∈ r.2, verb ∈ Route.verbs) :
    Settled (fun hs => ∀ h ∈ hs, P h) (handlersOfDecorators scope c m facts versions routing) := by
  have hmade (paths verbs : List String) (hverbs : ∀ verb ∈ verbs, verb ∈ Route.verbs) :
      ∀ h ∈ handlersAt c m facts versions paths verbs, P h := by
    intro h hh
    simp only [handlersAt, List.mem_flatMap, List.mem_map] at hh
    obtain ⟨controllerPath, hcontroller, methodPath, _, verb, hverb, path, hpath, rfl⟩ := hh
    exact hP verb path
      ⟨hverbs verb hverb, versions, controllerPath, methodPath, hcontroller, hpath⟩
  induction routing with
  | nil => exact settled_pure (by simp)
  | cons r rest ih =>
    obtain ⟨d, verbs⟩ := r
    rw [List.forall_mem_cons] at hrouting
    have ih := ih hrouting.2
    unfold handlersOfDecorators
    have hfound (hs : List Handler) (hhs : ∀ h ∈ hs, P h) : Settled (fun hs => ∀ h ∈ hs, P h) (do
        for h in hs do
          say framework .debug ("Found NestJS " ++ h.method ++ " handler at " ++ h.path ++
            " (line " ++ toString h.line ++ ")")
        return hs ++ (← handlersOfDecorators scope c m facts versions rest)) := by
      refine Settled.bind (P := fun _ => True) ?_ fun _ _ => ?_
      · exact settled_forIn (fun h _ => (settled_say _ _ _).bind fun _ _ => settled_pure trivial) _ _
      · refine ih.bind fun later hlater => settled_pure fun x hx => ?_
        exact (List.mem_append.1 hx).elim (hhs x) (hlater x)
    cases d.decoratorArguments.head? with
    | none => exact hfound _ (hmade _ _ hrouting.1)
    | some a => exact (settled_ofExcept _).bind fun paths _ => hfound _ (hmade _ _ hrouting.1)

/-- What holds of each handler of a method that may be made with the headers of its decorators holds of
all that are made. -/
theorem settled_ofMethod
    {c : Controller}
    {m : Method}
    {scope : Project.Scope}
    (hP : ∀ facts, headersOf scope c.file m.decorators = .ok facts.headers →
      ∀ verb path, c.Routes verb path → P (handlerAt c m.node facts verb path))
    (s : Site) :
    Settled (fun hs => ∀ h ∈ hs, P h) (ofMethod s scope c m) := by
  unfold ofMethod
  dsimp only
  split
  · exact settled_pure (by simp)
  · refine (settled_ofExcept _).bind fun versions _ => ?_
    refine (settled_factsOf _ _).bind fun facts hfacts => ?_
    refine settled_handlersOfDecorators (hP facts hfacts) _ _ _ fun r hr verb hverb => ?_
    obtain ⟨d, -, hd⟩ := List.mem_filterMap.1 hr
    split at hd
    · cases hd
    · obtain rfl := Option.some.inj hd
      cases hname : d.decoratorName? with
      | none => simp [hname] at hverb
      | some name => exact mem_verbs_of_mem_routedVerbs (by simpa [hname] using hverb)

theorem settled_ofClass
    {file : SourceFile}
    {c : Syntax.Class}
    (hP : ∀ m ∈ c.methods, ∀ controller : Controller, controller.file = file →
      ∀ facts verb path, controller.Routes verb path →
        P (handlerAt controller m.node facts verb path))
    (s : Site)
    (scope : Project.Scope)
    (o : Overall) :
    Settled (fun hs => ∀ h ∈ hs, P h) (ofClass s scope o file c) := by
  unfold ofClass
  split
  · exact settled_pure (by simp)
  · refine (settled_ofExcept _).bind fun settings _ => ?_
    refine (settled_say _ _ _).bind fun _ _ => ?_
    exact settled_flatten fun m hm => settled_ofMethod (fun facts _ => hP m hm _ rfl facts) s

end Methods

section Files

/-- A method of a class in a file with controllers. -/
structure MethodOf
    (s : Site)
    (file : SourceFile)
    (m : Node) :
    Prop where
  source : ∃ project, IsSource s patterns project file
  declared : ∃ c ∈ file.classes, ∃ m' ∈ c.methods, m'.node = m

theorem settled_structured
    {P : Handler → Prop}
    {s : Site}
    (hP : ∀ c m facts verb path, MethodOf s c.file m → c.Routes verb path →
      P (handlerAt c m facts verb path)) :
    Settled (fun hs => ∀ h ∈ hs, P h) (structured s) := by
  unfold structured
  refine (settled_ofExcept _).bind fun l hl => ?_
  have hfiles : Settled (fun hs => ∀ h ∈ hs, P h) (do
      let project ← Extraction.load l patterns
      let o ← Overall.ofFiles s project .unset s.options.bootstrapFiles
      let files := project.sourceFiles.filter fun f => Text.contains f.text "Controller"
      say framework .debug ("Found " ++ toString files.length ++ " candidate controller files")
      Extraction.perFile s framework (Controllers.ofFile s ⟨some project⟩ o) files) := by
    refine (settled_load _ _).bind fun project hproject => ?_
    obtain ⟨loaded, hloaded, rfl⟩ := hproject
    refine (settled_ofFiles _ _ _ _).bind fun o _ => ?_
    refine (settled_say _ _ _).bind fun _ _ => ?_
    refine settled_perFile fun file hfile => settled_flatten fun c hc => ?_
    refine settled_ofClass (fun m hm controller hcontroller facts verb path hroutes => ?_) s _ o
    have hsource := List.mem_of_mem_filter hfile
    refine hP controller m.node facts verb path ?_ hroutes
    rw [hcontroller]
    exact ⟨⟨_, l, loaded, hl, hloaded, rfl, hsource⟩, c, hc, m, hm, rfl⟩
  split
  · exact (settled_say _ _ _).bind fun _ _ => hfiles
  · exact hfiles

/-- The handlers of controllers, with what holds of each of them. -/
theorem settled_handlers
    {P : Handler → Prop}
    {s : Site}
    (hP : ∀ c m facts verb path, MethodOf s c.file m → c.Routes verb path →
      P (handlerAt c m facts verb path)) :
    Settled (fun hs => ∀ h ∈ hs, P h) (Controllers.handlers s) :=
  Extraction.settled_handlers (settled_structured hP)

end Files

end Controllers

namespace Procedures

section Surveys

/-- The project of a site, with its procedure files read. -/
def projectOf (s : Site) : Except Fault Project := do
  let l ← Project.Loader.make s.tree s.root s.options.configPath s.options.exclude
  match l.findConfig?, s.options.procedureFiles.mapM Value.str? with
  | some _, some texts => return (← l.load texts true).readAll
  | none, _ => throw (.projectConfigMissing s.root.toText)
  | _, none => throw .unexpectedType

/-- A project whose configuration lists its files, when the globs for procedures add none. -/
theorem projectOf_eq_of_listed
    {s : Site}
    {l : Project.Loader}
    {config : Project.Config}
    {texts : List String}
    {listed : List Files.Path}
    (hloader : Project.Loader.make s.tree s.root s.options.configPath s.options.exclude = .ok l)
    (hfind : l.findConfig?.isSome)
    (htexts : s.options.procedureFiles.mapM Value.str? = some texts)
    (hconfig : l.readConfig? = .ok (some config))
    (hlisted : l.configFiles config = .ok listed)
    (hfound : l.findFiles texts = []) :
    projectOf s = .ok ((⟨l.tree, l.root, some config, [], []⟩ : Project).addFiles listed).readAll := by
  obtain ⟨path, hpath⟩ := Option.isSome_iff_exists.1 hfind
  simp only [projectOf, hloader, hpath, htexts, Project.Loader.load, hconfig, hlisted, hfound, bind,
    Except.bind, if_true]
  rfl

theorem endsIn_surveyFile
    (s : Site)
    (r : EntryReader)
    (before : Survey)
    (file : SourceFile) :
    EndsIn (surveyFile s r before file)
      (.ok ((r.routersAmong file (routerCalls r.recognition file)).foldl Survey.addRouter before)) := by
  unfold surveyFile
  dsimp only
  split <;> [refine (endsIn_say _ _ _).bind ?_; skip]
  all_goals
    refine (endsIn_forIn_say _ _ _ _).bind ?_
    split
    · exact (endsIn_say _ _ _).bind (endsIn_pure _)
    · exact (endsIn_pure _).bind (endsIn_pure _)

theorem exists_loaded_of_projectOf
    {s : Site}
    {project : Project}
    (h : projectOf s = .ok project) :
    ∃ l config texts loaded,
      Project.Loader.make s.tree s.root s.options.configPath s.options.exclude = .ok l ∧
        l.findConfig? = some config ∧ s.options.procedureFiles.mapM Value.str? = some texts ∧
        l.load texts true = .ok loaded ∧ loaded.readAll = project := by
  unfold projectOf at h
  cases hloader : Project.Loader.make s.tree s.root s.options.configPath s.options.exclude with
  | error fault =>
    rw [hloader] at h
    cases h
  | ok l =>
    cases hconfig : l.findConfig? with
    | none =>
      simp only [hloader, hconfig, bind, Except.bind] at h
      cases h
    | some config =>
      cases htexts : s.options.procedureFiles.mapM Value.str? with
      | none =>
        simp only [hloader, hconfig, htexts, bind, Except.bind] at h
        cases h
      | some texts =>
        cases hload : l.load texts true with
        | error fault =>
          simp only [hloader, hconfig, htexts, hload, bind, Except.bind] at h
          cases h
        | ok loaded =>
          simp only [hloader, hconfig, htexts, hload, bind, Except.bind, pure, Except.pure,
            Except.ok.injEq] at h
          exact ⟨l, config, texts, loaded, rfl, hconfig, rfl, hload, h⟩

theorem exists_isSource_of_projectOf
    {s : Site}
    {project : Project}
    (h : projectOf s = .ok project)
    {file : SourceFile}
    (hfile : file ∈ project.sourceFiles) :
    ∃ patterns, IsSource s patterns project file := by
  obtain ⟨l, config, texts, loaded, hl, -, -, hloaded, hread⟩ := exists_loaded_of_projectOf h
  exact ⟨texts, l, loaded, hl, hloaded, hread, hfile⟩

/-- The survey of a site whose project is read is that of its files, renamed to paths. -/
theorem endsIn_survey
    {s : Site}
    (recognition : Recognition)
    {project : Project}
    (h : projectOf s = .ok project) :
    EndsIn (survey s recognition)
      (.ok (surveyed ⟨recognition, ⟨some project⟩, relativePath s⟩ project.sourceFiles).withPaths) := by
  obtain ⟨l, config, texts, loaded, hloader, hconfig, htexts, hload, rfl⟩ :=
    exists_loaded_of_projectOf h
  have hlisted : EndsIn (loadListed l s.options.procedureFiles) (.ok loaded.readAll) := by
    simp only [loadListed, htexts, Extraction.load, hload]
    exact (endsIn_ofExcept _).bind (endsIn_pure _)
  have hrequired : EndsIn (requireConfig s framework l) (.ok ()) := by
    simp only [requireConfig, hconfig]
    exact endsIn_say _ _ _
  have hloaded : EndsIn (loader s) (.ok l) := by
    rw [Extraction.loader, hloader]
    exact endsIn_ofExcept _
  unfold survey
  refine hloaded.bind (hrequired.bind (hlisted.bind ((endsIn_say _ _ _).bind ?_)))
  refine (endsIn_foldlM (endsIn_surveyFile s _) _ _).bind ((endsIn_say _ _ _).bind ?_)
  exact (endsIn_forIn_say _ _ _ _).bind (endsIn_pure _)

/-- A survey, if there is one, is that of the files of the project. -/
theorem settled_survey
    (s : Site)
    (recognition : Recognition) :
    Settled (fun found => ∃ project, projectOf s = .ok project ∧
        found = (surveyed ⟨recognition, ⟨some project⟩, relativePath s⟩ project.sourceFiles).withPaths)
      (survey s recognition) := by
  unfold survey
  refine (settled_ofExcept _).bind fun l hloader => ?_
  refine (settled_requireConfig _ _ _).bind fun _ hconfig => ?_
  refine Settled.bind (P := fun project => projectOf s = .ok project) ?_ fun project hproject => ?_
  · unfold loadListed
    split
    · next texts htexts =>
      refine (settled_load _ _).mono fun project hproject => ?_
      obtain ⟨config, hconfig⟩ := hconfig
      obtain ⟨loaded, hloaded, rfl⟩ := hproject
      simp only [projectOf, hloader, hconfig, htexts, hloaded, bind, Except.bind]
      rfl
    · exact (settled_load _ _).bind fun _ _ => settled_throw _
  · have hfound := endsIn_foldlM (endsIn_surveyFile s ⟨recognition, ⟨some project⟩, relativePath s⟩)
      project.sourceFiles .empty
    refine (settled_say _ _ _).bind fun _ _ => ?_
    refine ⟨_, hfound.bind ((endsIn_say _ _ _).bind ((endsIn_forIn_say _ _ _ _).bind (endsIn_pure _))), ?_⟩
    rintro found ⟨⟩
    exact ⟨project, hproject, rfl⟩

/-- A procedure of a site under the path of its router. -/
def IsSurveyed
    (s : Site)
    (recognition : Recognition)
    (p : Procedure) :
    Prop :=
  ∃ project file q paths, projectOf s = .ok project ∧ file ∈ project.sourceFiles ∧
    FoundIn ⟨recognition, ⟨some project⟩, relativePath s⟩ file q ∧ p = q.withPath paths

theorem IsSurveyed.router_ne_empty
    {s : Site}
    {recognition : Recognition}
    {p : Procedure}
    (h : IsSurveyed s recognition p) :
    p.router ≠ "" := by
  obtain ⟨project, file, q, paths, -, -, hfound, rfl⟩ := h
  exact renamed_ne_empty paths hfound.router_ne_empty

/-- The handlers of procedures, with what holds of each of them. -/
theorem settled_handlers
    {P : Handler → Prop}
    {s : Site}
    {recognition : Recognition}
    (hP : ∀ basePath p, s.options.basePath = .str basePath → IsSurveyed s recognition p →
      P (handlerOf s basePath p)) :
    Settled (fun hs => ∀ h ∈ hs, P h) (Procedures.handlers s recognition) := by
  refine Extraction.settled_handlers ?_
  unfold structured
  refine (settled_survey s recognition).bind fun found hfound => ?_
  obtain ⟨project, hproject, rfl⟩ := hfound
  split
  · exact settled_pure (by simp)
  · next basePath hbase _ =>
    refine settled_pure fun h hh => ?_
    obtain ⟨p, hp, rfl⟩ := List.mem_map.1 hh
    obtain ⟨q, hq, rfl⟩ := List.mem_map.1 hp
    obtain ⟨file, hfile, hfound⟩ := foundIn_of_mem_surveyed hq
    exact hP basePath _ hbase ⟨project, file, q, _, hproject, hfile, hfound, rfl⟩
  · exact settled_throw _

end Surveys

end Procedures

end RouteAtlas
