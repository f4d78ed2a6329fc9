import Mathlib
import RouteAtlas.FileRoutes.App
import RouteAtlas.FileRoutes.Pages
import RouteAtlas.Proofs.PathLookups

/-!
# The files that are looked at for routes

The two layouts by which files are routes are extracted in the same manner: a project is loaded, its
files that are routes are picked, and each of them is worked on by itself. Without a configuration the
files are picked and worked on by their text alone. The sources of a layout are these files with the
work on each of them.

The work on a file looks up the path of this file at most once. So what an extraction remembers and
which routes it makes is settled by the look-ups of its sources.
-/

namespace RouteAtlas.FileRoutes

open Syntax
open Extraction

section Layouts

/-- A way in which files are routes. -/
structure Layout where
  framework : Framework
  patterns : List String
  accepts : String → Bool
  ofFile : Site → Project → SourceFile → Extraction (List Handler)
  ofText : Site → Files.Path → Extraction (List Handler)

/-- The layout of the app directory. -/
def appLayout : Layout where
  framework := App.framework
  patterns := App.patterns
  accepts path := App.isRouteFile path && !isContentSystemPath path
  ofFile := App.ofFile
  ofText := App.ofText

/-- The layout of the pages directory. -/
def pagesLayout : Layout where
  framework := Pages.framework
  patterns := Pages.patterns
  accepts path := Pages.isRouteFile path && !isContentSystemPath path
  ofFile := Pages.ofFile
  ofText := Pages.ofText

/-- A file that is looked at for routes, with the work on it. -/
structure Source where
  file : Files.Path
  find : Extraction (List Handler)

namespace Layout

/-- The files of a project that are routes, read as syntax trees. -/
def structuredSources
    (l : Layout)
    (s : Site) :
    Except Fault (List Source) := do
  let loader ← Project.Loader.make s.tree s.root s.options.configPath s.options.exclude
  match loader.findConfig? with
  | none => throw (.projectConfigMissing s.root.toText)
  | some _ => do
    let project := (← loader.load l.patterns true).readAll
    let files := project.sourceFiles.filter fun f => l.accepts (relativePath s f.path)
    return files.map fun f => ⟨f.path, l.ofFile s project f⟩

/-- The files that are looked at by their text alone. -/
def textualSources
    (l : Layout)
    (s : Site) :
    Except Fault (List Source) := do
  let loader ← Project.Loader.make s.tree s.root s.options.configPath s.options.exclude
  return (loader.findFiles l.patterns).map fun f => ⟨f, l.ofText s f⟩

/-- The files that are looked at for routes; none after a fault. -/
def sources
    (l : Layout)
    (s : Site) :
    List Source :=
  match l.structuredSources s with
  | .ok found => found
  | .error (.projectConfigMissing _) => (l.textualSources s).toOption.getD []
  | .error _ => []

end Layout

end Layouts

section Bases

/-- Handlers that are found one by one and then placed are found first and placed together. -/
theorem mapM_map_locate
    {α : Type}
    (e : α → Except Fault Handler)
    (raw : String)
    (as : List α) :
    (as.mapM fun a => (e a).map (locate raw)) = (as.mapM e).map (List.map (locate raw)) := by
  induction as with
  | nil => rfl
  | cons a rest ih =>
    rw [List.mapM_cons, List.mapM_cons, ih]
    cases e a with
    | error fault => rfl
    | ok h => cases rest.mapM e <;> rfl

/-- A look-up of facts, and a handler that is made of them and then placed. -/
theorem endsIn_located
    {α : Type}
    {e : Except Fault α}
    {next : α → Extraction Handler}
    {base : α → Handler}
    {raw : String}
    (h : ∀ a, EndsIn (next a) (.ok (locate raw (base a)))) :
    EndsIn (Extraction.ofExcept e >>= next) ((e.map base).map (locate raw)) := by
  cases e with
  | error fault => exact (endsIn_ofExcept _).bind_error next
  | ok a => exact (endsIn_ofExcept _).bind (h a)

theorem allOf_map
    {α : Type}
    {f : Framework}
    (g : α → Handler)
    (h : ∀ a, (g a).framework = f)
    (as : List α) :
    AllOf f (as.map g) := by
  intro x hx
  obtain ⟨a, -, rfl⟩ := List.mem_map.1 hx
  exact h a

theorem allOf_mapM
    {α : Type}
    {f : Framework}
    {e : α → Except Fault Handler}
    (h : ∀ a x, e a = .ok x → x.framework = f)
    (as : List α)
    {hs : List Handler}
    (hhs : as.mapM e = .ok hs) :
    AllOf f hs := by
  induction as generalizing hs with
  | nil =>
    obtain rfl : [] = hs := Except.ok.inj hhs
    exact allOf_nil f
  | cons a rest ih =>
    rw [List.mapM_cons] at hhs
    cases ha : e a with
    | error fault => rw [ha] at hhs; cases hhs
    | ok x =>
      cases hrest : rest.mapM e with
      | error fault => rw [ha, hrest] at hhs; cases hhs
      | ok later =>
        rw [ha, hrest] at hhs
        obtain rfl : x :: later = hs := Except.ok.inj hhs
        exact List.forall_mem_cons.2 ⟨h a x ha, ih hrest⟩

/-- A path is accepted if it is that of a route and belongs to no content system. -/
theorem endsIn_accepts
    (isRoute : Bool)
    (f : Framework)
    (path message : String) :
    EndsIn (do
      if !isRoute then return false
      else if isContentSystemPath path then
        say f .debug message
        return false
      else return true) (.ok (isRoute && !isContentSystemPath path)) := by
  cases isRoute with
  | false => exact endsIn_pure false
  | true =>
    cases isContentSystemPath path with
    | false => exact endsIn_pure true
    | true => exact (endsIn_say _ _ _).bind (endsIn_pure false)

end Bases

section AppFiles

variable {s : Site} {project : Project} {file : SourceFile}

theorem settled_exported
    (project : Project)
    (file : SourceFile)
    (e : Export) :
    Settled (fun _ => True) (App.exported project file e) := by
  unfold App.exported
  split
  · exact settled_pure trivial
  · refine (settled_ofExcept _).bind fun target _ => ?_
    split
    · exact (settled_say _ _ _).bind fun _ _ => settled_pure trivial
    · exact settled_pure trivial

theorem settled_verbHandlers
    (project : Project)
    (file : SourceFile)
    (found : List App.VerbHandler)
    (exports : List Export) :
    Settled (fun _ => True) (App.verbHandlers project file found exports) := by
  induction exports generalizing found with
  | nil => exact settled_pure trivial
  | cons e rest ih =>
    unfold App.verbHandlers
    split
    · exact ih found
    · refine (settled_exported project file e).bind fun target _ => ?_
      split
      · exact ih _
      · exact ih found

/-- The handler for a method of a file, before it is placed at the path of the file. -/
def App.baseHandler
    (project : Project)
    (file : SourceFile)
    (functions : List App.VerbHandler)
    (verb : String) :
    Except Fault Handler :=
  let (node, owner) :=
    match functions.find? fun h => h.verb == verb with
    | some h => (h.node, h.file)
    | none => (file.root, file)
  (Analysis.ofHandler ⟨some project⟩ owner node).map fun facts =>
    { Handler.at_ App.framework "" verb file.path.toText with
      handlerName := some verb
      line := node.line
      lines := facts.lines
      hasMiddleware := Evidence.hasMiddleware file.text
      isServerAction := Evidence.isServerAction file.text
      usesDatabase := facts.usesDatabase
      handlesErrors := facts.handlesErrors
      validates := facts.validates
      headers := facts.headers
      query := facts.query
      body := facts.body }

/-- The handlers of a file for its methods, before they are placed. -/
def App.baseHandlers
    (project : Project)
    (file : SourceFile)
    (functions : List App.VerbHandler) :
    Except Fault (List Handler) :=
  ((exportedVerbs file).foldl addOnce (functions.map App.VerbHandler.verb)).mapM
    (App.baseHandler project file functions)

theorem endsIn_handlerFor
    (raw : String)
    (functions : List App.VerbHandler)
    (verb : String) :
    EndsIn (App.handlerFor project file raw (patternOf raw) functions verb)
      ((App.baseHandler project file functions verb).map (locate raw)) := by
  unfold App.handlerFor App.baseHandler
  cases functions.find? fun h => h.verb == verb with
  | none =>
    refine endsIn_located fun facts => ?_
    exact (endsIn_say _ _ _).bind (endsIn_pure _)
  | some h =>
    refine endsIn_located fun facts => ?_
    exact (endsIn_say _ _ _).bind (endsIn_pure _)

theorem App.pathsOf_bind
    {β : Type}
    (path : Files.Path)
    (next : String × String → Extraction β) :
    App.pathsOf s path >>= next =
      derivedPath s path App.routePath >>= fun raw => next (raw, patternOf raw) := by
  simp [App.pathsOf, patternOf]

theorem framework_baseHandler
    {functions : List App.VerbHandler}
    {verb : String}
    {h : Handler}
    (hbase : App.baseHandler project file functions verb = .ok h) :
    h.framework = App.framework := by
  unfold App.baseHandler at hbase
  dsimp only at hbase
  generalize Analysis.ofHandler _ _ _ = facts at hbase
  cases facts with
  | error fault => cases hbase
  | ok facts =>
    obtain rfl := Except.ok.inj hbase
    rfl

theorem looks_appFile
    {skip : Fault → Extraction (List Handler)}
    (hskip : ∀ e, EndsIn (skip e) (.ok [])) :
    Looks s App.framework file.path (orElseWith (App.ofFile s project file) skip) := by
  unfold App.ofFile
  dsimp only
  split
  · exact (((endsIn_say _ _ _).bind (endsIn_pure [])).orElseWith skip).looks
  · obtain ⟨found, hfound, -⟩ := settled_verbHandlers project file [] file.exports
    rw [App.pathsOf_bind]
    refine looks_orElseWith_derivedPath (found.bind (App.baseHandlers project file)) hskip ?_
      fun raw => ?_
    · intro hs hbase
      cases found with
      | error fault => cases hbase
      | ok functions => exact allOf_mapM (fun verb h => framework_baseHandler) _ hbase
    · cases found with
      | error fault => exact hfound.bind_error _
      | ok functions =>
        refine hfound.bind ?_
        change EndsIn _ ((App.baseHandlers project file functions).map _)
        unfold App.baseHandlers
        cases (exportedVerbs file).foldl addOnce (functions.map App.VerbHandler.verb) with
        | nil => exact (endsIn_say _ _ _).bind (endsIn_pure [])
        | cons verb rest =>
          rw [← mapM_map_locate]
          exact endsIn_mapM (endsIn_handlerFor raw functions) _

theorem endsIn_appAccepts (path : String) :
    EndsIn (App.accepts path) (.ok (appLayout.accepts path)) :=
  endsIn_accepts (App.isRouteFile path) App.framework path _

/-- The handler for a method of a text, before it is placed at the path of the file. -/
def App.textHandler
    (path : Files.Path)
    (text verb : String) :
    Handler :=
  { Handler.at_ App.framework "" verb path.toText with
    handlerName := some verb
    headers := Evidence.headers text
    query := Evidence.query text }

theorem looks_appText (path : Files.Path) :
    Looks s App.framework path (App.ofText s path) := by
  unfold App.ofText
  refine (endsIn_appAccepts _).bind_looks ?_
  split
  · rename_i content _ _
    generalize Text.plainNewlines content.lenientText = text
    dsimp only
    split
    · exact ((endsIn_say _ _ _).bind (endsIn_pure [])).looks
    · rw [App.pathsOf_bind]
      refine looks_derivedPath (allOf_map (App.textHandler path text) (fun _ => rfl)
        (App.verbsOfText text)) fun raw => ?_
      rw [List.map_map]
      exact endsIn_pure _
  · exact (endsIn_pure []).looks

end AppFiles

section PagesFiles

variable {s : Site} {project : Project} {file : SourceFile}

theorem Pages.pathsOf_bind
    {β : Type}
    (path : Files.Path)
    (next : String × String → Extraction β) :
    Pages.pathsOf s path >>= next =
      derivedPath s path Pages.routePath >>= fun raw => next (raw, patternOf raw) := by
  simp [Pages.pathsOf, patternOf]

/-- The handler of a page for a method, before it is placed at the path of the file. -/
def Pages.baseHandler
    (file : SourceFile)
    (line : Nat)
    (facts : Analysis)
    (verb : String) :
    Handler :=
  { Handler.at_ Pages.framework "" verb file.path.toText with
    handlerName := some "default"
    line := line
    lines := facts.lines
    hasMiddleware := Evidence.hasMiddleware file.text
    usesDatabase := facts.usesDatabase
    handlesErrors := facts.handlesErrors
    validates := facts.validates
    headers := facts.headers
    query := facts.query
    body := facts.body }

theorem looks_pagesFile
    {skip : Fault → Extraction (List Handler)}
    (hskip : ∀ e, EndsIn (skip e) (.ok [])) :
    Looks s Pages.framework file.path (orElseWith (Pages.ofFile s project file) skip) := by
  unfold Pages.ofFile
  dsimp only
  split
  · exact (((endsIn_say _ _ _).bind (endsIn_pure [])).orElseWith skip).looks
  · split
    · exact (((endsIn_say _ _ _).bind (endsIn_pure [])).orElseWith skip).looks
    · rename_i h _
      rw [Pages.pathsOf_bind]
      refine looks_orElseWith_derivedPath
        ((Analysis.ofHandler ⟨some project⟩ file (h.node file)).map fun facts =>
          (Pages.verbsOfHandler file h).map (Pages.baseHandler file (h.node file).line facts))
        hskip ?_ fun raw => ?_
      · intro hs hbase
        cases hfacts : Analysis.ofHandler ⟨some project⟩ file (h.node file) with
        | error fault => rw [hfacts] at hbase; cases hbase
        | ok facts =>
          rw [hfacts] at hbase
          obtain rfl := Except.ok.inj hbase
          exact allOf_map (Pages.baseHandler file (h.node file).line facts) (fun _ => rfl) _
      · cases hfacts : Analysis.ofHandler ⟨some project⟩ file (h.node file) with
        | error fault => exact (endsIn_ofExcept _).bind_error _
        | ok facts =>
          refine (endsIn_ofExcept _).bind ((endsIn_say _ _ _).bind ?_)
          change EndsIn _ (.ok (List.map _ (List.map _ _)))
          rw [List.map_map]
          exact endsIn_pure _

theorem endsIn_pagesAccepts (path : String) :
    EndsIn (Pages.accepts path) (.ok (pagesLayout.accepts path)) :=
  endsIn_accepts (Pages.isRouteFile path) Pages.framework path _

/-- The handler of a page for a method of its text, before it is placed at the path of the file. -/
def Pages.textHandler
    (path : Files.Path)
    (text verb : String) :
    Handler :=
  { Handler.at_ Pages.framework "" verb path.toText with
    handlerName := some "default"
    headers := Evidence.headers text
    query := Evidence.query text }

theorem looks_pagesText (path : Files.Path) :
    Looks s Pages.framework path (Pages.ofText s path) := by
  unfold Pages.ofText
  refine (endsIn_pagesAccepts _).bind_looks ?_
  split
  · rename_i content _ _
    generalize Text.plainNewlines content.lenientText = text
    dsimp only
    split
    · exact (endsIn_pure []).looks
    · rw [Pages.pathsOf_bind]
      refine looks_derivedPath (allOf_map (Pages.textHandler path text) (fun _ => rfl)
        (Pages.verbsOfText text)) fun raw => ?_
      rw [List.map_map]
      exact endsIn_pure _
  · exact (endsIn_pure []).looks

end PagesFiles

section Runs

/-- Look-ups that make routes of one framework, for the files in which sources find routes. -/
structure Matches
    (s : Site)
    (f : Framework)
    (sources : List Source)
    (uses : List PathUse) :
    Prop where
  patterned : ∀ u ∈ uses, u.Patterned f
  finds_iff : ∀ file, (∃ u ∈ uses, u.file = file ∧ u.routes u.derived ≠ []) ↔
    ∃ w ∈ sources, s.tree.resolve w.file = file ∧ FindsRoutes w.find

variable {s : Site} {f : Framework} {α : Type}

/-- Works that each look up the path of a file match the sources that they stand for. -/
theorem exists_matches
    {file : α → Files.Path}
    {work find : α → Extraction (List Handler)}
    (h : ∀ a, Looks s f (file a) (work a))
    (hfind : ∀ a, FindsRoutes (work a) ↔ FindsRoutes (find a))
    (as : List α) :
    ∃ usesOf : α → List PathUse, (∀ a, Recalls s id (work a) (usesOf a)) ∧
      Matches s f (as.map fun a => ⟨file a, find a⟩) (as.flatMap usesOf) := by
  choose usesOf hrecalls hone using h
  refine ⟨usesOf, hrecalls, ?_, ?_⟩
  · intro u hu
    obtain ⟨a, -, hua⟩ := List.mem_flatMap.1 hu
    exact (hone a u hua).1
  · intro path
    constructor
    · rintro ⟨u, hu, rfl, hroutes⟩
      obtain ⟨a, ha, hua⟩ := List.mem_flatMap.1 hu
      refine ⟨_, List.mem_map.2 ⟨a, ha, rfl⟩, (hone a u hua).2.1.symm, ?_⟩
      exact (hfind a).1 (((hrecalls a).findsRoutes_iff (hone a)).2 ⟨u, hua, hroutes⟩)
    · rintro ⟨w, hw, rfl, hfinds⟩
      obtain ⟨a, ha, rfl⟩ := List.mem_map.1 hw
      obtain ⟨u, hua, hroutes⟩ := ((hrecalls a).findsRoutes_iff (hone a)).1 ((hfind a).2 hfinds)
      exact ⟨u, List.mem_flatMap.2 ⟨a, ha, hua⟩, (hone a u hua).2.1, hroutes⟩

theorem recalls_perFile
    {handle : SourceFile → Extraction (List Handler)}
    {usesOf : SourceFile → List PathUse}
    (h : ∀ file, Recalls s id (orElseWith (handle file) fun e => do
      say f .warning ("Skipping " ++ relativePath s file.path ++ ": " ++ e.text)
      return []) (usesOf file))
    (files : List SourceFile) :
    Recalls s id (perFile s f handle files) (files.flatMap usesOf) := by
  induction files with
  | nil => exact (endsIn_pure []).recalls rfl
  | cons file rest ih =>
    unfold perFile
    exact (h file).append ih fun _ _ => rfl

theorem recalls_mapM
    {work : α → Extraction (List Handler)}
    {usesOf : α → List PathUse}
    (h : ∀ a, Recalls s id (work a) (usesOf a))
    (as : List α) :
    Recalls s List.flatten (as.mapM work) (as.flatMap usesOf) := by
  induction as with
  | nil => exact (endsIn_pure []).recalls rfl
  | cons a rest ih =>
    rw [List.mapM_cons]
    exact (h a).append ih fun _ _ => rfl

theorem endsIn_filterM
    {test : String → Extraction Bool}
    {accepts : String → Bool}
    (h : ∀ path, EndsIn (test path) (.ok (accepts path)))
    (relative : SourceFile → String)
    (files : List SourceFile) :
    EndsIn (filterM test relative files) (.ok (files.filter fun f => accepts (relative f))) := by
  induction files with
  | nil => exact endsIn_pure []
  | cons file rest ih =>
    unfold filterM
    refine (h _).bind (ih.bind ?_)
    cases haccepts : accepts (relative file) with
    | true => simpa [haccepts] using endsIn_pure _
    | false => simpa [haccepts] using endsIn_pure _

end Runs

namespace Layout

section Handlers

/-- A layout whose work on a file looks up the path of this file at most once. -/
structure Regular (l : Layout) : Prop where
  looks_file : ∀ s project file (skip : Fault → Extraction (List Handler)),
    (∀ e, EndsIn (skip e) (.ok [])) →
      Looks s l.framework file.path (orElseWith (l.ofFile s project file) skip)
  looks_text : ∀ s path, Looks s l.framework path (l.ofText s path)

theorem regular_appLayout : appLayout.Regular :=
  ⟨fun _ _ _ _ hskip => looks_appFile hskip, fun _ path => looks_appText path⟩

theorem regular_pagesLayout : pagesLayout.Regular :=
  ⟨fun _ _ _ _ hskip => looks_pagesFile hskip, fun _ path => looks_pagesText path⟩

/-- Handlers that are found by syntax trees. -/
def structured
    (l : Layout)
    (accepts : String → Extraction Bool)
    (message : Nat → String)
    (s : Site) :
    Extraction (List Handler) := do
  let loader ← Extraction.loader s
  Extraction.requireConfig s l.framework loader
  let project ← Extraction.load loader l.patterns
  let files ← Extraction.filterM accepts (fun f => relativePath s f.path) project.sourceFiles
  say l.framework .debug (message files.length)
  Extraction.perFile s l.framework (l.ofFile s project) files

/-- Handlers that are found by texts alone. -/
def textual
    (l : Layout)
    (message : Nat → String)
    (s : Site) :
    Extraction (List Handler) := do
  let loader ← Extraction.loader s
  let found ← (loader.findFiles l.patterns).mapM (l.ofText s)
  let all := found.flatten
  say l.framework .debug (message all.length)
  return all

variable {l : Layout} {s : Site} {accepts : String → Extraction Bool}

/-- The extraction by syntax trees ends as the sources are found, with look-ups that match them. -/
def Follows
    (l : Layout)
    (s : Site)
    (work : Extraction (List Handler))
    (found : Except Fault (List Source)) :
    Prop :=
  (∃ e, found = .error e ∧ EndsIn work (.error e)) ∨
    ∃ sources uses, found = .ok sources ∧ Recalls s id work uses ∧
      Matches s l.framework sources uses

theorem Follows.bind
    {α : Type}
    {e : Except Fault α}
    {work : Extraction α}
    {next : α → Extraction (List Handler)}
    {found : α → Except Fault (List Source)}
    (h : EndsIn work e)
    (hnext : ∀ a, e = .ok a → Follows l s (next a) (found a)) :
    Follows l s (work >>= next) (e.bind found) := by
  cases e with
  | error fault => exact .inl ⟨fault, rfl, h.bind_error next⟩
  | ok a =>
    rcases hnext a rfl with ⟨fault, hfound, hends⟩ | ⟨sources, uses, hfound, hrecalls, hmatches⟩
    · exact .inl ⟨fault, hfound, h.bind hends⟩
    · exact .inr ⟨sources, uses, hfound, h.bind_recalls hrecalls, hmatches⟩

theorem Follows.after
    {α : Type}
    {a : α}
    {work : Extraction α}
    {next : α → Extraction (List Handler)}
    {found : Except Fault (List Source)}
    (h : EndsIn work (.ok a))
    (hnext : Follows l s (next a) found) :
    Follows l s (work >>= next) found := by
  rcases hnext with ⟨fault, hfound, hends⟩ | ⟨sources, uses, hfound, hrecalls, hmatches⟩
  · exact .inl ⟨fault, hfound, h.bind hends⟩
  · exact .inr ⟨sources, uses, hfound, h.bind_recalls hrecalls, hmatches⟩

theorem follows_structured
    (hl : l.Regular)
    (haccepts : ∀ path, EndsIn (accepts path) (.ok (l.accepts path)))
    (message : Nat → String) :
    Follows l s (l.structured accepts message s) (l.structuredSources s) := by
  unfold structuredSources structured
  refine Follows.bind (endsIn_ofExcept _) fun loader _ => ?_
  cases hconfig : loader.findConfig? with
  | none =>
    have hrequire : EndsIn (requireConfig s l.framework loader)
        (.error (.projectConfigMissing s.root.toText)) := by
      unfold requireConfig
      rw [hconfig]
      exact endsIn_throw _
    exact .inl ⟨_, rfl, hrequire.bind_error _⟩
  | some path =>
    have hrequire : EndsIn (requireConfig s l.framework loader) (.ok ()) := by
      unfold requireConfig
      rw [hconfig]
      exact endsIn_say _ _ _
    refine Follows.after hrequire ?_
    have hload (next : Project → Extraction (List Handler)) :
        load loader l.patterns >>= next =
          Extraction.ofExcept (loader.load l.patterns true) >>= fun p => next p.readAll := by
      simp [load]
    rw [hload]
    refine Follows.bind (endsIn_ofExcept _) fun project _ => ?_
    refine Follows.after (endsIn_filterM haccepts _ _) (Follows.after (endsIn_say _ _ _) ?_)
    have hskip (file : SourceFile) (e : Fault) : EndsIn (do
        say l.framework .warning ("Skipping " ++ relativePath s file.path ++ ": " ++ e.text)
        return [] : Extraction (List Handler)) (.ok []) :=
      (endsIn_say _ _ _).bind (endsIn_pure [])
    obtain ⟨usesOf, hrecalls, hmatches⟩ := exists_matches
      (fun file => hl.looks_file s project.readAll file _ (hskip file))
      (fun file => findsRoutes_orElseWith (hskip file))
      (project.readAll.sourceFiles.filter fun f => l.accepts (relativePath s f.path))
    exact .inr ⟨_, _, rfl, recalls_perFile hrecalls _, hmatches⟩

theorem follows_textual
    (hl : l.Regular)
    (message : Nat → String) :
    Follows l s (l.textual message s) (l.textualSources s) := by
  unfold textualSources textual
  refine Follows.bind (endsIn_ofExcept _) fun loader _ => ?_
  obtain ⟨usesOf, hrecalls, hmatches⟩ := exists_matches (hl.looks_text s) (fun _ => Iff.rfl)
    (loader.findFiles l.patterns)
  refine .inr ⟨_, _, rfl, ?_, hmatches⟩
  exact (recalls_mapM hrecalls _).bind_endsIn
    (fun _ => (endsIn_say _ _ _).bind (endsIn_pure _)) fun _ => rfl

/-- The handlers of a layout: either the sources are found and looked at, or a fault ends the work and
there are no sources. -/
theorem follows_handlers
    {structuredWork textualWork : Extraction (List Handler)}
    (hstructured : Follows l s structuredWork (l.structuredSources s))
    (htextual : Follows l s textualWork (l.textualSources s)) :
    (∃ e, EndsIn (handlers l.framework structuredWork (some textualWork)) (.error e) ∧
      l.sources s = []) ∨
    ∃ uses, Recalls s id (handlers l.framework structuredWork (some textualWork)) uses ∧
      Matches s l.framework (l.sources s) uses := by
  unfold sources handlers
  rcases hstructured with ⟨fault, hfound, hends⟩ | ⟨sources, uses, hfound, hrecalls, hmatches⟩
  · rw [hfound]
    cases fault with
    | projectConfigMissing path =>
      rcases htextual with ⟨fault, hfound', hends'⟩ | ⟨sources, uses, hfound', hrecalls, hmatches⟩
      · rw [hfound']
        exact .inl ⟨fault, hends.orElseWith_error ((endsIn_say _ _ _).bind hends'), rfl⟩
      · rw [hfound']
        exact .inr ⟨uses, hends.orElseWith_recalls ((endsIn_say _ _ _).bind_recalls hrecalls), hmatches⟩
    | _ => exact .inl ⟨_, hends.orElseWith_error (endsIn_throw _), rfl⟩
  · rw [hfound]
    exact .inr ⟨uses, hrecalls.orElseWith _, hmatches⟩

end Handlers

end Layout

end RouteAtlas.FileRoutes
