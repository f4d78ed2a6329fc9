import Mathlib
import RouteAtlas.Proofs.ReportedVerbs
import RouteAtlas.Proofs.RootConfinement

/-!
# Routes of one file

A file that is looked at for routes gives, in every run, one route for each of some methods. So the
routes of a framework are told apart by their file and their method just when no file with routes is
looked at twice. A page that is read gives routes just when its handler can be analysed, or when its
text, if that alone is looked at, has a default export.
-/

namespace RouteAtlas

open Files
open Syntax (SourceFile)
open Extraction

/-- The file and the method of a route. -/
def Route.fileAndMethod (r : Route) : Option String × String :=
  (r.filePath, r.method)

namespace FileRoutes

section Sources

variable {s : Site} {w : Source} {vs : List String}

/-- Handlers that the work on a source gives in some run; none after a fault. -/
def Source.Gives
    (w : Source)
    (own : List Handler) :
    Prop :=
  ∃ q, ends (orElseWith w.find fun _ => pure []) q = .ok own

/-- A source that gives, in every run, handlers of its file for the same methods, each of them once. -/
structure Source.Serves
    (s : Site)
    (w : Source)
    (vs : List String) :
    Prop where
  verbs : IsVerbList vs
  finds_iff : FindsRoutes w.find ↔ vs ≠ []
  methods_eq : ∀ own, w.Gives own → own.map Handler.method = vs
  filePath_eq : ∀ own, w.Gives own → ∀ h ∈ own, h.filePath = w.file.toText
  reached : FindsRoutes w.find → Tree.Reached s.tree w.file.components

theorem Source.gives_of_ends
    {q : Progress}
    {own : List Handler}
    (h : ends w.find q = .ok own) :
    w.Gives own := by
  have hrun := run_orElseWith w.find (fun _ => pure []) q
  rw [h] at hrun
  exact ⟨q, congrArg Prod.fst hrun⟩

theorem Source.Gives.exists_ends
    {own : List Handler}
    (h : w.Gives own) :
    own = [] ∨ ∃ q, ends w.find q = .ok own := by
  obtain ⟨q, h⟩ := h
  have hrun := run_orElseWith w.find (fun _ => pure []) q
  cases hends : ends w.find q with
  | ok found =>
    rw [hends] at hrun
    obtain rfl := Except.ok.inj (h.symm.trans (congrArg Prod.fst hrun))
    exact .inr ⟨q, hends⟩
  | error e =>
    rw [hends] at hrun
    exact .inl (Except.ok.inj (h.symm.trans (congrArg Prod.fst hrun)))

theorem ofHandler?_of_mem_verbs
    {h : Handler}
    (hverb : h.method ∈ Route.verbs) :
    ∃ r, Route.ofHandler? h = some r ∧ r.fileAndMethod = (some h.filePath, h.method) := by
  cases hr : Route.ofHandler? h with
  | none => simp [Route.ofHandler?, verb?_of_mem hverb] at hr
  | some r =>
    obtain ⟨hmethod, -, -, hfile, -⟩ := Route.fields_of_ofHandler? hr
    rw [verb?_of_mem hverb] at hmethod
    exact ⟨r, rfl, Prod.ext hfile (Option.some.inj hmethod).symm⟩

/-- Handlers of one file for some methods give a route for each of the methods. -/
theorem map_fileAndMethod_ofHandlers
    {own : List Handler}
    {file : String}
    (hfile : ∀ h ∈ own, h.filePath = file)
    (hverbs : ∀ v ∈ own.map Handler.method, v ∈ Route.verbs) :
    (Route.ofHandlers own).map Route.fileAndMethod =
      (own.map Handler.method).map fun v => (some file, v) := by
  induction own with
  | nil => rfl
  | cons h rest ih =>
    rw [List.map_cons, List.forall_mem_cons] at hverbs
    rw [List.forall_mem_cons] at hfile
    obtain ⟨r, hr, hplace⟩ := ofHandler?_of_mem_verbs hverbs.1
    have hrest := ih hfile.2 hverbs.2
    unfold Route.ofHandlers at hrest ⊢
    rw [List.filterMap_cons_some hr, List.map_cons, hrest, hplace, hfile.1]
    rfl

theorem ofHandlers_eq_nil_iff
    {own : List Handler}
    (hverbs : ∀ v ∈ own.map Handler.method, v ∈ Route.verbs) :
    Route.ofHandlers own = [] ↔ own = [] := by
  refine ⟨fun hnone => List.eq_nil_iff_forall_not_mem.2 fun h hh => ?_, fun hnone => by rw [hnone]; rfl⟩
  obtain ⟨r, hr, -⟩ := ofHandler?_of_mem_verbs (hverbs _ (List.mem_map_of_mem hh))
  have hmem : r ∈ Route.ofHandlers own := List.mem_filterMap.2 ⟨h, hh, hr⟩
  rw [hnone] at hmem
  cases hmem

/-- Work that gives one handler for each of some methods finds routes when it gives handlers. -/
theorem findsRoutes_iff_of_givesVerbs
    {work : Extraction (List Handler)}
    (h : GivesVerbs s work) :
    FindsRoutes work ↔ ∃ own, ends work .start = .ok own ∧ own ≠ [] := by
  obtain ⟨vs, hvs, hyields⟩ := h
  refine exists_congr fun own => and_congr_right fun hends => not_congr ?_
  exact ofHandlers_eq_nil_iff ((hyields .start).2 own hends ▸ hvs.are_verbs)

/-- Work that looks up the path of its file once, for the same methods in every run. -/
theorem Source.exists_serves
    {f : Framework}
    (hlooks : Looks s f w.file (orElseWith w.find fun _ => pure []))
    (hverbs : GivesVerbs s w.find)
    (hstands : ∀ q own, ends w.find q = .ok own → ∀ h ∈ own, StandsAt s w.file h) :
    ∃ vs, w.Serves s vs := by
  obtain ⟨vs, hvs, hyields⟩ := hverbs
  have hmethods (own : List Handler) (hown : w.Gives own) (hne : own ≠ []) :
      own.map Handler.method = vs := by
    obtain ⟨q, hq⟩ := hown.exists_ends.resolve_left hne
    exact (hyields q).2 own hq
  have hplaces (own : List Handler) (hown : w.Gives own) (h : Handler) (hh : h ∈ own) :
      StandsAt s w.file h := by
    obtain ⟨q, hq⟩ := hown.exists_ends.resolve_left (List.ne_nil_of_mem hh)
    exact hstands q own hq h hh
  have hskip (e : Fault) : EndsIn (pure [] : Extraction (List Handler)) (.ok []) := endsIn_pure []
  -- there are routes in one run exactly if there are handlers in another
  have hfinds (own : List Handler) (hown : w.Gives own) : FindsRoutes w.find ↔ own ≠ [] := by
    obtain ⟨q, hq⟩ := hown
    rw [← findsRoutes_orElseWith hskip, findsRoutes_iff_of_looks hlooks hq]
    refine not_congr (ofHandlers_eq_nil_iff fun v hv => ?_)
    by_cases hnone : own = []
    · simp [hnone] at hv
    · exact hvs.are_verbs v (hmethods own ⟨q, hq⟩ hnone ▸ hv)
  obtain ⟨own, hown⟩ : ∃ own, w.Gives own := by
    obtain ⟨uses, hrecalls, -⟩ := hlooks
    obtain ⟨own, hends, -⟩ := hrecalls .start
    exact ⟨own, .start, hends⟩
  by_cases hroutes : FindsRoutes w.find
  · have hne := (hfinds own hown).1 hroutes
    refine ⟨vs, hvs, ?_, fun own' hown' => hmethods own' hown' ((hfinds own' hown').1 hroutes),
      fun own' hown' h hh => (hplaces own' hown' h hh).filePath_eq, fun _ => ?_⟩
    · rw [← hmethods own hown hne]
      simpa [hroutes] using hne
    · obtain ⟨h, hh⟩ := List.exists_mem_of_ne_nil _ hne
      exact (hplaces own hown h hh).reached
  · have hnone (own' : List Handler) (hown' : w.Gives own') : own' = [] := by
      simpa [hroutes] using hfinds own' hown'
    exact ⟨[], isVerbList_nil, by simp [hroutes], fun own' hown' => by rw [hnone own' hown']; rfl,
      fun own' hown' => by simp [hnone own' hown'], fun h => absurd h hroutes⟩

end Sources

section Runs

variable {s : Site} {l : Layout} {accepts : String → Extraction Bool}

/-- The handlers of several files are those that the single files give. -/
theorem exists_gives_perFile
    {f : Framework}
    {handle : SourceFile → Extraction (List Handler)}
    {files : List SourceFile}
    {p : Progress}
    {hs : List Handler}
    (h : ends (perFile s f handle files) p = .ok hs) :
    ∃ lists, hs = lists.flatten ∧
      List.Forall₂ Source.Gives (files.map fun file => ⟨file.path, handle file⟩) lists := by
  induction files generalizing p hs with
  | nil => exact ⟨[], (Except.ok.inj h).symm, .nil⟩
  | cons file rest ih =>
    unfold perFile at h
    obtain ⟨own, hown, h⟩ := exists_of_ends_bind h
    obtain ⟨later, hlater, h⟩ := exists_of_ends_bind h
    obtain rfl : own ++ later = hs := Except.ok.inj h
    obtain ⟨lists, rfl, hlists⟩ := ih hlater
    refine ⟨own :: lists, rfl, .cons ?_ hlists⟩
    -- what is logged about a fault makes no difference
    refine ⟨p, ?_⟩
    have hrun := run_orElseWith (handle file) (fun e => do
      say f .warning ("Skipping " ++ relativePath s file.path ++ ": " ++ e.text)
      return []) p
    have hrun' := run_orElseWith (handle file) (fun _ => pure []) p
    cases hends : ends (handle file) p with
    | ok found =>
      rw [hends] at hrun hrun'
      exact (congrArg Prod.fst (hrun'.trans hrun.symm)).trans hown
    | error e =>
      rw [hends] at hrun hrun'
      exact (congrArg Prod.fst hrun').trans ((congrArg Prod.fst hrun).symm.trans hown)

theorem forall₂_gives_of_mapM
    {work : Path → Extraction (List Handler)}
    {paths : List Path}
    {p : Progress}
    {lists : List (List Handler)}
    (h : ends (paths.mapM work) p = .ok lists) :
    List.Forall₂ Source.Gives (paths.map fun path => ⟨path, work path⟩) lists := by
  induction paths generalizing p lists with
  | nil =>
    obtain rfl : [] = lists := Except.ok.inj h
    exact .nil
  | cons path rest ih =>
    rw [List.mapM_cons] at h
    obtain ⟨own, hown, h⟩ := exists_of_ends_bind h
    obtain ⟨later, hlater, h⟩ := exists_of_ends_bind h
    obtain rfl : own :: later = lists := Except.ok.inj h
    exact .cons (Source.gives_of_ends hown) (ih hlater)

theorem Layout.exists_gives_structured
    (haccepts : ∀ path, EndsIn (accepts path) (.ok (l.accepts path)))
    {message : Nat → String}
    {p : Progress}
    {hs : List Handler}
    (h : ends (l.structured accepts message s) p = .ok hs) :
    ∃ found lists, l.structuredSources s = .ok found ∧ hs = lists.flatten ∧
      List.Forall₂ Source.Gives found lists := by
  unfold structured at h
  obtain ⟨loader, hloader, h⟩ := exists_of_ends_bind h
  obtain ⟨u, hconfig, h⟩ := exists_of_ends_bind h
  obtain ⟨project, hproject, h⟩ := exists_of_ends_bind h
  obtain ⟨files, hfiles, h⟩ := exists_of_ends_bind h
  obtain ⟨u', -, h⟩ := exists_of_ends_bind h
  have hmade := (endsIn_ofExcept _ _).1.symm.trans hloader
  obtain ⟨path, hpath⟩ := ((settled_requireConfig s l.framework loader).yields (s := s) _).2 u hconfig
  obtain ⟨loaded, hloaded, rfl⟩ := ((settled_load loader l.patterns).yields (s := s) _).2 project hproject
  obtain rfl := Except.ok.inj ((endsIn_filterM haccepts _ _ _).1.symm.trans hfiles)
  obtain ⟨lists, rfl, hlists⟩ := exists_gives_perFile h
  refine ⟨_, lists, ?_, rfl, hlists⟩
  unfold structuredSources
  simp only [hmade, bind, Except.bind, hpath, hloaded]
  rfl

theorem Layout.exists_gives_textual
    {message : Nat → String}
    {p : Progress}
    {hs : List Handler}
    (h : ends (l.textual message s) p = .ok hs) :
    ∃ found lists, l.textualSources s = .ok found ∧ hs = lists.flatten ∧
      List.Forall₂ Source.Gives found lists := by
  unfold textual at h
  obtain ⟨loader, hloader, h⟩ := exists_of_ends_bind h
  obtain ⟨lists, hlists, h⟩ := exists_of_ends_bind h
  obtain ⟨u, -, h⟩ := exists_of_ends_bind h
  have hmade := (endsIn_ofExcept _ _).1.symm.trans hloader
  refine ⟨_, lists, ?_, (Except.ok.inj h).symm, forall₂_gives_of_mapM hlists⟩
  unfold textualSources
  simp only [hmade, bind, Except.bind]
  rfl

/-- The handlers of a layout are those that its sources give; after a fault there are neither. -/
theorem Layout.ends_handlers
    (hregular : l.Regular)
    (haccepts : ∀ path, EndsIn (accepts path) (.ok (l.accepts path)))
    (message message' : Nat → String)
    (p : Progress) :
    let work := handlers l.framework (l.structured accepts message s) (some (l.textual message' s))
    ∃ lists, List.Forall₂ Source.Gives (l.sources s) lists ∧
      (ends work p = .ok lists.flatten ∨ lists = [] ∧ ∃ e, ends work p = .error e) := by
  have hstructured := Layout.follows_structured (s := s) hregular haccepts message
  have htextual := Layout.follows_textual (s := s) hregular message'
  rcases Layout.follows_handlers hstructured htextual with ⟨e, hends, hnone⟩ | ⟨uses, hrecalls, -⟩
  · exact ⟨[], hnone ▸ .nil, .inr ⟨rfl, e, (hends p).1⟩⟩
  · obtain ⟨hs, hends, -⟩ := hrecalls p
    suffices hlists : ∃ lists, hs = lists.flatten ∧ List.Forall₂ Source.Gives (l.sources s) lists by
      obtain ⟨lists, rfl, hgives⟩ := hlists
      exact ⟨lists, hgives, .inl hends⟩
    unfold handlers at hends
    rw [ends, run_orElseWith] at hends
    cases hfirst : ends (l.structured accepts message s) p with
    | ok hs' =>
      rw [hfirst] at hends
      obtain rfl : hs' = hs := Except.ok.inj hends
      obtain ⟨found, lists, hfound, rfl, hlists⟩ := Layout.exists_gives_structured haccepts hfirst
      exact ⟨lists, rfl, by rwa [sources, hfound]⟩
    | error e =>
      rw [hfirst] at hends
      rcases hstructured with ⟨e', hfound, hends'⟩ | ⟨found, uses', -, hrecalls', -⟩
      · obtain rfl : e' = e := Except.error.inj ((hends' p).1.symm.trans hfirst)
        rw [sources, hfound]
        cases e' with
        | projectConfigMissing path =>
          obtain ⟨u, -, hends⟩ := exists_of_ends_bind hends
          obtain ⟨found, lists, hfound', rfl, hlists⟩ := Layout.exists_gives_textual hends
          exact ⟨lists, rfl, by rwa [hfound']⟩
        | _ => cases hends
      · obtain ⟨hs', hok, -⟩ := hrecalls' p
        cases hfirst.symm.trans hok

end Runs

section Served

variable {s : Site} {l : Layout} {loader : Project.Loader}

/-- The sources of a layout when there is a configuration. -/
theorem Layout.sources_of_config
    (hmade : Project.Loader.make s.tree s.root s.options.configPath s.options.exclude = .ok loader)
    {config : Path}
    (hconfig : loader.findConfig? = some config)
    {loaded : Project}
    (hload : loader.load l.patterns true = .ok loaded) :
    l.sources s = (loaded.readAll.sourceFiles.filter fun f => l.accepts (relativePath s f.path)).map
      fun f => ⟨f.path, l.ofFile s loaded.readAll f⟩ := by
  simp only [sources, structuredSources, hmade, hconfig, hload, bind, Except.bind]
  rfl

/-- The sources of a layout when there is none. -/
theorem Layout.sources_of_no_config
    (hmade : Project.Loader.make s.tree s.root s.options.configPath s.options.exclude = .ok loader)
    (hconfig : loader.findConfig? = none) :
    l.sources s = (loader.findFiles l.patterns).map fun path => ⟨path, l.ofText s path⟩ := by
  simp only [sources, structuredSources, textualSources, hmade, hconfig, bind, Except.bind]
  rfl

/-- The sources of a layout are files of one project, or else texts. -/
theorem Layout.sources_cases
    (l : Layout)
    (s : Site) :
    (∃ project, ∀ w ∈ l.sources s, ∃ file, IsSource s l.patterns project file ∧
      w = ⟨file.path, l.ofFile s project file⟩) ∨
    ∀ w ∈ l.sources s, ∃ path, l.IsText s path ∧ w = ⟨path, l.ofText s path⟩ := by
  unfold sources
  split
  · next found hfound =>
    refine .inl ?_
    unfold structuredSources at hfound
    obtain ⟨loader, hloader, hfound⟩ := exists_of_bind_eq_ok hfound
    split at hfound
    · cases hfound
    · obtain ⟨loaded, hloaded, hfound⟩ := exists_of_bind_eq_ok hfound
      obtain rfl := Except.ok.inj hfound
      refine ⟨loaded.readAll, fun w hw => ?_⟩
      obtain ⟨file, hfile, rfl⟩ := List.mem_map.1 hw
      exact ⟨file, ⟨loader, loaded, hloader, hloaded, rfl, List.mem_of_mem_filter hfile⟩, rfl⟩
  · refine .inr fun w hw => ?_
    cases htexts : l.textualSources s with
    | error e => simp [htexts, Except.toOption] at hw
    | ok found =>
      rw [htexts] at hw
      obtain ⟨loader, hloader, htexts⟩ := exists_of_bind_eq_ok htexts
      obtain rfl := Except.ok.inj htexts
      obtain ⟨path, hpath, rfl⟩ := List.mem_map.1 hw
      exact ⟨path, ⟨loader, hloader, hpath⟩, rfl⟩
  · exact .inr (by simp)

/-- A file is looked at in one way only. -/
theorem Layout.eq_of_file_eq
    {w w' : Source}
    (hw : w ∈ l.sources s)
    (hw' : w' ∈ l.sources s)
    (h : w.file = w'.file) :
    w = w' := by
  rcases l.sources_cases s with ⟨project, hall⟩ | hall
  · obtain ⟨file, hsource, rfl⟩ := hall w hw
    obtain ⟨file', hsource', rfl⟩ := hall w' hw'
    obtain ⟨-, -, -, hread⟩ := readBelow_of_isSource hsource
    obtain ⟨-, -, -, hread'⟩ := readBelow_of_isSource hsource'
    obtain ⟨content, hcontent, heq⟩ := hread.read
    obtain ⟨content', hcontent', heq'⟩ := hread'.read
    have hpath : file.path = file'.path := h
    rw [hpath, hcontent'] at hcontent
    obtain rfl := Option.some.inj hcontent
    have hfile : file = file' := by rw [heq, heq', hpath]
    rw [hfile]
  · obtain ⟨path, -, rfl⟩ := hall w hw
    obtain ⟨path', -, rfl⟩ := hall w' hw'
    have hpath : path = path' := h
    rw [hpath]

theorem Layout.exists_serves
    (hregular : l.Regular)
    (hl : l.Reports)
    (hverbs : l.VerbsOnce)
    {w : Source}
    (hw : w ∈ l.sources s) :
    ∃ vs, w.Serves s vs := by
  rcases l.sources_cases s with ⟨project, hall⟩ | hall
  · obtain ⟨file, hsource, rfl⟩ := hall w hw
    obtain ⟨-, -, -, hread⟩ := readBelow_of_isSource hsource
    refine Source.exists_serves (hregular.looks_file s project file _ fun _ => endsIn_pure [])
      (hverbs.ofFile s project file) fun q own hown h hh => ?_
    exact ⟨(hl.ofFile s project file q).2 own hown h hh, hread.absolute, hread.reached⟩
  · obtain ⟨path, htext, rfl⟩ := hall w hw
    have hlooks : Looks s l.framework path (orElseWith (l.ofText s path) fun _ => pure []) := by
      obtain ⟨uses, hrecalls, hone⟩ := hregular.looks_text s path
      exact ⟨uses, hrecalls.orElseWith _, hone⟩
    exact Source.exists_serves hlooks (hverbs.ofText s path) fun q own hown h hh =>
      hl.standsAt htext hown hh

/-- The files and methods of the routes that sources give. -/
theorem map_fileAndMethod_of_gives
    {verbsOf : Source → List String}
    {ws : List Source}
    {lists : List (List Handler)}
    (hserves : ∀ w ∈ ws, w.Serves s (verbsOf w))
    (h : List.Forall₂ Source.Gives ws lists) :
    (Route.ofHandlers lists.flatten).map Route.fileAndMethod =
      ws.flatMap fun w => (verbsOf w).map fun v => (some w.file.toText, v) := by
  induction h with
  | nil => rfl
  | @cons w own ws lists hown _ ih =>
    rw [List.forall_mem_cons] at hserves
    have hverbs := hserves.1.methods_eq own hown
    have hown' := map_fileAndMethod_ofHandlers (hserves.1.filePath_eq own hown)
      (hverbs ▸ hserves.1.verbs.are_verbs)
    have hrest := ih hserves.2
    unfold Route.ofHandlers at hown' hrest ⊢
    rw [List.flatten_cons, List.filterMap_append, List.map_append, hown', hrest, hverbs,
      List.flatMap_cons]

/-- The routes of sources are told apart just when no file with routes is looked at twice. -/
theorem nodup_iff_pairwise
    (ht : s.tree.HasFileNames)
    {verbsOf : Source → List String}
    {ws : List Source}
    (hserves : ∀ w ∈ ws, w.Serves s (verbsOf w))
    (hone : ∀ w ∈ ws, ∀ w' ∈ ws, w.file = w'.file → w = w') :
    (ws.flatMap fun w => (verbsOf w).map fun v => (some w.file.toText, v)).Nodup ↔
      ws.Pairwise fun w w' => w.file = w'.file → ¬ FindsRoutes w.find := by
  have hnodup (w : Source) (hw : w ∈ ws) :
      ((verbsOf w).map fun v => (some w.file.toText, v)).Nodup :=
    (hserves w hw).verbs.nodup.map fun v v' h => (Prod.mk.inj h).2
  rw [List.nodup_flatMap, and_iff_right hnodup]
  refine List.Pairwise.iff_of_mem fun {w w'} hw hw' => ?_
  have hfinds := (hserves w hw).finds_iff
  have hfinds' := (hserves w' hw').finds_iff
  constructor
  · rintro hdisjoint hfile hroutes
    obtain rfl := hone w hw w' hw' hfile
    obtain ⟨v, hv⟩ := List.exists_mem_of_ne_nil _ (hfinds.1 hroutes)
    exact hdisjoint (List.mem_map_of_mem hv) (List.mem_map_of_mem hv)
  · rintro hapart ⟨text, v⟩ hv hv'
    obtain ⟨v₁, hv₁, h₁⟩ := List.mem_map.1 hv
    obtain ⟨v₂, hv₂, h₂⟩ := List.mem_map.1 hv'
    have htext : w.file.toText = w'.file.toText :=
      Option.some.inj ((Prod.mk.inj h₁).1.trans (Prod.mk.inj h₂).1.symm)
    have hroutes := hfinds.2 (List.ne_nil_of_mem hv₁)
    have hroutes' := hfinds'.2 (List.ne_nil_of_mem hv₂)
    have hreached := (hserves w hw).reached hroutes
    exact hapart (hreached.eq_of_toText_eq ht ((hserves w' hw').reached hroutes') htext) hroutes

end Served

section Frameworks

variable {s : Site} {l : Layout} {accepts : String → Extraction Bool}

/-- In every run the routes of a layout have the files and methods that its sources serve. -/
theorem Layout.exists_routes
    (hregular : l.Regular)
    (hl : l.Reports)
    (hverbs : l.VerbsOnce)
    (haccepts : ∀ path, EndsIn (accepts path) (.ok (l.accepts path)))
    (message message' : Nat → String)
    (hwork : l.framework.handlers s = .ok
      (handlers l.framework (l.structured accepts message s) (some (l.textual message' s)))) :
    ∃ verbsOf : Source → List String, (∀ w ∈ l.sources s, w.Serves s (verbsOf w)) ∧
      ∀ p, ∃ rs, ends (Scan.routesOf s [l.framework]) p = .ok rs ∧
        rs.map Route.fileAndMethod =
          (l.sources s).flatMap fun w => (verbsOf w).map fun v => (some w.file.toText, v) := by
  have hserves (w : Source) : ∃ vs, w ∈ l.sources s → w.Serves s vs := by
    by_cases hw : w ∈ l.sources s
    · obtain ⟨vs, hvs⟩ := l.exists_serves hregular hl hverbs hw
      exact ⟨vs, fun _ => hvs⟩
    · exact ⟨[], fun h => absurd h hw⟩
  choose verbsOf hverbsOf using hserves
  refine ⟨verbsOf, hverbsOf, fun p => ⟨_, Scan.ends_routesOf_eq hwork p, ?_⟩⟩
  obtain ⟨lists, hlists, hends | ⟨rfl, e, hends⟩⟩ := l.ends_handlers hregular haccepts message message' p
  · rw [(Scan.routes_of_ok hends).1]
    exact map_fileAndMethod_of_gives hverbsOf hlists
  · rw [(Scan.routes_of_error hends).1, List.forall₂_nil_right_iff.1 hlists]
    rfl

end Frameworks

namespace Pages

section Pages

variable {s : Site} {project : Project} {file : SourceFile} {h : PageHandler}

/-- A page of a project gives routes just when its handler can be analysed. -/
theorem findsRoutes_ofFile_iff
    (hno : Evidence.servesProcedures file.text = false)
    (hh : pageHandler? file = some h) :
    FindsRoutes (ofFile s project file) ↔
      ∃ facts, Analysis.ofHandler ⟨some project⟩ file (h.node file) = .ok facts := by
  rw [findsRoutes_iff_of_givesVerbs givesVerbs_pagesFile]
  unfold ofFile
  simp only [hno, hh, Bool.false_eq_true, if_false, pathsOf_bind]
  constructor
  · rintro ⟨own, hends, -⟩
    obtain ⟨raw, -, hends⟩ := exists_of_ends_bind hends
    obtain ⟨facts, hfacts, -⟩ := exists_of_ends_bind hends
    exact ⟨facts, (endsIn_ofExcept _ _).1.symm.trans hfacts⟩
  · rintro ⟨facts, hfacts⟩
    rw [hfacts]
    exact ⟨_, rfl, fun hnone => orUsual_ne_nil _ (List.map_eq_nil_iff.1 hnone)⟩

/-- A page of which only the text is looked at gives routes just when it has a default export. -/
theorem findsRoutes_ofText_iff
    {path : Path}
    {content : Content}
    (haccepted : pagesLayout.accepts (relativePath s path) = true)
    (hcontent : s.tree.content? path = some content)
    (hno : Evidence.servesProcedures (Text.plainNewlines content.lenientText) = false) :
    FindsRoutes (ofText s path) ↔
      Text.contains (Text.plainNewlines content.lenientText) "export default" = true := by
  have haccepts : ends (accepts (relativePath s path)) .start = .ok true := by
    rw [(endsIn_pagesAccepts _ _).1, haccepted]
  rw [findsRoutes_iff_of_givesVerbs (givesVerbs_pagesText path)]
  unfold ofText
  rw [ends, run_bind_of_ok haccepts]
  dsimp only
  simp only [hcontent, hno, Bool.false_or]
  cases Text.contains (Text.plainNewlines content.lenientText) "export default" with
  | false =>
    refine iff_of_false ?_ Bool.false_ne_true
    rintro ⟨own, hown, hne⟩
    exact hne (Except.ok.inj hown).symm
  | true =>
    exact iff_of_true ⟨_, rfl, fun hnone => orUsual_ne_nil _ (List.map_eq_nil_iff.1 hnone)⟩ rfl

/-- The files that are read for pages: those of the project or, without a configuration, those that are
found, with their texts. -/
inductive Reads (s : Site) : Option Project → SourceFile → Prop
  | ofProject
      {loader : Project.Loader}
      {config : Path}
      {loaded : Project}
      {file : SourceFile}
      (made : Project.Loader.make s.tree s.root s.options.configPath s.options.exclude = .ok loader)
      (configured : loader.findConfig? = some config)
      (load : loader.load patterns true = .ok loaded)
      (mem : file ∈ loaded.readAll.sourceFiles) :
      Reads s (some loaded.readAll) file
  | ofText
      {loader : Project.Loader}
      {path : Path}
      {content : Content}
      (made : Project.Loader.make s.tree s.root s.options.configPath s.options.exclude = .ok loader)
      (unconfigured : loader.findConfig? = none)
      (mem : path ∈ loader.findFiles patterns)
      (content_eq : s.tree.content? path = some content) :
      Reads s none (.ofText path (Text.plainNewlines content.lenientText))

/-- A page: a file that is read, accepted and no adapter of procedures, and that exports a handler. -/
structure IsPage
    (s : Site)
    (project? : Option Project)
    (file : SourceFile)
    (h : PageHandler) :
    Prop where
  read : Reads s project? file
  accepted : pagesLayout.accepts (relativePath s file.path) = true
  no_procedures : Evidence.servesProcedures file.text = false
  exported : pageHandler? file = some h

/-- What is needed of a page: the analysis of its handler, or a default export that shows in its text. -/
def Shows
    (project? : Option Project)
    (file : SourceFile)
    (h : PageHandler) :
    Prop :=
  match project? with
  | some project => ∃ facts, Analysis.ofHandler ⟨some project⟩ file (h.node file) = .ok facts
  | none => Text.contains file.text "export default" = true

/-- A page is looked at, at its place, and gives routes just when it shows what is needed. -/
theorem IsPage.exists_source
    {project? : Option Project}
    (hpage : IsPage s project? file h) :
    ∃ w ∈ pagesLayout.sources s, w.file = file.path ∧ Tree.Reached s.tree file.path.components ∧
      (FindsRoutes w.find ↔ Shows project? file h) := by
  obtain ⟨hread, haccepted, hno, hexported⟩ := hpage
  cases hread with
  | @ofProject loader config loaded file hmade hconfig hload hmem =>
    refine ⟨⟨file.path, ofFile s loaded.readAll file⟩, ?_, rfl, ?_, findsRoutes_ofFile_iff hno hexported⟩
    · rw [pagesLayout.sources_of_config hmade hconfig hload]
      exact List.mem_map.2 ⟨file, List.mem_filter.2 ⟨hmem, haccepted⟩, rfl⟩
    · obtain ⟨-, -, -, hbelow⟩ := readBelow_of_isSource (s := s)
        ⟨loader, loaded, hmade, hload, rfl, hmem⟩
      exact hbelow.reached
  | @ofText loader path content hmade hconfig hmem hcontent =>
    refine ⟨⟨path, Pages.ofText s path⟩, ?_, rfl, ?_, findsRoutes_ofText_iff haccepted hcontent hno⟩
    · rw [pagesLayout.sources_of_no_config hmade hconfig]
      exact List.mem_map.2 ⟨path, hmem, rfl⟩
    · obtain ⟨htree, -⟩ := Project.Loader.eq_of_make hmade
      obtain ⟨walked, -, rfl⟩ := Project.Loader.mem_findFiles_iff.1 hmem
      rw [htree] at hcontent ⊢
      exact Project.reached_of_content? hcontent

end Pages

end Pages

end FileRoutes

namespace Scan

open FileRoutes (Source)

section Apart

variable {s : Site} {f : Framework}

/-- In no run two routes of a framework have the same file and the same method. -/
def TellsApart
    (s : Site)
    (f : Framework) :
    Prop :=
  ∀ p rs, ends (routesOf s [f]) p = .ok rs → (rs.map Route.fileAndMethod).Nodup

/-- No file in which routes are found is looked at twice for a framework. -/
def FoundOnce
    (s : Site)
    (f : Framework) :
    Prop :=
  (sources s f).Pairwise fun w w' => w.file = w'.file → ¬ FindsRoutes w.find

/-- In every run there are routes of each page. -/
def CoversPages (s : Site) : Prop :=
  ∀ p rs, ends (routesOf s [.pagesRouter]) p = .ok rs → ∀ project? file h,
    FileRoutes.Pages.IsPage s project? file h → ∃ r ∈ rs, r.filePath = some file.path.toText

/-- In every run the routes of the two layouts have the files and methods that the sources serve. -/
theorem exists_verbsOf
    (s : Site)
    (hf : f = .appRouter ∨ f = .pagesRouter) :
    ∃ verbsOf : Source → List String, (∀ w ∈ sources s f, w.Serves s (verbsOf w)) ∧
      (∀ w ∈ sources s f, ∀ w' ∈ sources s f, w.file = w'.file → w = w') ∧
      ∀ p, ∃ rs, ends (routesOf s [f]) p = .ok rs ∧ rs.map Route.fileAndMethod =
        (sources s f).flatMap fun w => (verbsOf w).map fun v => (some w.file.toText, v) := by
  rcases hf with rfl | rfl
  · obtain ⟨verbsOf, hserves, hruns⟩ := FileRoutes.appLayout.exists_routes (s := s)
      FileRoutes.Layout.regular_appLayout FileRoutes.reports_appLayout FileRoutes.verbsOnce_appLayout
      FileRoutes.endsIn_appAccepts
      (fun n => "Found " ++ toString n ++ " App Router route files")
      (fun n => "Basic mode found " ++ toString n ++ " App Router handlers") rfl
    exact ⟨verbsOf, hserves, fun w hw w' hw' => FileRoutes.Layout.eq_of_file_eq hw hw', hruns⟩
  · obtain ⟨verbsOf, hserves, hruns⟩ := FileRoutes.pagesLayout.exists_routes (s := s)
      FileRoutes.Layout.regular_pagesLayout FileRoutes.reports_pagesLayout
      FileRoutes.verbsOnce_pagesLayout FileRoutes.endsIn_pagesAccepts
      (fun n => "Found " ++ toString n ++ " Pages API files")
      (fun n => "Basic mode found " ++ toString n ++ " Pages API handlers") rfl
    exact ⟨verbsOf, hserves, fun w hw w' hw' => FileRoutes.Layout.eq_of_file_eq hw hw', hruns⟩

/-- The routes of a layout are told apart exactly when no file with routes is looked at twice. -/
theorem tellsApart_iff
    (ht : s.tree.HasFileNames)
    (hf : f = .appRouter ∨ f = .pagesRouter) :
    TellsApart s f ↔ FoundOnce s f := by
  obtain ⟨verbsOf, hserves, hone, hruns⟩ := exists_verbsOf s hf
  have honce := FileRoutes.nodup_iff_pairwise ht hserves hone
  constructor
  · intro hapart
    obtain ⟨rs, hends, hplaces⟩ := hruns .start
    exact honce.1 (hplaces ▸ hapart .start rs hends)
  · intro hfound p rs hends
    obtain ⟨rs', hends', hplaces⟩ := hruns p
    obtain rfl := Except.ok.inj (hends.symm.trans hends')
    rw [hplaces]
    exact honce.2 hfound

/-- A file that is looked at has routes in a run exactly when the work on it finds some. -/
theorem exists_filePath_iff
    (ht : s.tree.HasFileNames)
    (hf : f = .appRouter ∨ f = .pagesRouter)
    {w : Source}
    (hw : w ∈ sources s f)
    (hreached : Tree.Reached s.tree w.file.components)
    {p : Progress}
    {rs : List Route}
    (hends : ends (routesOf s [f]) p = .ok rs) :
    (∃ r ∈ rs, r.filePath = some w.file.toText) ↔ FindsRoutes w.find := by
  obtain ⟨verbsOf, hserves, hone, hruns⟩ := exists_verbsOf s hf
  obtain ⟨rs', hends', hplaces⟩ := hruns p
  obtain rfl := Except.ok.inj (hends.symm.trans hends')
  constructor
  · rintro ⟨r, hr, hfile⟩
    have hmem : r.fileAndMethod ∈ rs.map Route.fileAndMethod := List.mem_map_of_mem hr
    rw [hplaces] at hmem
    obtain ⟨w', hw', hmem⟩ := List.mem_flatMap.1 hmem
    obtain ⟨v, hv, heq⟩ := List.mem_map.1 hmem
    have hfinds := (hserves w' hw').finds_iff.2 (List.ne_nil_of_mem hv)
    have htext : w'.file.toText = w.file.toText :=
      Option.some.inj ((Prod.mk.inj heq).1.trans hfile)
    have hpath := ((hserves w' hw').reached hfinds).eq_of_toText_eq ht hreached htext
    exact hone w' hw' w hw hpath ▸ hfinds
  · intro hfinds
    obtain ⟨v, hv⟩ := List.exists_mem_of_ne_nil _ ((hserves w hw).finds_iff.1 hfinds)
    have hmem : (some w.file.toText, v) ∈ rs.map Route.fileAndMethod :=
      hplaces ▸ List.mem_flatMap.2 ⟨w, hw, List.mem_map_of_mem hv⟩
    obtain ⟨r, hr, heq⟩ := List.mem_map.1 hmem
    exact ⟨r, hr, (Prod.mk.inj heq).1⟩

/-- There are routes of each page exactly when each page shows what is needed. -/
theorem coversPages_iff (ht : s.tree.HasFileNames) :
    CoversPages s ↔ ∀ project? file h, FileRoutes.Pages.IsPage s project? file h →
      FileRoutes.Pages.Shows project? file h := by
  constructor
  · intro hcovers project? file h hpage
    obtain ⟨w, hw, hfile, hreached, hshows⟩ := hpage.exists_source
    obtain ⟨verbsOf, -, -, hruns⟩ := exists_verbsOf (f := .pagesRouter) s (.inr rfl)
    obtain ⟨rs, hends, -⟩ := hruns .start
    obtain ⟨r, hr, hplace⟩ := hcovers .start rs hends project? file h hpage
    rw [← hfile] at hreached hplace
    exact hshows.1 ((exists_filePath_iff ht (.inr rfl) hw hreached hends).1 ⟨r, hr, hplace⟩)
  · intro hall p rs hends project? file h hpage
    obtain ⟨w, hw, hfile, hreached, hshows⟩ := hpage.exists_source
    rw [← hfile] at hreached ⊢
    exact (exists_filePath_iff ht (.inr rfl) hw hreached hends).2
      (hshows.2 (hall project? file h hpage))

/-- What is wanted of the routes of files: a route for each file and method, and routes of each page. -/
structure ReportsOnce (s : Site) : Prop where
  app : TellsApart s .appRouter
  pages : TellsApart s .pagesRouter
  covers : CoversPages s

/-- No two routes of one layout have the same file and method, and each page has routes, exactly when no
file with routes is looked at twice and each page shows what is needed. -/
theorem reportsOnce_iff (ht : s.tree.HasFileNames) :
    ReportsOnce s ↔ FoundOnce s .appRouter ∧ FoundOnce s .pagesRouter ∧
      ∀ project? file h, FileRoutes.Pages.IsPage s project? file h →
        FileRoutes.Pages.Shows project? file h := by
  rw [← tellsApart_iff ht (.inl rfl), ← tellsApart_iff ht (.inr rfl), ← coversPages_iff ht]
  exact ⟨fun h => ⟨h.app, h.pages, h.covers⟩, fun h => ⟨h.1, h.2.1, h.2.2⟩⟩

/-- What the project with the shared file would be loaded from. -/
def sharedLoader : Project.Loader :=
  ⟨sharedFile.tree, sharedFile.root, none, .ofPatterns []⟩

theorem hasFileNames_sharedFile : sharedFile.tree.HasFileNames := by
  unfold sharedFile
  repeat' first
    | exact Tree.hasFileNames_nil
    | exact Tree.hasFileNames_file _
    | refine Tree.hasFileNames_cons (by decide) ?_ ?_

theorem reportsOnce_sharedFile : sharedFile.tree.HasFileNames ∧ ReportsOnce sharedFile := by
  refine ⟨hasFileNames_sharedFile, (reportsOnce_iff hasFileNames_sharedFile).2 ⟨?_, ?_, ?_⟩⟩
  · have hlength : (sources sharedFile .appRouter).length = 1 := by decide +kernel
    obtain ⟨w, hw⟩ := List.length_eq_one_iff.1 hlength
    rw [FoundOnce, hw]
    exact List.pairwise_singleton _ w
  · have hlength : (sources sharedFile .pagesRouter).length = 1 := by decide +kernel
    obtain ⟨w, hw⟩ := List.length_eq_one_iff.1 hlength
    rw [FoundOnce, hw]
    exact List.pairwise_singleton _ w
  · intro project? file h hpage
    have hloader : Project.Loader.make sharedFile.tree sharedFile.root sharedFile.options.configPath
        sharedFile.options.exclude = .ok sharedLoader := rfl
    cases hpage.read with
    | ofProject hmade hconfig hload hmem =>
      obtain rfl := Except.ok.inj (hloader.symm.trans hmade)
      cases hconfig
    | @ofText loader path content hmade hconfig hmem hcontent =>
      obtain rfl := Except.ok.inj (hloader.symm.trans hmade)
      have hall : ((sharedLoader.findFiles FileRoutes.Pages.patterns).all fun path =>
          (sharedFile.tree.content? path).all fun content =>
            Text.contains (Text.plainNewlines content.lenientText) "export default") = true := by
        decide +kernel
      have hshows := List.all_eq_true.1 hall path hmem
      rw [hcontent] at hshows
      exact hshows

/-- A project without a configuration, in which a link leads to a route of the project. -/
def linkedTwice : Site where
  tree := ⟨.directory [
    ("app", .directory [("api", .directory [("route.ts",
      .file (.text "export function GET() \x7b\x7d\n"))])]),
    ("web", .directory [("app", .directory [("api", .directory [("route.ts",
      .link "../../../app/api/route.ts")])])])]⟩
  root := ⟨true, []⟩
  options := .default

theorem walk_linkedTwice :
    linkedTwice.tree.walk Project.Loader.enters linkedTwice.root =
      [⟨true, ["app", "api", "route.ts"]⟩, ⟨true, ["web", "app", "api", "route.ts"]⟩] := by
  show Tree.walkEntries _ _ 6 _ _ = _
  rw [Tree.walkEntries, Tree.sortEntries_of_pairwise (by decide)]
  decide +kernel

/-- What the project would be loaded from. -/
def linkedLoader : Project.Loader :=
  ⟨linkedTwice.tree, linkedTwice.root, none, .ofPatterns []⟩

/-- The walk comes to the file and to the link, which both stand for the file. -/
theorem findFiles_linkedLoader :
    linkedLoader.findFiles FileRoutes.appLayout.patterns =
      [⟨true, ["app", "api", "route.ts"]⟩, ⟨true, ["app", "api", "route.ts"]⟩] := by
  have hwalk : linkedLoader.tree.walk (fun d => !Project.Loader.ignoredDirectories.contains d)
      linkedLoader.root = _ := walk_linkedTwice
  rw [Project.Loader.findFiles, Project.Loader.walk, hwalk]
  decide +kernel

/-- The file is looked at twice. -/
def linkedSource : Source :=
  ⟨⟨true, ["app", "api", "route.ts"]⟩,
    FileRoutes.App.ofText linkedTwice ⟨true, ["app", "api", "route.ts"]⟩⟩

theorem sources_linkedTwice : sources linkedTwice .appRouter = [linkedSource, linkedSource] := by
  have hloader : Project.Loader.make linkedTwice.tree linkedTwice.root linkedTwice.options.configPath
      linkedTwice.options.exclude = .ok linkedLoader := rfl
  have hconfig : linkedLoader.findConfig? = none := rfl
  rw [sources, FileRoutes.appLayout.sources_of_no_config hloader hconfig, findFiles_linkedLoader]
  rfl

theorem findsRoutes_linkedSource : FindsRoutes linkedSource.find := by
  have hroutes : ((ends linkedSource.find .start).map fun hs => (Route.ofHandlers hs).map Route.method) =
      .ok ["GET"] := by
    decide +kernel
  exact findsRoutes_of_map hroutes

theorem hasFileNames_linkedTwice : linkedTwice.tree.HasFileNames := by
  unfold linkedTwice
  repeat' first
    | exact Tree.hasFileNames_nil
    | exact Tree.hasFileNames_file _
    | exact Tree.hasFileNames_link _
    | refine Tree.hasFileNames_cons (by decide) ?_ ?_

/-- The route of the file is reported twice. -/
theorem not_reportsOnce_linkedTwice : ¬ ReportsOnce linkedTwice := by
  intro h
  have hfound := (tellsApart_iff hasFileNames_linkedTwice (.inl rfl)).1 h.app
  rw [FoundOnce, sources_linkedTwice, List.pairwise_cons] at hfound
  exact hfound.1 linkedSource (List.mem_singleton_self _) rfl findsRoutes_linkedSource

end Apart

end Scan

end RouteAtlas
