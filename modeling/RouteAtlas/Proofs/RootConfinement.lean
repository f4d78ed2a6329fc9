import Mathlib
import RouteAtlas.Proofs.ProjectFiles
import RouteAtlas.Proofs.RouteOrigins
import RouteAtlas.Proofs.TypedSources

/-!
# Routes in files under the root

A route names the file that it was found in. Source files of a project lie under the root of the project,
with all links followed, and so do files that are imported from them. A file whose text alone is looked at,
because the project has no configuration, is found by a walk from the root, but a link may lead out of it.
So the files of all routes lie under the root unless routes are found in such a text.

File trees are supposed to have proper names in them, so that a path can be read back from its text.
-/

namespace RouteAtlas

open Files
open Syntax (SourceFile)
open Extraction

namespace Files

section Texts

/-- All that can be reached in a tree goes by file names. -/
def Tree.HasFileNames (t : Tree) : Prop :=
  ∀ place e, t.root.get? place = some e → ∀ name ∈ place, Path.IsFileName name

instance (name : String) : Decidable (Path.IsFileName name) :=
  decidable_of_iff (name ≠ "" ∧ '/' ∉ name.toList ∧ name ≠ "." ∧ name ≠ "..")
    ⟨fun h => ⟨h.1, h.2.1, h.2.2.1, h.2.2.2⟩, fun h => ⟨h.1, h.2, h.3, h.4⟩⟩

theorem Tree.hasFileNames_file (content : Content) : Tree.HasFileNames ⟨.file content⟩ := by
  rintro (_ | _) e hentry
  · simp
  · cases hentry

theorem Tree.hasFileNames_link (target : String) : Tree.HasFileNames ⟨.link target⟩ := by
  rintro (_ | _) e hentry
  · simp
  · cases hentry

theorem Tree.hasFileNames_nil : Tree.HasFileNames ⟨.directory []⟩ := by
  rintro (_ | _) e hentry
  · simp
  · cases hentry

theorem Tree.hasFileNames_cons
    {name : String}
    {inner : Entry}
    {rest : List (String × Entry)}
    (hname : Path.IsFileName name)
    (hinner : Tree.HasFileNames ⟨inner⟩)
    (hrest : Tree.HasFileNames ⟨.directory rest⟩) :
    Tree.HasFileNames ⟨.directory ((name, inner) :: rest)⟩ := by
  intro place e hentry
  cases place with
  | nil => simp
  | cons first below =>
    by_cases hfirst : name = first
    · subst hfirst
      rw [Entry.get?, Entry.lookup?, if_pos rfl] at hentry
      exact List.forall_mem_cons.2 ⟨hname, hinner below e hentry⟩
    · rw [Entry.get?, Entry.lookup?, if_neg hfirst] at hentry
      exact hrest (first :: below) e hentry

theorem Path.splitOn_slash_cons (cs : List Char) :
    Text.splitOn '/' ('/' :: cs) = [] :: Text.splitOn '/' cs := by
  rw [Text.splitOn, if_pos rfl]

/-- File names are read back from a text in which slashes stand between them. -/
theorem Path.componentsOf_joinWith
    {names : List String}
    (h : ∀ name ∈ names, IsFileName name) :
    componentsOf (Text.joinWith "/" names) = names := by
  cases names with
  | nil => rfl
  | cons name rest =>
    rw [componentsOf, Text.split_joinWith fun c hc => (h c hc).not_slash, List.filter_eq_self]
    intro c hc
    simp [(h c hc).ne_empty, (h c hc).ne_here]

theorem Path.componentsOf_slash (text : String) : componentsOf ("/" ++ text) = componentsOf text := by
  have hsplit : Text.split '/' ("/" ++ text) = "" :: Text.split '/' text := by
    simp [Text.split, splitOn_slash_cons]
  rw [componentsOf, hsplit]
  rfl

/-- A path of file names is read back from its text. -/
theorem Path.ofText_toText
    {p : Path}
    (h : ∀ name ∈ p.components, IsFileName name) :
    ofText p.toText = p := by
  obtain ⟨absolute, names⟩ := p
  cases absolute with
  | true =>
    have hstart : Text.startsWith ("/" ++ Text.joinWith "/" names) "/" = true := by
      simp [Text.startsWith, Text.afterStart?]
    simp only [toText, if_true, ofText, hstart, componentsOf_slash, componentsOf_joinWith h]
  | false =>
    cases names with
    | nil => decide
    | cons name rest =>
      have hname := h name (List.mem_cons_self ..)
      have hstart : Text.startsWith (Text.joinWith "/" (name :: rest)) "/" = false := by
        obtain ⟨c, cs, hcs⟩ : ∃ c cs, name.toList = c :: cs :=
          List.exists_cons_of_ne_nil (by simpa using hname.ne_empty)
        have hslash : c ≠ '/' := by
          rintro rfl
          exact hname.not_slash (by simp [hcs])
        cases rest <;> simp [Text.startsWith, Text.joinWith, Text.afterStart?, hcs, Ne.symm hslash]
      simp [toText, ofText, hstart, componentsOf_joinWith h]

/-- Places of a tree are told apart by their texts. -/
theorem Tree.Reached.eq_of_toText_eq
    {t : Tree}
    {p q : Path}
    (ht : t.HasFileNames)
    (hp : Tree.Reached t p.components)
    (hq : Tree.Reached t q.components)
    (h : p.toText = q.toText) :
    p = q := by
  obtain ⟨e, hentry⟩ := hp.exists_entry
  obtain ⟨e', hentry'⟩ := hq.exists_entry
  rw [← Path.ofText_toText (ht _ e hentry), h, Path.ofText_toText (ht _ e' hentry')]

end Texts

end Files

/-- The file of a route lies under the root of its project, all links being followed. -/
def Site.Confines
    (s : Site)
    (r : Route) :
    Prop :=
  ∃ text, r.filePath = some text ∧
    (s.tree.resolve (Path.ofText text)).isBelow (s.tree.resolve s.root) = true

section Places

/-- A handler that is reported for the file at a place of the tree. -/
structure StandsAt
    (s : Site)
    (path : Path)
    (h : Handler) :
    Prop where
  filePath_eq : h.filePath = path.toText
  absolute : path.isAbsolute = true
  reached : Tree.Reached s.tree path.components

/-- A handler that is reported for a file under the root. -/
def IsConfined
    (s : Site)
    (h : Handler) :
    Prop :=
  ∃ path, StandsAt s path h ∧ path.isBelow (s.tree.resolve s.root) = true

variable {s : Site}

theorem StandsAt.confines_iff_isBelow
    (ht : s.tree.HasFileNames)
    {path : Path}
    {h : Handler}
    (hstands : StandsAt s path h)
    {r : Route}
    (hr : Route.ofHandler? h = some r) :
    s.Confines r ↔ path.isBelow (s.tree.resolve s.root) = true := by
  obtain ⟨-, -, -, hfile, -⟩ := Route.fields_of_ofHandler? hr
  obtain ⟨e, hentry⟩ := hstands.reached.exists_entry
  have hread : Path.ofText path.toText = path := Path.ofText_toText (ht _ e hentry)
  have hplace : s.tree.resolve path = path :=
    Tree.resolve_of_reached hstands.absolute hstands.reached
  rw [hstands.filePath_eq] at hfile
  constructor
  · rintro ⟨text, htext, hbelow⟩
    rw [hfile] at htext
    cases htext
    rwa [hread, hplace] at hbelow
  · exact fun hbelow => ⟨_, hfile, by rwa [hread, hplace]⟩

theorem IsConfined.confines
    (ht : s.tree.HasFileNames)
    {h : Handler}
    (hconfined : IsConfined s h)
    {r : Route}
    (hr : Route.ofHandler? h = some r) :
    s.Confines r := by
  obtain ⟨path, hstands, hbelow⟩ := hconfined
  exact (hstands.confines_iff_isBelow ht hr).2 hbelow

theorem isConfined_of_readBelow
    {file : SourceFile}
    (hfile : Project.ReadBelow s.tree (s.tree.resolve s.root) file)
    {h : Handler}
    (hpath : h.filePath = file.path.toText) :
    IsConfined s h :=
  ⟨file.path, ⟨hpath, hfile.absolute, hfile.reached⟩, hfile.below⟩

end Places

section Sources

theorem Project.Loader.eq_of_make
    {t : Tree}
    {root : Path}
    {configPath : Option Path}
    {exclude : List Value}
    {l : Loader}
    (h : Loader.make t root configPath exclude = .ok l) :
    l.tree = t ∧ l.root = t.resolve root := by
  unfold Loader.make at h
  extract_lets resolved whenDirectory whenThere at h
  have hdirectory : ∀ u, whenDirectory u = .ok l → l.tree = t ∧ l.root = resolved := by
    intro u h
    obtain ⟨matcher, -, h⟩ := exists_of_bind_eq_ok h
    cases h
    exact ⟨rfl, rfl⟩
  have hthere : ∀ u, whenThere u = .ok l → l.tree = t ∧ l.root = resolved := by
    intro u h
    unfold whenThere at h
    clear_value whenDirectory
    split at h
    · cases h
    · exact hdirectory _ h
  clear_value whenThere
  split at h
  · cases h
  · exact hthere _ h

variable {s : Site}

/-- A source file of a project of a site lies under the root, and so do those that it imports. -/
theorem readBelow_of_isSource
    {patterns : List String}
    {project : Project}
    {file : SourceFile}
    (h : IsSource s patterns project file) :
    project.tree = s.tree ∧ project.root = s.tree.resolve s.root ∧ Project.HoldsSources project ∧
      Project.ReadBelow s.tree (s.tree.resolve s.root) file := by
  obtain ⟨l, loaded, hl, hloaded, rfl, hfile⟩ := h
  obtain ⟨htree, hroot⟩ := Project.Loader.eq_of_make hl
  obtain ⟨hholds, htree', hroot', -⟩ := (Project.Loader.loads_of_load hloaded).readAll
  refine ⟨htree'.trans htree, hroot'.trans hroot, hholds, ?_⟩
  rw [← hroot, ← hroot', ← htree, ← htree']
  exact hholds.of_mem_sourceFiles hfile

/-- The relative path of a file under the root leads back to it. -/
theorem join_relativePath
    (ht : s.tree.HasFileNames)
    {path : Path}
    (habsolute : path.isAbsolute = true)
    (hreached : Tree.Reached s.tree path.components) :
    s.root.join (Path.ofText (relativePath s path)) = path := by
  obtain ⟨e, hentry⟩ := hreached.exists_entry
  have hnames := ht _ e hentry
  rw [relativePath, Tree.resolve_of_reached habsolute hreached]
  cases hrest : path.relativeTo? s.root with
  | none => rw [Option.getD_none, Path.ofText_toText hnames, Path.join, if_pos habsolute]
  | some rest =>
    obtain ⟨hroot, hrelative, hcomponents⟩ := Path.relativeTo?_eq_some_iff.1 hrest
    have hrestNames : ∀ name ∈ rest.components, Path.IsFileName name := fun name hname =>
      hnames name (hcomponents ▸ List.mem_append_right _ hname)
    rw [Option.getD_some, Path.ofText_toText hrestNames, Path.join, hrelative]
    obtain ⟨absolute, names⟩ := path
    exact congrArg₂ Files.Path.mk hroot.symm hcomponents.symm

/-- An entry of a router in a source file is written out there, or in another source of the project. -/
theorem Procedures.Written.readBelow
    {project : Project}
    (hholds : Project.HoldsSources project)
    {r : EntryReader}
    (hscope : r.scope = ⟨some project⟩)
    {file owner : SourceFile}
    (hread : Project.ReadBelow project.tree project.root file)
    {p : Syntax.Node.Property}
    {e : Syntax.Node}
    (h : Written r file p owner e) :
    Project.ReadBelow project.tree project.root owner := by
  cases h with
  | here => exact hread
  | named _ hfound =>
    rw [hscope] at hfound
    exact hholds.of_lookup hread hfound

/-- A procedure is recorded with a file under the root, in which it is written out. -/
theorem Procedures.IsSurveyed.exists_owner
    {recognition : Recognition}
    {p : Procedure}
    (h : IsSurveyed s recognition p) :
    ∃ owner, Project.ReadBelow s.tree (s.tree.resolve s.root) owner ∧
      p.filePath = relativePath s owner.path := by
  obtain ⟨project, file, q, paths, hproject, hfile, ⟨c, property, -, -, hentry⟩, rfl⟩ := h
  obtain ⟨patterns, hsource⟩ := exists_isSource_of_projectOf hproject hfile
  obtain ⟨htree, hroot, hholds, hread⟩ := readBelow_of_isSource hsource
  obtain ⟨owner, e, hwritten, hrecorded⟩ := recorded_of_entry hentry
  refine ⟨owner, ?_, hrecorded.filePath_eq⟩
  rw [← hroot, ← htree] at hread ⊢
  exact hwritten.readBelow hholds rfl hread

end Sources

namespace FileRoutes

section Layouts

/-- A layout whose handlers are reported for the files that are worked on, if there are such files. -/
structure Layout.Reports (l : Layout) : Prop where
  ofFile : ∀ s project file, Yields s (fun _ hs => ∀ h ∈ hs, h.filePath = file.path.toText)
    (l.ofFile s project file)
  ofText : ∀ s path, Yields s (fun _ hs => ∀ h ∈ hs, h.filePath = path.toText) (l.ofText s path)
  missing : ∀ s path, s.tree.content? path = none → EndsIn (l.ofText s path) (.ok [])

theorem yields_filePath
    {s : Site}
    {f : Framework}
    {path : Path}
    {R : Handler → Prop}
    {work : Extraction (List Handler)}
    (h : Yields s (fun m hs => ∀ h ∈ hs, R h ∧ LocatedAt s f path m h) work) :
    Yields s (fun _ hs => ∀ h ∈ hs, h.filePath = path.toText) work := by
  refine h.mono fun m hs hall h hh => ?_
  obtain ⟨-, raw, hmade, -⟩ := hall h hh
  exact hmade.filePath_eq

theorem reports_appLayout : appLayout.Reports where
  ofFile _ _ _ := yields_filePath yields_appFile
  ofText _ path := yields_filePath (yields_appText path)
  missing s path hmissing := by
    show EndsIn (App.ofText s path) _
    unfold App.ofText
    refine (endsIn_appAccepts _).bind ?_
    rw [hmissing]
    split
    · next hsome => cases hsome
    · exact endsIn_pure []

theorem reports_pagesLayout : pagesLayout.Reports where
  ofFile _ _ _ := yields_filePath yields_pagesFile
  ofText _ path := yields_filePath (yields_pagesText path)
  missing s path hmissing := by
    show EndsIn (Pages.ofText s path) _
    unfold Pages.ofText
    refine (endsIn_pagesAccepts _).bind ?_
    rw [hmissing]
    split
    · next hsome => cases hsome
    · exact endsIn_pure []

/-- The files whose texts are looked at for routes because a project has no configuration. -/
def Layout.unstructuredSources
    (l : Layout)
    (s : Site) :
    List Source :=
  match l.structuredSources s with
  | .error (.projectConfigMissing _) => (l.textualSources s).toOption.getD []
  | _ => []

variable {s : Site} {l : Layout} {accepts : String → Extraction Bool}

/-- A file whose text is read stands at its place, if there is anything in it. -/
theorem Layout.Reports.standsAt
    (hl : l.Reports)
    {path : Path}
    (htext : l.IsText s path)
    {p : Progress}
    {hs : List Handler}
    (hends : ends (l.ofText s path) p = .ok hs)
    {h : Handler}
    (hh : h ∈ hs) :
    StandsAt s path h := by
  obtain ⟨content, hcontent⟩ : ∃ content, s.tree.content? path = some content := by
    cases hs with
    | nil => cases hh
    | cons first rest =>
      cases hcontent : s.tree.content? path with
      | some content => exact ⟨content, rfl⟩
      | none => cases (hl.missing s path hcontent p).1.symm.trans hends
  obtain ⟨loader, hloader, hpath⟩ := htext
  obtain ⟨htree, -⟩ := Project.Loader.eq_of_make hloader
  obtain ⟨walked, -, rfl⟩ := Project.Loader.mem_findFiles_iff.1 hpath
  rw [htree] at hends hcontent ⊢
  exact ⟨(hl.ofText s _ p).2 hs hends h hh, rfl, Project.reached_of_content? hcontent⟩

/-- Work on the path of a file finds routes after any work if it finds some before all others. -/
theorem findsRoutes_iff_of_looks
    {f : Framework}
    {file : Path}
    {work : Extraction (List Handler)}
    (h : Looks s f file work)
    {p : Progress}
    {hs : List Handler}
    (hends : ends work p = .ok hs) :
    FindsRoutes work ↔ Route.ofHandlers hs ≠ [] := by
  obtain ⟨uses, hrecalls, hone⟩ := h
  obtain ⟨hs', hends', hroutes, -⟩ := hrecalls p
  obtain rfl : hs = hs' := Except.ok.inj (hends.symm.trans hends')
  rw [hrecalls.findsRoutes_iff hone, show Route.ofHandlers hs = _ from hroutes]
  cases uses with
  | nil => simp [routesAfter]
  | cons u rest =>
    obtain ⟨hpatterned, -, heq⟩ := hone u (List.mem_cons_self ..)
    obtain rfl : rest = [] := (List.cons.inj heq).2
    simp [routesAfter, hpatterned.eq_nil_iff _ u.derived]

/-- A handler that gives no route, or is reported for a file under the root. -/
def RoutesConfined
    (s : Site)
    (h : Handler) :
    Prop :=
  ∀ r, Route.ofHandler? h = some r → IsConfined s h

theorem Layout.Reports.yields_ofText
    (hl : l.Reports)
    (hregular : l.Regular)
    {path : Path}
    (htext : l.IsText s path)
    (hbelow : FindsRoutes (l.ofText s path) → path.isBelow (s.tree.resolve s.root) = true) :
    Yields s (fun _ hs => ∀ h ∈ hs, RoutesConfined s h) (l.ofText s path) := by
  refine fun p => ⟨(hl.ofText s path p).1, fun hs hends h hh r hr => ?_⟩
  refine ⟨path, hl.standsAt htext hends hh, hbelow ?_⟩
  rw [findsRoutes_iff_of_looks (hregular.looks_text s path) hends]
  exact List.ne_nil_of_mem (List.mem_filterMap.2 ⟨h, hh, hr⟩)

theorem Layout.Reports.yields_ofFile
    (hl : l.Reports)
    {project : Project}
    {file : SourceFile}
    (hsource : IsSource s l.patterns project file) :
    Yields s (fun _ hs => ∀ h ∈ hs, RoutesConfined s h) (l.ofFile s project file) := by
  obtain ⟨-, -, -, hread⟩ := readBelow_of_isSource hsource
  exact (hl.ofFile s project file).mono fun _ hs hall h hh r _ =>
    isConfined_of_readBelow hread (hall h hh)

/-- The handlers of a layout: those of syntax trees, or else those of texts, which lie under the root if
the texts with routes do. -/
theorem Layout.Reports.yields_handlers
    (hl : l.Reports)
    (hregular : l.Regular)
    (haccepts : ∀ path, EndsIn (accepts path) (.ok (l.accepts path)))
    (hbelow : ∀ w ∈ l.unstructuredSources s, FindsRoutes w.find →
      w.file.isBelow (s.tree.resolve s.root) = true)
    (message message' : Nat → String) :
    Yields s (fun _ hs => ∀ h ∈ hs, RoutesConfined s h)
      (handlers l.framework (l.structured accepts message s) (some (l.textual message' s))) := by
  refine l.yields_handlers (lasting_const _) haccepts (fun _ _ hsource => hl.yields_ofFile hsource)
    message message' fun p text hmissing path htext => ?_
  refine hl.yields_ofText hregular htext fun hfinds => hbelow ⟨path, l.ofText s path⟩ ?_ hfinds
  rcases Layout.follows_structured hregular haccepts message with
    ⟨fault, hfound, hends⟩ | ⟨sources, uses, -, hrecalls, -⟩
  · obtain rfl : fault = .projectConfigMissing text :=
      Except.error.inj ((hends p).1.symm.trans hmissing)
    obtain ⟨loader, hloader, hpath⟩ := htext
    rw [Layout.unstructuredSources, hfound]
    simp only [Layout.textualSources, hloader, bind, Except.bind]
    exact List.mem_map.2 ⟨path, hpath, rfl⟩
  · obtain ⟨hs, hends, -⟩ := hrecalls p
    rw [hends] at hmissing
    cases hmissing

/-- Without a configuration the handlers are those of the texts. -/
theorem exists_ends_handlers
    {f : Framework}
    {structured textual : Extraction (List Handler)}
    {p : Progress}
    {text : String}
    (h : ends structured p = .error (.projectConfigMissing text))
    (htextual : ∀ q, ∃ hs, ends textual q = .ok hs) :
    ∃ q hs, ends textual q = .ok hs ∧ ends (handlers f structured (some textual)) p = .ok hs := by
  obtain ⟨q, hq⟩ : ∃ q, ends (handlers f structured (some textual)) p = ends textual q := by
    rw [handlers, ends, run_orElseWith, h]
    exact ⟨_, congrArg Prod.fst (run_bind_of_ok (endsIn_say _ _ _ _).1 _)⟩
  obtain ⟨hs, hends⟩ := htextual q
  exact ⟨q, hs, hends, hq.trans hends⟩

/-- A text that routes are found in gives a handler, and a route of it. -/
theorem Layout.Reports.exists_handler
    (hl : l.Reports)
    (hregular : l.Regular)
    {message : Nat → String}
    {p : Progress}
    {hs : List Handler}
    (hends : ends (l.textual message s) p = .ok hs)
    {path : Path}
    (htext : l.IsText s path)
    (hfinds : FindsRoutes (l.ofText s path)) :
    ∃ h r, h ∈ hs ∧ Route.ofHandler? h = some r ∧ StandsAt s path h := by
  have hstands := fun q own hown h => @Layout.Reports.standsAt s l hl path htext q own hown h
  obtain ⟨loader, hloader, hpath⟩ := htext
  -- the handlers of the texts are those of the single texts, one after the other
  obtain ⟨loader', hloader', hends⟩ := exists_of_ends_bind hends
  obtain ⟨found, hlists, hends⟩ := exists_of_ends_bind hends
  obtain ⟨u, -, hends⟩ := exists_of_ends_bind hends
  obtain rfl : found.flatten = hs := Except.ok.inj hends
  obtain rfl : loader = loader' := Except.ok.inj (hloader.symm.trans hloader')
  obtain ⟨own, q, hown, hmem⟩ := exists_ends_of_ends_mapM hlists hpath
  rw [findsRoutes_iff_of_looks (hregular.looks_text s path) hown] at hfinds
  obtain ⟨r, hr⟩ := List.exists_mem_of_ne_nil _ hfinds
  obtain ⟨h, hh, hroute⟩ := List.mem_filterMap.1 hr
  exact ⟨h, r, List.mem_flatten.2 ⟨own, hmem, hh⟩, hroute, hstands q own hown h hh⟩

/-- What it means that there are texts to be looked at. -/
theorem Layout.exists_of_mem_unstructuredSources
    {w : Source}
    (hw : w ∈ l.unstructuredSources s) :
    ∃ text sources, l.structuredSources s = .error (.projectConfigMissing text) ∧
      l.textualSources s = .ok sources ∧ l.IsText s w.file ∧ w.find = l.ofText s w.file := by
  unfold unstructuredSources at hw
  split at hw
  · next text hfound =>
    cases htexts : l.textualSources s with
    | error fault => simp [htexts, Except.toOption] at hw
    | ok sources =>
      simp only [htexts, Except.toOption, Option.getD_some] at hw
      obtain ⟨loader, hloader, htexts⟩ := exists_of_bind_eq_ok htexts
      obtain rfl := Except.ok.inj htexts
      obtain ⟨path, hpath, rfl⟩ := List.mem_map.1 hw
      exact ⟨text, _, hfound, rfl, ⟨loader, hloader, hpath⟩, rfl⟩
  · simp at hw

/-- A text that routes are found in gives a route of its file. -/
theorem Layout.Reports.exists_route
    (hl : l.Reports)
    (hregular : l.Regular)
    (haccepts : ∀ path, EndsIn (accepts path) (.ok (l.accepts path)))
    (message message' : Nat → String)
    {w : Source}
    (hw : w ∈ l.unstructuredSources s)
    (hfinds : FindsRoutes w.find) :
    ∃ hs h r, ends (handlers l.framework (l.structured accepts message s)
        (some (l.textual message' s))) .start = .ok hs ∧
      h ∈ hs ∧ Route.ofHandler? h = some r ∧ StandsAt s w.file h := by
  obtain ⟨text, sources, hfound, htexts, htext, hfind⟩ := l.exists_of_mem_unstructuredSources hw
  have hmissing : ends (l.structured accepts message s) .start = .error (.projectConfigMissing text) := by
    rcases Layout.follows_structured hregular haccepts message with
      ⟨fault, hfault, hends⟩ | ⟨sources, uses, hok, -⟩
    · rw [hfound] at hfault
      cases hfault
      exact (hends .start).1
    · rw [hfound] at hok
      cases hok
  have htextual : ∀ q, ∃ hs, ends (l.textual message' s) q = .ok hs := by
    rcases Layout.follows_textual hregular message' with
      ⟨fault, hfault, -⟩ | ⟨sources', uses, -, hrecalls, -⟩
    · rw [htexts] at hfault
      cases hfault
    · intro q
      obtain ⟨hs, hends, -⟩ := hrecalls q
      exact ⟨hs, hends⟩
  obtain ⟨q, hs, hends, hall⟩ := exists_ends_handlers (f := l.framework) hmissing htextual
  obtain ⟨h, r, hh, hroute, hstands⟩ := hl.exists_handler hregular hends htext (hfind ▸ hfinds)
  exact ⟨hs, h, r, hall, hh, hroute, hstands⟩

end Layouts

end FileRoutes

namespace Scan

section Confinement

variable {s : Site}

/-- The files whose texts are looked at for routes of a framework. -/
def unstructuredSources (s : Site) : Framework → List FileRoutes.Source
  | .appRouter => FileRoutes.appLayout.unstructuredSources s
  | .pagesRouter => FileRoutes.pagesLayout.unstructuredSources s
  | .trpc | .nest => []

theorem yields_routesConfined
    (ht : s.tree.HasFileNames)
    {f : Framework}
    (hbelow : ∀ w ∈ unstructuredSources s f, FindsRoutes w.find →
      w.file.isBelow (s.tree.resolve s.root) = true)
    {work : Extraction (List Handler)}
    (h : f.handlers s = .ok work) :
    Yields s (fun _ hs => ∀ h ∈ hs, FileRoutes.RoutesConfined s h) work := by
  cases f with
  | appRouter =>
    obtain rfl := Except.ok.inj h
    exact FileRoutes.reports_appLayout.yields_handlers FileRoutes.Layout.regular_appLayout
      FileRoutes.endsIn_appAccepts hbelow
      (fun n => "Found " ++ toString n ++ " App Router route files")
      (fun n => "Basic mode found " ++ toString n ++ " App Router handlers")
  | pagesRouter =>
    obtain rfl := Except.ok.inj h
    exact FileRoutes.reports_pagesLayout.yields_handlers FileRoutes.Layout.regular_pagesLayout
      FileRoutes.endsIn_pagesAccepts hbelow
      (fun n => "Found " ++ toString n ++ " Pages API files")
      (fun n => "Basic mode found " ++ toString n ++ " Pages API handlers")
  | trpc =>
    unfold Framework.handlers at h
    obtain ⟨recognition, -, h⟩ := exists_of_bind_eq_ok h
    obtain rfl := Except.ok.inj h
    refine (Procedures.settled_handlers fun basePath p _ hsurveyed r _ => ?_).yields
    obtain ⟨owner, hread, hfile⟩ := hsurveyed.exists_owner
    refine isConfined_of_readBelow hread ?_
    show (s.root.join (Path.ofText p.filePath)).toText = owner.path.toText
    rw [hfile, join_relativePath ht hread.absolute hread.reached]
  | nest =>
    obtain rfl := Except.ok.inj h
    refine (Controllers.settled_handlers fun c m facts verb path hmethod _ r _ => ?_).yields
    obtain ⟨project, hsource⟩ := hmethod.source
    obtain ⟨-, -, -, hread⟩ := readBelow_of_isSource hsource
    exact isConfined_of_readBelow hread rfl

/-- The extraction of one framework is what this extraction gives. -/
theorem ends_routesOf_eq
    {f : Framework}
    {work : Extraction (List Handler)}
    (h : f.handlers s = .ok work)
    (p : Progress) :
    ends (routesOf s [f]) p = .ok ((Extraction.routes f work).run p).1 := by
  have hwork : Extraction.ofExcept (f.handlers s) = pure work := by
    rw [h]
    rfl
  have hsingle : routesOf s [f] = (do
      let rs ← (Extraction.routes f work : StateM Progress (List Route))
      return [rs].flatten) := by
    simp [routesOf, hwork]
  have hroutes : ends (Extraction.routes f work : StateM Progress (List Route)) p =
      .ok ((Extraction.routes f work).run p).1 := rfl
  rw [hsingle]
  refine (congrArg Prod.fst (run_bind_of_ok hroutes _)).trans ?_
  rw [List.flatten_cons, List.flatten_nil, List.append_nil]
  rfl

/-- The routes of one framework are made of what its extraction finds. -/
theorem ends_routesOf_singleton
    {f : Framework}
    {work : Extraction (List Handler)}
    (h : f.handlers s = .ok work)
    {p : Progress}
    {hs : List Handler}
    (hends : ends work p = .ok hs) :
    ends (routesOf s [f]) p = .ok (Route.ofHandlers hs) := by
  rw [ends_routesOf_eq h, (routes_of_ok hends).1]

/-- The files of all routes of a framework lie under the root exactly when those texts do that routes are
found in without a configuration. -/
theorem confines_iff
    (ht : s.tree.HasFileNames)
    (f : Framework) :
    (∀ p rs, ends (routesOf s [f]) p = .ok rs → ∀ r ∈ rs, s.Confines r) ↔
      ∀ w ∈ unstructuredSources s f, FindsRoutes w.find →
        w.file.isBelow (s.tree.resolve s.root) = true := by
  constructor
  · intro hall w hw hfinds
    obtain ⟨work, hs, h, r, hwork, hends, hh, hroute, hstands⟩ : ∃ work hs h r,
        f.handlers s = .ok work ∧ ends work .start = .ok hs ∧ h ∈ hs ∧ Route.ofHandler? h = some r ∧
          StandsAt s w.file h := by
      cases f with
      | appRouter =>
        obtain ⟨hs, h, r, hends, hrest⟩ := FileRoutes.reports_appLayout.exists_route
          FileRoutes.Layout.regular_appLayout FileRoutes.endsIn_appAccepts
          (fun n => "Found " ++ toString n ++ " App Router route files")
          (fun n => "Basic mode found " ++ toString n ++ " App Router handlers") hw hfinds
        exact ⟨_, hs, h, r, rfl, hends, hrest⟩
      | pagesRouter =>
        obtain ⟨hs, h, r, hends, hrest⟩ := FileRoutes.reports_pagesLayout.exists_route
          FileRoutes.Layout.regular_pagesLayout FileRoutes.endsIn_pagesAccepts
          (fun n => "Found " ++ toString n ++ " Pages API files")
          (fun n => "Basic mode found " ++ toString n ++ " Pages API handlers") hw hfinds
        exact ⟨_, hs, h, r, rfl, hends, hrest⟩
      | trpc => cases hw
      | nest => cases hw
    have hmem : r ∈ Route.ofHandlers hs := List.mem_filterMap.2 ⟨h, hh, hroute⟩
    exact (hstands.confines_iff_isBelow ht hroute).1 (hall _ _ (ends_routesOf_singleton hwork hends) r hmem)
  · intro hbelow p rs hrs r hr
    have hyields : Yields s (fun m rs => ∀ r ∈ rs,
        IsRouteOf (fun _ => FileRoutes.RoutesConfined s) m r) (routesOf s [f]) :=
      yields_routesOf (lasting_const (FileRoutes.RoutesConfined s)) fun g hg work hwork =>
        yields_routesConfined ht (List.mem_singleton.1 hg ▸ hbelow) hwork
    obtain ⟨h, hroute, hconfined⟩ := (hyields p).2 rs hrs r hr
    exact (hconfined r hroute).confines ht hroute

/-- The file of a route that is outside of the project. -/
def outsideEntry : Entry :=
  .directory [("app", .directory [("api", .directory [("route.ts",
    .file (.text "export function GET() \x7b\x7d\n"))])])]

/-- The entries of a project in which a link leads to this file. -/
def linkedEntries : List (String × Entry) :=
  [("app", .directory [("api", .directory [("route.ts", .link "../../../shared/app/api/route.ts")])])]

/-- The project without a configuration. -/
def linkedFile : Site where
  tree := ⟨.directory [("proj", .directory linkedEntries), ("shared", outsideEntry)]⟩
  root := ⟨true, ["proj"]⟩
  options := .default

/-- The project with an empty configuration. -/
def configuredLink : Site where
  tree := ⟨.directory [("proj", .directory
    (linkedEntries ++ [("tsconfig.json", .file (.text "\x7b\x7d"))])), ("shared", outsideEntry)]⟩
  root := ⟨true, ["proj"]⟩
  options := .default

theorem hasFileNames_configuredLink : configuredLink.tree.HasFileNames := by
  unfold configuredLink linkedEntries outsideEntry
  repeat' first
    | exact Tree.hasFileNames_nil
    | exact Tree.hasFileNames_file _
    | exact Tree.hasFileNames_link _
    | refine Tree.hasFileNames_cons (by decide) ?_ ?_

/-- With a configuration no route lies outside of the project. -/
theorem confines_configuredLink :
    configuredLink.tree.HasFileNames ∧
      ∀ p rs, ends (routesOf configuredLink [.appRouter]) p = .ok rs →
        ∀ r ∈ rs, configuredLink.Confines r := by
  have hnone : (unstructuredSources configuredLink .appRouter).length = 0 := by decide +kernel
  refine ⟨hasFileNames_configuredLink, ?_⟩
  rw [confines_iff hasFileNames_configuredLink, List.length_eq_zero_iff.1 hnone]
  simp

/-- Without one, the route of the link is reported for a file outside of the project. -/
theorem not_confines_linkedFile :
    ∃ rs, ends (routesOf linkedFile [.appRouter]) .start = .ok rs ∧
      ∃ r ∈ rs, ¬ linkedFile.Confines r := by
  have hroutes : (ends (routesOf linkedFile [.appRouter]) .start).map (List.map Route.filePath) =
      .ok [some "/shared/app/api/route.ts"] := by
    decide +kernel
  cases hends : ends (routesOf linkedFile [.appRouter]) .start with
  | error e =>
    rw [hends] at hroutes
    cases hroutes
  | ok rs =>
    rw [hends] at hroutes
    obtain ⟨r, rest, rfl, hfile, -⟩ := List.map_eq_cons_iff.1 (Except.ok.inj hroutes)
    refine ⟨_, rfl, r, List.mem_cons_self .., ?_⟩
    rintro ⟨text, htext, hbelow⟩
    rw [hfile] at htext
    cases htext
    revert hbelow
    decide +kernel

end Confinement

end Scan

end RouteAtlas
