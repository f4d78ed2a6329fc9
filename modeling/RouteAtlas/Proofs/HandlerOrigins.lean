import Mathlib
import RouteAtlas.Proofs.FileSources
import RouteAtlas.Proofs.PlainPaths
import RouteAtlas.Scan

/-!
# Where handlers come from

The handlers of the two layouts by which files are routes stand at the path that is remembered for their
file. A path that is remembered stays, so at the end of a scan all of them stand at the path that is
remembered for their file then. The handlers of procedures and controllers go by names that the source
gives them.

The statements are about any progress before the work. A property of a result may speak of what is
remembered after the work, as long as it lasts while more is remembered.
-/

namespace RouteAtlas

open Files
open Syntax (SourceFile)

namespace Extraction

variable {α β : Type}

section Lasting

/-- The paths that are remembered for files. -/
abbrev Memory : Type :=
  Path → Option String

/-- All that is remembered first is remembered later. -/
def Memory.Within (m m' : Memory) : Prop :=
  ∀ file v, m file = some v → m' file = some v

theorem Memory.Within.trans
    {m m' m'' : Memory}
    (h : m.Within m')
    (h' : m'.Within m'') :
    m.Within m'' :=
  fun file v hv => h' file v (h file v hv)

/-- A property that is not lost when more is remembered. -/
def Lasting (Q : Memory → α → Prop) : Prop :=
  ∀ m m' a, m.Within m' → Q m a → Q m' a

theorem lasting_const (P : α → Prop) : Lasting fun _ a => P a :=
  fun _ _ _ _ h => h

theorem lasting_forall
    {Q : Memory → α → Prop}
    (h : Lasting Q) :
    Lasting fun m (as : List α) => ∀ a ∈ as, Q m a :=
  fun m m' _ hm hall a ha => h m m' a hm (hall a ha)

end Lasting

section Yielding

/-- Work that forgets nothing, and whose result, if it has one, has a property together with what is
remembered after the work. -/
def Yields
    (s : Site)
    (Q : Memory → α → Prop)
    (work : Extraction α) :
    Prop :=
  ∀ p, Memory.Within (remembered s p) (remembered s (leaves work p)) ∧
    ∀ a, ends work p = .ok a → Q (remembered s (leaves work p)) a

variable {s : Site} {P : Memory → α → Prop} {Q : Memory → β → Prop}

theorem Yields.mono
    {P' : Memory → α → Prop}
    {work : Extraction α}
    (h : Yields s P work)
    (hP : ∀ m a, P m a → P' m a) :
    Yields s P' work :=
  fun p => ⟨(h p).1, fun a ha => hP _ _ ((h p).2 a ha)⟩

theorem EndsIn.yields
    {work : Extraction α}
    {e : Except Fault α}
    (h : EndsIn work e) :
    Yields s (fun _ a => e = .ok a) work := by
  intro p
  obtain ⟨hends, hcache⟩ := h p
  refine ⟨?_, fun a ha => hends.symm.trans ha⟩
  rw [remembered_congr hcache]
  exact fun file v hv => hv

theorem Settled.yields
    {P : α → Prop}
    {work : Extraction α}
    (h : Settled P work) :
    Yields s (fun _ a => P a) work := by
  obtain ⟨e, he, hP⟩ := h
  exact he.yields.mono fun _ => hP

theorem yields_pure
    {a : α}
    (h : ∀ m, P m a) :
    Yields s P (pure a) :=
  fun _ => ⟨fun _ _ hv => hv, by rintro b ⟨⟩; exact h _⟩

theorem yields_throw (e : Fault) : Yields s P (throw e) :=
  fun _ => ⟨fun _ _ hv => hv, by rintro b ⟨⟩⟩

theorem yields_ofExcept (e : Except Fault α) : Yields s (fun _ a => e = .ok a) (ofExcept e) :=
  (endsIn_ofExcept e).yields

/-- What comes second may rely on what the first yields, at the end too if that lasts. -/
theorem Yields.bind_lasting
    {work : Extraction α}
    {f : α → Extraction β}
    (h : Yields s P work)
    (hP : Lasting P)
    (hf : ∀ a m, P m a → Yields s (fun m b => P m a → Q m b) (f a)) :
    Yields s Q (work >>= f) := by
  intro p
  obtain ⟨hkept, hresult⟩ := h p
  cases hends : ends work p with
  | error e =>
    have hrun := run_bind_of_error hends f
    have hleaves : leaves (work >>= f) p = leaves work p := by rw [leaves, hrun]
    refine ⟨by rwa [hleaves], fun b hb => ?_⟩
    cases (congrArg Prod.fst hrun).symm.trans hb
  | ok a =>
    have hrun := run_bind_of_ok hends f
    have hleaves : leaves (work >>= f) p = leaves (f a) (leaves work p) := by
      rw [leaves, hrun]
      rfl
    obtain ⟨hkept', hresult'⟩ := hf a _ (hresult a hends) (leaves work p)
    rw [hleaves]
    refine ⟨hkept.trans hkept', fun b hb => ?_⟩
    exact hresult' b ((congrArg Prod.fst hrun).symm.trans hb) (hP _ _ _ hkept' (hresult a hends))

theorem Yields.bind
    {P : α → Prop}
    {work : Extraction α}
    {f : α → Extraction β}
    (h : Yields s (fun _ a => P a) work)
    (hf : ∀ a, P a → Yields s Q (f a)) :
    Yields s Q (work >>= f) :=
  h.bind_lasting (fun _ _ _ _ ha => ha) fun a _ ha => (hf a ha).mono fun _ _ hb _ => hb

/-- What else is done about a fault need only be looked at where there may be this fault. -/
theorem Yields.orElseWith
    {work : Extraction α}
    {other : Fault → Extraction α}
    (h : Yields s P work)
    (hother : ∀ e p, ends work p = .error e → Yields s P (other e)) :
    Yields s P (orElseWith work other) := by
  intro p
  obtain ⟨hkept, hresult⟩ := h p
  have hrun := run_orElseWith work other p
  cases hends : ends work p with
  | ok a =>
    rw [hends] at hrun
    have hleaves : leaves (Extraction.orElseWith work other) p = leaves work p := by
      rw [leaves, hrun]
    rw [hleaves]
    refine ⟨hkept, fun b hb => ?_⟩
    cases (congrArg Prod.fst hrun).symm.trans hb
    exact hresult a hends
  | error e =>
    rw [hends] at hrun
    have hleaves : leaves (Extraction.orElseWith work other) p =
        leaves (other e) (leaves work p) := by
      rw [leaves, hrun]
      rfl
    obtain ⟨hkept', hresult'⟩ := hother e p hends (leaves work p)
    rw [hleaves]
    exact ⟨hkept.trans hkept', fun b hb => hresult' b ((congrArg Prod.fst hrun).symm.trans hb)⟩

theorem yields_mapM
    (hQ : Lasting Q)
    {f : α → Extraction β}
    {as : List α}
    (h : ∀ a ∈ as, Yields s Q (f a)) :
    Yields s (fun m bs => ∀ b ∈ bs, Q m b) (as.mapM f) := by
  induction as with
  | nil => exact yields_pure (by simp)
  | cons a rest ih =>
    rw [List.forall_mem_cons] at h
    rw [List.mapM_cons]
    refine h.1.bind_lasting hQ fun b _ _ => ?_
    refine (ih h.2).bind_lasting (lasting_forall hQ) fun bs _ _ => ?_
    exact yields_pure fun m hbs hb => List.forall_mem_cons.2 ⟨hb, hbs⟩

theorem yields_perFile
    (hP : Lasting P)
    {f : Framework}
    {handle : SourceFile → Extraction (List α)}
    {files : List SourceFile}
    (h : ∀ file ∈ files, Yields s (fun m as => ∀ a ∈ as, P m a) (handle file)) :
    Yields s (fun m as => ∀ a ∈ as, P m a) (perFile s f handle files) := by
  induction files with
  | nil => exact yields_pure (by simp)
  | cons file rest ih =>
    rw [List.forall_mem_cons] at h
    unfold perFile
    have hfirst : Yields s (fun m as => ∀ a ∈ as, P m a) (Extraction.orElseWith (handle file) fun e => do
        say f .warning ("Skipping " ++ relativePath s file.path ++ ": " ++ e.text)
        return []) :=
      h.1.orElseWith fun e _ _ => (settled_say _ _ _).yields.bind fun _ _ => yields_pure (by simp)
    refine hfirst.bind_lasting (lasting_forall hP) fun found _ _ => ?_
    refine (ih h.2).bind_lasting (lasting_forall hP) fun later _ _ => ?_
    · refine yields_pure fun m hlater hfound a ha => ?_
      rcases List.mem_append.1 ha with ha | ha
      · exact hfound a ha
      · exact hlater a ha

theorem yields_handlers
    {P : Memory → Handler → Prop}
    {structured : Extraction (List Handler)}
    {textual : Option (Extraction (List Handler))}
    (hstructured : Yields s (fun m hs => ∀ h ∈ hs, P m h) structured)
    (htextual : ∀ other p path, textual = some other →
      ends structured p = .error (.projectConfigMissing path) →
        Yields s (fun m hs => ∀ h ∈ hs, P m h) other)
    (f : Framework) :
    Yields s (fun m hs => ∀ h ∈ hs, P m h) (handlers f structured textual) := by
  refine hstructured.orElseWith fun e p hends => ?_
  cases e with
  | projectConfigMissing path =>
    cases textual with
    | none => exact (settled_say _ _ _).yields.bind fun _ _ => yields_pure (by simp)
    | some other => exact (settled_say _ _ _).yields.bind fun _ _ => htextual other p path rfl hends
  | _ => exact yields_throw _

/-- A path that is looked up is remembered. -/
theorem yields_derivedPath
    (file : Path)
    (derive : String → String) :
    Yields s (fun m raw => m (s.tree.resolve file) = some raw) (derivedPath s file derive) := by
  intro p
  have hends : ends (derivedPath s file derive) p =
      .ok ((remembered s p (s.tree.resolve file)).getD (derive (relativePath s file))) :=
    congrArg Except.ok (PathCache.getOrInsert_fst p.cache s.root (s.tree.resolve file)
      fun _ => derive (relativePath s file))
  have hafter (k : Path) := PathCache.find?_getOrInsert p.cache s.root (s.tree.resolve file) k
    fun _ => derive (relativePath s file)
  refine ⟨fun k v hv => (hafter k).trans ?_, fun raw hraw => (hafter _).trans ?_⟩
  · have hv' : p.cache.find? s.root k none = some v := hv
    rw [hv', Option.some_or]
  · rw [hends] at hraw
    cases hraw
    cases hfound : p.cache.find? s.root (s.tree.resolve file) none with
    | none => simp [remembered, hfound]
    | some v => simp [remembered, hfound]

end Yielding

end Extraction

open Extraction

section Origins

/-- A handler stands at the path that is remembered for its file. -/
def Placed
    (s : Site)
    (m : Memory)
    (h : Handler) :
    Prop :=
  ∃ file raw, file.IsPlain ∧ file.isAbsolute = true ∧ h.filePath = file.toText ∧
    m (s.tree.resolve file) = some raw ∧ h.path = FileRoutes.patternOf raw

/-- What the path and the name of a handler come from. -/
def Originates
    (s : Site)
    (m : Memory)
    (h : Handler) :
    Prop :=
  match h.framework with
  | .appRouter => h.handlerName = some h.method ∧ Placed s m h
  | .pagesRouter => h.handlerName = some "default" ∧ Placed s m h
  | .trpc => ∃ basePath p, s.options.basePath = .str basePath ∧ p.router ≠ "" ∧
      h = Procedures.handlerOf s basePath p
  | .nest => ∃ name, h.handlerName = some name ∧ name ≠ ""

theorem lasting_originates (s : Site) : Lasting (Originates s) := by
  have hplaced (m m' : Memory) (h : Handler) (hm : m.Within m') : Placed s m h → Placed s m' h := by
    rintro ⟨file, raw, hplain, habsolute, hfile, hraw, hpath⟩
    exact ⟨file, raw, hplain, habsolute, hfile, hm _ _ hraw, hpath⟩
  intro m m' h hm horigin
  unfold Originates at horigin ⊢
  cases hf : h.framework with
  | appRouter =>
    rw [hf] at horigin
    exact ⟨horigin.1, hplaced m m' h hm horigin.2⟩
  | pagesRouter =>
    rw [hf] at horigin
    exact ⟨horigin.1, hplaced m m' h hm horigin.2⟩
  | trpc => rwa [hf] at horigin
  | nest => rwa [hf] at horigin

/-- A site is plain when its root, its configuration file and its tree are. -/
structure Site.IsPlain (s : Site) : Prop where
  tree : s.tree.IsPlain
  root : s.root.IsPlain
  config : ∀ p, s.options.configPath = some p → p.IsPlain

end Origins

namespace FileRoutes

section Places

variable {s : Site} {file : Path} {raw : String}

/-- A handler that is made of a file and of the path that is looked up for it. -/
structure MadeOf
    (f : Framework)
    (file : Path)
    (raw : String)
    (h : Handler) :
    Prop where
  framework_eq : h.framework = f
  filePath_eq : h.filePath = file.toText
  path_eq : h.path = patternOf raw
  name_eq : h.name = some (h.method ++ " " ++ h.path)

theorem MadeOf.placed
    {f : Framework}
    {m : Memory}
    {h : Handler}
    (hmade : MadeOf f file raw h)
    (hplain : file.IsPlain ∧ file.isAbsolute = true)
    (hraw : m (s.tree.resolve file) = some raw) :
    Placed s m h :=
  ⟨file, raw, hplain.1, hplain.2, hmade.filePath_eq, hraw, hmade.path_eq⟩

theorem MadeOf.originates_app
    {m : Memory}
    {h : Handler}
    (hmade : MadeOf .appRouter file raw h)
    (hname : h.handlerName = some h.method)
    (hplain : file.IsPlain ∧ file.isAbsolute = true)
    (hraw : m (s.tree.resolve file) = some raw) :
    Originates s m h := by
  rw [Originates, hmade.framework_eq]
  exact ⟨hname, hmade.placed hplain hraw⟩

theorem MadeOf.originates_pages
    {m : Memory}
    {h : Handler}
    (hmade : MadeOf .pagesRouter file raw h)
    (hname : h.handlerName = some "default")
    (hplain : file.IsPlain ∧ file.isAbsolute = true)
    (hraw : m (s.tree.resolve file) = some raw) :
    Originates s m h := by
  rw [Originates, hmade.framework_eq]
  exact ⟨hname, hmade.placed hplain hraw⟩

/-- A handler that is made of a file and of the path that is remembered for it. -/
def LocatedAt
    (s : Site)
    (f : Framework)
    (file : Path)
    (m : Memory)
    (h : Handler) :
    Prop :=
  ∃ raw, MadeOf f file raw h ∧ m (s.tree.resolve file) = some raw

/-- Handlers that are made of the path that is looked up for their file. -/
theorem yields_located
    {derive : String → String}
    {rest : String → Extraction (List Handler)}
    {R : Handler → Prop}
    {f : Framework}
    (h : ∀ raw, Yields s (fun _ hs => ∀ h ∈ hs, R h ∧ MadeOf f file raw h) (rest raw)) :
    Yields s (fun m hs => ∀ h ∈ hs, R h ∧ LocatedAt s f file m h)
      (derivedPath s file derive >>= rest) := by
  refine (yields_derivedPath _ _).bind_lasting (fun m m' raw hm hraw => hm _ _ hraw) fun raw _ _ => ?_
  exact (h raw).mono fun m hs hall hraw h hh => ⟨(hall h hh).1, raw, (hall h hh).2, hraw⟩

end Places

section App

variable {s : Site} {project : Project} {file : SourceFile}

theorem yields_handlerFor
    (raw : String)
    (functions : List App.VerbHandler)
    (verb : String) :
    Yields s (fun _ h => h.handlerName = some h.method ∧ MadeOf .appRouter file.path raw h)
      (App.handlerFor project file raw (patternOf raw) functions verb) := by
  unfold App.handlerFor
  dsimp only
  refine (yields_ofExcept _).bind fun facts _ => ?_
  refine (settled_say _ _ _).yields.bind fun _ _ => yields_pure fun _ => ?_
  exact ⟨rfl, rfl, rfl, rfl, rfl⟩

theorem yields_appFile :
    Yields s (fun m hs => ∀ h ∈ hs, h.handlerName = some h.method ∧
      LocatedAt s .appRouter file.path m h) (App.ofFile s project file) := by
  unfold App.ofFile
  dsimp only
  split
  · exact (settled_say _ _ _).yields.bind fun _ _ => yields_pure (by simp)
  · rw [App.pathsOf_bind]
    refine yields_located fun raw => ?_
    refine (settled_verbHandlers _ _ _ _).yields.bind fun functions _ => ?_
    dsimp only
    split
    · exact (settled_say _ _ _).yields.bind fun _ _ => yields_pure (by simp)
    · exact yields_mapM (lasting_const _) fun verb _ => yields_handlerFor raw functions verb

theorem yields_appText (path : Path) :
    Yields s (fun m hs => ∀ h ∈ hs, h.handlerName = some h.method ∧ LocatedAt s .appRouter path m h)
      (App.ofText s path) := by
  unfold App.ofText
  refine (endsIn_appAccepts _).yields.bind fun accepted _ => ?_
  split
  · dsimp only
    split
    · exact (settled_say _ _ _).yields.bind fun _ _ => yields_pure (by simp)
    · rw [App.pathsOf_bind]
      refine yields_located fun raw => yields_pure fun _ h hh => ?_
      obtain ⟨verb, -, rfl⟩ := List.mem_map.1 hh
      exact ⟨rfl, rfl, rfl, rfl, rfl⟩
  · exact yields_pure (by simp)

end App

section Pages

variable {s : Site} {project : Project} {file : SourceFile}

theorem yields_pagesFile :
    Yields s (fun m hs => ∀ h ∈ hs, h.handlerName = some "default" ∧
      LocatedAt s .pagesRouter file.path m h) (Pages.ofFile s project file) := by
  unfold Pages.ofFile
  dsimp only
  split
  · exact (settled_say _ _ _).yields.bind fun _ _ => yields_pure (by simp)
  · split
    · exact (settled_say _ _ _).yields.bind fun _ _ => yields_pure (by simp)
    · rw [Pages.pathsOf_bind]
      refine yields_located fun raw => ?_
      refine (yields_ofExcept _).bind fun facts _ => ?_
      refine (settled_say _ _ _).yields.bind fun _ _ => yields_pure fun _ h hh => ?_
      obtain ⟨verb, -, rfl⟩ := List.mem_map.1 hh
      exact ⟨rfl, rfl, rfl, rfl, rfl⟩

theorem yields_pagesText (path : Path) :
    Yields s (fun m hs => ∀ h ∈ hs, h.handlerName = some "default" ∧
      LocatedAt s .pagesRouter path m h) (Pages.ofText s path) := by
  unfold Pages.ofText
  refine (endsIn_pagesAccepts _).yields.bind fun accepted _ => ?_
  split
  · dsimp only
    split
    · exact yields_pure (by simp)
    · rw [Pages.pathsOf_bind]
      refine yields_located fun raw => yields_pure fun _ h hh => ?_
      obtain ⟨verb, -, rfl⟩ := List.mem_map.1 hh
      exact ⟨rfl, rfl, rfl, rfl, rfl⟩
  · exact yields_pure (by simp)

end Pages

section Layouts

variable {s : Site} {l : Layout} {accepts : String → Extraction Bool} {P : Memory → Handler → Prop}

/-- A file whose text is read for a layout. -/
def Layout.IsText
    (l : Layout)
    (s : Site)
    (path : Path) :
    Prop :=
  ∃ loader, Project.Loader.make s.tree s.root s.options.configPath s.options.exclude = .ok loader ∧
    path ∈ loader.findFiles l.patterns

theorem Layout.yields_structured
    (hP : Lasting P)
    (haccepts : ∀ path, EndsIn (accepts path) (.ok (l.accepts path)))
    (hfile : ∀ project file, IsSource s l.patterns project file →
      Yields s (fun m hs => ∀ h ∈ hs, P m h) (l.ofFile s project file))
    (message : Nat → String) :
    Yields s (fun m hs => ∀ h ∈ hs, P m h) (l.structured accepts message s) := by
  unfold Layout.structured
  refine (yields_ofExcept _).bind fun loader hloader => ?_
  refine (settled_requireConfig _ _ _).yields.bind fun _ _ => ?_
  refine (settled_load _ _).yields.bind fun project hproject => ?_
  refine (endsIn_filterM haccepts _ _).yields.bind fun files hfiles => ?_
  refine (settled_say _ _ _).yields.bind fun _ _ => ?_
  cases hfiles
  obtain ⟨loaded, hloaded, hread⟩ := hproject
  refine yields_perFile hP fun file hmem => hfile project file ?_
  exact ⟨loader, loaded, hloader, hloaded, hread, List.mem_of_mem_filter hmem⟩

theorem Layout.yields_textual
    (hP : Lasting P)
    (htext : ∀ path, l.IsText s path → Yields s (fun m hs => ∀ h ∈ hs, P m h) (l.ofText s path))
    (message : Nat → String) :
    Yields s (fun m hs => ∀ h ∈ hs, P m h) (l.textual message s) := by
  unfold Layout.textual
  refine (yields_ofExcept _).bind fun loader hloader => ?_
  refine (yields_mapM (lasting_forall hP) fun path hpath =>
    htext path ⟨loader, hloader, hpath⟩).bind_lasting
      (lasting_forall (lasting_forall hP)) fun found _ _ => ?_
  refine (settled_say _ _ _).yields.bind fun _ _ => yields_pure fun m hall h hh => ?_
  obtain ⟨hs, hhs, hh⟩ := List.mem_flatten.1 hh
  exact hall hs hhs h hh

theorem Layout.yields_handlers
    (hP : Lasting P)
    (haccepts : ∀ path, EndsIn (accepts path) (.ok (l.accepts path)))
    (hfile : ∀ project file, IsSource s l.patterns project file →
      Yields s (fun m hs => ∀ h ∈ hs, P m h) (l.ofFile s project file))
    (message message' : Nat → String)
    (htext : ∀ p text, ends (l.structured accepts message s) p = .error (.projectConfigMissing text) →
      ∀ path, l.IsText s path → Yields s (fun m hs => ∀ h ∈ hs, P m h) (l.ofText s path)) :
    Yields s (fun m hs => ∀ h ∈ hs, P m h)
      (handlers l.framework (l.structured accepts message s) (some (l.textual message' s))) := by
  refine Extraction.yields_handlers (l.yields_structured hP haccepts hfile message) ?_ l.framework
  rintro other p text ⟨⟩ hends
  exact l.yields_textual hP (htext p text hends) message'

/-- The files of a project are plain at a plain site. -/
theorem isPlain_of_isSource
    {patterns : List String}
    {project : Project}
    {file : SourceFile}
    (hs : s.IsPlain)
    (h : IsSource s patterns project file) :
    file.path.IsPlain ∧ file.path.isAbsolute = true := by
  obtain ⟨loader, loaded, hloader, hloaded, rfl, hfile⟩ := h
  have hplain := Project.Loader.isPlain_of_make hs.tree hs.root hs.config hloader
  exact (hplain.load hloaded).readAll.of_mem_sourceFiles hfile

theorem Layout.IsText.isPlain
    {path : Path}
    (hs : s.IsPlain)
    (h : l.IsText s path) :
    path.IsPlain ∧ path.isAbsolute = true := by
  obtain ⟨loader, hloader, hpath⟩ := h
  exact (Project.Loader.isPlain_of_make hs.tree hs.root hs.config hloader).of_mem_findFiles hpath

/-- What the handlers of a layout come from. -/
theorem Layout.yields_originates
    (hs : s.IsPlain)
    {R : Handler → Prop}
    (hR : ∀ m h path, path.IsPlain ∧ path.isAbsolute = true → R h → LocatedAt s l.framework path m h →
      Originates s m h)
    (haccepts : ∀ path, EndsIn (accepts path) (.ok (l.accepts path)))
    (hfile : ∀ project file, Yields s (fun m hs => ∀ h ∈ hs, R h ∧
      LocatedAt s l.framework file.path m h) (l.ofFile s project file))
    (htext : ∀ path, Yields s (fun m hs => ∀ h ∈ hs, R h ∧ LocatedAt s l.framework path m h)
      (l.ofText s path))
    (message message' : Nat → String) :
    Yields s (fun m hs => ∀ h ∈ hs, Originates s m h)
      (handlers l.framework (l.structured accepts message s) (some (l.textual message' s))) := by
  refine l.yields_handlers (lasting_originates s) haccepts (fun project file hsource => ?_)
    message message' fun _ _ _ path htextual => ?_
  · exact (hfile project file).mono fun m hs' hall h hh =>
      hR m h _ (isPlain_of_isSource hs hsource) (hall h hh).1 (hall h hh).2
  · exact (htext path).mono fun m hs' hall h hh =>
      hR m h _ (htextual.isPlain hs) (hall h hh).1 (hall h hh).2

end Layouts

end FileRoutes

section Frameworks

/-- What the handlers that a framework finds come from. -/
theorem yields_frameworkHandlers
    {s : Site}
    (hs : s.IsPlain)
    {f : Framework}
    {work : Extraction (List Handler)}
    (h : f.handlers s = .ok work) :
    Yields s (fun m hs => ∀ h ∈ hs, Originates s m h) work := by
  cases f with
  | appRouter =>
    obtain rfl := Except.ok.inj h
    refine FileRoutes.appLayout.yields_originates hs (fun m h path hplain hname hlocated => ?_)
      FileRoutes.endsIn_appAccepts (fun _ _ => FileRoutes.yields_appFile) FileRoutes.yields_appText
      (fun n => "Found " ++ toString n ++ " App Router route files")
      (fun n => "Basic mode found " ++ toString n ++ " App Router handlers")
    obtain ⟨raw, hmade, hraw⟩ := hlocated
    exact hmade.originates_app hname hplain hraw
  | pagesRouter =>
    obtain rfl := Except.ok.inj h
    refine FileRoutes.pagesLayout.yields_originates hs (fun m h path hplain hname hlocated => ?_)
      FileRoutes.endsIn_pagesAccepts (fun _ _ => FileRoutes.yields_pagesFile) FileRoutes.yields_pagesText
      (fun n => "Found " ++ toString n ++ " Pages API files")
      (fun n => "Basic mode found " ++ toString n ++ " Pages API handlers")
    obtain ⟨raw, hmade, hraw⟩ := hlocated
    exact hmade.originates_pages hname hplain hraw
  | trpc =>
    unfold Framework.handlers at h
    cases hsettings : Procedures.Recognition.ofSettings s.options.routerFactories
        s.options.routerPattern with
    | error fault => rw [hsettings] at h; cases h
    | ok r =>
      rw [hsettings] at h
      obtain rfl := Except.ok.inj h
      refine (Procedures.settled_handlers (P := fun h => ∀ m, Originates s m h) ?_).yields.mono
        fun m hs hall h hh => hall h hh m
      exact fun basePath p hbase hsurveyed _ => ⟨basePath, p, hbase, hsurveyed.router_ne_empty, rfl⟩
  | nest =>
    obtain rfl := Except.ok.inj h
    refine (Controllers.settled_handlers (P := fun h => ∀ m, Originates s m h) ?_).yields.mono
      fun m hs hall h hh => hall h hh m
    intro c m facts verb path _ _ memory
    refine ⟨_, rfl, fun hempty => ?_⟩
    have hlength := congrArg String.length hempty
    simp at hlength

end Frameworks

end RouteAtlas
