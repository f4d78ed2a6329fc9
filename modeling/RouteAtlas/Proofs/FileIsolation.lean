import Mathlib
import RouteAtlas.Proofs.RootConfinement
import RouteAtlas.Proofs.SharedControllers

/-!
# Files that are worked on by themselves

Route files of the two directories and files with controllers are gone through one after the other, and
all that passes from one to the next is what has been remembered. A path that is remembered on the way is
the one that would be derived anyway, since the files of a project are read at their own places; and work
that ends by a fault remembers no more than this. So each file yields what it yields alone, and one whose
work ends by a fault is as good as not there. The names of types that are being looked up may then stand in
one set for all files, since every file leaves it empty.
-/

namespace RouteAtlas

open Files
open Syntax (SourceFile)
open Extraction

namespace Extraction

section Remembering

variable {s : Site} {derived : Path → String} {p q : Progress}

/-- Since some progress no paths have been remembered but derived ones. -/
def Since
    (s : Site)
    (derived : Path → String)
    (p q : Progress) :
    Prop :=
  ∀ k, remembered s q k = remembered s p k ∨
    remembered s p k = none ∧ remembered s q k = some (derived k)

theorem since_refl
    (s : Site)
    (derived : Path → String)
    (p : Progress) :
    Since s derived p p :=
  fun _ => .inl rfl

theorem Since.of_cache_eq
    {q' : Progress}
    (h : Since s derived p q)
    (hcache : q'.cache = q.cache) :
    Since s derived p q' := by
  intro k
  rw [remembered_congr hcache]
  exact h k

/-- The path that a file gets is not changed by what has been remembered since. -/
theorem Since.getD_eq
    (h : Since s derived p q)
    (k : Path) :
    (remembered s q k).getD (derived k) = (remembered s p k).getD (derived k) := by
  rcases h k with hk | ⟨hp, hq⟩
  · rw [hk]
  · rw [hp, hq]
    rfl

end Remembering

section Isolation

variable {α β : Type} {s : Site} {derived : Path → String}

/-- Work that ends in the same way when derived paths have been remembered before it, and remembers no
other paths itself. -/
def Isolated
    (s : Site)
    (derived : Path → String)
    (work : Extraction α) :
    Prop :=
  ∀ p q, Since s derived p q → ends work q = ends work p ∧ Since s derived p (leaves work q)

theorem Settled.isolated
    {P : α → Prop}
    {work : Extraction α}
    (h : Settled P work) :
    Isolated s derived work := by
  obtain ⟨e, he, -⟩ := h
  intro p q hq
  exact ⟨(he q).1.trans (he p).1.symm, hq.of_cache_eq (he q).2⟩

/-- A look-up of the path of a file, and settled work with the path that it gets. -/
theorem isolated_derivedPath
    {P : α → Prop}
    {file : Path}
    {derive : String → String}
    {rest : String → Extraction α}
    (hfile : derived (s.tree.resolve file) = derive (relativePath s file))
    (hrest : ∀ raw, Settled P (rest raw)) :
    Isolated s derived (derivedPath s file derive >>= rest) := by
  intro p q hq
  have hends (r : Progress) := ends_derivedPath s file derive r
  have hsame := hq.getD_eq (s.tree.resolve file)
  rw [hfile] at hsame
  have hpaths : Since s derived p (leaves (derivedPath s file derive) q) := by
    intro k
    rw [remembered_leaves_derivedPath]
    by_cases hk : s.tree.resolve file = k
    · subst hk
      rcases hq (s.tree.resolve file) with hq | ⟨hp, hq⟩
      · cases hp : remembered s p (s.tree.resolve file) <;> simp [hq, hp, hfile]
      · simp [hp, hq]
    · simpa [hk] using hq k
  obtain ⟨e, he, -⟩ :=
    hrest ((remembered s p (s.tree.resolve file)).getD (derive (relativePath s file)))
  have hq' := run_bind_of_ok ((hends q).trans (congrArg Except.ok hsame)) rest
  have hp' := run_bind_of_ok (hends p) rest
  refine ⟨?_, ?_⟩
  · exact ((congrArg Prod.fst hq').trans (he _).1).trans ((congrArg Prod.fst hp').trans (he _).1).symm
  · exact hpaths.of_cache_eq ((congrArg (fun r => r.2.cache) hq').trans (he _).2)

end Isolation

section Files

variable {α : Type} {s : Site} {derived : Path → String} {f : Framework}
variable {handle : SourceFile → Extraction (List α)}

/-- What work on a file finds, or nothing if it ends by a fault. -/
def foundIn
    (handle : SourceFile → Extraction (List α))
    (p : Progress)
    (file : SourceFile) :
    List α :=
  (ends (handle file) p).toOption.getD []

/-- Work whose faults are passed over ends with what it finds, no matter what has been remembered since. -/
theorem ends_orElseWith_of_isolated
    {file : SourceFile}
    {skip : Fault → Extraction (List α)}
    {p q : Progress}
    (h : Isolated s derived (handle file))
    (hskip : ∀ e, EndsIn (skip e) (.ok []))
    (hq : Since s derived p q) :
    ends (orElseWith (handle file) skip) q = .ok (foundIn handle p file) ∧
      Since s derived p (leaves (orElseWith (handle file) skip) q) := by
  obtain ⟨hends, hleaves⟩ := h p q hq
  have hrun := run_orElseWith (handle file) skip q
  rw [hends] at hrun
  cases hp : ends (handle file) p with
  | ok found =>
    rw [hp] at hrun
    refine ⟨?_, hleaves.of_cache_eq (congrArg (fun r => r.2.cache) hrun)⟩
    rw [foundIn, hp]
    exact congrArg Prod.fst hrun
  | error e =>
    rw [hp] at hrun
    obtain ⟨hnone, hcache⟩ := hskip e (leaves (handle file) q)
    refine ⟨?_, hleaves.of_cache_eq ((congrArg (fun r => r.2.cache) hrun).trans hcache)⟩
    rw [foundIn, hp]
    exact (congrArg Prod.fst hrun).trans hnone

theorem ends_perFile
    {files : List SourceFile}
    {p q : Progress}
    (h : ∀ file ∈ files, Isolated s derived (handle file))
    (hq : Since s derived p q) :
    ends (perFile s f handle files) q = .ok (files.flatMap (foundIn handle p)) := by
  induction files generalizing q with
  | nil => rfl
  | cons file rest ih =>
    rw [List.forall_mem_cons] at h
    have hskip (e : Fault) : EndsIn (do
        say f .warning ("Skipping " ++ relativePath s file.path ++ ": " ++ e.text)
        return [] : Extraction (List α)) (.ok []) :=
      (endsIn_say _ _ _).bind (endsIn_pure [])
    obtain ⟨hends, hleaves⟩ := ends_orElseWith_of_isolated h.1 hskip hq
    have hrest := run_bind_of_ok (ih h.2 hleaves) fun later => pure (foundIn handle p file ++ later)
    have hfirst := run_bind_of_ok hends fun found => do return found ++ (← perFile s f handle rest)
    exact congrArg Prod.fst (hfirst.trans hrest)

/-- Settled work before work that ends in one way. -/
theorem EndsIn.ends_bind
    {β γ : Type}
    {work : Extraction β}
    {b : β}
    {next : β → Extraction γ}
    {r : Except Fault γ}
    (h : EndsIn work (.ok b))
    {p : Progress}
    (hnext : ∀ q, Since s derived p q → ends (next b) q = r)
    {q : Progress}
    (hq : Since s derived p q) :
    ends (work >>= next) q = r := by
  obtain ⟨hends, hcache⟩ := h q
  exact (congrArg Prod.fst (run_bind_of_ok hends next)).trans (hnext _ (hq.of_cache_eq hcache))

end Files

end Extraction

/-- The extractions that go through the files of a project one by one. -/
inductive FileExtraction where
  | appRouter
  | pagesRouter
  | nest

/-- How an extraction goes through a project: the files that it accepts, and the work on each of them, with
the names of types handed down or with one set of names for all files. -/
structure Plan where
  files : List SourceFile
  handle : SourceFile → Extraction (List Handler)
  sharing : SourceFile → Naming (List Handler)

namespace FileRoutes

section Layouts

/-- How a layout goes through a project. Its files are worked on without looking up types. -/
def Layout.plan
    (l : Layout)
    (s : Site) :
    Except Fault Plan := do
  let loader ← Project.Loader.make s.tree s.root s.options.configPath s.options.exclude
  match loader.findConfig? with
  | none => throw (.projectConfigMissing s.root.toText)
  | some _ => do
    let project := (← loader.load l.patterns true).readAll
    return ⟨project.sourceFiles.filter fun f => l.accepts (relativePath s f.path), l.ofFile s project,
      fun file => Naming.ofWork (l.ofFile s project file)⟩

/-- The path of a file as a layout derives it. -/
def derivedAt
    (s : Site)
    (derive : String → String)
    (k : Path) :
    String :=
  derive (relativePath s k)

variable {s : Site} {project : Project} {file : SourceFile}

/-- The path of a file that is its own place is derived from this place. -/
theorem derivedAt_resolve
    (hplace : s.tree.resolve file.path = file.path)
    (derive : String → String) :
    derivedAt s derive (s.tree.resolve file.path) = derive (relativePath s file.path) := by
  rw [hplace]
  rfl

theorem isolated_appFile (hplace : s.tree.resolve file.path = file.path) :
    Isolated s (derivedAt s App.routePath) (App.ofFile s project file) := by
  unfold App.ofFile
  dsimp only
  split
  · exact ((settled_say _ _ _).bind fun _ _ => settled_pure (P := fun _ => True) trivial).isolated
  · rw [App.pathsOf_bind]
    refine isolated_derivedPath (P := fun _ => True) (derivedAt_resolve hplace _) fun raw => ?_
    refine (settled_verbHandlers _ _ _ _).bind fun functions _ => ?_
    split
    · exact (settled_say _ _ _).bind fun _ _ => settled_pure trivial
    · exact ⟨_, endsIn_mapM (endsIn_handlerFor raw functions) _, fun _ _ => trivial⟩

theorem isolated_pagesFile (hplace : s.tree.resolve file.path = file.path) :
    Isolated s (derivedAt s Pages.routePath) (Pages.ofFile s project file) := by
  unfold Pages.ofFile
  dsimp only
  split
  · exact ((settled_say _ _ _).bind fun _ _ => settled_pure (P := fun _ => True) trivial).isolated
  · split
    · exact ((settled_say _ _ _).bind fun _ _ => settled_pure (P := fun _ => True) trivial).isolated
    · rw [Pages.pathsOf_bind]
      refine isolated_derivedPath (P := fun _ => True) (derivedAt_resolve hplace _) fun raw => ?_
      refine (settled_ofExcept _).bind fun facts _ => ?_
      exact (settled_say _ _ _).bind fun _ _ => settled_pure trivial

theorem App.structured_eq (s : Site) :
    App.structured s = appLayout.structured App.accepts
      (fun n => "Found " ++ toString n ++ " App Router route files") s :=
  rfl

theorem Pages.structured_eq (s : Site) :
    Pages.structured s = pagesLayout.structured Pages.accepts
      (fun n => "Found " ++ toString n ++ " Pages API files") s :=
  rfl

/-- The files of a plan are sources of a project. -/
theorem Layout.isSource_of_plan
    {l : Layout}
    {plan : Plan}
    (h : l.plan s = .ok plan) :
    ∃ project, plan.handle = l.ofFile s project ∧
      plan.sharing = (fun file => Naming.ofWork (l.ofFile s project file)) ∧
      ∀ file ∈ plan.files, IsSource s l.patterns project file := by
  obtain ⟨loader, hloader, h⟩ := exists_of_bind_eq_ok h
  split at h
  · cases h
  · obtain ⟨loaded, hloaded, h⟩ := exists_of_bind_eq_ok h
    cases h
    exact ⟨_, rfl, rfl, fun file hfile =>
      ⟨loader, loaded, hloader, hloaded, rfl, List.mem_of_mem_filter hfile⟩⟩

theorem Layout.ends_structured
    {l : Layout}
    {plan : Plan}
    {accepts : String → Extraction Bool}
    (haccepts : ∀ path, EndsIn (accepts path) (.ok (l.accepts path)))
    (message : Nat → String)
    (h : l.plan s = .ok plan)
    {derived : Files.Path → String}
    (hisolated : ∀ file ∈ plan.files, Isolated s derived (plan.handle file))
    (p : Progress) :
    ends (l.structured accepts message s) p = .ok (plan.files.flatMap (foundIn plan.handle p)) := by
  obtain ⟨loader, hloader, h⟩ := exists_of_bind_eq_ok h
  split at h
  · cases h
  · next config hconfig =>
    obtain ⟨loaded, hloaded, h⟩ := exists_of_bind_eq_ok h
    cases h
    have hmade : EndsIn (Extraction.loader s) (.ok loader) := hloader ▸ endsIn_ofExcept _
    have hrequire : EndsIn (requireConfig s l.framework loader) (.ok ()) := by
      unfold requireConfig
      rw [hconfig]
      exact endsIn_say _ _ _
    have hload : EndsIn (load loader l.patterns) (.ok loaded.readAll) := by
      unfold load
      rw [hloaded]
      exact (endsIn_ofExcept _).bind (endsIn_pure _)
    unfold structured
    refine hmade.ends_bind (fun q hq => ?_) (since_refl s derived p)
    refine hrequire.ends_bind (fun q hq => ?_) hq
    refine hload.ends_bind (fun q hq => ?_) hq
    refine (endsIn_filterM haccepts _ _).ends_bind (fun q hq => ?_) hq
    exact (endsIn_say _ _ _).ends_bind (fun q hq => ends_perFile hisolated hq) hq

/-- The files that a layout accepts are worked on apart from each other if files at their own places are. -/
theorem Layout.exists_isolated
    {l : Layout}
    {plan : Plan}
    {derived : Files.Path → String}
    {accepts : String → Extraction Bool}
    (haccepts : ∀ path, EndsIn (accepts path) (.ok (l.accepts path)))
    (hfile : ∀ project file, s.tree.resolve file.path = file.path →
      Isolated s derived (l.ofFile s project file))
    (message : Nat → String)
    (h : l.plan s = .ok plan) :
    ∃ derived, (∀ file ∈ plan.files, Isolated s derived (plan.handle file)) ∧
      ∀ p, ends (l.structured accepts message s) p = .ok (plan.files.flatMap (foundIn plan.handle p)) := by
  obtain ⟨project, hhandle, -, hsources⟩ := isSource_of_plan h
  have hisolated : ∀ file ∈ plan.files, Isolated s derived (plan.handle file) := by
    intro file hmem
    obtain ⟨-, -, -, hread⟩ := readBelow_of_isSource (hsources file hmem)
    rw [hhandle]
    exact hfile project file (Tree.resolve_of_reached hread.absolute hread.reached)
  exact ⟨derived, hisolated, ends_structured haccepts message h hisolated⟩

/-- A layout whose work on a project ends well has gone through it by a plan. -/
theorem Layout.exists_plan_of_ends
    {l : Layout}
    {accepts : String → Extraction Bool}
    {message : Nat → String}
    {p : Progress}
    {hs : List Handler}
    (h : ends (l.structured accepts message s) p = .ok hs) :
    ∃ plan, l.plan s = .ok plan := by
  unfold structured at h
  obtain ⟨loader, hloader, h⟩ := exists_of_ends_bind h
  obtain ⟨u, hconfig, h⟩ := exists_of_ends_bind h
  obtain ⟨project, hproject, -⟩ := exists_of_ends_bind h
  have hmade := (endsIn_ofExcept _ _).1.symm.trans hloader
  obtain ⟨path, hpath⟩ := ((settled_requireConfig s l.framework loader).yields (s := s) _).2 u hconfig
  obtain ⟨loaded, hloaded, -⟩ := ((settled_load loader l.patterns).yields (s := s) _).2 project hproject
  unfold plan
  simp only [hmade, bind, Except.bind, hpath, hloaded]
  exact ⟨_, rfl⟩

end Layouts

end FileRoutes

namespace Controllers

section Files

/-- How controllers are gone through: the settings of the whole application are read before. -/
def plan (s : Site) : Except Fault Plan := do
  let loader ← Project.Loader.make s.tree s.root s.options.configPath s.options.exclude
  let project := (← loader.load patterns true).readAll
  let o ← ends (Overall.ofFiles s project .unset s.options.bootstrapFiles) .start
  return ⟨project.sourceFiles.filter fun f => Text.contains f.text "Controller",
    ofFile s ⟨some project⟩ o, ofFileSharing s ⟨some project⟩ o⟩

variable {s : Site} {derived : Files.Path → String}

theorem isolated_ofFile
    (scope : Project.Scope)
    (o : Overall)
    (file : SourceFile) :
    Isolated s derived (ofFile s scope o file) := by
  refine (settled_flatten (P := fun _ => True) fun c _ => ?_).isolated
  exact settled_ofClass (fun _ _ _ _ _ _ _ _ => trivial) s scope o

theorem ends_structured
    (derived : Files.Path → String)
    {plan : Plan}
    (h : Controllers.plan s = .ok plan)
    (p : Progress) :
    ends (structured s) p = .ok (plan.files.flatMap (foundIn plan.handle p)) := by
  obtain ⟨loader, hloader, h⟩ := exists_of_bind_eq_ok h
  obtain ⟨loaded, hloaded, h⟩ := exists_of_bind_eq_ok h
  obtain ⟨o, ho, h⟩ := exists_of_bind_eq_ok h
  cases h
  have hmade : EndsIn (Extraction.loader s) (.ok loader) := hloader ▸ endsIn_ofExcept _
  have hload : EndsIn (load loader patterns) (.ok loaded.readAll) := by
    unfold load
    rw [hloaded]
    exact (endsIn_ofExcept _).bind (endsIn_pure _)
  have hoverall : EndsIn (Overall.ofFiles s loaded.readAll .unset s.options.bootstrapFiles) (.ok o) := by
    obtain ⟨e, he, -⟩ := settled_ofFiles s loaded.readAll .unset s.options.bootstrapFiles
    rwa [show e = .ok o from (he .start).1.symm.trans ho] at he
  have hfiles (q : Progress) (hq : Since s derived p q) : ends (do
      let project ← Extraction.load loader patterns
      let o ← Overall.ofFiles s project .unset s.options.bootstrapFiles
      let files := project.sourceFiles.filter fun f => Text.contains f.text "Controller"
      say framework .debug ("Found " ++ toString files.length ++ " candidate controller files")
      Extraction.perFile s framework (ofFile s ⟨some project⟩ o) files) q =
        .ok ((loaded.readAll.sourceFiles.filter fun f => Text.contains f.text "Controller").flatMap
          (foundIn (ofFile s ⟨some loaded.readAll⟩ o) p)) := by
    refine hload.ends_bind (fun q hq => ?_) hq
    refine hoverall.ends_bind (fun q hq => ?_) hq
    refine (endsIn_say _ _ _).ends_bind (fun q hq => ?_) hq
    exact ends_perFile (fun file _ => isolated_ofFile _ o file) hq
  unfold structured
  refine hmade.ends_bind (fun q hq => ?_) (since_refl s derived p)
  split
  · exact (endsIn_say _ _ _).ends_bind hfiles hq
  · exact hfiles q hq

theorem exists_plan_of_ends
    {p : Progress}
    {hs : List Handler}
    (h : ends (structured s) p = .ok hs) :
    ∃ plan, Controllers.plan s = .ok plan := by
  unfold structured at h
  obtain ⟨loader, hloader, h⟩ := exists_of_ends_bind h
  have hmade := (endsIn_ofExcept _ _).1.symm.trans hloader
  have hfiles (q : Progress) (h : ends (do
      let project ← Extraction.load loader patterns
      let o ← Overall.ofFiles s project .unset s.options.bootstrapFiles
      let files := project.sourceFiles.filter fun f => Text.contains f.text "Controller"
      say framework .debug ("Found " ++ toString files.length ++ " candidate controller files")
      Extraction.perFile s framework (ofFile s ⟨some project⟩ o) files) q = .ok hs) :
      ∃ plan, Controllers.plan s = .ok plan := by
    obtain ⟨project, hproject, h⟩ := exists_of_ends_bind h
    obtain ⟨o, ho, -⟩ := exists_of_ends_bind h
    obtain ⟨loaded, hloaded, rfl⟩ := ((settled_load loader patterns).yields (s := s) _).2 project hproject
    obtain ⟨e, he, -⟩ := settled_ofFiles s loaded.readAll .unset s.options.bootstrapFiles
    have hstart := (he .start).1.trans ((he _).1.symm.trans ho)
    unfold plan
    simp only [hmade, bind, Except.bind, hloaded, hstart]
    exact ⟨_, rfl⟩
  split at h
  · obtain ⟨u, -, h⟩ := exists_of_ends_bind h
    exact hfiles _ h
  · exact hfiles _ h

end Files

end Controllers

namespace Project

section BasedAtTop

/-- The configuration of a project at the top of a tree, which is its base directory too. -/
def Config.basedAtTop : Config :=
  { Config.empty ⟨true, ["tsconfig.json"]⟩ with baseUrl := some ⟨true, []⟩ }

/-- Whether a configuration is this one. -/
def Config.isBasedAtTop (c : Config) : Bool :=
  match c with
  | ⟨⟨true, ["tsconfig.json"]⟩, .null, .null, .null, false, some ⟨true, []⟩, []⟩ => true
  | _ => false

theorem Loader.readConfig_of_isBasedAtTop
    {l : Loader}
    (h : l.readConfig?.toOption.join.any Config.isBasedAtTop = true) :
    l.readConfig? = .ok (some .basedAtTop) := by
  generalize l.readConfig? = r at h ⊢
  cases r with
  | error e => cases h
  | ok c =>
    cases c with
    | none => cases h
    | some c =>
      replace h : c.isBasedAtTop = true := h
      unfold Config.isBasedAtTop at h
      split at h
      · rfl
      · cases h

end BasedAtTop

end Project

namespace FileExtraction

section Results

/-- The framework that an extraction is for. -/
def framework : FileExtraction → Framework
  | appRouter => .appRouter
  | pagesRouter => .pagesRouter
  | nest => .nest

/-- The structured way of an extraction. -/
def structured : FileExtraction → Site → Extraction (List Handler)
  | appRouter => FileRoutes.App.structured
  | pagesRouter => FileRoutes.Pages.structured
  | nest => Controllers.structured

/-- How an extraction goes through a project in its structured way. -/
def plan : FileExtraction → Site → Except Fault Plan
  | appRouter => FileRoutes.appLayout.plan
  | pagesRouter => FileRoutes.pagesLayout.plan
  | nest => Controllers.plan

/-- The files that an extraction accepts are worked on apart from each other. -/
theorem exists_isolated
    {x : FileExtraction}
    {s : Site}
    {plan : Plan}
    (h : x.plan s = .ok plan) :
    ∃ derived, (∀ file ∈ plan.files, Isolated s derived (plan.handle file)) ∧
      ∀ p, ends (x.structured s) p = .ok (plan.files.flatMap (foundIn plan.handle p)) := by
  cases x with
  | appRouter =>
    rw [structured, FileRoutes.App.structured_eq]
    exact FileRoutes.Layout.exists_isolated FileRoutes.endsIn_appAccepts
      (fun _ _ => FileRoutes.isolated_appFile) _ h
  | pagesRouter =>
    rw [structured, FileRoutes.Pages.structured_eq]
    exact FileRoutes.Layout.exists_isolated FileRoutes.endsIn_pagesAccepts
      (fun _ _ => FileRoutes.isolated_pagesFile) _ h
  | nest =>
    refine ⟨fun _ => "", ?_, Controllers.ends_structured (fun _ => "") h⟩
    obtain ⟨loader, -, h⟩ := exists_of_bind_eq_ok h
    obtain ⟨loaded, -, h⟩ := exists_of_bind_eq_ok h
    obtain ⟨o, -, h⟩ := exists_of_bind_eq_ok h
    cases h
    exact fun file _ => Controllers.isolated_ofFile _ o file

/-- With one set of names the work on a file is the same, and the set stays empty. -/
theorem follows_sharing
    {x : FileExtraction}
    {s : Site}
    {plan : Plan}
    (h : x.plan s = .ok plan)
    (file : SourceFile) :
    (plan.sharing file).Follows (plan.handle file) := by
  have hlayout {l : FileRoutes.Layout} (h : l.plan s = .ok plan) :
      (plan.sharing file).Follows (plan.handle file) := by
    obtain ⟨project, hhandle, hsharing, -⟩ := FileRoutes.Layout.isSource_of_plan h
    rw [hhandle, hsharing]
    exact Naming.follows_ofWork _
  cases x with
  | appRouter => exact hlayout h
  | pagesRouter => exact hlayout h
  | nest =>
    obtain ⟨loader, -, h⟩ := exists_of_bind_eq_ok h
    obtain ⟨loaded, -, h⟩ := exists_of_bind_eq_ok h
    obtain ⟨o, -, h⟩ := exists_of_bind_eq_ok h
    cases h
    exact Controllers.follows_ofFileSharing o file

/-- An extraction goes through a project by a plan exactly if it ends well. -/
theorem exists_plan_iff
    (x : FileExtraction)
    (s : Site)
    (p : Progress) :
    (∃ plan, x.plan s = .ok plan) ↔ ∃ hs, ends (x.structured s) p = .ok hs := by
  constructor
  · rintro ⟨plan, h⟩
    obtain ⟨-, -, hstructured⟩ := exists_isolated h
    exact ⟨_, hstructured p⟩
  · rintro ⟨hs, h⟩
    cases x with
    | appRouter =>
      rw [structured, FileRoutes.App.structured_eq] at h
      exact FileRoutes.Layout.exists_plan_of_ends h
    | pagesRouter =>
      rw [structured, FileRoutes.Pages.structured_eq] at h
      exact FileRoutes.Layout.exists_plan_of_ends h
    | nest => exact Controllers.exists_plan_of_ends h

end Results

section PartlyBroken

/-- A project with two files of the first directory and two files with controllers. One of each kind imports
its function or its path from a module that stands for a path without a name, which is a fault. -/
def partlyBroken : Site where
  tree := ⟨.directory [
    ("a", .directory [("app", .directory [("route.ts", .file (.text
      "export \x7b GET \x7d from \"/\";\n"))])]),
    ("b", .directory [("app", .directory [("route.ts", .file (.text
      "export function GET() \x7b\x7d\n"))])]),
    ("orders.controller.ts", .file (.text
      "import \x7b ORDERS \x7d from \"/\";\n@Controller(ORDERS)class Orders\x7b@Get()list()\x7b\x7d\x7d\n")),
    ("tsconfig.json", .file (.text
      "\x7b\"compilerOptions\":\x7b\"baseUrl\":\".\"\x7d\x7d")),
    ("users.controller.ts", .file (.text
      "@Controller(\"users\")class Users\x7b@Get()list()\x7b\x7d\x7d\n"))]⟩
  root := ⟨true, []⟩
  options := .default

/-- What the project is loaded from. -/
def partlyLoader : Project.Loader :=
  ⟨partlyBroken.tree, partlyBroken.root, none, .ofPatterns []⟩

/-- The project, loaded. -/
def partlyProject : Project :=
  ⟨partlyBroken.tree, partlyBroken.root, some .basedAtTop,
    [⟨true, ["orders.controller.ts"]⟩, ⟨true, ["users.controller.ts"]⟩,
      ⟨true, ["a", "app", "route.ts"]⟩, ⟨true, ["b", "app", "route.ts"]⟩], []⟩

theorem walk_partlyBroken :
    partlyBroken.tree.walk Project.Loader.enters partlyBroken.root =
      [⟨true, ["orders.controller.ts"]⟩, ⟨true, ["tsconfig.json"]⟩, ⟨true, ["users.controller.ts"]⟩,
        ⟨true, ["a", "app", "route.ts"]⟩, ⟨true, ["b", "app", "route.ts"]⟩] := by
  show Tree.walkEntries _ _ 5 _ _ = _
  rw [Tree.walkEntries, Tree.sortEntries_of_pairwise (by decide)]
  decide +kernel

theorem readConfig_partlyLoader : partlyLoader.readConfig? = .ok (some .basedAtTop) :=
  Project.Loader.readConfig_of_isBasedAtTop (by decide +kernel)

/-- The configuration selects all four files, so the globs of an extraction select no others. -/
theorem load_partlyLoader
    {patterns : List String}
    (hpatterns : patterns = FileRoutes.App.patterns ∨ patterns = Controllers.patterns) :
    partlyLoader.load patterns true = .ok partlyProject := by
  have hwalk : partlyLoader.tree.walk (fun d => !Project.Loader.ignoredDirectories.contains d)
      partlyLoader.root = _ := walk_partlyBroken
  have hlisted : partlyLoader.configFiles Project.Config.basedAtTop =
      .ok [⟨true, ["orders.controller.ts"]⟩, ⟨true, ["users.controller.ts"]⟩,
        ⟨true, ["a", "app", "route.ts"]⟩, ⟨true, ["b", "app", "route.ts"]⟩] := by
    have hbase : (if partlyLoader.root.isBelow Project.Config.basedAtTop.directory then
        partlyLoader.root else Project.Config.basedAtTop.directory) = partlyLoader.root := rfl
    simp only [Project.Loader.configFiles, hbase, Project.Loader.walk, hwalk]
    decide +kernel
  have hfound :
      partlyLoader.findFiles patterns =
        [⟨true, ["a", "app", "route.ts"]⟩, ⟨true, ["b", "app", "route.ts"]⟩] ∨
      partlyLoader.findFiles patterns =
        [⟨true, ["orders.controller.ts"]⟩, ⟨true, ["users.controller.ts"]⟩] := by
    simp only [Project.Loader.findFiles, Project.Loader.walk, hwalk]
    rcases hpatterns with rfl | rfl <;> decide +kernel
  rw [Project.Loader.load, readConfig_partlyLoader]
  simp only [bind, Except.bind, if_true, hlisted]
  rcases hfound with hfound | hfound <;> rw [hfound] <;> rfl

/-- How the directories and the controllers of the project are gone through. -/
def partlyPlan : FileExtraction → Plan
  | nest =>
    let project := partlyProject.readAll
    ⟨project.sourceFiles.filter fun f => Text.contains f.text "Controller",
      Controllers.ofFile partlyBroken ⟨some project⟩ .unset,
      Controllers.ofFileSharing partlyBroken ⟨some project⟩ .unset⟩
  | _ =>
    let project := partlyProject.readAll
    ⟨project.sourceFiles.filter fun f => FileRoutes.appLayout.accepts (relativePath partlyBroken f.path),
      FileRoutes.appLayout.ofFile partlyBroken project,
      fun file => Naming.ofWork (FileRoutes.appLayout.ofFile partlyBroken project file)⟩

theorem plan_partlyBroken :
    appRouter.plan partlyBroken = .ok (partlyPlan appRouter) ∧
      nest.plan partlyBroken = .ok (partlyPlan nest) := by
  have hloader : Project.Loader.make partlyBroken.tree partlyBroken.root partlyBroken.options.configPath
      partlyBroken.options.exclude = .ok partlyLoader := rfl
  have hconfig : partlyLoader.findConfig? = some ⟨true, ["tsconfig.json"]⟩ := rfl
  constructor
  · simp only [plan, FileRoutes.Layout.plan, hloader, bind, Except.bind, hconfig,
      show FileRoutes.appLayout.patterns = FileRoutes.App.patterns from rfl, load_partlyLoader (.inl rfl)]
    rfl
  · have hoverall : ends (Controllers.Overall.ofFiles partlyBroken partlyProject.readAll .unset
        partlyBroken.options.bootstrapFiles) .start = .ok .unset := by
      rfl
    simp only [plan, Controllers.plan, hloader, bind, Except.bind, load_partlyLoader (.inr rfl), hoverall]
    rfl

end PartlyBroken

section Apart

/-- An extraction that ends well goes through a project by a plan. The handlers of any accepted files are then
those that each of them yields alone, in the order of the files, and so are those of the whole extraction. A
file whose work ends by a fault yields none. All this is so as well with one set of names for all files, which
is empty after any of them. -/
theorem exists_structured_eq_flatMap
    (x : FileExtraction)
    (s : Site)
    (p : Progress) :
    ((∃ plan, x.plan s = .ok plan) ↔ ∃ hs, ends (x.structured s) p = .ok hs) ∧
    ∀ plan, x.plan s = .ok plan →
      ∃ found : SourceFile → List Handler,
        (∀ file ∈ plan.files, ends (perFile s x.framework plan.handle [file]) p = .ok (found file)) ∧
        (∀ file ∈ plan.files, ∀ e, ends (plan.handle file) p = .error e → found file = []) ∧
        (∀ files ⊆ plan.files,
          ends (perFile s x.framework plan.handle files) p = .ok (files.flatMap found) ∧
          ((Naming.perFile s x.framework plan.sharing files).run.run []).run p =
            ((.ok (files.flatMap found), []), leaves (perFile s x.framework plan.handle files) p)) ∧
        ends (x.structured s) p = .ok (plan.files.flatMap found) := by
  refine ⟨exists_plan_iff x s p, fun plan h => ?_⟩
  obtain ⟨derived, hisolated, hstructured⟩ := exists_isolated h
  have hfiles (files : List SourceFile) (hsub : files ⊆ plan.files) :
      ends (perFile s x.framework plan.handle files) p =
        .ok (files.flatMap (foundIn plan.handle p)) :=
    ends_perFile (fun file hfile => hisolated file (hsub hfile)) (since_refl s derived p)
  refine ⟨foundIn plan.handle p, fun file hfile => ?_, fun file _ e he => ?_, fun files hsub => ?_,
    hstructured p⟩
  · simpa using hfiles [file] (by simpa using hfile)
  · rw [foundIn, he]
    rfl
  · refine ⟨hfiles files hsub, ?_⟩
    rw [Naming.follows_perFile (follows_sharing h) files p, hfiles files hsub]

/-- The two files with a fault are as good as not there. -/
theorem exists_structured_eq_flatMap_partlyBroken :
    ∀ x ∈ [appRouter, nest],
      x.plan partlyBroken = .ok (partlyPlan x) ∧
      ((partlyPlan x).files.map fun file => (ends ((partlyPlan x).handle file) .start).toOption.map
        (List.map Handler.method)) = [none, some ["GET"]] ∧
      ∃ hs, ends (x.structured partlyBroken) .start = .ok hs ∧ hs.map Handler.method = ["GET"] ∧
        ((Naming.perFile partlyBroken x.framework (partlyPlan x).sharing (partlyPlan x).files).run.run
          []).run .start = ((.ok hs, []), leaves
            (perFile partlyBroken x.framework (partlyPlan x).handle (partlyPlan x).files) .start) := by
  intro x hx
  have hplan : x.plan partlyBroken = .ok (partlyPlan x) := by
    rcases List.mem_pair.1 hx with rfl | rfl
    · exact plan_partlyBroken.1
    · exact plan_partlyBroken.2
  obtain ⟨found, -, -, hfiles, hall⟩ :=
    (exists_structured_eq_flatMap x partlyBroken .start).2 _ hplan
  obtain ⟨hends, hsharing⟩ := hfiles _ (List.Subset.refl _)
  refine ⟨hplan, ?_, _, hall, ?_, hsharing⟩
  · rcases List.mem_pair.1 hx with rfl | rfl <;> decide +kernel
  · have hmethods : (ends (perFile partlyBroken x.framework (partlyPlan x).handle (partlyPlan x).files)
        .start).toOption.map (List.map Handler.method) = some ["GET"] := by
      rcases List.mem_pair.1 hx with rfl | rfl <;> decide +kernel
    rw [hends] at hmethods
    exact Option.some.inj hmethods

end Apart

end FileExtraction

end RouteAtlas
