import Mathlib
import RouteAtlas.Project.Symbols
import RouteAtlas.Proofs.PlainPaths

/-!
# Files of a project

A file gets into a project on one of three ways: its configuration lists it, or a walk from the
directory of the configuration or from the root comes to it, and globs select it. Of these files the
project keeps those that lie under its root when all links are followed. Source files are read from
there too, those that imports lead to among them.
-/

namespace RouteAtlas

open Files

namespace Files.Path

section Below

theorem relativeTo_go_eq_some_iff
    {base names rest : List String} :
    relativeTo?.go base names = some rest ↔ names = base ++ rest := by
  induction base generalizing names with
  | nil => simp [relativeTo?.go, eq_comm]
  | cons b base ih =>
    cases names with
    | nil => simp [relativeTo?.go]
    | cons name names =>
      rw [relativeTo?.go, List.cons_append, List.cons.injEq]
      split
      · next hname =>
        rw [ih]
        exact ⟨fun h => ⟨hname.symm, h⟩, And.right⟩
      · next hname => simp [Ne.symm hname]

theorem relativeTo?_eq_some_iff
    {p base rest : Path} :
    p.relativeTo? base = some rest ↔
      p.isAbsolute = base.isAbsolute ∧ rest.isAbsolute = false ∧
        p.components = base.components ++ rest.components := by
  rw [relativeTo?]
  obtain ⟨absolute, names⟩ := rest
  split
  · next h =>
    rw [beq_iff_eq] at h
    simp only [Option.map_eq_some_iff, relativeTo_go_eq_some_iff, h, true_and]
    constructor
    · rintro ⟨_, hnames, ⟨⟩⟩
      exact ⟨rfl, hnames⟩
    · rintro ⟨rfl, hnames⟩
      exact ⟨names, hnames, rfl⟩
  · next h =>
    rw [beq_iff_eq] at h
    simp [h]

theorem isBelow_iff
    {p base : Path} :
    p.isBelow base = true ↔
      p.isAbsolute = base.isAbsolute ∧ base.components <+: p.components := by
  rw [isBelow, Option.isSome_iff_exists]
  constructor
  · rintro ⟨rest, h⟩
    obtain ⟨habsolute, -, hnames⟩ := relativeTo?_eq_some_iff.1 h
    exact ⟨habsolute, rest.components, hnames.symm⟩
  · rintro ⟨habsolute, names, hnames⟩
    exact ⟨⟨false, names⟩, relativeTo?_eq_some_iff.2 ⟨habsolute, rfl, hnames.symm⟩⟩

/-- Of two directories above a path, one is above the other. -/
theorem isBelow_or_isBelow
    {p base base' : Path}
    (h : p.isBelow base = true)
    (h' : p.isBelow base' = true) :
    base.isBelow base' = true ∨ base'.isBelow base = true := by
  simp only [isBelow_iff] at *
  rcases List.prefix_or_prefix_of_prefix h.2 h'.2 with hnames | hnames
  · exact .inr ⟨h'.1.symm.trans h.1, hnames⟩
  · exact .inl ⟨h.1.symm.trans h'.1, hnames⟩

end Below

end Files.Path

namespace Files.Tree

section Walking

/-- Where a walk comes to: from its start, through directories that it enters, to a last name. -/
theorem exists_of_mem_walkEntries
    {t : Tree}
    {enter : String → Bool}
    {depth : Nat}
    {base p : Path}
    {entries : List (String × Entry)}
    (h : p ∈ walkEntries t enter depth base entries) :
    ∃ names last, p = ⟨base.isAbsolute, base.components ++ names ++ [last]⟩ ∧
      ∀ name ∈ names, enter name = true := by
  induction depth generalizing base entries with
  | zero => simp [walkEntries] at h
  | succ depth ih =>
    rw [walkEntries] at h
    rcases List.mem_append.1 h with h | h
    · obtain ⟨⟨last, e⟩, -, hfile⟩ := List.mem_filterMap.1 h
      dsimp only at hfile
      split at hfile
      · cases hfile
      · cases hfile
        exact ⟨[], last, by simp [Path.child], by simp⟩
    · obtain ⟨⟨name, e⟩, -, hinside⟩ := List.mem_flatMap.1 h
      dsimp only at hinside
      split at hinside
      · split at hinside
        · next henter =>
          obtain ⟨names, last, rfl, hnames⟩ := ih hinside
          exact ⟨name :: names, last, by simp [Path.child], List.forall_mem_cons.2 ⟨henter, hnames⟩⟩
        · simp at hinside
      · simp at hinside

theorem exists_of_mem_walk
    {t : Tree}
    {enter : String → Bool}
    {base p : Path}
    (h : p ∈ t.walk enter base) :
    ∃ names last, p = ⟨base.isAbsolute, base.components ++ names ++ [last]⟩ ∧
      ∀ name ∈ names, enter name = true := by
  unfold walk at h
  split at h
  · exact exists_of_mem_walkEntries h
  · simp at h

end Walking

end Files.Tree

namespace Project

section Adding

variable {p : Project}

theorem addFile_eq (path : Path) : ∃ files, (p.addFile path).1 = { p with files := files } := by
  unfold Project.addFile
  dsimp only
  split
  · exact ⟨_, rfl⟩
  · split <;> exact ⟨_, rfl⟩

/-- More files change nothing but the list of files. -/
theorem addFiles_eq (paths : List Path) : ∃ files, p.addFiles paths = { p with files := files } := by
  unfold Project.addFiles
  induction paths generalizing p with
  | nil => exact ⟨p.files, rfl⟩
  | cons path rest ih =>
    obtain ⟨files, hfirst⟩ := @addFile_eq p path
    obtain ⟨files', hrest⟩ := @ih { p with files := files }
    exact ⟨files', by rw [List.foldl_cons, hfirst, hrest]⟩

theorem mem_files_addFile
    {path q : Path} :
    q ∈ (p.addFile path).1.files ↔
      q ∈ p.files ∨ q = p.tree.resolve path ∧ q.isBelow p.root = true := by
  unfold Project.addFile
  dsimp only
  split
  · next h =>
    refine ⟨.inl, ?_⟩
    rintro (hq | ⟨rfl, hq⟩)
    · exact hq
    · simp [hq] at h
  · next h =>
    rw [Bool.not_eq_true', Bool.not_eq_false] at h
    split
    · next hcontained =>
      refine ⟨.inl, ?_⟩
      rintro (hq | ⟨rfl, -⟩)
      · exact hq
      · simpa using hcontained
    · rw [List.mem_append, List.mem_singleton]
      refine or_congr_right ⟨?_, And.left⟩
      rintro rfl
      exact ⟨rfl, h⟩

/-- What is added to a project: the places of files, where these lie under its root. -/
theorem mem_files_addFiles
    {paths : List Path}
    {q : Path} :
    q ∈ (p.addFiles paths).files ↔
      q ∈ p.files ∨ ∃ path ∈ paths, q = p.tree.resolve path ∧ q.isBelow p.root = true := by
  induction paths generalizing p with
  | nil => simp [Project.addFiles]
  | cons path rest ih =>
    have hstep : p.addFiles (path :: rest) = (p.addFile path).1.addFiles rest := rfl
    have hmem := @mem_files_addFile p path q
    obtain ⟨files, hfirst⟩ := @addFile_eq p path
    rw [hstep, ih, hmem, hfirst]
    simp [or_assoc]

end Adding

namespace Loader

section Selecting

/-- Whether a walk enters a directory. -/
def enters (name : String) : Bool :=
  !ignoredDirectories.contains name

/-- The directory where the walk for a configuration starts. -/
def start
    (l : Loader)
    (c : Config) :
    Path :=
  if l.root.isBelow c.directory then l.root else c.directory

/-- A configuration that the project is loaded by. -/
structure Uses
    (l : Loader)
    (useConfig : Bool)
    (c : Config) :
    Prop where
  wanted : useConfig = true
  read : l.readConfig? = .ok (some c)

/-- A resolved path that the configuration lists, of a file. -/
def Lists
    (l : Loader)
    (c : Config)
    (path : Path) :
    Prop :=
  ∃ paths, l.listedFiles c = .ok paths ∧ path ∈ paths

/-- A path that the walk for a configuration comes to and that the globs of this select. -/
structure Includes
    (l : Loader)
    (c : Config)
    (path : Path) :
    Prop where
  walked : path ∈ l.tree.walk enters (l.start c)
  candidate : l.isCandidate path = true
  suffix : c.suffixes.contains (l.tree.resolve path).suffix = true
  accepted : ∃ included excluded rest, c.includeGlobs = .ok included ∧
    c.excludeGlobs = .ok excluded ∧ path.relativeTo? c.directory = some rest ∧
    (Glob.Matcher.ofPatterns included).accepts rest.toText = true ∧
    (Glob.Matcher.ofPatterns excluded).accepts rest.toText = false

/-- A path that the walk from the root comes to and that globs of a framework select. -/
structure Finds
    (l : Loader)
    (patterns : List String)
    (path : Path) :
    Prop where
  walked : path ∈ l.tree.walk enters l.root
  candidate : l.isCandidate path = true
  accepted : ∃ rest, path.relativeTo? l.root = some rest ∧
    (Glob.Matcher.ofPatterns patterns).accepts rest.toText = true

/-- A path that is selected by globs, and the directory where the walk to it starts. -/
inductive Picks
    (l : Loader)
    (patterns : List String)
    (useConfig : Bool) :
    Path → Path → Prop
  | included
      {c : Config}
      {path : Path}
      (hc : l.Uses useConfig c)
      (h : l.Includes c path) :
      Picks l patterns useConfig (l.start c) path
  | found
      {path : Path}
      (h : l.Finds patterns path) :
      Picks l patterns useConfig l.root path

/-- The files that are taken for a project, under their resolved paths. -/
inductive Takes
    (l : Loader)
    (patterns : List String)
    (useConfig : Bool) :
    Path → Prop
  | listed
      {c : Config}
      {path : Path}
      (hc : l.Uses useConfig c)
      (h : l.Lists c path) :
      Takes l patterns useConfig (l.tree.resolve path)
  | picked
      {start path : Path}
      (h : l.Picks patterns useConfig start path) :
      Takes l patterns useConfig (l.tree.resolve (l.tree.resolve path))

variable {l : Loader} {patterns : List String} {useConfig : Bool}

theorem mem_walk_iff
    {base relative : Path}
    {f : Path × String} :
    f ∈ l.walk base relative ↔
      ∃ path rest, path ∈ l.tree.walk enters base ∧ l.isCandidate path = true ∧
        path.relativeTo? relative = some rest ∧ f = (l.tree.resolve path, rest.toText) := by
  have henters : (fun d => !ignoredDirectories.contains d) = enters := rfl
  unfold walk
  rw [henters]
  simp only [List.mem_filterMap, List.mem_filter, Option.map_eq_some_iff]
  constructor
  · rintro ⟨path, ⟨hwalked, hcandidate⟩, rest, hrest, rfl⟩
    exact ⟨path, rest, hwalked, hcandidate, hrest, rfl⟩
  · rintro ⟨path, rest, hwalked, hcandidate, hrest, rfl⟩
    exact ⟨path, ⟨hwalked, hcandidate⟩, rest, hrest, rfl⟩

/-- Without globs nothing is accepted. -/
theorem accepts_of_isEmpty
    {m : Glob.Matcher}
    (h : m.isEmpty = true)
    (text : String) :
    m.accepts text = false := by
  have halternatives : m.alternatives = [] := List.isEmpty_iff.1 h
  simp [Glob.Matcher.accepts, halternatives]

theorem mem_findFiles_iff
    {q : Path} :
    q ∈ l.findFiles patterns ↔ ∃ path, l.Finds patterns path ∧ q = l.tree.resolve path := by
  unfold findFiles
  dsimp only
  split
  · next hempty =>
    refine ⟨by simp, ?_⟩
    rintro ⟨path, ⟨-, -, rest, -, haccepts⟩, -⟩
    rw [accepts_of_isEmpty hempty] at haccepts
    cases haccepts
  · simp only [List.mem_map, List.mem_filter, mem_walk_iff]
    constructor
    · rintro ⟨_, ⟨⟨path, rest, hwalked, hcandidate, hrest, rfl⟩, haccepts⟩, rfl⟩
      exact ⟨path, ⟨hwalked, hcandidate, rest, hrest, haccepts⟩, rfl⟩
    · rintro ⟨path, ⟨hwalked, hcandidate, rest, hrest, haccepts⟩, rfl⟩
      exact ⟨_, ⟨⟨path, rest, hwalked, hcandidate, hrest, rfl⟩, haccepts⟩, rfl⟩

theorem mem_configFiles
    {c : Config}
    {paths : List Path}
    (h : l.configFiles c = .ok paths)
    {q : Path} :
    q ∈ paths ↔ l.Lists c q ∨ ∃ path, l.Includes c path ∧ q = l.tree.resolve path := by
  obtain ⟨named, hnamed, h⟩ := exists_of_bind_eq_ok h
  obtain ⟨included, hincluded, h⟩ := exists_of_bind_eq_ok h
  have hlists : l.Lists c q ↔ q ∈ named := by
    constructor
    · rintro ⟨named', hnamed', hq⟩
      rw [hnamed] at hnamed'
      cases hnamed'
      exact hq
    · exact fun hq => ⟨named, hnamed, hq⟩
  rw [hlists]
  dsimp only at h
  split at h
  · next hempty =>
    cases h
    refine ⟨.inl, ?_⟩
    rintro (hq | ⟨_, ⟨-, -, -, included', _, _, hincluded', -, -, haccepts, -⟩, -⟩)
    · exact hq
    · rw [hincluded] at hincluded'
      cases hincluded'
      rw [accepts_of_isEmpty hempty] at haccepts
      cases haccepts
  · obtain ⟨excluded, hexcluded, h⟩ := exists_of_bind_eq_ok h
    cases h
    rw [List.mem_append]
    refine or_congr_right ?_
    simp only [List.mem_map, List.mem_filter, mem_walk_iff, Bool.and_eq_true, Bool.not_eq_true']
    constructor
    · rintro ⟨_, ⟨⟨path, rest, hwalked, hcandidate, hrest, rfl⟩, ⟨hsuffix, haccepts⟩, hkept⟩, rfl⟩
      exact ⟨path, ⟨hwalked, hcandidate, hsuffix, included, excluded, rest, hincluded, hexcluded, hrest,
        haccepts, hkept⟩, rfl⟩
    · rintro ⟨path, ⟨hwalked, hcandidate, hsuffix, included', excluded', rest, hincluded', hexcluded',
        hrest, haccepts, hkept⟩, rfl⟩
      rw [hincluded] at hincluded'
      rw [hexcluded] at hexcluded'
      cases hincluded'
      cases hexcluded'
      exact ⟨_, ⟨⟨path, rest, hwalked, hcandidate, hrest, rfl⟩, ⟨hsuffix, haccepts⟩, hkept⟩, rfl⟩

/-- What a project is loaded to: the files of it are those that are taken and lie below the root. -/
structure Loads
    (l : Loader)
    (patterns : List String)
    (useConfig : Bool)
    (p : Project) :
    Prop where
  tree : p.tree = l.tree
  root : p.root = l.root
  config : l.readConfig? = .ok p.config
  files : ∀ q, q ∈ p.files ↔ l.Takes patterns useConfig q ∧ q.isBelow l.root = true
  sources : p.sources = []

/-- The files that are added first, those of the configuration, and then those of the framework. -/
theorem loads_addFiles
    {config : Option Config}
    {listed : List Path}
    (hconfig : l.readConfig? = .ok config)
    (hlisted : ∀ q, q ∈ listed ↔ ∃ c, l.Uses useConfig c ∧
      (l.Lists c q ∨ ∃ path, l.Includes c path ∧ q = l.tree.resolve path)) :
    l.Loads patterns useConfig
      ((Project.addFiles ⟨l.tree, l.root, config, [], []⟩ listed).addFiles (l.findFiles patterns)) := by
  obtain ⟨files, hfirst⟩ := @addFiles_eq ⟨l.tree, l.root, config, [], []⟩ listed
  have hmem := @mem_files_addFiles ⟨l.tree, l.root, config, [], []⟩ listed
  rw [hfirst] at hmem ⊢
  obtain ⟨files', hboth⟩ := @addFiles_eq ⟨l.tree, l.root, config, files, []⟩ (l.findFiles patterns)
  have hmem' := @mem_files_addFiles ⟨l.tree, l.root, config, files, []⟩ (l.findFiles patterns)
  rw [hboth] at hmem' ⊢
  refine ⟨rfl, rfl, hconfig, fun q => ?_, rfl⟩
  rw [hmem', hmem]
  constructor
  · rintro ((hq | ⟨path, hpath, rfl, hq⟩) | ⟨path, hpath, rfl, hq⟩)
    · simp at hq
    · obtain ⟨c, hc, hpath | ⟨path, hincluded, rfl⟩⟩ := (hlisted path).1 hpath
      · exact ⟨.listed hc hpath, hq⟩
      · exact ⟨.picked (.included hc hincluded), hq⟩
    · obtain ⟨path, hfound, rfl⟩ := mem_findFiles_iff.1 hpath
      exact ⟨.picked (.found hfound), hq⟩
  · rintro ⟨htaken, hq⟩
    cases htaken with
    | listed hc hpath => exact .inl (.inr ⟨_, (hlisted _).2 ⟨_, hc, .inl hpath⟩, rfl, hq⟩)
    | picked hpicked =>
      cases hpicked with
      | included hc hpath => exact .inl (.inr ⟨_, (hlisted _).2 ⟨_, hc, .inr ⟨_, hpath, rfl⟩⟩, rfl, hq⟩)
      | found hpath => exact .inr ⟨_, mem_findFiles_iff.2 ⟨_, hpath, rfl⟩, rfl, hq⟩

theorem loads_of_load
    {p : Project}
    (h : l.load patterns useConfig = .ok p) :
    l.Loads patterns useConfig p := by
  unfold load at h
  obtain ⟨config, hconfig, h⟩ := exists_of_bind_eq_ok h
  have huses {c : Config} (hc : l.Uses useConfig c) : config = some c :=
    Except.ok.inj (hconfig.symm.trans hc.read)
  extract_lets start withListed at h
  split at h
  · next c =>
    split at h
    · next hused =>
      obtain ⟨listed, hfiles, h⟩ := exists_of_bind_eq_ok h
      cases h
      refine loads_addFiles hconfig fun q => (mem_configFiles hfiles).trans ⟨fun hq => ⟨c, ⟨hused, hconfig⟩, hq⟩, ?_⟩
      rintro ⟨c', hc', hq⟩
      obtain rfl := Option.some.inj (huses hc')
      exact hq
    · next hunused =>
      cases h
      refine loads_addFiles hconfig fun q => ⟨by simp, ?_⟩
      rintro ⟨c', hc', -⟩
      exact absurd hc'.wanted hunused
  · cases h
    refine loads_addFiles hconfig fun q => ⟨by simp, ?_⟩
    rintro ⟨c', hc', -⟩
    cases huses hc'

end Selecting

end Loader

section Reading

variable {p : Project} {f : Syntax.SourceFile}

/-- A source file that is read from a place below a directory. -/
structure ReadBelow
    (t : Tree)
    (root : Path)
    (f : Syntax.SourceFile) :
    Prop where
  absolute : f.path.isAbsolute = true
  reached : Tree.Reached t f.path.components
  below : f.path.isBelow root = true
  read : ∃ content, t.content? f.path = some content ∧ f = .ofText f.path content.lenientText

/-- All sources that a project remembers are read from below its root. -/
def HoldsSources (p : Project) : Prop :=
  ∀ e ∈ p.sources, ReadBelow p.tree p.root e.2

theorem reached_of_content?
    {t : Tree}
    {path : Path}
    {content : Content}
    (h : t.content? (t.resolve path) = some content) :
    Tree.Reached t (t.resolve path).components := by
  unfold Tree.content? at h
  split at h
  · next hfind => exact Tree.reached_of_find?_resolve hfind
  · cases h

theorem HoldsSources.of_sourceFile?
    (hp : HoldsSources p)
    {path : Path}
    (h : p.sourceFile? path = some f) :
    ReadBelow p.tree p.root f := by
  unfold Project.sourceFile? at h
  dsimp only at h
  split at h
  · next hsource =>
    cases h
    exact hp _ (mem_of_source? hsource)
  · split at h
    · next hbelow =>
      obtain ⟨content, hcontent, rfl⟩ := Option.map_eq_some_iff.1 h
      exact ⟨rfl, reached_of_content? hcontent, hbelow, content, hcontent, rfl⟩
    · cases h

theorem HoldsSources.of_mem_sourceFiles
    (hp : HoldsSources p)
    (h : f ∈ p.sourceFiles) :
    ReadBelow p.tree p.root f := by
  obtain ⟨path, -, hf⟩ := List.mem_filterMap.1 h
  exact hp.of_sourceFile? hf

/-- What an import is resolved to is a source of the project too. -/
theorem HoldsSources.of_resolveModule
    (hp : HoldsSources p)
    {specifier : String}
    {fromFile : Path}
    (h : p.resolveModule specifier fromFile = .ok (some f)) :
    ReadBelow p.tree p.root f := by
  obtain ⟨candidates, -, h⟩ := exists_of_bind_eq_ok h
  obtain ⟨found, -, h⟩ := exists_of_bind_eq_ok h
  obtain ⟨path, -, hf⟩ := Option.bind_eq_some_iff.1 (Except.ok.inj h)
  exact hp.of_sourceFile? hf

/-- What a name is looked up to stands in the same file or in another source of the project. -/
theorem HoldsSources.of_lookup
    (hp : HoldsSources p)
    (hf : ReadBelow p.tree p.root f)
    {name : String}
    {here : Option Syntax.Node}
    {there : Syntax.SourceFile → String → Option Syntax.Node}
    {missing : String → String → Missing}
    {found : Found}
    (h : (Scope.mk (some p)).lookup name f here there missing = .ok (.ok found)) :
    ReadBelow p.tree p.root found.file := by
  unfold Scope.lookup at h
  split at h
  · cases h
    exact hf
  · obtain ⟨imported, himported, h⟩ := exists_of_bind_eq_ok h
    cases imported with
    | error why => cases h
    | ok imported =>
      dsimp only at h
      split at h
      · cases h
        unfold Scope.importedFile at himported
        split at himported
        · cases himported
        · obtain ⟨target, htarget, himported⟩ := exists_of_bind_eq_ok himported
          cases target with
          | none => cases himported
          | some target =>
            cases himported
            exact hp.of_resolveModule htarget
      · cases h

theorem afterReading_eq (file : Option Syntax.SourceFile) :
    ∃ sources, p.afterReading file = { p with sources := sources } := by
  unfold Project.afterReading
  split
  · split <;> exact ⟨_, rfl⟩
  · exact ⟨_, rfl⟩

theorem HoldsSources.afterReading
    (hp : HoldsSources p)
    (hf : ReadBelow p.tree p.root f) :
    HoldsSources (p.afterReading (some f)) := by
  have hsources : ∀ e ∈ (p.afterReading (some f)).sources, ReadBelow p.tree p.root e.2 := by
    unfold Project.afterReading
    dsimp only
    split
    · exact hp
    · intro e he
      rcases List.mem_append.1 he with he | he
      · exact hp e he
      · obtain rfl := List.mem_singleton.1 he
        exact hf
  obtain ⟨sources, heq⟩ := @afterReading_eq p (some f)
  rw [heq] at hsources ⊢
  exact hsources

/-- Reading all files changes nothing but what is remembered, and only sources of the project are. -/
theorem HoldsSources.readAll
    (hp : HoldsSources p) :
    HoldsSources p.readAll ∧ ∃ sources, p.readAll = { p with sources := sources } := by
  unfold Project.readAll
  have hfiles : ∀ f ∈ p.sourceFiles, ReadBelow p.tree p.root f := fun f => hp.of_mem_sourceFiles
  generalize p.sourceFiles = files at hfiles
  induction files generalizing p with
  | nil => exact ⟨hp, p.sources, rfl⟩
  | cons f rest ih =>
    rw [List.forall_mem_cons] at hfiles
    obtain ⟨sources, hfirst⟩ := @afterReading_eq p (some f)
    have hnext := hp.afterReading hfiles.1
    rw [List.foldl_cons]
    rw [hfirst] at hnext ⊢
    obtain ⟨hall, sources', heq⟩ := ih hnext hfiles.2
    exact ⟨hall, sources', heq⟩

/-- A project that is loaded and read. -/
theorem Loader.Loads.readAll
    {l : Loader}
    {patterns : List String}
    {useConfig : Bool}
    (h : l.Loads patterns useConfig p) :
    HoldsSources p.readAll ∧ p.readAll.tree = l.tree ∧ p.readAll.root = l.root ∧
      p.readAll.files = p.files := by
  have hempty : HoldsSources p := by
    intro e he
    rw [h.sources] at he
    cases he
  obtain ⟨hall, sources, heq⟩ := hempty.readAll
  refine ⟨hall, ?_, ?_, ?_⟩
  · rw [heq, ← h.tree]
  · rw [heq, ← h.root]
  · rw [heq]

end Reading

end Project

end RouteAtlas
