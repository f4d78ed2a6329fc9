import Mathlib
import RouteAtlas.Proofs.ExtendedConfigs
import RouteAtlas.Proofs.RootConfinement

/-!
# Directories of inherited settings

Files and globs in a configuration are meant to be read in the directory of the file that sets them, and
so are the targets of aliases if no base directory is named. But settings that are taken over from an
extended file are read in the directory of the file that extends it, and the base directory of aliases is
that of the last file in the chain which has any.

So files are selected as they are meant to be if these directories are the same. If the directories of
globs differ, they select the same files exactly if they select none.
-/

namespace RouteAtlas

open Files

namespace Files

section Names

mutual

/-- The names in a tree. -/
def entryNames : Entry → List String
  | .directory entries => entryNamesIn entries
  | _ => []

/-- The names in the entries of a directory, and those below. -/
def entryNamesIn : List (String × Entry) → List String
  | [] => []
  | (name, e) :: rest => name :: (entryNames e ++ entryNamesIn rest)

end

/-- All names in a tree are file names. -/
def Tree.IsNamed (t : Tree) : Prop :=
  ∀ name ∈ entryNames t.root, Path.IsFileName name

variable {t : Tree} {enter : String → Bool} {e inner : Entry} {entries : List (String × Entry)}
  {name : String} {place : List String} {base p : Path}

theorem entryNames_of_mem
    (h : (name, e) ∈ entries) :
    name ∈ entryNamesIn entries ∧ entryNames e ⊆ entryNamesIn entries := by
  induction entries with
  | nil => cases h
  | cons first rest ih =>
    rw [entryNamesIn]
    rcases List.mem_cons.1 h with rfl | h
    · refine ⟨List.mem_cons_self .., ?_⟩
      exact List.subset_cons_of_subset _ (List.subset_append_left _ _)
    · refine ⟨List.mem_cons_of_mem _ (List.mem_append_right _ (ih h).1), ?_⟩
      exact List.subset_cons_of_subset _ (List.Subset.trans (ih h).2 (List.subset_append_right _ _))

theorem entryNames_of_get?
    (h : e.get? place = some inner) :
    place ⊆ entryNames e ∧ entryNames inner ⊆ entryNames e := by
  induction place generalizing e with
  | nil =>
    rw [Entry.get?] at h
    cases h
    exact ⟨List.nil_subset _, List.Subset.refl _⟩
  | cons name rest ih =>
    cases e with
    | file content => cases h
    | link target => cases h
    | directory entries =>
      rw [Entry.get?] at h
      cases hbelow : Entry.lookup? name entries with
      | none => rw [hbelow] at h; cases h
      | some below =>
        rw [hbelow] at h
        obtain ⟨hname, hnames⟩ := entryNames_of_mem (Entry.mem_of_lookup? hbelow)
        obtain ⟨hrest, hinner⟩ := ih h
        exact ⟨List.cons_subset.2 ⟨hname, List.Subset.trans hrest hnames⟩, List.Subset.trans hinner hnames⟩

/-- A walk goes by the names of the entries that it starts with. -/
theorem exists_names_of_mem_walkEntries
    {depth : Nat}
    (h : p ∈ Tree.walkEntries t enter depth base entries) :
    ∃ names, p = ⟨base.isAbsolute, base.components ++ names⟩ ∧ names ⊆ entryNamesIn entries := by
  have hsorted {e : String × Entry} (he : e ∈ Tree.sortEntries entries) : e ∈ entries :=
    List.mem_mergeSort.1 he
  induction depth generalizing base entries with
  | zero => simp [Tree.walkEntries] at h
  | succ depth ih =>
    rw [Tree.walkEntries] at h
    rcases List.mem_append.1 h with h | h
    · obtain ⟨⟨name, e⟩, hentry, hfile⟩ := List.mem_filterMap.1 h
      dsimp only at hfile
      split at hfile
      · cases hfile
      · cases hfile
        exact ⟨[name], rfl, by simpa using (entryNames_of_mem (hsorted hentry)).1⟩
    · obtain ⟨⟨name, e⟩, hentry, hinside⟩ := List.mem_flatMap.1 h
      dsimp only at hinside
      split at hinside
      · next below =>
        split at hinside
        · obtain ⟨names, rfl, hnames⟩ := ih hinside fun he => List.mem_mergeSort.1 he
          obtain ⟨hname, hbelow⟩ := entryNames_of_mem (hsorted hentry)
          exact ⟨name :: names, by simp [Path.child],
            List.cons_subset.2 ⟨hname, List.Subset.trans hnames hbelow⟩⟩
        · simp at hinside
      · simp at hinside

/-- A walk goes by names in the tree. -/
theorem exists_names_of_mem_walk
    (h : p ∈ t.walk enter base) :
    (∃ e, t.find? base = some e) ∧
      ∃ names, p = ⟨base.isAbsolute, base.components ++ names⟩ ∧ names ⊆ entryNames t.root := by
  unfold Tree.walk at h
  split at h
  · next entries hfound =>
    obtain ⟨place, -, hentry⟩ := Option.bind_eq_some_iff.1 hfound
    obtain ⟨names, hp, hnames⟩ := exists_names_of_mem_walkEntries h
    exact ⟨⟨_, hfound⟩, names, hp, List.Subset.trans hnames (entryNames_of_get? hentry).2⟩
  · simp at h

end Names

end Files

namespace Project

section Results

variable {α β : Type} {f g : α → Except Fault β} {as : List α}

theorem mem_of_mapM
    {bs : List β}
    (h : as.mapM f = .ok bs)
    {a : α}
    (ha : a ∈ as)
    {b : β}
    (hb : f a = .ok b) :
    b ∈ bs := by
  induction as generalizing bs with
  | nil => cases ha
  | cons first more ih =>
    rw [List.mapM_cons] at h
    obtain ⟨b', hfirst, h⟩ := exists_of_bind_eq_ok h
    obtain ⟨bs', hmore, h⟩ := exists_of_bind_eq_ok h
    obtain rfl := Except.ok.inj h
    rcases List.mem_cons.1 ha with rfl | ha
    · obtain rfl := Except.ok.inj (hb.symm.trans hfirst)
      exact List.mem_cons_self ..
    · exact List.mem_cons_of_mem _ (ih hmore ha)

theorem mapM_congr_of_forall_mem
    (h : ∀ a ∈ as, f a = g a) :
    as.mapM f = as.mapM g := by
  induction as with
  | nil => rfl
  | cons a rest ih =>
    rw [List.forall_mem_cons] at h
    rw [List.mapM_cons, List.mapM_cons, h.1, ih h.2]

end Results

section Languages

/-- The path of a source from a directory that it lies below. -/
structure IsSourceBelow (rest : Path) : Prop where
  relative : rest.isAbsolute = false
  names : ∀ name ∈ rest.components, Path.IsFileName name
  suffix : Syntax.SourceFile.sourceSuffixes.contains rest.suffix = true
  typed : Text.endsWith rest.name ".d.ts" = false

/-- Globs select the path of a source from the directory where they are read. -/
def Selects
    (globs : Except Fault (List String))
    (rest : Path) :
    Prop :=
  IsSourceBelow rest ∧
    ∃ patterns, globs = .ok patterns ∧ (Glob.Matcher.ofPatterns patterns).accepts rest.toText = true

/-- Globs that are read in a directory select the path of a source. -/
def SelectsIn
    (globs : Except Fault (List String))
    (directory path : Path) :
    Prop :=
  ∃ rest, path.relativeTo? directory = some rest ∧ Selects globs rest

/-- There is no source that globs select, whatever the directory is where they are read. -/
def SelectsNothing (globs : Except Fault (List String)) : Prop :=
  ∀ rest, ¬ Selects globs rest

variable {globs : Except Fault (List String)} {directory directory' path : Path}

theorem selectsIn_iff :
    SelectsIn globs directory path ↔ ∃ rest, Selects globs rest ∧
      path = ⟨directory.isAbsolute, directory.components ++ rest.components⟩ := by
  simp only [SelectsIn, Path.relativeTo?_eq_some_iff]
  constructor
  · rintro ⟨rest, ⟨habsolute, -, hnames⟩, hrest⟩
    exact ⟨rest, hrest, by rw [← habsolute, ← hnames]⟩
  · rintro ⟨rest, hrest, rfl⟩
    exact ⟨rest, ⟨rfl, hrest.1.relative, rfl⟩, hrest⟩

theorem SelectsNothing.not_selectsIn
    (h : SelectsNothing globs) :
    ¬ SelectsIn globs directory path := by
  rintro ⟨rest, -, hrest⟩
  exact h rest hrest

/-- If what globs select in a directory is selected in another one too, that is not deeper. It is the
shortest path they select that tells: no shorter one can make up for a longer path to the directory. -/
theorem length_le_of_selectsIn
    (hglobs : ¬ SelectsNothing globs)
    (h : ∀ path, SelectsIn globs directory path → SelectsIn globs directory' path) :
    directory'.components.length ≤ directory.components.length := by
  classical
  have hlengths : ∃ n rest, Selects globs rest ∧ rest.components.length = n := by
    simp only [SelectsNothing, not_forall, not_not] at hglobs
    obtain ⟨rest, hrest⟩ := hglobs
    exact ⟨_, rest, hrest, rfl⟩
  obtain ⟨rest, hrest, hlength⟩ := Nat.find_spec hlengths
  obtain ⟨rest', hrest', hpath⟩ := selectsIn_iff.1 (h _ (selectsIn_iff.2 ⟨rest, hrest, rfl⟩))
  have hshortest : rest.components.length ≤ rest'.components.length := by
    rw [hlength]
    exact Nat.find_min' hlengths ⟨rest', hrest', rfl⟩
  have hlengths := congrArg (fun path => path.components.length) hpath
  simp only [List.length_append] at hlengths
  omega

/-- Globs select the same in two directories only if these are the same, or there is nothing to select. -/
theorem forall_selectsIn_iff :
    (∀ path, SelectsIn globs directory path ↔ SelectsIn globs directory' path) ↔
      directory = directory' ∨ SelectsNothing globs := by
  constructor
  · intro h
    by_cases hglobs : SelectsNothing globs
    · exact .inr hglobs
    · left
      have hlength : directory.components.length = directory'.components.length :=
        Nat.le_antisymm (length_le_of_selectsIn hglobs fun path => (h path).2)
          (length_le_of_selectsIn hglobs fun path => (h path).1)
      simp only [SelectsNothing, not_forall, not_not] at hglobs
      obtain ⟨rest, hrest⟩ := hglobs
      obtain ⟨rest', -, hpath⟩ := selectsIn_iff.1 ((h _).1 (selectsIn_iff.2 ⟨rest, hrest, rfl⟩))
      obtain ⟨habsolute, hnames⟩ := Files.Path.mk.inj hpath
      exact congrArg₂ Files.Path.mk habsolute (List.append_inj_left hnames hlength)
  · rintro (rfl | hnothing) path
    · rfl
    · exact iff_of_false hnothing.not_selectsIn hnothing.not_selectsIn

end Languages

section Anchors

/-- The directory in which the entries of a setting are meant to be read: that of the first file in the
chain which has the setting. A null has no entries; it leaves the configuration to its own directory. -/
def anchor
    (key : String)
    (own : Path) :
    List ConfigFile → Path
  | [] => own
  | f :: extended =>
    match entryOf? key f.data with
    | none => anchor key own extended
    | some .null => own
    | some _ => f.directory

/-- The files in a chain that have aliases. -/
def aliased (chain : List ConfigFile) : List ConfigFile :=
  chain.filter fun f => f.aliases?.isSome

/-- A configuration lists a text among its files. -/
def Config.ListsText
    (c : Config)
    (text : String) :
    Prop :=
  c.files.isFilled = true ∧ ∃ names, listed c.files = .ok names ∧ .str text ∈ names

/-- The targets of all aliases of a configuration. -/
def Config.targets (c : Config) : List Value :=
  c.aliases.flatMap Prod.snd

/-- A text that is read in a directory names the place of a file. -/
def NamesFile
    (t : Tree)
    (directory : Path)
    (text : String)
    (path : Path) :
    Prop :=
  placeOf t directory text = .ok path ∧ t.isFile path = true

/-- The settings of a configuration, taken from a chain of files, select and name the same as in the
directories of the files that set them. -/
structure KeepsAnchors
    (t : Tree)
    (chain : List ConfigFile)
    (c : Config) :
    Prop where
  included : ∀ path, SelectsIn c.includeGlobs c.directory path ↔
    SelectsIn c.includeGlobs (anchor "include" c.directory chain) path
  excluded : ∀ path, SelectsIn c.excludeGlobs c.directory path ↔
    SelectsIn c.excludeGlobs (anchor "exclude" c.directory chain) path
  files : ∀ text, c.ListsText text → ∀ path, NamesFile t c.directory text path ↔
    NamesFile t (anchor "files" c.directory chain) text path
  aliases : (∀ f ∈ chain, f.baseText? = none) → ∀ f ∈ (aliased chain).head?,
    ∀ target ∈ c.targets, ∀ rest text, Project.fillTarget rest target = .ok text →
      (c.baseUrl.getD c.directory).append text = f.directory.append text

variable {t : Tree} {chain : List ConfigFile} {directory directory' : Path}

theorem startsWith_slash_iff
    {text : String} :
    Text.startsWith text "/" = true ↔ text.toList.head? = some '/' := by
  unfold Text.startsWith
  cases text.toList with
  | nil => simp [Text.afterStart?]
  | cons c rest => simpa [Text.afterStart?] using eq_comm

/-- A text leads to the same path from different directories only if it is that of an absolute path. -/
theorem append_eq_append_iff
    {text : String} :
    directory.append text = directory'.append text ↔
      directory = directory' ∨ Text.startsWith text "/" = true := by
  obtain ⟨absolute, names⟩ := directory
  obtain ⟨absolute', names'⟩ := directory'
  unfold Path.append Path.join Path.ofText
  cases Text.startsWith text "/" <;> simp

theorem startsWith_of_fillTarget
    {rest text text' : String}
    (h : Project.fillTarget rest (.str text) = .ok text')
    (htext : Text.startsWith text "/" = true) :
    Text.startsWith text' "/" = true := by
  obtain rfl := Except.ok.inj h
  rw [startsWith_slash_iff] at htext ⊢
  rw [Text.replaceChar, String.toList_ofList]
  cases hcs : text.toList with
  | nil => simp [hcs] at htext
  | cons c cs =>
    obtain rfl : c = '/' := by simpa [hcs] using htext
    simp

theorem fillTarget_star (text : String) : Project.fillTarget "*" (.str text) = .ok text := by
  have hchars (c : Char) : (if c = '*' then "*".toList else [c]) = [c] := by
    split
    · next hc => rw [hc]; rfl
    · rfl
  have hreplaced : Text.replaceChar '*' "*" text = text := by
    simp only [Text.replaceChar, hchars, List.flatMap_singleton', String.ofList_toList]
  exact congrArg Except.ok hreplaced

/-- Targets lead to the same paths from different directories only if all are absolute. -/
theorem forall_fillTarget_append_iff
    {targets : List Value} :
    (∀ target ∈ targets, ∀ rest text, Project.fillTarget rest target = .ok text →
      directory.append text = directory'.append text) ↔
      directory = directory' ∨ ∀ text, .str text ∈ targets → Text.startsWith text "/" = true := by
  constructor
  · intro h
    by_cases hdirectory : directory = directory'
    · exact .inl hdirectory
    · refine .inr fun text htext => ?_
      exact (append_eq_append_iff.1 (h _ htext "*" text (fillTarget_star text))).resolve_left hdirectory
  · rintro (rfl | habsolute) target htarget rest text htext
    · rfl
    · cases target with
      | str s => exact append_eq_append_iff.2 (.inr (startsWith_of_fillTarget htext (habsolute s htarget)))
      | _ => cases htext

/-- If no file names a base directory, that of aliases is the directory of the last file with any. -/
theorem firstBase?_of_unnamed
    (h : ∀ f ∈ chain, f.baseText? = none) :
    firstBase? t chain = (aliased chain).getLast?.map ConfigFile.directory := by
  induction chain with
  | nil => rfl
  | cons f extended ih =>
    rw [List.forall_mem_cons] at h
    have hnamed : f.namedBase? t = none := by rw [ConfigFile.namedBase?, h.1]; rfl
    rw [firstBase?_cons, hnamed, ih h.2, Option.none_or]
    unfold aliased
    rw [List.filter_cons]
    cases f.aliases? with
    | none => exact Option.or_none
    | some entries =>
      rw [Option.isSome_some, if_pos rfl, List.getLast?_cons]
      cases (extended.filter fun f => f.aliases?.isSome).getLast? <;> rfl

/-- Settings keep their anchors exactly if these are the directory of the configuration itself, or there is
nothing that depends on the directory: globs that select nothing, or targets that are absolute. -/
theorem keepsAnchors_ofChain_iff
    {path : Path}
    {c : Config}
    (hc : c = .ofChain t path chain) :
    KeepsAnchors t chain c ↔
      (c.directory = anchor "include" c.directory chain ∨ SelectsNothing c.includeGlobs) ∧
      (c.directory = anchor "exclude" c.directory chain ∨ SelectsNothing c.excludeGlobs) ∧
      (∀ text, c.ListsText text → ∀ path, NamesFile t c.directory text path ↔
        NamesFile t (anchor "files" c.directory chain) text path) ∧
      ((∀ f ∈ chain, f.baseText? = none) →
        (∀ f ∈ (aliased chain).head?, ∀ g ∈ (aliased chain).getLast?, f.directory = g.directory) ∨
          ∀ text, .str text ∈ c.targets → Text.startsWith text "/" = true) := by
  have haliases : ((∀ f ∈ chain, f.baseText? = none) → ∀ f ∈ (aliased chain).head?,
      ∀ target ∈ c.targets, ∀ rest text, Project.fillTarget rest target = .ok text →
        (c.baseUrl.getD c.directory).append text = f.directory.append text) ↔
      ((∀ f ∈ chain, f.baseText? = none) →
        (∀ f ∈ (aliased chain).head?, ∀ g ∈ (aliased chain).getLast?, f.directory = g.directory) ∨
          ∀ text, .str text ∈ c.targets → Text.startsWith text "/" = true) := by
    refine forall_congr' fun hunnamed => ?_
    have hbase : c.baseUrl = (aliased chain).getLast?.map ConfigFile.directory := by
      rw [hc]
      exact firstBase?_of_unnamed hunnamed
    simp only [forall_fillTarget_append_iff, hbase]
    cases hlast : (aliased chain).getLast? with
    | none =>
      rw [List.getLast?_eq_none_iff] at hlast
      simp [hlast]
    | some g =>
      cases hhead : (aliased chain).head? with
      | none =>
        rw [List.head?_eq_none_iff] at hhead
        simp [hhead] at hlast
      | some f => simp [eq_comm (a := g.directory)]
  constructor
  · intro h
    exact ⟨forall_selectsIn_iff.1 h.included, forall_selectsIn_iff.1 h.excluded, h.files,
      haliases.1 h.aliases⟩
  · rintro ⟨hincluded, hexcluded, hfiles, hbase⟩
    exact ⟨forall_selectsIn_iff.2 hincluded, forall_selectsIn_iff.2 hexcluded, hfiles, haliases.2 hbase⟩

end Anchors

section Selections

namespace Loader

/-- The directory where the walk for globs starts that are read in a directory. -/
def startAt
    (l : Loader)
    (directory : Path) :
    Path :=
  if l.root.isBelow directory then l.root else directory

/-- What the walk for a configuration comes to goes by file names below its directory. -/
def WalksByNames
    (l : Loader)
    (c : Config) :
    Prop :=
  ∀ path ∈ l.tree.walk enters (l.start c), ∀ rest, path.relativeTo? c.directory = some rest →
    ∀ name ∈ rest.components, Path.IsFileName name

/-- A path that the globs of a configuration select if they are read in the given directories. -/
structure IncludesFrom
    (l : Loader)
    (c : Config)
    (included excluded : Path)
    (path : Path) :
    Prop where
  walked : path ∈ l.tree.walk enters (l.startAt included)
  candidate : l.isCandidate path = true
  suffix : c.suffixes.contains (l.tree.resolve path).suffix = true
  accepted : SelectsIn c.includeGlobs included path
  kept : ¬ SelectsIn c.excludeGlobs excluded path

/-- A file that the settings of a configuration select if each is read in the directory of the file in the
chain that sets it. -/
def SelectsByAnchors
    (l : Loader)
    (chain : List ConfigFile)
    (c : Config)
    (q : Path) :
    Prop :=
  (∃ text, c.ListsText text ∧ NamesFile l.tree (anchor "files" c.directory chain) text q) ∨
    ∃ path, l.IncludesFrom c (anchor "include" c.directory chain) (anchor "exclude" c.directory chain) path ∧
      q = l.tree.resolve path

variable {l : Loader} {c : Config} {chain : List ConfigFile} {paths : List Path} {path q : Path}

theorem mem_listedFiles_iff
    (h : l.listedFiles c = .ok paths) :
    q ∈ paths ↔ ∃ text, c.ListsText text ∧ NamesFile l.tree c.directory text q := by
  unfold listedFiles at h
  extract_lets withNames at h
  have hnames (names : List Value) (h : withNames names = .ok paths) :
      q ∈ paths ↔ ∃ text, .str text ∈ names ∧ NamesFile l.tree c.directory text q := by
    obtain ⟨found, hfound, h⟩ := exists_of_bind_eq_ok h
    obtain rfl := Except.ok.inj h
    rw [List.mem_filter]
    constructor
    · rintro ⟨hq, hfile⟩
      obtain ⟨name, hname, hplace⟩ := exists_of_mem_mapM hfound hq
      obtain ⟨text, htext, hplace⟩ := exists_of_bind_eq_ok hplace
      cases name with
      | str s =>
        obtain rfl := Except.ok.inj htext
        exact ⟨s, hname, hplace, hfile⟩
      | _ => cases htext
    · rintro ⟨text, hname, hplace, hfile⟩
      exact ⟨mem_of_mapM hfound hname hplace, hfile⟩
  clear_value withNames
  unfold Config.ListsText
  split at h
  · next hfilled =>
    obtain ⟨names, hlisted, h⟩ := exists_of_bind_eq_ok h
    rw [hnames names h]
    simp [hfilled, hlisted]
  · next hfilled =>
    rw [hnames [] h]
    simp [hfilled]

theorem isBelow_startAt (directory : Path) : (l.startAt directory).isBelow directory = true := by
  unfold startAt
  split
  · assumption
  · exact Path.isBelow_iff.2 ⟨rfl, List.prefix_refl _⟩

/-- What a walk comes to that starts below a directory lies below it by one name at least. -/
theorem exists_relativeTo?_of_mem_walk
    {directory : Path}
    (h : path ∈ l.tree.walk enters (l.startAt directory)) :
    ∃ rest : Path, path.relativeTo? directory = some rest ∧ rest.isAbsolute = false ∧
      rest.name = path.name := by
  obtain ⟨names, last, rfl, -⟩ := Tree.exists_of_mem_walk h
  obtain ⟨habsolute, more, hmore⟩ := Path.isBelow_iff.1 (isBelow_startAt (l := l) directory)
  refine ⟨⟨false, more ++ names ++ [last]⟩, Path.relativeTo?_eq_some_iff.2 ⟨habsolute, rfl, ?_⟩, rfl, ?_⟩
  · simp [← hmore]
  · simp [Path.name]

/-- All walks of a loader go by file names if the names in the tree are file names. -/
theorem walksByNames_of_make
    {t : Tree}
    {root : Path}
    {configPath : Option Path}
    {excluded : List Value}
    (ht : t.IsNamed)
    (hl : make t root configPath excluded = .ok l)
    (c : Config) :
    l.WalksByNames c := by
  obtain ⟨rfl, hroot⟩ := eq_of_make hl
  intro path hpath rest hrest name hname
  obtain ⟨⟨e, hfound⟩, names, rfl, hnames⟩ := exists_names_of_mem_walk hpath
  obtain ⟨-, -, hcomponents⟩ := Path.relativeTo?_eq_some_iff.1 hrest
  dsimp only at hcomponents
  unfold start at hfound hcomponents
  split at hfound
  · next hbelow =>
    rw [if_pos hbelow] at hcomponents
    obtain ⟨-, more, hmore⟩ := Path.isBelow_iff.1 hbelow
    have hreached : Tree.Reached l.tree l.root.components := by
      rw [hroot] at hfound ⊢
      exact Tree.reached_of_find?_resolve hfound
    obtain ⟨e, hentry⟩ := hreached.exists_entry
    rw [← hmore, List.append_assoc] at hcomponents
    rw [← List.append_cancel_left hcomponents] at hname
    rcases List.mem_append.1 hname with hname | hname
    · refine ht name ((entryNames_of_get? hentry).1 ?_)
      rw [← hmore]
      exact List.mem_append_right _ hname
    · exact ht name (hnames hname)
  · next hbelow =>
    rw [if_neg hbelow] at hcomponents
    rw [← List.append_cancel_left hcomponents] at hname
    exact ht name (hnames hname)

/-- What a walk by names comes to and is a candidate, is a source below the directory. -/
theorem WalksByNames.isSourceBelow
    (hnames : l.WalksByNames c)
    (hpath : path ∈ l.tree.walk enters (l.start c))
    (hcandidate : l.isCandidate path = true) :
    ∃ rest, path.relativeTo? c.directory = some rest ∧ IsSourceBelow rest := by
  obtain ⟨rest, hrest, hrelative, hname⟩ := exists_relativeTo?_of_mem_walk hpath
  simp only [isCandidate, Bool.and_eq_true, Bool.not_eq_true'] at hcandidate
  refine ⟨rest, hrest, hrelative, hnames path hpath rest hrest, ?_, ?_⟩
  · rw [Path.suffix, hname]
    exact hcandidate.1.1
  · rw [hname]
    exact hcandidate.1.2

theorem selectsIn_iff_of_relativeTo?
    {globs : Except Fault (List String)}
    {directory rest : Path}
    (hpath : path.relativeTo? directory = some rest)
    (hrest : IsSourceBelow rest) :
    SelectsIn globs directory path ↔ ∃ patterns, globs = .ok patterns ∧
      (Glob.Matcher.ofPatterns patterns).accepts rest.toText = true := by
  unfold SelectsIn Selects
  simp [hpath, hrest]

/-- What the globs of a configuration select is what they select in its own directory. -/
theorem includes_iff
    (hnames : l.WalksByNames c)
    (h : l.configFiles c = .ok paths) :
    l.Includes c path ↔ l.IncludesFrom c c.directory c.directory path := by
  constructor
  · intro hincludes
    obtain ⟨hwalked, hcandidate, hsuffix, included, excluded, rest, hincluded, hexcluded, hrest, haccepted,
      hkept⟩ := hincludes
    obtain ⟨rest', hrest', hsource⟩ := hnames.isSourceBelow hwalked hcandidate
    obtain rfl := Option.some.inj (hrest'.symm.trans hrest)
    refine ⟨hwalked, hcandidate, hsuffix, ?_, ?_⟩
    · exact (selectsIn_iff_of_relativeTo? hrest hsource).2 ⟨included, hincluded, haccepted⟩
    · rw [selectsIn_iff_of_relativeTo? hrest hsource]
      rintro ⟨patterns, hpatterns, hleft⟩
      obtain rfl := Except.ok.inj (hexcluded.symm.trans hpatterns)
      rw [hkept] at hleft
      cases hleft
  · rintro ⟨hwalked, hcandidate, hsuffix, haccepted, hkept⟩
    obtain ⟨rest, hrest, hsource⟩ := hnames.isSourceBelow hwalked hcandidate
    rw [selectsIn_iff_of_relativeTo? hrest hsource] at haccepted hkept
    obtain ⟨included, hincluded, haccepted⟩ := haccepted
    obtain ⟨excluded, hexcluded⟩ : ∃ excluded, c.excludeGlobs = .ok excluded := by
      obtain ⟨named, -, h⟩ := exists_of_bind_eq_ok h
      obtain ⟨included', hincluded', h⟩ := exists_of_bind_eq_ok h
      obtain rfl := Except.ok.inj (hincluded'.symm.trans hincluded)
      dsimp only at h
      split at h
      · next hempty =>
        rw [accepts_of_isEmpty hempty] at haccepted
        cases haccepted
      · obtain ⟨excluded, hexcluded, -⟩ := exists_of_bind_eq_ok h
        exact ⟨excluded, hexcluded⟩
    refine ⟨hwalked, hcandidate, hsuffix, included, excluded, rest, hincluded, hexcluded, hrest, haccepted, ?_⟩
    rw [← Bool.not_eq_true]
    exact fun hleft => hkept ⟨excluded, hexcluded, hleft⟩

theorem IncludesFrom.of_excluded
    {included excluded excluded' : Path}
    (h : l.IncludesFrom c included excluded path)
    (hexcluded : SelectsIn c.excludeGlobs excluded' path → SelectsIn c.excludeGlobs excluded path) :
    l.IncludesFrom c included excluded' path :=
  ⟨h.walked, h.candidate, h.suffix, h.accepted, fun hleft => h.kept (hexcluded hleft)⟩

/-- A configuration whose settings keep their anchors selects the files that it is meant to. -/
theorem mem_configFiles_iff_of_keepsAnchors
    (hanchors : KeepsAnchors l.tree chain c)
    (hnames : l.WalksByNames c)
    (h : l.configFiles c = .ok paths) :
    q ∈ paths ↔ l.SelectsByAnchors chain c q := by
  obtain ⟨named, hnamed, -⟩ := exists_of_bind_eq_ok h
  have hlists : l.Lists c q ↔
      ∃ text, c.ListsText text ∧ NamesFile l.tree (anchor "files" c.directory chain) text q := by
    have hiff : l.Lists c q ↔ q ∈ named := by simp [Lists, hnamed]
    rw [hiff, mem_listedFiles_iff hnamed]
    exact exists_congr fun text => and_congr_right fun htext => hanchors.files text htext q
  have hincludes (path : Path) : l.Includes c path ↔ l.IncludesFrom c
      (anchor "include" c.directory chain) (anchor "exclude" c.directory chain) path := by
    rw [includes_iff hnames h]
    rcases forall_selectsIn_iff.1 hanchors.included with hdirectory | hnothing
    · rw [← hdirectory]
      exact ⟨fun hpath => hpath.of_excluded (hanchors.excluded path).2,
        fun hpath => hpath.of_excluded (hanchors.excluded path).1⟩
    · exact iff_of_false (fun hpath => hnothing.not_selectsIn hpath.accepted)
        fun hpath => hnothing.not_selectsIn hpath.accepted
  rw [mem_configFiles h, hlists, SelectsByAnchors]
  exact or_congr_right (exists_congr fun path => and_congr_left' (hincludes path))

end Loader

/-- A configuration works as if each of its settings were read in the directory of the file in the chain
that sets it: it selects the same files, and imports are looked for at the same targets of aliases if no
file names a base directory. -/
structure WorksByAnchors
    (t : Tree)
    (chain : List ConfigFile)
    (c : Config) :
    Prop where
  files : ∀ root configPath excluded l, Loader.make t root configPath excluded = .ok l →
    ∀ paths, l.configFiles c = .ok paths → ∀ q, q ∈ paths ↔ l.SelectsByAnchors chain c q
  targets : (∀ f ∈ chain, f.baseText? = none) → ∀ f ∈ (aliased chain).head?, ∀ specifier, ∀ e ∈ c.aliases,
    Project.aliasCandidates (c.baseUrl.getD c.directory) specifier e =
      Project.aliasCandidates f.directory specifier e

variable {t : Tree} {p : Path} {chain : List ConfigFile} {c : Config}

theorem aliasCandidates_congr
    {base base' : Path}
    {e : String × List Value}
    (h : ∀ target ∈ e.2, ∀ rest text, Project.fillTarget rest target = .ok text →
      base.append text = base'.append text)
    (specifier : String) :
    Project.aliasCandidates base specifier e = Project.aliasCandidates base' specifier e := by
  have hfilled (rest : String) : ∀ target ∈ e.2,
      (Project.fillTarget rest target).map base.append = (Project.fillTarget rest target).map base'.append := by
    intro target htarget
    cases htext : Project.fillTarget rest target with
    | error fault => rfl
    | ok text => exact congrArg Except.ok (h target htarget rest text htext)
  have hwritten : ∀ target ∈ e.2,
      (textOr .unexpectedType target).map base.append = (textOr .unexpectedType target).map base'.append := by
    intro target htarget
    cases target with
    | str text => exact congrArg Except.ok (h _ htarget "*" text (fillTarget_star text))
    | _ => rfl
  obtain ⟨name, targets⟩ := e
  unfold Project.aliasCandidates
  dsimp only
  split
  · split
    · exact mapM_congr_of_forall_mem (hfilled _)
    · rfl
  · split
    · exact mapM_congr_of_forall_mem hwritten
    · rfl

theorem KeepsAnchors.worksByAnchors
    (h : KeepsAnchors t chain c)
    (ht : t.IsNamed) :
    WorksByAnchors t chain c := by
  constructor
  · intro root configPath excluded l hl paths hpaths q
    have hnames := Loader.walksByNames_of_make ht hl c
    obtain ⟨rfl, -⟩ := Loader.eq_of_make hl
    exact Loader.mem_configFiles_iff_of_keepsAnchors h hnames hpaths
  · intro hunnamed f hf specifier e he
    refine aliasCandidates_congr (fun target htarget => ?_) specifier
    exact h.aliases hunnamed f hf target (List.mem_flatMap.2 ⟨e, he, htarget⟩)

/-- The settings of a configuration keep their anchors, and it works by these, if the directories are the
same that settings come from and are read in: that of the configuration for its globs, and that of the last
file with aliases for the aliases of the first one. If they are not, only globs that select nothing keep
their anchors, and targets that are absolute. -/
theorem keepsAnchors_iff_of_load
    (h : Chain t [] p chain)
    (htyped : ∀ f ∈ chain, f.IsWellTyped)
    (hload : Config.load t p = .ok c) :
    let read := chain.takeWhile ConfigFile.namesPlaces
    (KeepsAnchors t read c ↔
      (c.directory = anchor "include" c.directory read ∨ SelectsNothing c.includeGlobs) ∧
      (c.directory = anchor "exclude" c.directory read ∨ SelectsNothing c.excludeGlobs) ∧
      (∀ text, c.ListsText text → ∀ path, NamesFile t c.directory text path ↔
        NamesFile t (anchor "files" c.directory read) text path) ∧
      ((∀ f ∈ read, f.baseText? = none) →
        (∀ f ∈ (aliased read).head?, ∀ g ∈ (aliased read).getLast?, f.directory = g.directory) ∨
          ∀ text, .str text ∈ c.targets → Text.startsWith text "/" = true)) ∧
    (KeepsAnchors t read c → t.IsNamed → WorksByAnchors t read c) := by
  have hchain : c = .ofChain t (t.resolve p) (chain.takeWhile ConfigFile.namesPlaces) := by
    rw [load_of_chain h htyped] at hload
    cases hread : chain.takeWhile ConfigFile.namesPlaces with
    | nil => simp [hread, Config.ofRead] at hload
    | cons f extended =>
      rw [hread] at hload
      exact (Except.ok.inj hload).symm
  exact ⟨keepsAnchors_ofChain_iff hchain, KeepsAnchors.worksByAnchors⟩

/-- Settings that extend others in the same directory. -/
def nearTree : Tree :=
  ⟨.directory [
    ("base.json", .file (.text ("\x7b\"include\":[\"src\"]," ++
      "\"compilerOptions\":\x7b\"paths\":\x7b\"@/*\":[\"src/*\"]\x7d\x7d\x7d"))),
    ("src", .directory [("a.ts", .file (.text ""))]),
    ("tsconfig.json", .file (.text "\x7b\"extends\":\"./base\"\x7d"))]⟩

/-- The two files. -/
def nearFiles : List ConfigFile :=
  [⟨⟨true, ["tsconfig.json"]⟩, [("extends", .str "./base")]⟩,
    ⟨⟨true, ["base.json"]⟩, [("include", .list [.str "src"]),
      ("compilerOptions", .map [("paths", .map [("@/*", .list [.str "src/*"])])])]⟩]

/-- What is loaded from them. -/
def nearConfig : Config :=
  ⟨⟨true, ["tsconfig.json"]⟩, .list [.str "src"], .null, .null, false, some .root, [("@/*", [.str "src/*"])]⟩

theorem chain_nearFiles : Chain nearTree [] ⟨true, ["tsconfig.json"]⟩ nearFiles := by
  refine @Chain.next _ _ _ ⟨true, ["base.json"]⟩ _ _ ⟨by decide, by cbv⟩ (by decide) (by decide) (by decide) ?_
  refine .last ⟨by decide, by cbv⟩ fun target htarget => ?_
  cases htarget

theorem isWellTyped_nearFiles : ∀ f ∈ nearFiles, f.IsWellTyped := by
  simp only [nearFiles, List.forall_mem_cons, List.not_mem_nil, false_implies, implies_true, and_true]
  refine ⟨⟨?_, ?_⟩, ⟨?_, ?_⟩⟩
  · rintro v ⟨⟩
  · rintro v ⟨⟩
  · rintro v ⟨⟩ -
    exact ⟨_, rfl⟩
  · rintro v ⟨⟩

theorem load_nearTree : Config.load nearTree ⟨true, ["tsconfig.json"]⟩ = .ok nearConfig := by
  rw [load_of_chain chain_nearFiles isWellTyped_nearFiles]
  rfl

/-- All is well if the two files stand in one directory. -/
theorem worksByAnchors_nearConfig :
    (Chain nearTree [] ⟨true, ["tsconfig.json"]⟩ nearFiles ∧ (∀ f ∈ nearFiles, f.IsWellTyped) ∧
      Config.load nearTree ⟨true, ["tsconfig.json"]⟩ = .ok nearConfig ∧ nearTree.IsNamed) ∧
      KeepsAnchors nearTree nearFiles nearConfig ∧ WorksByAnchors nearTree nearFiles nearConfig := by
  have hnamed : nearTree.IsNamed := by
    unfold Tree.IsNamed
    decide
  have hread : nearFiles.takeWhile ConfigFile.namesPlaces = nearFiles := by rfl
  have hanchors := keepsAnchors_iff_of_load chain_nearFiles isWellTyped_nearFiles load_nearTree
  rw [hread] at hanchors
  have hkeeps : KeepsAnchors nearTree nearFiles nearConfig := by
    refine hanchors.1.2 ⟨.inl rfl, .inl rfl, ?_, fun _ => .inl ?_⟩
    · rintro text ⟨⟨⟩, -⟩
    · rintro f ⟨⟩ g ⟨⟩
      rfl
  exact ⟨⟨chain_nearFiles, isWellTyped_nearFiles, load_nearTree, hnamed⟩, hkeeps, hanchors.2 hkeeps hnamed⟩

/-- Settings that extend others in a directory below. -/
def farTree : Tree :=
  ⟨.directory [
    ("config", .directory [("base.json", .file (.text "\x7b\"include\":[\"src\"]\x7d"))]),
    ("src", .directory [("a.ts", .file (.text ""))]),
    ("tsconfig.json", .file (.text "\x7b\"extends\":\"./config/base.json\"\x7d"))]⟩

/-- The two files. -/
def farFiles : List ConfigFile :=
  [⟨⟨true, ["tsconfig.json"]⟩, [("extends", .str "./config/base.json")]⟩,
    ⟨⟨true, ["config", "base.json"]⟩, [("include", .list [.str "src"])]⟩]

/-- What is loaded from them. -/
def farConfig : Config :=
  ⟨⟨true, ["tsconfig.json"]⟩, .list [.str "src"], .null, .null, false, none, []⟩

/-- The project. -/
def farLoader : Loader :=
  ⟨farTree, .root, none, .ofPatterns []⟩

theorem chain_farFiles : Chain farTree [] ⟨true, ["tsconfig.json"]⟩ farFiles := by
  refine @Chain.next _ _ _ ⟨true, ["config", "base.json"]⟩ _ _ ⟨by decide, by cbv⟩ (by decide) (by decide)
    (by decide) ?_
  refine .last ⟨by decide, by cbv⟩ fun target htarget => ?_
  cases htarget

theorem isWellTyped_farFiles : ∀ f ∈ farFiles, f.IsWellTyped := by
  simp only [farFiles, List.forall_mem_cons, List.not_mem_nil, false_implies, implies_true, and_true]
  refine ⟨⟨?_, ?_⟩, ⟨?_, ?_⟩⟩ <;> rintro v ⟨⟩

theorem load_farTree : Config.load farTree ⟨true, ["tsconfig.json"]⟩ = .ok farConfig := by
  rw [load_of_chain chain_farFiles isWellTyped_farFiles]
  rfl

theorem walk_farTree :
    farTree.walk Loader.enters .root =
      [⟨true, ["tsconfig.json"]⟩, ⟨true, ["config", "base.json"]⟩, ⟨true, ["src", "a.ts"]⟩] := by
  show Tree.walkEntries _ _ 3 _ _ = _
  rw [Tree.walkEntries, Tree.sortEntries_of_pairwise (by decide)]
  decide +kernel

theorem make_farLoader : Loader.make farTree .root none [] = .ok farLoader := by
  rfl

theorem configFiles_farConfig : farLoader.configFiles farConfig = .ok [⟨true, ["src", "a.ts"]⟩] := by
  have hwalk : farLoader.tree.walk (fun d => !Loader.ignoredDirectories.contains d)
      (if farLoader.root.isBelow farConfig.directory then farLoader.root else farConfig.directory) = _ :=
    walk_farTree
  show (Except.ok _ : Except Fault (List Path)) = _
  rw [Loader.walk, hwalk]
  decide +kernel

/-- Globs that come from a directory below select what they would not select there. -/
theorem not_worksByAnchors_farTree :
    ¬ ∀ (t : Tree) (p : Path) (chain : List ConfigFile) (c : Config), Chain t [] p chain →
      (∀ f ∈ chain, f.IsWellTyped) → Config.load t p = .ok c → t.IsNamed → WorksByAnchors t chain c := by
  intro h
  have hworks := h _ _ _ _ chain_farFiles isWellTyped_farFiles load_farTree (by unfold Tree.IsNamed; decide)
  have hselected := (hworks.files _ _ _ _ make_farLoader _ configFiles_farConfig
    ⟨true, ["src", "a.ts"]⟩).1 (List.mem_singleton_self _)
  rcases hselected with ⟨text, ⟨⟨⟩, -⟩, -⟩ | ⟨path, hpath, hq⟩
  have hbelow : farLoader.tree.walk Loader.enters
      (farLoader.startAt (anchor "include" farConfig.directory farFiles)) =
        [⟨true, ["config", "base.json"]⟩] := by
    decide +kernel
  have hwalked := hpath.walked
  rw [hbelow, List.mem_singleton] at hwalked
  rw [hwalked] at hq
  revert hq
  decide

end Selections

end Project

end RouteAtlas
