import Mathlib
import RouteAtlas.Proofs.PlainPaths

/-!
# Extended configurations

A configuration that extends another one takes from it what it does not set itself. So a configuration is
loaded with a chain of files: each extends the next one, and the last one extends none, or one that cannot
be read or has been passed. Each setting is that of the first file in the chain which has it.

No file is passed twice, so a chain is no longer than there are files, and loading does not run out of the
bound that it is given. But a file is not read to the end if a path in it holds a null character: what
extends it goes without it, and without all that it extends.
-/

namespace RouteAtlas

open Files

namespace Project

/-- A settings file: the place where it is found, and what it sets. -/
structure ConfigFile where
  path : Path
  data : List (String × Value)

namespace ConfigFile

section Settings

/-- The directory of the file, in which the paths in it are read. -/
def directory (f : ConfigFile) : Path :=
  f.path.parent

/-- The compiler options that the file sets. -/
def options (f : ConfigFile) : List (String × Value) :=
  ((entryOf? "compilerOptions" f.data).bind Value.entries?).getD []

/-- What the file is said to extend by a relative path. -/
def extends? (f : ConfigFile) : Option String :=
  match entryOf? "extends" f.data with
  | some (.str text) => if Text.startsWith text "." then some text else none
  | _ => none

/-- The file that it extends by a relative path. -/
def target? (f : ConfigFile) : Option Path :=
  f.extends?.bind fun text => (Config.extendedPath f.directory text).toOption

/-- The text of the base directory that the file names. -/
def baseText? (f : ConfigFile) : Option String :=
  (entryOf? "baseUrl" f.options).bind Value.str?

/-- The base directory that the file names. -/
def namedBase?
    (t : Tree)
    (f : ConfigFile) :
    Option Path :=
  f.baseText?.map fun text => t.resolve (f.directory.append text)

/-- The aliases that the file sets. -/
def aliases? (f : ConfigFile) : Option (List (String × List Value)) :=
  Config.aliasesOf? f.options

/-- The settings of the file are of the types that are needed to take them up. -/
structure IsWellTyped (f : ConfigFile) : Prop where
  options : ∀ v, entryOf? "compilerOptions" f.data = some v → v.isFilled = true →
    ∃ entries, v = .map entries
  baseUrl : ∀ v, entryOf? "baseUrl" f.options = some v → ∃ text, v = .str text

/-- Whether there may be something at the path of the file that is extended: the path is not that of the
root of all paths, and holds no null character. -/
def namesTarget (f : ConfigFile) : Bool :=
  f.extends?.all fun text => (Config.extendedPath f.directory text).toOption.isSome

/-- Whether there may be something at the path of the base directory: it holds no null character. -/
def namesBase (f : ConfigFile) : Bool :=
  f.baseText?.all fun text => !text.toList.contains '\x00'

/-- Whether there may be something at the paths in the file that are followed to load it. -/
def namesPlaces (f : ConfigFile) : Bool :=
  f.namesTarget && f.namesBase

end Settings

section Reading

variable {t : Tree} {f : ConfigFile}

theorem eq_of_extendedPath_eq_error
    {directory : Path}
    {text : String}
    {e : Fault}
    (h : Config.extendedPath directory text = .error e) :
    e = .invalidValue := by
  unfold Config.extendedPath at h
  dsimp only at h
  split at h
  · exact (Except.error.inj h).symm
  · cases h

theorem extended?_eq (f : ConfigFile) :
    Config.extended? f.path f.data = if f.namesTarget then .ok f.target? else .error .invalidValue := by
  unfold Config.extended? namesTarget target? extends?
  cases entryOf? "extends" f.data with
  | none => rfl
  | some v =>
    cases v with
    | str text =>
      by_cases hrelative : Text.startsWith text "." = true
      · simp only [hrelative, if_true, Option.all_some, Option.bind_some]
        cases hpath : Config.extendedPath f.directory text with
        | ok target =>
          rw [directory] at hpath
          rw [hpath]
          rfl
        | error e =>
          obtain rfl := eq_of_extendedPath_eq_error hpath
          rw [directory] at hpath
          rw [hpath]
          rfl
      · simp [hrelative]
    | _ => rfl

theorem optionsOf_eq
    (h : f.IsWellTyped) :
    Config.optionsOf f.data = .ok f.options := by
  have htyped := h.options
  unfold Config.optionsOf options
  cases hoptions : entryOf? "compilerOptions" f.data with
  | none => rfl
  | some v =>
    by_cases hfilled : v.isFilled = true
    · obtain ⟨entries, rfl⟩ := htyped v hoptions hfilled
      rfl
    · cases v <;> simp_all [Value.entries?]

theorem namedBase?_eq
    (h : f.IsWellTyped) :
    Config.namedBase? t f.path f.options =
      if f.namesBase then .ok (f.namedBase? t) else .error .invalidValue := by
  have htyped := h.baseUrl
  unfold Config.namedBase? namesBase namedBase? baseText?
  cases hbase : entryOf? "baseUrl" f.options with
  | none => rfl
  | some v =>
    obtain ⟨text, rfl⟩ := htyped v hbase
    by_cases hnull : '\x00' ∈ text.toList
    · simp [textOr, placeOf, bind, Except.bind, Value.str?, hnull]
    · simp [textOr, placeOf, bind, Except.bind, pure, Except.pure, Value.str?, directory, hnull]

end Reading

end ConfigFile

section Chains

/-- A chain stops at a file that extends none by a relative path, or one that the chain has passed, that
does not exist or that cannot be read. -/
def Stops
    (t : Tree)
    (passed : List Path)
    (f : ConfigFile) :
    Prop :=
  ∀ target, f.target? = some target →
    t.resolve target ∈ passed ∨ t.exists_ target = false ∨
      ∃ e, readSettings t (t.resolve target) = .error e

/-- The settings file that a path leads to. -/
structure ConfigFile.IsReadAt
    (t : Tree)
    (p : Path)
    (f : ConfigFile) :
    Prop where
  path : f.path = t.resolve p
  read : readSettings t f.path = .ok f.data

/-- The files that a configuration is loaded from, each being extended by the one before, when some places
have been passed. -/
inductive Chain (t : Tree) : List Path → Path → List ConfigFile → Prop
  | last
      {passed : List Path}
      {p : Path}
      {f : ConfigFile}
      (hf : f.IsReadAt t p)
      (hstop : Stops t (f.path :: passed) f) :
      Chain t passed p [f]
  | next
      {passed : List Path}
      {p target : Path}
      {f : ConfigFile}
      {rest : List ConfigFile}
      (hf : f.IsReadAt t p)
      (htarget : f.target? = some target)
      (hnew : t.resolve target ∉ f.path :: passed)
      (hexists : t.exists_ target = true)
      (hrest : Chain t (f.path :: passed) target rest) :
      Chain t passed p (f :: rest)

variable {t : Tree} {passed : List Path} {p : Path} {chain : List ConfigFile}

theorem ConfigFile.IsReadAt.unique
    {f f' : ConfigFile}
    (h : f.IsReadAt t p)
    (h' : f'.IsReadAt t p) :
    f = f' := by
  obtain ⟨path, data⟩ := f
  obtain ⟨path', data'⟩ := f'
  obtain rfl : path = path' := h.path.trans h'.path.symm
  obtain rfl : data = data' := Except.ok.inj (h.read.symm.trans h'.read)
  rfl

/-- A chain starts with the file that its path leads to. -/
theorem Chain.exists_head
    (h : Chain t passed p chain) :
    ∃ f rest, f.IsReadAt t p ∧ chain = f :: rest := by
  cases h with
  | last hf => exact ⟨_, _, hf, rfl⟩
  | next hf => exact ⟨_, _, hf, rfl⟩

theorem Chain.not_stops
    {f : ConfigFile}
    {target : Path}
    {rest : List ConfigFile}
    (h : Chain t passed target rest)
    (htarget : f.target? = some target)
    (hnew : t.resolve target ∉ passed)
    (hexists : t.exists_ target = true) :
    ¬ Stops t passed f := by
  intro hstop
  obtain ⟨g, _, hg, -⟩ := h.exists_head
  have hread := hg.read
  rw [hg.path] at hread
  rcases hstop target htarget with hpassed | hmissing | ⟨e, herror⟩
  · exact hnew hpassed
  · simp [hexists] at hmissing
  · simp [hread] at herror

/-- There is one chain at most. -/
theorem Chain.unique
    {chain' : List ConfigFile}
    (h : Chain t passed p chain)
    (h' : Chain t passed p chain') :
    chain = chain' := by
  induction h generalizing chain' with
  | last hf hstop =>
    cases h' with
    | last hf' => rw [hf.unique hf']
    | next hf' htarget hnew hexists hrest =>
      obtain rfl := hf.unique hf'
      exact absurd hstop (hrest.not_stops htarget hnew hexists)
  | next hf htarget hnew hexists hrest ih =>
    cases h' with
    | last hf' hstop =>
      obtain rfl := hf.unique hf'
      exact absurd hstop (hrest.not_stops htarget hnew hexists)
    | next hf' htarget' _ _ hrest' =>
      obtain rfl := hf.unique hf'
      obtain rfl := Option.some.inj (htarget.symm.trans htarget')
      rw [ih hrest']

end Chains

section Counting

mutual

/-- The places of the files in a tree, links included. -/
def filePlaces : Entry → List (List String)
  | .directory entries => filePlacesIn entries
  | _ => [[]]

/-- The places of the files in the entries of a directory. -/
def filePlacesIn : List (String × Entry) → List (List String)
  | [] => []
  | (name, e) :: rest => (filePlaces e).map (name :: ·) ++ filePlacesIn rest

end

mutual

theorem length_filePlaces : ∀ e : Entry, (filePlaces e).length = Config.fileCount e
  | .directory entries => by rw [filePlaces, Config.fileCount, length_filePlacesIn entries]
  | .file _ => rfl
  | .link _ => rfl

theorem length_filePlacesIn :
    ∀ entries : List (String × Entry), (filePlacesIn entries).length = Config.fileCounts entries
  | [] => rfl
  | (name, e) :: rest => by
    rw [filePlacesIn, Config.fileCounts, List.length_append, List.length_map, length_filePlaces e,
      length_filePlacesIn rest]

end

theorem mem_filePlacesIn_of_lookup?
    {name : String}
    {entries : List (String × Entry)}
    {inner : Entry}
    {names : List String}
    (h : Entry.lookup? name entries = some inner)
    (hnames : names ∈ filePlaces inner) :
    name :: names ∈ filePlacesIn entries := by
  induction entries with
  | nil => cases h
  | cons first rest ih =>
    rw [Entry.lookup?] at h
    rw [filePlacesIn, List.mem_append]
    split at h
    · next hname =>
      cases h
      subst hname
      exact .inl (List.mem_map_of_mem hnames)
    · exact .inr (ih h)

theorem mem_filePlaces_of_get?
    {e : Entry}
    {names : List String}
    {content : Content}
    (h : e.get? names = some (.file content)) :
    names ∈ filePlaces e := by
  induction names generalizing e with
  | nil =>
    rw [Entry.get?] at h
    cases h
    exact List.mem_singleton_self _
  | cons name rest ih =>
    cases e with
    | file content => cases h
    | link other => cases h
    | directory entries =>
      rw [Entry.get?] at h
      cases hinner : Entry.lookup? name entries with
      | none => rw [hinner] at h; cases h
      | some inner =>
        rw [hinner] at h
        exact mem_filePlacesIn_of_lookup? hinner (ih h)

/-- The places of different settings files. -/
structure Passed
    (t : Tree)
    (passed : List Path) :
    Prop where
  nodup : passed.Nodup
  read : ∀ q ∈ passed, ∃ p, ∃ f : ConfigFile, f.IsReadAt t p ∧ f.path = q

variable {t : Tree} {passed : List Path} {p : Path} {f : ConfigFile} {chain : List ConfigFile}

theorem exists_file_of_readSettings
    {data : List (String × Value)}
    (h : readSettings t p = .ok data) :
    ∃ content, t.find? p = some (.file content) := by
  unfold readSettings at h
  split at h
  · cases h
  · next content hfile => exact ⟨content, hfile⟩
  · cases h

/-- A settings file is read at the place of a file. -/
theorem ConfigFile.IsReadAt.mem_filePlaces
    (h : f.IsReadAt t p) :
    f.path.components ∈ filePlaces t.root := by
  obtain ⟨content, hfile⟩ := exists_file_of_readSettings h.read
  rw [h.path] at hfile ⊢
  rw [Tree.find?_of_reached (Tree.reached_of_find?_resolve hfile)] at hfile
  exact mem_filePlaces_of_get? hfile

/-- No more settings files are passed than there are files. -/
theorem Passed.length_le
    (h : Passed t passed) :
    passed.length ≤ Config.fileCount t.root := by
  have hinjective : Set.InjOn Path.components {q | q ∈ passed} := by
    intro q hq q' hq' hcomponents
    obtain ⟨p, f, hf, rfl⟩ := h.read q hq
    obtain ⟨p', f', hf', rfl⟩ := h.read q' hq'
    rw [hf.path, hf'.path] at hcomponents ⊢
    exact congrArg (Files.Path.mk true) hcomponents
  have hnodup : (passed.map Path.components).Nodup := h.nodup.map_on hinjective
  have hsubset : passed.map Path.components ⊆ filePlaces t.root := by
    intro names hnames
    obtain ⟨q, hq, rfl⟩ := List.mem_map.1 hnames
    obtain ⟨p, f, hf, rfl⟩ := h.read q hq
    exact hf.mem_filePlaces
  calc passed.length
      = (passed.map Path.components).length := (List.length_map _).symm
    _ ≤ (filePlaces t.root).length := (List.subperm_of_subset hnodup hsubset).length_le
    _ = Config.fileCount t.root := length_filePlaces _

theorem passed_nil : Passed t [] :=
  ⟨List.nodup_nil, by simp⟩

theorem Passed.cons
    (h : Passed t passed)
    (hf : f.IsReadAt t p)
    (hnew : f.path ∉ passed) :
    Passed t (f.path :: passed) := by
  refine ⟨List.nodup_cons.2 ⟨hnew, h.nodup⟩, fun q hq => ?_⟩
  rcases List.mem_cons.1 hq with rfl | hq
  · exact ⟨p, f, hf, rfl⟩
  · exact h.read q hq

/-- A chain and what was passed before it are no more than there are files. -/
theorem Chain.length_add_le
    (h : Chain t passed p chain)
    (hpassed : Passed t passed)
    (hnew : t.resolve p ∉ passed) :
    chain.length + passed.length ≤ Config.fileCount t.root := by
  induction h with
  | last hf =>
    rw [← hf.path] at hnew
    have hlength := (hpassed.cons hf hnew).length_le
    rw [List.length_cons] at hlength
    simpa [Nat.add_comm] using hlength
  | next hf _ hnext _ _ ih =>
    rw [← hf.path] at hnew
    have hlength := ih (hpassed.cons hf hnew) hnext
    rw [List.length_cons] at hlength ⊢
    omega

theorem Chain.length_le
    (h : Chain t [] p chain) :
    chain.length ≤ Config.fileCount t.root := by
  simpa using h.length_add_le passed_nil (by simp)

/-- Every settings file starts a chain. The induction is on the number of files that are left. -/
theorem exists_chain
    (hf : f.IsReadAt t p)
    (hpassed : Passed t passed)
    (hnew : f.path ∉ passed) :
    ∃ chain, Chain t passed p chain := by
  generalize hleft : Config.fileCount t.root - passed.length = left
  induction left generalizing passed p f with
  | zero =>
    have hlength := (hpassed.cons hf hnew).length_le
    rw [List.length_cons] at hlength
    omega
  | succ left ih =>
    by_cases hstop : Stops t (f.path :: passed) f
    · exact ⟨_, .last hf hstop⟩
    · simp only [Stops, not_forall, not_or, Bool.not_eq_false, not_exists] at hstop
      obtain ⟨target, htarget, hnext, hexists, hreadable⟩ := hstop
      cases hdata : readSettings t (t.resolve target) with
      | error e => exact absurd hdata (hreadable e)
      | ok data =>
        have htargetRead : ConfigFile.IsReadAt t target ⟨t.resolve target, data⟩ := ⟨rfl, hdata⟩
        obtain ⟨rest, hrest⟩ := ih htargetRead (hpassed.cons hf hnew) hnext (by
          rw [List.length_cons]
          omega)
        exact ⟨_, .next hf htarget hnext hexists hrest⟩

end Counting

section Inheritance

/-- The value of a key in the first file of a chain that has it. -/
def firstValue
    (key : String)
    (chain : List ConfigFile) :
    Value :=
  (chain.findSome? fun f => entryOf? key f.data).getD .null

/-- The base directory that a file sets: the one that it names. A file with aliases sets its own
directory if it names none and there is none to be taken from the files that it extends, which is if
none of these names one or has aliases. -/
def setBase?
    (t : Tree)
    (f : ConfigFile)
    (extended : List ConfigFile) :
    Option Path :=
  match f.namedBase? t with
  | some base => some base
  | none =>
    if f.aliases?.isSome && extended.all fun g => (g.namedBase? t).isNone && g.aliases?.isNone then
      some f.directory
    else none

/-- The base directory that the first file of a chain sets which sets one. -/
def firstBase?
    (t : Tree) :
    List ConfigFile → Option Path
  | [] => none
  | f :: extended => (setBase? t f extended).or (firstBase? t extended)

/-- The configuration in which each setting is that of the first file of a chain which has it. -/
def Config.ofChain
    (t : Tree)
    (path : Path)
    (chain : List ConfigFile) :
    Config where
  path := path
  include_ := firstValue "include" chain
  exclude := firstValue "exclude" chain
  files := firstValue "files" chain
  allowScripts := (chain.findSome? fun f => entryOf? "allowJs" f.options).any Value.isFilled
  baseUrl := firstBase? t chain
  aliases := (chain.findSome? ConfigFile.aliases?).getD []

variable {t : Tree} {p : Path} {f : ConfigFile} {chain : List ConfigFile}

theorem firstValue_cons
    (key : String)
    (f : ConfigFile)
    (chain : List ConfigFile) :
    firstValue key (f :: chain) = (entryOf? key f.data).getD (firstValue key chain) := by
  rw [firstValue, List.findSome?_cons]
  cases entryOf? key f.data <;> rfl

theorem firstBase?_eq_none_iff :
    firstBase? t chain = none ↔
      (chain.all fun g => (g.namedBase? t).isNone && g.aliases?.isNone) = true := by
  induction chain with
  | nil => simp [firstBase?]
  | cons f extended ih =>
    rw [firstBase?, Option.or_eq_none_iff, ih, List.all_cons, Bool.and_eq_true]
    refine and_congr_left fun hextended => ?_
    rw [setBase?, hextended]
    cases f.namedBase? t <;> cases f.aliases? <;> simp

/-- The base directory that a file comes by: the one that it names, or the one that it takes from the
files that it extends, or its own directory if it has aliases. -/
theorem firstBase?_cons
    (f : ConfigFile)
    (extended : List ConfigFile) :
    firstBase? t (f :: extended) = (f.namedBase? t).or
      ((firstBase? t extended).or (f.aliases?.map fun _ => f.directory)) := by
  rw [firstBase?, setBase?]
  cases hnamed : f.namedBase? t with
  | some base => rfl
  | none =>
    cases hbase : firstBase? t extended with
    | none =>
      rw [firstBase?_eq_none_iff] at hbase
      cases f.aliases? <;> simp [hbase]
    | some base =>
      have hextended : (extended.all fun g => (g.namedBase? t).isNone && g.aliases?.isNone) = false := by
        rw [Bool.eq_false_iff, ne_eq, ← firstBase?_eq_none_iff, hbase]
        simp
      simp [hextended]

/-- A configuration in which nothing is set is as good as none. -/
theorem ofSettings_empty
    (path path' : Path)
    (data : List (String × Value)) :
    Config.ofSettings t path data (some (.empty path')) = Config.ofSettings t path data none :=
  rfl

/-- What a file sets is put before what the files set that it extends. -/
theorem ofSettings_eq
    (hf : f.IsWellTyped)
    (path : Path)
    (extended : List ConfigFile) :
    Config.ofSettings t f.path f.data (some (.ofChain t path extended)) =
      if f.namesBase then .ok (.ofChain t f.path (f :: extended)) else .error .invalidValue := by
  have hbase : firstBase? t (f :: extended) = (if f.aliases?.isSome then
        some (((f.namedBase? t).or (firstBase? t extended)).getD f.path.parent)
      else (f.namedBase? t).or (firstBase? t extended)) := by
    rw [firstBase?_cons]
    cases f.namedBase? t <;> cases firstBase? t extended <;> cases f.aliases? <;> rfl
  have haliases : ((f :: extended).findSome? ConfigFile.aliases?).getD [] =
      f.aliases?.getD ((extended.findSome? ConfigFile.aliases?).getD []) := by
    rw [List.findSome?_cons]
    cases f.aliases? <;> rfl
  have hnamed := ConfigFile.namedBase?_eq (t := t) hf
  by_cases hnames : f.namesBase = true
  · rw [if_pos hnames] at hnamed ⊢
    simp only [Config.ofSettings, ConfigFile.optionsOf_eq hf, hnamed, bind, Except.bind, Config.ofChain,
      firstValue_cons, hbase, haliases]
    -- the scripts are admitted as this file says, or else as the extended ones do
    rw [List.findSome?_cons]
    cases entryOf? "allowJs" f.options <;> rfl
  · rw [if_neg hnames] at hnamed ⊢
    simp only [Config.ofSettings, ConfigFile.optionsOf_eq hf, hnamed, bind, Except.bind]

end Inheritance

section Loading

/-- What is loaded from the files of a chain that are read to the end. -/
def Config.ofRead
    (t : Tree)
    (path : Path) :
    List ConfigFile → Except Fault Config
  | [] => .error .invalidValue
  | f :: extended => .ok (.ofChain t path (f :: extended))

variable {t : Tree} {passed : List Path} {p : Path} {f : ConfigFile} {chain : List ConfigFile} {n : Nat}

theorem isReadingFault_of_readSettings
    {e : Fault}
    (h : readSettings t p = .error e) :
    Config.isReadingFault e = true := by
  unfold readSettings at h
  split at h
  · cases h; rfl
  · split at h
    · cases h; rfl
    · split at h
      · cases h
      all_goals cases h; rfl
  · cases h; rfl

/-- Nothing is taken over from a file that cannot be read, whether or not the bound is used up. -/
theorem takenOver_loadFrom_of_unreadable
    {e : Fault}
    (h : readSettings t (t.resolve p) = .error e) :
    Config.takenOver (Config.loadFrom t n passed p) = .ok none := by
  cases n with
  | zero => rfl
  | succ n =>
    rw [Config.loadFrom]
    simp only [h, bind, Except.bind]
    rw [Config.takenOver, if_pos (isReadingFault_of_readSettings h)]

/-- What a file sets is put before what is taken over from the files that it extends. -/
theorem takenOver_bind_ofSettings
    (hf : f.IsWellTyped)
    (path : Path)
    (extended : List ConfigFile) :
    (Config.takenOver (Config.ofRead t path extended) >>= Config.ofSettings t f.path f.data) =
      if f.namesBase then .ok (.ofChain t f.path (f :: extended)) else .error .invalidValue := by
  rw [← ofSettings_eq hf path extended]
  cases extended with
  | nil => exact (ofSettings_empty f.path path f.data).symm
  | cons g rest => rfl

/-- One step of loading, when it is known what is taken over from the files that are extended. -/
theorem loadFrom_succ
    {extended : List ConfigFile}
    (path : Path)
    (hf : f.IsReadAt t p)
    (htyped : f.IsWellTyped)
    (hextended : (f.target?.filter fun q => !(f.path :: passed).contains (t.resolve q) && t.exists_ q).elim
      (.ok none) (fun q => Config.takenOver (Config.loadFrom t n (f.path :: passed) q)) =
        Config.takenOver (Config.ofRead t path extended)) :
    Config.loadFrom t (n + 1) passed p =
      Config.ofRead t (t.resolve p) (if f.namesPlaces then f :: extended else []) := by
  have hsettings := takenOver_bind_ofSettings (t := t) htyped path extended
  rw [Config.loadFrom, ConfigFile.namesPlaces, ← hf.path]
  simp only [hf.read, ConfigFile.extended?_eq f, bind, Except.bind]
  by_cases hnames : f.namesTarget = true
  · rw [if_pos hnames]
    dsimp only
    rw [hextended]
    refine hsettings.trans ?_
    cases f.namesBase <;> simp [hnames, Config.ofRead]
  · rw [if_neg hnames]
    simp [hnames, Config.ofRead]

/-- A chain is loaded up to the first file with a path where nothing can be. -/
theorem loadFrom_of_chain
    (h : Chain t passed p chain)
    (htyped : ∀ f ∈ chain, f.IsWellTyped)
    (hn : chain.length ≤ n) :
    Config.loadFrom t n passed p =
      Config.ofRead t (t.resolve p) (chain.takeWhile ConfigFile.namesPlaces) := by
  induction h generalizing n with
  | @last passed p f hf hstop =>
    cases n with
    | zero => simp at hn
    | succ n =>
      rw [List.takeWhile_cons, List.takeWhile_nil]
      refine loadFrom_succ p hf (htyped _ (List.mem_singleton_self _)) ?_
      change _ = Except.ok none
      cases htarget : f.target? with
      | none => rfl
      | some target =>
        rw [Option.filter_some]
        split
        · next hnew =>
          rw [Bool.and_eq_true, Bool.not_eq_true', List.contains_eq_mem, decide_eq_false_iff_not] at hnew
          rcases hstop target htarget with hpassed | hmissing | ⟨e, herror⟩
          · exact absurd hpassed hnew.1
          · simp [hmissing] at hnew
          · exact takenOver_loadFrom_of_unreadable herror
        · rfl
  | @next passed p target f rest hf htarget hnew hexists hrest ih =>
    rw [List.length_cons] at hn
    rw [List.forall_mem_cons] at htyped
    cases n with
    | zero => omega
    | succ n =>
      rw [List.takeWhile_cons]
      refine loadFrom_succ (t.resolve target) hf htyped.1 ?_
      have hkept : (!(f.path :: passed).contains (t.resolve target) && t.exists_ target) = true := by
        rw [hexists, Bool.and_true, Bool.not_eq_true', List.contains_eq_mem, decide_eq_false_iff_not]
        exact hnew
      rw [htarget, Option.filter_some, if_pos hkept, Option.elim_some, ih htyped.2 (by omega)]

theorem load_of_chain
    (h : Chain t [] p chain)
    (htyped : ∀ f ∈ chain, f.IsWellTyped) :
    Config.load t p = Config.ofRead t (t.resolve p) (chain.takeWhile ConfigFile.namesPlaces) :=
  loadFrom_of_chain h htyped (h.length_le.trans (Nat.le_add_right _ 2))

/-- A configuration is loaded from the one chain of files that extend each other, and each setting is that
of the first file in the chain which has it. That is so exactly if the first file names no path where
nothing can be, and the files from the first one on that names such a path do not matter. -/
theorem load_eq_ofChain_iff
    (hf : f.IsReadAt t p) :
    ∃ chain, (∀ chain', Chain t [] p chain' ↔ chain' = chain) ∧
      ((∀ g ∈ chain, g.IsWellTyped) →
        let read := chain.takeWhile ConfigFile.namesPlaces
        Config.load t p = Config.ofRead t f.path read ∧
          (Config.load t p = .ok (.ofChain t f.path chain) ↔
            read ≠ [] ∧ Config.ofChain t f.path read = .ofChain t f.path chain)) := by
  obtain ⟨chain, hchain⟩ := exists_chain hf passed_nil (by simp)
  refine ⟨chain, fun chain' => ⟨fun h => h.unique hchain, fun h => h ▸ hchain⟩, fun htyped => ?_⟩
  have hload := load_of_chain hchain htyped
  rw [hf.path]
  refine ⟨hload, ?_⟩
  rw [hload]
  cases chain.takeWhile ConfigFile.namesPlaces with
  | nil => simp [Config.ofRead]
  | cons f rest => simp [Config.ofRead]

/-- Settings in three files, of which the last one extends the first. -/
def circularTree : Tree :=
  ⟨.directory [
    ("lib", .directory [
      ("more.json", .file (.text ("\x7b\"extends\":\"../tsconfig\",\"include\":[\"src\"]," ++
        "\"compilerOptions\":\x7b\"baseUrl\":\".\"\x7d\x7d")))]),
    ("base.json", .file (.text "\x7b\"extends\":\"./lib/more.json\",\"include\":null\x7d")),
    ("tsconfig.json", .file (.text
      "\x7b\"extends\":\"./base\",\"compilerOptions\":\x7b\"paths\":\x7b\"a\":[]\x7d\x7d\x7d"))]⟩

/-- The three files. -/
def circularFiles : List ConfigFile :=
  [⟨⟨true, ["tsconfig.json"]⟩, [("extends", .str "./base"),
      ("compilerOptions", .map [("paths", .map [("a", .list [])])])]⟩,
    ⟨⟨true, ["base.json"]⟩, [("extends", .str "./lib/more.json"), ("include", .null)]⟩,
    ⟨⟨true, ["lib", "more.json"]⟩, [("extends", .str "../tsconfig"), ("include", .list [.str "src"]),
      ("compilerOptions", .map [("baseUrl", .str ".")])]⟩]

theorem chain_circularFiles : Chain circularTree [] ⟨true, ["tsconfig.json"]⟩ circularFiles := by
  refine @Chain.next _ _ _ ⟨true, ["base.json"]⟩ _ _ ⟨by decide, by cbv⟩ (by decide) (by decide) (by decide) ?_
  refine @Chain.next _ _ _ ⟨true, ["lib", "more.json"]⟩ _ _ ⟨by decide, by cbv⟩ (by decide) (by decide)
    (by decide) ?_
  refine .last ⟨by decide, by cbv⟩ fun target htarget => .inl ?_
  obtain rfl := Option.some.inj htarget
  decide

theorem isWellTyped_circularFiles : ∀ f ∈ circularFiles, f.IsWellTyped := by
  simp only [circularFiles, List.forall_mem_cons, List.not_mem_nil, false_implies, implies_true, and_true]
  refine ⟨⟨?_, ?_⟩, ⟨?_, ?_⟩, ⟨?_, ?_⟩⟩
  · rintro v ⟨⟩ -
    exact ⟨_, rfl⟩
  · rintro v ⟨⟩
  · rintro v ⟨⟩
  · rintro v ⟨⟩
  · rintro v ⟨⟩ -
    exact ⟨_, rfl⟩
  · rintro v ⟨⟩
    exact ⟨_, rfl⟩

/-- An explicit null counts, and the circle is cut. -/
theorem load_circularTree :
    (∃ f ∈ circularFiles.head?, f.IsReadAt circularTree ⟨true, ["tsconfig.json"]⟩) ∧
      Config.load circularTree ⟨true, ["tsconfig.json"]⟩ =
        .ok ⟨⟨true, ["tsconfig.json"]⟩, .null, .null, .null, false, some ⟨true, ["lib"]⟩, [("a", [])]⟩ := by
  obtain ⟨f, rest, hf, hfiles⟩ := chain_circularFiles.exists_head
  obtain ⟨chain, hchain, hload⟩ := load_eq_ofChain_iff hf
  obtain rfl := (hchain _).1 chain_circularFiles
  have hread : circularFiles.takeWhile ConfigFile.namesPlaces = circularFiles := by rfl
  refine ⟨⟨f, by rw [hfiles]; rfl, hf⟩, ?_⟩
  rw [((hload isWellTyped_circularFiles).2).2 ⟨by rw [hread]; simp [circularFiles], by rw [hread]⟩, hf.path]
  rfl

/-- Settings that extend a file whose path holds a null character. -/
def nullTree : Tree :=
  ⟨.directory [("tsconfig.json", .file (.text
    "\x7b\"extends\": \"./\\u0000\", \"include\": [\"src\"]\x7d"))]⟩

/-- The file of these settings. -/
def nullFile : ConfigFile :=
  ⟨⟨true, ["tsconfig.json"]⟩, [("extends", .str "./\x00"), ("include", .list [.str "src"])]⟩

/-- Nothing is loaded from settings that extend a file whose path holds a null character, although there
is no such file. -/
theorem not_load_eq_ofChain_nullTree :
    ¬∀ (t : Tree) (p : Path) (f : ConfigFile) (chain : List ConfigFile), f.IsReadAt t p →
      Chain t [] p chain → (∀ g ∈ chain, g.IsWellTyped) →
      Config.load t p = .ok (.ofChain t f.path chain) := by
  intro h
  have hread : nullFile.IsReadAt nullTree ⟨true, ["tsconfig.json"]⟩ := ⟨by decide, by cbv⟩
  have htarget : nullFile.target? = none := by rfl
  have hchain : Chain nullTree [] ⟨true, ["tsconfig.json"]⟩ [nullFile] := by
    refine .last hread fun target h => ?_
    rw [htarget] at h
    cases h
  have htyped : ∀ g ∈ [nullFile], g.IsWellTyped := by
    intro g hg
    obtain rfl := List.mem_singleton.1 hg
    exact ⟨by rintro v ⟨⟩, by rintro v ⟨⟩⟩
  have hnames : nullFile.namesPlaces = false := by rfl
  have hload := h _ _ _ _ hread hchain htyped
  rw [load_of_chain hchain htyped, List.takeWhile_cons, hnames] at hload
  cases hload

end Loading

end Project

end RouteAtlas
