import Mathlib
import RouteAtlas.Project.Loader
import RouteAtlas.Proofs.ResolvedPaths

/-!
# Plain paths

A path that a text denotes has no empty component and none with a slash in it. Such a path can be read
back from its text. Where the root of a project, its configuration file and the names in the file tree
are plain, so is every source file that a project is made of: links are texts, and the settings of a
configuration are texts too.
-/

namespace RouteAtlas

open Files

namespace Text

section Splitting

variable {sep : Char}

theorem not_mem_of_mem_splitOn
    {cs piece : List Char}
    (h : piece ∈ splitOn sep cs) :
    sep ∉ piece := by
  induction cs generalizing piece with
  | nil =>
    obtain rfl := List.mem_singleton.1 h
    simp
  | cons c rest ih =>
    rw [splitOn] at h
    split at h
    · rcases List.mem_cons.1 h with rfl | h
      · simp
      · exact ih h
    · next hc =>
      cases hpieces : splitOn sep rest with
      | nil =>
        rw [hpieces] at h
        obtain rfl := List.mem_singleton.1 h
        simp [Ne.symm hc]
      | cons first more =>
        rw [hpieces] at h ih
        rcases List.mem_cons.1 h with rfl | h
        · simp [Ne.symm hc, ih (List.mem_cons_self ..)]
        · exact ih (List.mem_cons_of_mem _ h)

theorem splitOn_eq_singleton
    {cs : List Char}
    (h : sep ∉ cs) :
    splitOn sep cs = [cs] := by
  induction cs with
  | nil => rfl
  | cons c rest ih =>
    rw [List.mem_cons, not_or] at h
    rw [splitOn, if_neg (Ne.symm h.1), ih h.2]

theorem splitOn_append_cons
    {cs : List Char}
    (h : sep ∉ cs)
    (rest : List Char) :
    splitOn sep (cs ++ sep :: rest) = cs :: splitOn sep rest := by
  induction cs with
  | nil => rw [List.nil_append, splitOn, if_pos rfl]
  | cons c more ih =>
    rw [List.mem_cons, not_or] at h
    rw [List.cons_append, splitOn, if_neg (Ne.symm h.1), ih h.2]

/-- Two texts around a separator are the same, unless what stands before it in one of them goes on in the
other: there the rest of it comes after the separator. -/
theorem append_sep_cases
    {before before' part part' : List Char}
    (h : before ++ sep :: part = before' ++ sep :: part') :
    before = before' ∧ part = part' ∨
      (∃ more, before' = before ++ sep :: more ∧ part = more ++ sep :: part') ∨
        ∃ more, before = before' ++ sep :: more ∧ part' = more ++ sep :: part := by
  rcases List.append_eq_append_iff.1 h with ⟨more, rfl, hmore⟩ | ⟨more, rfl, hmore⟩
  · cases more with
    | nil => exact .inl (by simpa using hmore)
    | cons c more =>
      obtain ⟨rfl, rfl⟩ := List.cons.inj hmore
      exact .inr (.inl ⟨more, rfl, rfl⟩)
  · cases more with
    | nil => exact .inl (by simpa using hmore.symm)
    | cons c more =>
      obtain ⟨rfl, rfl⟩ := List.cons.inj hmore
      exact .inr (.inr ⟨more, rfl, rfl⟩)

/-- Of two texts around a separator, the parts can be told if those after it do not hold it. -/
theorem append_sep_inj
    {before before' part part' : List Char}
    (hpart : sep ∉ part)
    (hpart' : sep ∉ part')
    (h : before ++ sep :: part = before' ++ sep :: part') :
    before = before' ∧ part = part' := by
  rcases append_sep_cases h with heq | ⟨more, -, rfl⟩ | ⟨more, -, rfl⟩
  · exact heq
  · simp at hpart
  · simp at hpart'

/-- Of two texts around a separator, the parts can be told if those before it do not hold it. -/
theorem append_sep_inj_of_before
    {before before' part part' : List Char}
    (hbefore : sep ∉ before)
    (hbefore' : sep ∉ before')
    (h : before ++ sep :: part = before' ++ sep :: part') :
    before = before' ∧ part = part' := by
  have hreverse : part.reverse ++ sep :: before.reverse = part'.reverse ++ sep :: before'.reverse := by
    simpa using congrArg List.reverse h
  obtain ⟨hpart, hbefore⟩ := append_sep_inj (by simpa) (by simpa) hreverse
  exact ⟨List.reverse_injective hbefore, List.reverse_injective hpart⟩

/-- Pieces without slashes can be read back after they were joined by slashes. -/
theorem split_joinWith
    {piece : String}
    {pieces : List String}
    (h : ∀ p ∈ piece :: pieces, '/' ∉ p.toList) :
    split '/' (joinWith "/" (piece :: pieces)) = piece :: pieces := by
  induction pieces generalizing piece with
  | nil =>
    rw [joinWith, split, splitOn_eq_singleton (h piece (List.mem_cons_self ..))]
    simp
  | cons next more ih =>
    rw [List.forall_mem_cons] at h
    have hrest := ih h.2
    have hjoined : (joinWith "/" (piece :: next :: more)).toList =
        piece.toList ++ '/' :: (joinWith "/" (next :: more)).toList := by
      simp [joinWith]
    rw [split] at hrest ⊢
    rw [hjoined, splitOn_append_cons h.1, List.map_cons, hrest, String.ofList_toList]

end Splitting

end Text

namespace Files

section Plain

/-- A name that can stand between slashes. -/
def IsPlainName (name : String) : Prop :=
  name ≠ "" ∧ '/' ∉ name.toList

/-- A path whose components are all names. -/
def Path.IsPlain (p : Path) : Prop :=
  ∀ c ∈ p.components, IsPlainName c

/-- All that a directory and the directories below it hold goes by names. -/
inductive Entry.IsPlain : Entry → Prop
  | file (content : Content) :
      IsPlain (.file content)
  | link (target : String) :
      IsPlain (.link target)
  | directory
      {entries : List (String × Entry)}
      (hnames : ∀ e ∈ entries, IsPlainName e.1)
      (hbelow : ∀ e ∈ entries, IsPlain e.2) :
      IsPlain (.directory entries)

/-- A file tree in which all goes by names. -/
def Tree.IsPlain (t : Tree) : Prop :=
  t.root.IsPlain

namespace Path

/-- Absolute plain paths with one text are one path. -/
theorem eq_of_toText_eq
    {p q : Path}
    (hp : p.IsPlain)
    (hq : q.IsPlain)
    (hpabsolute : p.isAbsolute = true)
    (hqabsolute : q.isAbsolute = true)
    (h : p.toText = q.toText) :
    p = q := by
  obtain ⟨_, cs⟩ := p
  obtain ⟨_, ds⟩ := q
  obtain rfl := hpabsolute
  obtain rfl := hqabsolute
  have hjoined : Text.joinWith "/" cs = Text.joinWith "/" ds := by simpa [toText] using h
  have hslash {names : List String} (hnames : Path.IsPlain ⟨true, names⟩) :
      ∀ name ∈ names, '/' ∉ name.toList := fun name hname => (hnames name hname).2
  have hfilled {name : String} {names : List String} (hnames : Path.IsPlain ⟨true, name :: names⟩) :
      Text.joinWith "/" (name :: names) ≠ "" := by
    intro hempty
    have hsplit := Text.split_joinWith (hslash hnames)
    rw [hempty, show Text.split '/' "" = [""] from rfl] at hsplit
    exact (hnames name (List.mem_cons_self ..)).1 (List.cons.inj hsplit).1.symm
  cases cs with
  | nil =>
    cases ds with
    | nil => rfl
    | cons d ds => exact absurd hjoined.symm (hfilled hq)
  | cons c cs =>
    cases ds with
    | nil => exact absurd hjoined (hfilled hp)
    | cons d ds =>
      have hsplit := congrArg (Text.split '/') hjoined
      rw [Text.split_joinWith (hslash hp), Text.split_joinWith (hslash hq)] at hsplit
      rw [hsplit]

theorem isPlain_ofText (text : String) : (ofText text).IsPlain := by
  intro c hc
  simp only [ofText, componentsOf, Text.split, List.mem_filter, List.mem_map] at hc
  obtain ⟨⟨piece, hpiece, rfl⟩, hname⟩ := hc
  refine ⟨by simpa using fun h => by simp [h] at hname, ?_⟩
  simpa using Text.not_mem_of_mem_splitOn hpiece

theorem IsPlain.join
    {p q : Path}
    (hp : p.IsPlain)
    (hq : q.IsPlain) :
    (p.join q).IsPlain := by
  unfold Path.join
  split
  · exact hq
  · intro c hc
    rcases List.mem_append.1 hc with hc | hc
    · exact hp c hc
    · exact hq c hc

theorem IsPlain.child
    {p : Path}
    {name : String}
    (hp : p.IsPlain)
    (hname : IsPlainName name) :
    (p.child name).IsPlain := by
  intro c hc
  rcases List.mem_append.1 hc with hc | hc
  · exact hp c hc
  · obtain rfl := List.mem_singleton.1 hc
    exact hname

theorem IsPlain.parent
    {p : Path}
    (hp : p.IsPlain) :
    p.parent.IsPlain :=
  fun c hc => hp c (List.mem_of_mem_dropLast hc)

end Path

namespace Entry

theorem mem_of_lookup?
    {name : String}
    {entries : List (String × Entry)}
    {e : Entry}
    (h : lookup? name entries = some e) :
    (name, e) ∈ entries := by
  induction entries with
  | nil => cases h
  | cons first rest ih =>
    obtain ⟨n, e'⟩ := first
    rw [lookup?] at h
    split at h
    · next hn =>
      cases h
      rw [hn]
      exact List.mem_cons_self ..
    · exact List.mem_cons_of_mem _ (ih h)

theorem IsPlain.get?
    {e found : Entry}
    (he : e.IsPlain)
    {names : List String}
    (h : e.get? names = some found) :
    found.IsPlain := by
  induction names generalizing e with
  | nil =>
    rw [Entry.get?] at h
    cases h
    exact he
  | cons name rest ih =>
    cases he with
    | file content => cases h
    | link target => cases h
    | @directory entries hnames hbelow =>
      rw [Entry.get?] at h
      cases hinner : lookup? name entries with
      | none => rw [hinner] at h; cases h
      | some inner =>
        rw [hinner] at h
        exact ih (hbelow _ (mem_of_lookup? hinner)) h

end Entry

namespace Tree

/-- Following links leaves plain names, since the target of a link is a text. -/
theorem isPlain_resolve
    (t : Tree)
    {p : Path}
    (hp : p.IsPlain) :
    (t.resolve p).IsPlain :=
  forall_mem_resolveFrom (fun target c hc _ => Path.isPlain_ofText target c hc) (by simp)
    fun c hc _ => hp c hc

theorem sortEntries_of_pairwise
    {entries : List (String × Entry)}
    (h : entries.Pairwise fun a b => (!decide (b.1 < a.1)) = true) :
    sortEntries entries = entries :=
  List.mergeSort_of_pairwise h

theorem isPlain_walkEntries
    (t : Tree)
    (enter : String → Bool)
    (depth : Nat)
    {base : Path}
    {entries : List (String × Entry)}
    (hbase : base.IsPlain)
    (hentries : (Entry.directory entries).IsPlain) :
    ∀ p ∈ walkEntries t enter depth base entries, p.IsPlain := by
  induction depth generalizing base entries with
  | zero => simp [walkEntries]
  | succ depth ih =>
    intro p hp
    cases hentries with
    | directory hnames hbelow =>
      have hsorted {e : String × Entry} (he : e ∈ sortEntries entries) : e ∈ entries :=
        List.mem_mergeSort.1 he
      rw [walkEntries] at hp
      rcases List.mem_append.1 hp with hp | hp
      · obtain ⟨e, he, hfile⟩ := List.mem_filterMap.1 hp
        dsimp only at hfile
        split at hfile
        · cases hfile
        · cases hfile
          exact hbase.child (hnames e (hsorted he))
      · obtain ⟨⟨name, e⟩, he, hinside⟩ := List.mem_flatMap.1 hp
        dsimp only at hinside
        split at hinside
        · split at hinside
          · exact ih (hbase.child (hnames _ (hsorted he))) (hbelow _ (hsorted he)) p hinside
          · simp at hinside
        · simp at hinside

theorem isPlain_walk
    {t : Tree}
    (ht : t.IsPlain)
    (enter : String → Bool)
    {base : Path}
    (hbase : base.IsPlain) :
    ∀ p ∈ t.walk enter base, p.IsPlain := by
  unfold walk
  split
  · next entries hfound =>
    obtain ⟨place, -, hentry⟩ := Option.bind_eq_some_iff.1 hfound
    exact isPlain_walkEntries t enter _ hbase (ht.get? hentry)
  · simp

end Tree

end Plain

end Files

section Results

variable {α β : Type}

/-- What comes before a result, of two steps one after the other. -/
theorem exists_of_bind_eq_ok
    {x : Except Fault α}
    {f : α → Except Fault β}
    {b : β}
    (h : x >>= f = .ok b) :
    ∃ a, x = .ok a ∧ f a = .ok b := by
  cases x with
  | error e => cases h
  | ok a => exact ⟨a, rfl, h⟩

theorem exists_of_map_eq_ok
    {ε : Type}
    {e : Except ε α}
    {f : α → β}
    {b : β}
    (h : e.map f = .ok b) :
    ∃ a, e = .ok a ∧ f a = b := by
  cases e with
  | error _ => cases h
  | ok a => exact ⟨a, rfl, Except.ok.inj h⟩

theorem exists_of_mem_mapM
    {f : α → Except Fault β}
    {as : List α}
    {bs : List β}
    (h : as.mapM f = .ok bs)
    {b : β}
    (hb : b ∈ bs) :
    ∃ a ∈ as, f a = .ok b := by
  induction as generalizing bs with
  | nil =>
    cases h
    simp at hb
  | cons a rest ih =>
    rw [List.mapM_cons] at h
    obtain ⟨first, hfirst, h⟩ := exists_of_bind_eq_ok h
    obtain ⟨more, hmore, h⟩ := exists_of_bind_eq_ok h
    cases h
    rcases List.mem_cons.1 hb with rfl | hb
    · exact ⟨a, List.mem_cons_self .., hfirst⟩
    · obtain ⟨a', ha', hf⟩ := ih hmore hb
      exact ⟨a', List.mem_cons_of_mem _ ha', hf⟩

end Results

namespace Project

section Configuration

theorem Config.path_of_ofSettings
    {t : Tree}
    {path : Path}
    {data : List (String × Value)}
    {parent : Option Config}
    {c : Config}
    (h : Config.ofSettings t path data parent = .ok c) :
    c.path = path := by
  obtain ⟨options, -, h⟩ := exists_of_bind_eq_ok h
  obtain ⟨named, -, h⟩ := exists_of_bind_eq_ok h
  cases h
  rfl

theorem Config.path_of_load
    {t : Tree}
    {p : Path}
    {c : Config}
    (h : Config.load t p = .ok c) :
    c.path = t.resolve p := by
  unfold Config.load Config.loadFrom at h
  extract_lets path seen at h
  obtain ⟨data, -, h⟩ := exists_of_bind_eq_ok h
  obtain ⟨target, -, h⟩ := exists_of_bind_eq_ok h
  extract_lets new? at h
  obtain ⟨parent, -, h⟩ := exists_of_bind_eq_ok h
  exact Config.path_of_ofSettings h

end Configuration

section Loading

/-- The root, the configuration file and the tree that a project is loaded from are plain. -/
structure Loader.IsPlain (l : Loader) : Prop where
  tree : l.tree.IsPlain
  root : l.root.IsPlain
  config : ∀ p, l.configPath = some p → p.IsPlain

namespace Loader

variable {l : Loader}

theorem IsPlain.of_findConfig?
    (hl : l.IsPlain)
    {p : Path}
    (h : l.findConfig? = some p) :
    p.IsPlain := by
  unfold findConfig? at h
  split at h
  · next given hgiven =>
    dsimp only at h
    split at h
    · cases h
      exact Tree.isPlain_resolve _ (hl.root.join (hl.config given hgiven))
    · cases h
  · obtain ⟨name, hname, rfl⟩ := List.mem_map.1 (List.mem_of_find?_eq_some h)
    refine hl.root.child ?_
    simp only [configNames, List.mem_cons, List.not_mem_nil, or_false] at hname
    rcases hname with rfl | rfl <;> exact ⟨by decide, by decide⟩

theorem IsPlain.of_readConfig?
    (hl : l.IsPlain)
    {c : Config}
    (h : l.readConfig? = .ok (some c)) :
    c.path.IsPlain := by
  unfold readConfig? at h
  split at h
  · cases h
  · next p hp =>
    have hresolved := Tree.isPlain_resolve l.tree (hl.of_findConfig? hp)
    split at h
    · next hload =>
      cases h
      rwa [Config.path_of_load hload]
    · split at h
      · cases h
        exact hresolved
      · cases h

theorem IsPlain.of_mem_walk
    (hl : l.IsPlain)
    {base relative : Path}
    (hbase : base.IsPlain)
    {f : Path × String}
    (h : f ∈ l.walk base relative) :
    f.1.IsPlain ∧ f.1.isAbsolute = true := by
  obtain ⟨p, hp, hf⟩ := List.mem_filterMap.1 h
  obtain ⟨r, -, rfl⟩ := Option.map_eq_some_iff.1 hf
  have hwalked := Tree.isPlain_walk hl.tree (fun d => !ignoredDirectories.contains d) hbase
  exact ⟨Tree.isPlain_resolve _ (hwalked p (List.mem_of_mem_filter hp)), rfl⟩

theorem IsPlain.of_mem_findFiles
    (hl : l.IsPlain)
    {patterns : List String}
    {p : Path}
    (h : p ∈ l.findFiles patterns) :
    p.IsPlain ∧ p.isAbsolute = true := by
  unfold findFiles at h
  dsimp only at h
  split at h
  · cases h
  · obtain ⟨f, hf, rfl⟩ := List.mem_map.1 h
    exact hl.of_mem_walk hl.root (List.mem_of_mem_filter hf)

theorem IsPlain.of_mem_listedFiles
    {c : Config}
    (hc : c.path.IsPlain)
    {paths : List Path}
    (h : l.listedFiles c = .ok paths)
    {p : Path}
    (hp : p ∈ paths) :
    p.IsPlain := by
  unfold listedFiles at h
  extract_lets withNames at h
  have hnames : ∀ names, withNames names = .ok paths → p.IsPlain := by
    intro names h
    obtain ⟨found, hfound, h⟩ := exists_of_bind_eq_ok h
    cases h
    obtain ⟨name, -, hname⟩ := exists_of_mem_mapM hfound (List.mem_of_mem_filter hp)
    obtain ⟨text, -, hname⟩ := exists_of_bind_eq_ok hname
    unfold placeOf at hname
    split at hname
    · cases hname
    · cases hname
      exact Tree.isPlain_resolve _ (hc.parent.join (Path.isPlain_ofText text))
  clear_value withNames
  split at h
  · obtain ⟨names, -, h⟩ := exists_of_bind_eq_ok h
    exact hnames _ h
  · exact hnames _ h

theorem IsPlain.of_mem_configFiles
    (hl : l.IsPlain)
    {c : Config}
    (hc : c.path.IsPlain)
    {paths : List Path}
    (h : l.configFiles c = .ok paths)
    {p : Path}
    (hp : p ∈ paths) :
    p.IsPlain := by
  obtain ⟨named, hnamed, h⟩ := exists_of_bind_eq_ok h
  obtain ⟨globs, -, h⟩ := exists_of_bind_eq_ok h
  dsimp only at h
  split at h
  · cases h
    exact IsPlain.of_mem_listedFiles hc hnamed hp
  · obtain ⟨more, -, h⟩ := exists_of_bind_eq_ok h
    cases h
    rcases List.mem_append.1 hp with hp | hp
    · exact IsPlain.of_mem_listedFiles hc hnamed hp
    · obtain ⟨f, hf, rfl⟩ := List.mem_map.1 hp
      refine (hl.of_mem_walk ?_ (List.mem_of_mem_filter hf)).1
      split
      · exact hl.root
      · exact hc.parent

end Loader

theorem Loader.isPlain_of_make
    {t : Tree}
    {root : Path}
    {configPath : Option Path}
    {exclude : List Value}
    (ht : t.IsPlain)
    (hroot : root.IsPlain)
    (hconfig : ∀ p, configPath = some p → p.IsPlain)
    {l : Loader}
    (h : Loader.make t root configPath exclude = .ok l) :
    l.IsPlain := by
  unfold Loader.make at h
  extract_lets resolved whenDirectory whenThere at h
  have hdirectory : ∀ u, whenDirectory u = .ok l → l.IsPlain := by
    intro u h
    obtain ⟨matcher, -, h⟩ := exists_of_bind_eq_ok h
    cases h
    exact ⟨ht, Tree.isPlain_resolve t hroot, hconfig⟩
  have hthere : ∀ u, whenThere u = .ok l → l.IsPlain := by
    intro u h
    unfold whenThere at h
    clear_value whenDirectory
    split at h
    · cases h
    · exact hdirectory _ h
  clear_value whenThere
  split at h
  · cases h
  · exact hthere _ h

/-- The files of a project are plain, and so are the sources of it that have been read, each of which
goes by its own path. -/
structure HasPlainPaths (p : Project) : Prop where
  files : ∀ path ∈ p.files, path.IsPlain
  sources : ∀ e ∈ p.sources, e.2.path = e.1 ∧ e.1.IsPlain ∧ e.1.isAbsolute = true

theorem HasPlainPaths.addFile
    {p : Project}
    (hp : HasPlainPaths p)
    {path : Path}
    (hpath : path.IsPlain) :
    HasPlainPaths (p.addFile path).1 := by
  unfold Project.addFile
  dsimp only
  split
  · exact hp
  · split
    · exact hp
    · refine ⟨fun path' hpath' => ?_, hp.sources⟩
      rcases List.mem_append.1 hpath' with hpath' | hpath'
      · exact hp.files path' hpath'
      · obtain rfl := List.mem_singleton.1 hpath'
        exact Tree.isPlain_resolve _ hpath

theorem HasPlainPaths.addFiles
    {p : Project}
    (hp : HasPlainPaths p)
    {paths : List Path}
    (hpaths : ∀ path ∈ paths, path.IsPlain) :
    HasPlainPaths (p.addFiles paths) := by
  unfold Project.addFiles
  induction paths generalizing p with
  | nil => exact hp
  | cons path rest ih =>
    rw [List.forall_mem_cons] at hpaths
    exact ih (hp.addFile hpaths.1) hpaths.2

theorem mem_of_source?
    {path : Path}
    {sources : List (Path × Syntax.SourceFile)}
    {f : Syntax.SourceFile}
    (h : Project.source? path sources = some f) :
    (path, f) ∈ sources := by
  induction sources with
  | nil => cases h
  | cons first rest ih =>
    obtain ⟨p, f'⟩ := first
    rw [Project.source?] at h
    split at h
    · next hp =>
      cases h
      rw [hp]
      exact List.mem_cons_self ..
    · exact List.mem_cons_of_mem _ (ih h)

/-- A source file of a project goes by a plain absolute path. -/
theorem HasPlainPaths.of_mem_sourceFiles
    {p : Project}
    (hp : HasPlainPaths p)
    {f : Syntax.SourceFile}
    (h : f ∈ p.sourceFiles) :
    f.path.IsPlain ∧ f.path.isAbsolute = true := by
  obtain ⟨path, hpath, hf⟩ := List.mem_filterMap.1 h
  unfold Project.sourceFile? at hf
  dsimp only at hf
  split at hf
  · next hsource =>
    cases hf
    obtain ⟨hown, hplain, habsolute⟩ := hp.sources _ (mem_of_source? hsource)
    rw [hown]
    exact ⟨hplain, habsolute⟩
  · split at hf
    · obtain ⟨content, -, rfl⟩ := Option.map_eq_some_iff.1 hf
      exact ⟨Tree.isPlain_resolve _ (hp.files path hpath), rfl⟩
    · cases hf

theorem HasPlainPaths.afterReading
    {p : Project}
    (hp : HasPlainPaths p)
    {f : Syntax.SourceFile}
    (hf : f.path.IsPlain ∧ f.path.isAbsolute = true) :
    HasPlainPaths (p.afterReading (some f)) := by
  unfold Project.afterReading
  dsimp only
  split
  · exact hp
  · refine ⟨hp.files, fun e he => ?_⟩
    rcases List.mem_append.1 he with he | he
    · exact hp.sources e he
    · obtain rfl := List.mem_singleton.1 he
      exact ⟨rfl, hf⟩

theorem HasPlainPaths.readAll
    {p : Project}
    (hp : HasPlainPaths p) :
    HasPlainPaths p.readAll := by
  unfold Project.readAll
  have hfiles : ∀ f ∈ p.sourceFiles, f.path.IsPlain ∧ f.path.isAbsolute = true :=
    fun f => hp.of_mem_sourceFiles
  generalize p.sourceFiles = files at hfiles
  induction files generalizing p with
  | nil => exact hp
  | cons f rest ih =>
    rw [List.forall_mem_cons] at hfiles
    exact ih (hp.afterReading hfiles.1) hfiles.2

/-- What a plain loader loads is a plain project. -/
theorem Loader.IsPlain.load
    {l : Loader}
    (hl : l.IsPlain)
    {patterns : List String}
    {useConfig : Bool}
    {p : Project}
    (h : l.load patterns useConfig = .ok p) :
    HasPlainPaths p := by
  unfold Loader.load at h
  obtain ⟨config, hconfig, h⟩ := exists_of_bind_eq_ok h
  extract_lets start withListed at h
  have hstart : HasPlainPaths start := ⟨by simp [start], by simp [start]⟩
  have hlisted : ∀ listed, (∀ path ∈ listed, path.IsPlain) → withListed listed = .ok p →
      HasPlainPaths p := by
    rintro listed hpaths ⟨⟩
    exact (hstart.addFiles hpaths).addFiles fun path hpath => (hl.of_mem_findFiles hpath).1
  split at h
  · split at h
    · obtain ⟨listed, hfiles, h⟩ := exists_of_bind_eq_ok h
      exact hlisted _ (fun path => hl.of_mem_configFiles (hl.of_readConfig? hconfig) hfiles) h
    · exact hlisted [] (by simp) h
  · exact hlisted [] (by simp) h

end Loading

end Project

end RouteAtlas
