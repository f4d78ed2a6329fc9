import Mathlib
import RouteAtlas.Proofs.ProjectFiles

/-!
# Files that are left out of a project

Declaration files, files in ignored directories below the root and files that the user excludes do not
belong to a project. A walk leaves them out by the path on which it comes to them. So they get into a
project only where nobody looks at the path that a file has in the end: where a configuration lists
the file, where a link leads to it, and where the walk itself starts in an ignored directory.
-/

namespace RouteAtlas.Project

open Files

namespace Loader

section Filtering

/-- What may belong to a project: a file that is no declaration file, lies in no ignored directory
below the root and is not excluded. -/
structure Admits
    (l : Loader)
    (q : Path) :
    Prop where
  not_declaration : Text.endsWith q.name ".d.ts" = false
  not_ignored : ∀ rest, q.relativeTo? l.root = some rest →
    ∀ d ∈ rest.components.dropLast, d ∉ ignoredDirectories
  not_excluded : ∀ rest, q.relativeTo? l.root = some rest → l.exclude.accepts rest.toText = false

/-- A directory that is an ignored directory below the root, or lies in one. -/
def IsInIgnored
    (l : Loader)
    (directory : Path) :
    Prop :=
  ∃ rest, directory.relativeTo? l.root = some rest ∧ ∃ d ∈ rest.components, d ∈ ignoredDirectories

/-- The files that are taken without a look at their resolved paths. -/
inductive Unfiltered
    (l : Loader)
    (patterns : List String)
    (useConfig : Bool) :
    Path → Prop
  | listed
      {c : Config}
      {path : Path}
      (hc : l.Uses useConfig c)
      (h : l.Lists c path) :
      Unfiltered l patterns useConfig (l.tree.resolve path)
  | linked
      {start path : Path}
      (h : l.Picks patterns useConfig start path)
      (hplace : l.tree.resolve path ≠ path) :
      Unfiltered l patterns useConfig (l.tree.resolve (l.tree.resolve path))
  | inside
      {start path : Path}
      (h : l.Picks patterns useConfig start path)
      (hstart : l.IsInIgnored start) :
      Unfiltered l patterns useConfig (l.tree.resolve (l.tree.resolve path))

variable {l : Loader} {patterns : List String} {useConfig : Bool}

theorem Unfiltered.takes
    {q : Path}
    (h : l.Unfiltered patterns useConfig q) :
    l.Takes patterns useConfig q := by
  cases h with
  | listed hc h => exact .listed hc h
  | linked h => exact .picked h
  | inside h => exact .picked h

theorem Picks.mem_walk
    {start path : Path}
    (h : l.Picks patterns useConfig start path) :
    path ∈ l.tree.walk enters start := by
  cases h with
  | included _ h => exact h.walked
  | found h => exact h.walked

theorem Picks.isCandidate
    {start path : Path}
    (h : l.Picks patterns useConfig start path) :
    l.isCandidate path = true := by
  cases h with
  | included _ h => exact h.candidate
  | found h => exact h.candidate

/-- No walk starts above the root. -/
theorem Picks.isBelow_start
    {start path : Path}
    (h : l.Picks patterns useConfig start path)
    (hpath : path.isBelow start = true)
    (hroot : path.isBelow l.root = true) :
    start.isBelow l.root = true := by
  have hself : l.root.isBelow l.root = true := Path.isBelow_iff.2 ⟨rfl, List.prefix_rfl⟩
  cases h with
  | found => exact hself
  | @included c =>
    unfold start at hpath ⊢
    by_cases habove : l.root.isBelow c.directory = true
    · rwa [if_pos habove]
    · rw [if_neg habove] at hpath ⊢
      exact (Path.isBelow_or_isBelow hroot hpath).resolve_left habove

theorem not_declaration_of_isCandidate
    {path : Path}
    (h : l.isCandidate path = true) :
    Text.endsWith path.name ".d.ts" = false := by
  unfold isCandidate at h
  simp only [Bool.and_eq_true, Bool.not_eq_true'] at h
  exact h.1.2

theorem not_excluded_of_isCandidate
    {path rest : Path}
    (h : l.isCandidate path = true)
    (hplace : l.tree.resolve path = path)
    (hrest : path.relativeTo? l.root = some rest) :
    l.exclude.accepts rest.toText = false := by
  unfold isCandidate rootRelative at h
  rw [hplace, hrest] at h
  simp only [Bool.and_eq_true, Bool.not_eq_true'] at h
  exact h.2

/-- A path that is selected by globs, has no links and is not reached from an ignored directory. -/
theorem Picks.admits
    {start path : Path}
    (h : l.Picks patterns useConfig start path)
    (hplace : l.tree.resolve path = path)
    (hstart : ¬ l.IsInIgnored start) :
    l.Admits path := by
  refine ⟨not_declaration_of_isCandidate h.isCandidate, fun rest hrest d hd => ?_,
    fun rest hrest => not_excluded_of_isCandidate h.isCandidate hplace hrest⟩
  obtain ⟨names, last, hpath, hnames⟩ := Tree.exists_of_mem_walk h.mem_walk
  have hbelow : path.isBelow start = true := by
    rw [hpath, Path.isBelow_iff]
    exact ⟨rfl, by simp⟩
  have hroot : path.isBelow l.root = true := by
    rw [Path.isBelow, hrest]
    rfl
  obtain ⟨between, hbetween⟩ := Option.isSome_iff_exists.1 (h.isBelow_start hbelow hroot)
  -- the way from the root: to the start of the walk, from there through directories, and a last name
  obtain ⟨-, -, hcomponents⟩ := Path.relativeTo?_eq_some_iff.1 hrest
  obtain ⟨-, -, hstartComponents⟩ := Path.relativeTo?_eq_some_iff.1 hbetween
  have hway : rest.components = between.components ++ names ++ [last] := by
    rw [hpath, hstartComponents] at hcomponents
    simpa using hcomponents.symm
  rw [hway, List.dropLast_concat, List.mem_append] at hd
  rcases hd with hd | hd
  · exact fun hignored => hstart ⟨between, hbetween, d, hd, hignored⟩
  · simpa [enters] using hnames d hd

/-- A project has no file that is to be left out, unless one is taken without a look at its path. -/
theorem admits_files_iff
    {p : Project}
    (h : l.load patterns useConfig = .ok p) :
    (∀ q ∈ p.files, l.Admits q) ↔
      ∀ q, l.Unfiltered patterns useConfig q → q.isBelow l.root = true → l.Admits q := by
  have hfiles := (loads_of_load h).files
  constructor
  · exact fun hall q hq hbelow => hall q ((hfiles q).2 ⟨hq.takes, hbelow⟩)
  · intro hall q hq
    obtain ⟨htaken, hbelow⟩ := (hfiles q).1 hq
    cases htaken with
    | listed hc hlisted => exact hall _ (.listed hc hlisted) hbelow
    | @picked start path hpicked =>
      by_cases hplace : l.tree.resolve path = path
      · by_cases hstart : l.IsInIgnored start
        · exact hall _ (.inside hpicked hstart) hbelow
        · rw [hplace, hplace]
          exact hpicked.admits hplace hstart
      · exact hall _ (.linked hpicked hplace) hbelow

/-- A project of one file without a configuration. -/
def plainLoader : Loader :=
  ⟨⟨.directory [("a.ts", .file (.text ""))]⟩, Path.root, none, .ofPatterns ["*.js"]⟩

theorem walk_plainLoader : plainLoader.tree.walk enters plainLoader.root = [⟨true, ["a.ts"]⟩] := by
  decide +kernel

theorem not_uses_plainLoader (c : Config) : ¬ plainLoader.Uses true c := by
  have hconfig : plainLoader.readConfig? = .ok none := rfl
  rintro ⟨-, hread⟩
  rw [hconfig] at hread
  cases hread

theorem not_unfiltered_plainLoader (q : Path) : ¬ plainLoader.Unfiltered ["*.ts"] true q := by
  rintro (⟨hc, -⟩ | ⟨h, hplace⟩ | ⟨h, rest, hrest, d, hd, -⟩)
  · exact not_uses_plainLoader _ hc
  · cases h with
    | included hc => exact not_uses_plainLoader _ hc
    | found h =>
      have hwalked := h.walked
      rw [walk_plainLoader, List.mem_singleton] at hwalked
      subst hwalked
      exact hplace (by decide +kernel)
  · cases h with
    | included hc => exact not_uses_plainLoader _ hc
    | found =>
      obtain ⟨-, -, hnames⟩ := Path.relativeTo?_eq_some_iff.1 hrest
      rw [List.self_eq_append_right] at hnames
      simp [hnames] at hd

theorem admits_files_plainLoader :
    ∃ p, plainLoader.load ["*.ts"] true = .ok p ∧ p.files = [⟨true, ["a.ts"]⟩] ∧
      ∀ q ∈ p.files, plainLoader.Admits q := by
  have hfiles : (plainLoader.load ["*.ts"] true).map Project.files = .ok [⟨true, ["a.ts"]⟩] := by
    decide +kernel
  cases hload : plainLoader.load ["*.ts"] true with
  | error e =>
    rw [hload] at hfiles
    cases hfiles
  | ok p =>
    rw [hload] at hfiles
    refine ⟨p, rfl, Except.ok.inj hfiles, (admits_files_iff hload).2 fun q hq => ?_⟩
    exact absurd hq (not_unfiltered_plainLoader q)

/-- A project whose configuration lists a declaration file. -/
def declaredTree : Tree :=
  ⟨.directory [("tsconfig.json", .file (.text "\x7b\"files\":[\"types.d.ts\"]\x7d")),
    ("types.d.ts", .file (.text ""))]⟩

/-- What the project is loaded from. -/
def declaredLoader : Loader :=
  ⟨declaredTree, Path.root, none, .ofPatterns []⟩

/-- The declaration file belongs to the project. -/
theorem not_admits_files_declaredLoader :
    make declaredTree Path.root none [] = .ok declaredLoader ∧
      ∃ p, declaredLoader.load [] true = .ok p ∧ ∃ q ∈ p.files, ¬ declaredLoader.Admits q := by
  have hfiles : (declaredLoader.load [] true).map Project.files = .ok [⟨true, ["types.d.ts"]⟩] := by
    decide +kernel
  refine ⟨rfl, ?_⟩
  cases hload : declaredLoader.load [] true with
  | error e =>
    rw [hload] at hfiles
    cases hfiles
  | ok p =>
    rw [hload] at hfiles
    obtain hfiles : p.files = [⟨true, ["types.d.ts"]⟩] := Except.ok.inj hfiles
    refine ⟨p, rfl, ⟨true, ["types.d.ts"]⟩, by simp [hfiles], fun h => ?_⟩
    exact absurd h.not_declaration (by decide)

end Filtering

end Loader

end RouteAtlas.Project
