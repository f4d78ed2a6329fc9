import Mathlib
import RouteAtlas.FileRoutes.Location
import RouteAtlas.Proofs.DynamicSegments
import RouteAtlas.Proofs.GlobSegments
import RouteAtlas.Proofs.ProjectFiles

/-!
# Routes and their globs

Whether a file is a route is told by the components of its path: the first directory of a name, what
stands below it, and the ending of the last component. Before that is asked, globs choose the files that
are looked at. They are written without any knowledge of the other rule, and yet they leave out no file
that is a route, however deep it lies and however often the names of the directories come again.
-/

namespace RouteAtlas

namespace Glob

section Below

/-- A glob for files anywhere below given directories, which may lie anywhere themselves. -/
def below
    (words : List (List Char))
    (name : List Char) :
    List Char :=
  anyNumber ++ '/' :: (written words ++ (anyNumber ++ '/' :: name))

/-- A name that stands for itself in a glob. -/
def IsWord (word : List Char) : Prop :=
  '/' ∉ word ∧ '*' ∉ word ∧ '?' ∉ word

instance : DecidablePred IsWord :=
  fun word => inferInstanceAs (Decidable ('/' ∉ word ∧ '*' ∉ word ∧ '?' ∉ word))

variable {segment rest cs left : List Char}

theorem fits_self
    (hstar : '*' ∉ segment)
    (hone : '?' ∉ segment) :
    Fits segment segment := by
  induction segment with
  | nil => exact .nil
  | cons c segment ih =>
    rw [List.mem_cons, not_or] at hstar hone
    exact .exactly (Ne.symm hstar.1) (Ne.symm hone.1) (ih hstar.2 hone.2)

theorem not_anyNumber_isInfix
    (h : '*' ∉ segment) :
    ¬ anyNumber <:+: segment :=
  fun hpart => h (hpart.subset (List.mem_cons_self ..))

/-- Whole directories stand for `**`. -/
theorem accepts_directories
    {directories : List (List Char)}
    (hdirectories : ∀ name ∈ directories, name ≠ [] ∧ '/' ∉ name)
    (h : accepts (steps rest) left = true) :
    accepts (steps (anyNumber ++ '/' :: rest)) (written directories ++ left) = true :=
  afterDirectories_iff.2 ⟨directories, left, hdirectories, rfl, h⟩

/-- Directories stand for themselves. -/
theorem accepts_words
    {words : List (List Char)}
    (hwords : ∀ word ∈ words, IsWord word)
    (h : accepts (steps rest) left = true) :
    accepts (steps (written words ++ rest)) (written words ++ left) = true := by
  induction words with
  | nil => exact h
  | cons word words ih =>
    rw [List.forall_mem_cons] at hwords
    obtain ⟨⟨hslash, hstar, hone⟩, hwords⟩ := hwords
    have hcut : ∀ more, written (word :: words) ++ more = word ++ '/' :: (written words ++ more) := by
      simp [written]
    rw [hcut, hcut]
    exact (accepts_steps_slash_iff hslash (not_anyNumber_isInfix hstar)).2
      ⟨word, _, rfl, hslash, fits_self hstar hone, ih hwords⟩

/-- A name at the end may have a line break after it. -/
theorem accepts_name
    {name lineBreak : List Char}
    (hslash : '/' ∉ segment)
    (hsegment : ¬ anyNumber <:+: segment)
    (hname : '/' ∉ name)
    (hfits : Fits segment name)
    (hbreak : lineBreak = [] ∨ lineBreak = ['\n']) :
    accepts (steps segment) (name ++ lineBreak) = true := by
  have hsteps : steps (segment ++ []) = segment.map stepOf ++ steps [] := steps_append hsegment (by simp)
  rw [List.append_nil] at hsteps
  rw [hsteps]
  refine (accepts_append_iff hslash).2 ⟨name, lineBreak, rfl, hname, hfits, ?_⟩
  rw [steps, accepts]
  simpa using hbreak

theorem written_append (directories more : List (List Char)) :
    written (directories ++ more) = written directories ++ written more :=
  List.flatMap_append

/-- A path whose components are some directories, given ones, some more, and a name that a segment stands
for, is described by the glob for such names below the given directories. -/
theorem accepts_below
    {words before between : List (List Char)}
    {name lineBreak : List Char}
    (hfilled : ∀ component ∈ Text.splitOn '/' cs, component ≠ [])
    (hwords : ∀ word ∈ words, IsWord word)
    (hslash : '/' ∉ segment)
    (hsegment : ¬ anyNumber <:+: segment)
    (hpath : Text.splitOn '/' cs = before ++ words ++ between ++ [name ++ lineBreak])
    (hfits : Fits segment name)
    (hbreak : lineBreak = [] ∨ lineBreak = ['\n']) :
    accepts (steps (below words segment)) cs = true := by
  have hdirectories := directories_of_splitOn_eq_append hfilled hpath
  rw [List.forall_mem_append, List.forall_mem_append] at hdirectories
  obtain ⟨⟨hbefore, -⟩, hbetween⟩ := hdirectories
  obtain ⟨left, rfl, hleft⟩ := exists_eq_written_append hpath (List.cons_ne_nil _ _)
  have hlast : left = name ++ lineBreak := by
    rcases Text.eq_of_splitOn_eq_cons hleft with ⟨hleft, -⟩ | ⟨rest, -, hnil⟩
    · exact hleft
    · exact absurd hnil.symm (Text.splitOn_ne_nil rest)
  have hname : '/' ∉ name := by
    have hpiece : '/' ∉ name ++ lineBreak :=
      Text.not_mem_of_mem_splitOn (hleft ▸ List.mem_singleton_self (name ++ lineBreak))
    exact fun hmem => hpiece (List.mem_append_left _ hmem)
  rw [hlast, written_append, written_append, List.append_assoc, List.append_assoc]
  exact accepts_directories hbefore (accepts_words hwords
    (accepts_directories hbetween (accepts_name hslash hsegment hname hfits hbreak)))

end Below

end Glob

namespace FileRoutes

section Names

/-- A directory of a name stands among the components above a file that lies below it. -/
theorem exists_of_below?
    {directory : String}
    {cs rest : List String}
    (h : below? directory cs = some rest) :
    ∃ before, cs = before ++ directory :: rest ∧ rest ≠ [] := by
  induction cs with
  | nil => cases h
  | cons c cs ih =>
    cases cs with
    | nil => cases h
    | cons d cs =>
      rw [below?] at h
      split at h
      · next hc =>
        obtain rfl := Option.some.inj h
        exact ⟨[], by rw [eq_of_beq hc]; rfl, by simp⟩
      · obtain ⟨before, hcs, hrest⟩ := ih h
        exact ⟨c :: before, by rw [hcs]; rfl, hrest⟩
      · simp

theorem withoutEnd?_eq_some_iff
    {stop cs rest : List Char} :
    withoutEnd? stop cs = some rest ↔ cs = rest ++ stop := by
  rw [withoutEnd?, Option.map_eq_some_iff]
  constructor
  · rintro ⟨start, hstart, rfl⟩
    rw [Text.afterStart?_eq_some_iff] at hstart
    rw [← List.reverse_inj, hstart]
    simp
  · rintro rfl
    exact ⟨rest.reverse, Text.afterStart?_eq_some_iff.2 (by simp), List.reverse_reverse rest⟩

/-- A name with a stem is the stem with one of the endings. -/
theorem exists_of_stem?
    {name s : List Char}
    (h : stem? name = some s) :
    ∃ e ∈ sourceEndings, name = s ++ '.' :: e.toList := by
  obtain ⟨e, he, hstem⟩ := List.exists_of_findSome?_eq_some h
  exact ⟨e, he, withoutEnd?_eq_some_iff.1 hstem⟩

theorem withoutLineBreak_append (name : List Char) :
    name = (withoutLineBreak name).1 ++ (withoutLineBreak name).2 ∧
      ((withoutLineBreak name).2 = [] ∨ (withoutLineBreak name).2 = ['\n']) := by
  unfold withoutLineBreak
  split
  · next rest hname =>
    refine ⟨?_, .inr rfl⟩
    rw [← List.reverse_inj, hname]
    simp
  · exact ⟨(List.append_nil name).symm, .inl rfl⟩

theorem componentsOf_eq (path : String) :
    Glob.componentsOf path = (components path).map String.toList := by
  simp [components, Glob.componentsOf]

end Names

section Globs

open Glob (IsWord Fits anyNumber below steps componentsOf)

/-- A glob that leaves the endings of sources open describes a source below its directories if the name
stands for the stem. -/
theorem accepts_of_stem?
    {m : Glob.Matcher}
    {words : List String}
    {start : List Char}
    (hm : m.alternatives =
      sourceEndings.map fun e => steps (below (words.map String.toList) (start ++ '.' :: e.toList)))
    (hwords : ∀ word ∈ words, IsWord word.toList)
    (hstart : ∀ e ∈ sourceEndings,
      '/' ∉ start ++ '.' :: e.toList ∧ ¬ anyNumber <:+: start ++ '.' :: e.toList)
    {path name : String}
    (hfilled : ∀ component ∈ componentsOf path, component ≠ [])
    {before between : List String}
    (hpath : components path = before ++ words ++ between ++ [name])
    {stem : List Char}
    (hstem : stem? (withoutLineBreak name.toList).1 = some stem)
    (hfits : ∀ e ∈ sourceEndings, Fits (start ++ '.' :: e.toList) (stem ++ '.' :: e.toList)) :
    m.accepts path = true := by
  obtain ⟨e, he, hbody⟩ := exists_of_stem? hstem
  obtain ⟨hname, hbreak⟩ := withoutLineBreak_append name.toList
  have hcomponents : Text.splitOn '/' (Glob.forwardSlashes path.toList) =
      before.map String.toList ++ words.map String.toList ++ between.map String.toList ++
        [stem ++ '.' :: e.toList ++ (withoutLineBreak name.toList).2] := by
    show componentsOf path = _
    rw [← hbody, ← hname, componentsOf_eq, hpath]
    simp
  have haccepts := Glob.accepts_below hfilled (List.forall_mem_map.2 hwords) (hstart e he).1 (hstart e he).2
    hcomponents (hfits e he) hbreak
  rw [Glob.Matcher.accepts, hm, List.any_map, List.any_eq_true]
  exact ⟨e, he, haccepts⟩

theorem App.alternatives_patterns :
    (Glob.Matcher.ofPatterns App.patterns).alternatives =
      sourceEndings.map fun e =>
        steps (below (["app"].map String.toList) ("route".toList ++ '.' :: e.toList)) := by
  decide

theorem Pages.alternatives_patterns :
    (Glob.Matcher.ofPatterns Pages.patterns).alternatives =
      sourceEndings.map fun e =>
        steps (below (["pages", "api"].map String.toList) ("*".toList ++ '.' :: e.toList)) := by
  decide

end Globs

section Routes

open Glob (componentsOf)

/-- A file that is a route is called `route` and lies below a directory `app`. -/
theorem App.exists_of_isRouteFile
    {path : String}
    (h : App.isRouteFile path = true) :
    ∃ before between name, components path = before ++ ["app"] ++ between ++ [name] ∧
      stem? (withoutLineBreak name.toList).1 = some "route".toList := by
  unfold App.isRouteFile App.directories? at h
  dsimp only at h
  split at h
  · next s ds hstem hbelow =>
    obtain ⟨rest, hbelow, -⟩ := Option.map_eq_some_iff.1 hbelow
    obtain ⟨before, hpath, hrest⟩ := exists_of_below? hbelow
    obtain ⟨between, name, rfl⟩ := (List.eq_nil_or_concat' rest).resolve_left hrest
    rw [Bool.and_eq_true] at h
    have hpath : components path = before ++ ["app"] ++ between ++ [name] := by simp [hpath]
    rw [hpath, List.getLastD_concat, eq_of_beq h.1] at hstem
    exact ⟨before, between, name, hpath, hstem⟩
  · cases h

/-- A page that is a route is a source and lies below a directory `api` of a directory `pages`. -/
theorem Pages.exists_of_isRouteFile
    {path : String}
    (h : Pages.isRouteFile path = true) :
    ∃ before between name stem, components path = before ++ ["pages", "api"] ++ between ++ [name] ∧
      stem? (withoutLineBreak name.toList).1 = some stem := by
  unfold Pages.isRouteFile Pages.components? at h
  split at h
  · next c rest hbelow =>
    obtain ⟨before, hpath, -⟩ := exists_of_below? hbelow
    obtain ⟨between, name, hrest⟩ := (List.eq_nil_or_concat' (c :: rest)).resolve_left (List.cons_ne_nil c rest)
    rw [hrest] at hpath h
    dsimp only at h
    rw [List.getLastD_concat] at h
    split at h
    · next s hstem =>
      obtain ⟨stem, hstem, -⟩ := Option.map_eq_some_iff.1 hstem
      exact ⟨before, between, name, stem, by simp [hpath], hstem⟩
    · cases h
  · cases h

theorem App.accepts_of_isRouteFile
    {path : String}
    (hfilled : ∀ component ∈ componentsOf path, component ≠ [])
    (h : App.isRouteFile path = true) :
    (Glob.Matcher.ofPatterns App.patterns).accepts path = true := by
  obtain ⟨before, between, name, hpath, hstem⟩ := App.exists_of_isRouteFile h
  refine accepts_of_stem? App.alternatives_patterns (by decide) (by decide) hfilled hpath hstem ?_
  have hwords : ∀ e ∈ sourceEndings,
      '*' ∉ "route".toList ++ '.' :: e.toList ∧ '?' ∉ "route".toList ++ '.' :: e.toList := by
    decide
  exact fun e he => Glob.fits_self (hwords e he).1 (hwords e he).2

theorem Pages.accepts_of_isRouteFile
    {path : String}
    (hfilled : ∀ component ∈ componentsOf path, component ≠ [])
    (h : Pages.isRouteFile path = true) :
    (Glob.Matcher.ofPatterns Pages.patterns).accepts path = true := by
  obtain ⟨before, between, name, stem, hpath, hstem⟩ := Pages.exists_of_isRouteFile h
  refine accepts_of_stem? Pages.alternatives_patterns (by decide) (by decide) hfilled hpath hstem ?_
  have hwords : ∀ e ∈ sourceEndings, '*' ∉ '.' :: e.toList ∧ '?' ∉ '.' :: e.toList := by decide
  exact fun e he => .star stem (Glob.fits_self (hwords e he).1 (hwords e he).2)

/-- What the walk from the root comes to and globs accept is found. -/
theorem mem_findFiles_of_accepts
    {l : Project.Loader}
    {patterns : List String}
    {file : Files.Path}
    {path : String}
    (hwalk : (file, path) ∈ l.walk l.root l.root)
    (h : (Glob.Matcher.ofPatterns patterns).accepts path = true) :
    file ∈ l.findFiles patterns := by
  unfold Project.Loader.findFiles
  dsimp only
  split
  · next hempty =>
    rw [Project.Loader.accepts_of_isEmpty hempty] at h
    cases h
  · exact List.mem_map.2 ⟨_, List.mem_filter.2 ⟨hwalk, h⟩, rfl⟩

/-- The globs leave out no file that is a route, neither below a directory `app` nor below `pages/api`. So
every such file that the walk from the root comes to is found. -/
theorem accepts_patterns_of_isRouteFile
    {path : String}
    (hfilled : ∀ component ∈ componentsOf path, component ≠ []) :
    (App.isRouteFile path = true →
      (Glob.Matcher.ofPatterns App.patterns).accepts path = true ∧
        ∀ (l : Project.Loader) (file : Files.Path), (file, path) ∈ l.walk l.root l.root →
          file ∈ l.findFiles App.patterns) ∧
      (Pages.isRouteFile path = true →
        (Glob.Matcher.ofPatterns Pages.patterns).accepts path = true ∧
          ∀ (l : Project.Loader) (file : Files.Path), (file, path) ∈ l.walk l.root l.root →
            file ∈ l.findFiles Pages.patterns) := by
  constructor
  · intro h
    have haccepts := App.accepts_of_isRouteFile hfilled h
    exact ⟨haccepts, fun l file hwalk => mem_findFiles_of_accepts hwalk haccepts⟩
  · intro h
    have haccepts := Pages.accepts_of_isRouteFile hfilled h
    exact ⟨haccepts, fun l file hwalk => mem_findFiles_of_accepts hwalk haccepts⟩

/-- A glob takes nothing between two slashes for a directory. -/
example :
    App.isRouteFile "app//route.ts" = true ∧
      (Glob.Matcher.ofPatterns App.patterns).accepts "app//route.ts" = false := by
  decide

/-- A project with one file, which is a route in either layout. One of its directories has a backslash in its
name. -/
def twofoldLoader : Project.Loader :=
  ⟨⟨.directory [("src", .directory [("pages", .directory [("api", .directory [("app\\app", .directory [
    ("route.ts", .file (.text ""))])])])])]⟩, ⟨true, []⟩, none, .ofPatterns []⟩

def twofoldFile : Files.Path :=
  ⟨true, ["src", "pages", "api", "app\\app", "route.ts"]⟩

theorem accepts_patterns_twofold :
    (∀ component ∈ componentsOf "src/pages/api/app\\app/route.ts", component ≠ []) ∧
      App.isRouteFile "src/pages/api/app\\app/route.ts" = true ∧
      Pages.isRouteFile "src/pages/api/app\\app/route.ts" = true ∧
      (twofoldFile, "src/pages/api/app\\app/route.ts") ∈
        twofoldLoader.walk twofoldLoader.root twofoldLoader.root ∧
      (Glob.Matcher.ofPatterns App.patterns).accepts "src/pages/api/app\\app/route.ts" = true ∧
      (Glob.Matcher.ofPatterns Pages.patterns).accepts "src/pages/api/app\\app/route.ts" = true ∧
      twofoldFile ∈ twofoldLoader.findFiles App.patterns ∧
      twofoldFile ∈ twofoldLoader.findFiles Pages.patterns := by
  have hfilled : ∀ component ∈ componentsOf "src/pages/api/app\\app/route.ts", component ≠ [] := by decide
  have happ : App.isRouteFile "src/pages/api/app\\app/route.ts" = true := by decide
  have hpages : Pages.isRouteFile "src/pages/api/app\\app/route.ts" = true := by decide
  have hwalk : (twofoldFile, "src/pages/api/app\\app/route.ts") ∈
      twofoldLoader.walk twofoldLoader.root twofoldLoader.root := by
    decide +kernel
  obtain ⟨happAccepts, happFound⟩ := (accepts_patterns_of_isRouteFile hfilled).1 happ
  obtain ⟨hpagesAccepts, hpagesFound⟩ := (accepts_patterns_of_isRouteFile hfilled).2 hpages
  exact ⟨hfilled, happ, hpages, hwalk, happAccepts, hpagesAccepts, happFound _ _ hwalk, hpagesFound _ _ hwalk⟩

end Routes

end FileRoutes

end RouteAtlas
