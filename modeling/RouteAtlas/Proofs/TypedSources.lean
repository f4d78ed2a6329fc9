import Mathlib
import RouteAtlas.Project.Modules
import RouteAtlas.Proofs.ResolvedPaths

/-!
# Scripts that stand for typed sources

An import may name the script that a typed source becomes. Where there is no such script, the file
that is meant is the typed source of the same stem next to the importing file. The look-up takes a
suffix off twice: first that of the script, and then whatever is a suffix of the stem. So it finds
the typed source of every stem that has no suffix of its own, and of no other: a name like
`create-user.dto` loses its last part.
-/

namespace RouteAtlas

namespace Files.Path

open Text

section Names

/-- A text that a file may be named by. -/
structure IsFileName (name : String) : Prop where
  ne_empty : name ≠ ""
  not_slash : '/' ∉ name.toList
  ne_here : name ≠ "."
  ne_above : name ≠ ".."

/-- A name is cut at its last point, if that is inside of it. -/
theorem cutName_ofList
    (stem : List Char)
    {ext : List Char}
    (h : '.' ∉ ext) :
    cutName (String.ofList (stem ++ '.' :: ext)) =
      if ext = [] ∨ stem = [] then (String.ofList (stem ++ '.' :: ext), "")
      else (String.ofList stem, String.ofList ('.' :: ext)) := by
  have htail : ((stem ++ '.' :: ext).reverse.takeWhile (· != '.')).reverse = ext := by
    have hall : ∀ c ∈ ext.reverse, (c != '.') = true := by
      intro c hc
      have : c ≠ '.' := fun heq => h (heq ▸ List.mem_reverse.1 hc)
      simpa using this
    simp [List.takeWhile_append_of_pos hall]
  have hcut : ((stem ++ '.' :: ext).take ((stem ++ '.' :: ext).length - ext.length)).dropLast =
      stem := by
    have hlength : (stem ++ '.' :: ext).length - ext.length = (stem ++ ['.']).length := by
      simp
      omega
    rw [hlength, List.append_cons stem '.' ext, List.take_left, List.dropLast_concat]
  have hlonger : (ext.length == (stem ++ '.' :: ext).length) = false := by
    simp
    omega
  have hpoint : "." ++ String.ofList ext = String.ofList ('.' :: ext) := by
    apply String.toList_injective
    simp
  simp only [cutName, String.toList_ofList, htail, hcut, hlonger, hpoint]
  by_cases hext : ext = []
  · simp [hext]
  · by_cases hstem : stem = []
    · simp [hext, hstem]
    · simp [hext, hstem]

theorem cutName_of_no_point
    {cs : List Char}
    (h : '.' ∉ cs) :
    cutName (String.ofList cs) = (String.ofList cs, "") := by
  have hall : cs.reverse.takeWhile (· != '.') = cs.reverse := by
    rw [List.takeWhile_eq_self_iff]
    intro c hc
    have : c ≠ '.' := fun heq => h (heq ▸ List.mem_reverse.1 hc)
    simpa using this
  simp [cutName, hall]

/-- A cut name is put together again by its parts. -/
theorem cutName_fst_append_snd (name : String) :
    (cutName name).1 ++ (cutName name).2 = name := by
  obtain ⟨cs, rfl⟩ := String.exists_eq_ofList name
  by_cases hpoint : '.' ∈ cs
  · obtain ⟨ext, stem, hcs, hext⟩ := List.eq_append_cons_of_mem (List.mem_reverse.2 hpoint)
    have hcs' : cs = stem.reverse ++ '.' :: ext.reverse := by
      simpa using congrArg List.reverse hcs
    rw [hcs', cutName_ofList _ (by simpa using hext)]
    split
    · simp
    · exact String.ofList_append.symm
  · simp [cutName_of_no_point hpoint]

theorem cutName_of_no_suffix
    {name : String}
    (h : (cutName name).2 = "") :
    (cutName name).1 = name := by
  have := cutName_fst_append_snd name
  rwa [h, String.append_empty] at this

/-- The suffix that is added to a stem is the one that is cut off again. -/
theorem cutName_append_untyped
    {stem suffix : String}
    (hstem : stem ≠ "")
    (hsuffix : suffix ∈ Project.Config.untypedSuffixes) :
    cutName (stem ++ suffix) = (stem, suffix) := by
  have hcut (ext : List Char) (hext : ext ≠ []) (hpoint : '.' ∉ ext) :
      cutName (stem ++ String.ofList ('.' :: ext)) = (stem, String.ofList ('.' :: ext)) := by
    have := cutName_ofList stem.toList hpoint
    rw [if_neg (by simp [hext, hstem]), String.ofList_append, String.ofList_toList] at this
    exact this
  simp only [Project.Config.untypedSuffixes, List.mem_cons, List.not_mem_nil, or_false] at hsuffix
  rcases hsuffix with rfl | rfl | rfl | rfl
  · exact hcut ['j', 's'] (by decide) (by decide)
  · exact hcut ['j', 's', 'x'] (by decide) (by decide)
  · exact hcut ['m', 'j', 's'] (by decide) (by decide)
  · exact hcut ['c', 'j', 's'] (by decide) (by decide)

theorem splitOn_of_not_mem
    {sep : Char}
    {cs : List Char}
    (h : sep ∉ cs) :
    splitOn sep cs = [cs] := by
  induction cs with
  | nil => rfl
  | cons c rest ih =>
    simp only [List.mem_cons, not_or] at h
    rw [splitOn, if_neg (Ne.symm h.1), ih h.2]

/-- A file of the same directory may be written with a point and a slash before it. -/
theorem append_here
    {name : String}
    (p : Path)
    (h : IsFileName name) :
    p.append ("./" ++ name) = p.child name := by
  have hchars : ("./" ++ name).toList = '.' :: '/' :: name.toList := by
    rw [String.toList_append]
    rfl
  have hpieces : split '/' ("./" ++ name) = [".", name] := by
    rw [split, hchars, splitOn, if_neg (by decide), splitOn, if_pos rfl,
      splitOn_of_not_mem h.not_slash]
    simp
  have hcomponents : componentsOf ("./" ++ name) = [name] := by
    simp [componentsOf, hpieces, h.ne_empty, h.ne_here]
  have habsolute : startsWith ("./" ++ name) "/" = false := by
    rw [startsWith, hchars]
    rfl
  simp [append, join, ofText, hcomponents, habsolute, child]

theorem append_ne_of_length_lt
    {stem suffix other : String}
    (h : other.length < suffix.length) :
    stem ++ suffix ≠ other := by
  intro heq
  have := congrArg String.length heq
  rw [String.length_append] at this
  omega

theorem IsFileName.append_untyped
    {stem suffix : String}
    (h : IsFileName stem)
    (hsuffix : suffix ∈ Project.Config.untypedSuffixes) :
    IsFileName (stem ++ suffix) := by
  have hlong : 3 ≤ suffix.length ∧ '/' ∉ suffix.toList := by
    simp only [Project.Config.untypedSuffixes, List.mem_cons, List.not_mem_nil, or_false] at hsuffix
    rcases hsuffix with rfl | rfl | rfl | rfl <;> decide
  have hother (other : String) (hother : other.length < 3) : stem ++ suffix ≠ other :=
    append_ne_of_length_lt (by omega)
  refine ⟨hother _ (by decide), ?_, hother _ (by decide), hother _ (by decide)⟩
  rw [String.toList_append, List.mem_append]
  exact not_or.2 ⟨h.not_slash, hlong.2⟩

theorem name_child
    (p : Path)
    (name : String) :
    (p.child name).name = name := by
  simp [Path.name, child]

theorem withName_child
    (p : Path)
    (name other : String) :
    (p.child name).withName other = p.child other := by
  simp [withName, child]

end Names

end Files.Path

namespace Project

open Files

section Scripts

/-- The typed source of a stem in a directory, a plain one if there is one. -/
def typedSource
    (p : Project)
    (directory : Path)
    (stem : String) :
    Path :=
  if p.tree.isFile (directory.child (stem ++ ".ts")) then directory.child (stem ++ ".ts")
  else directory.child (stem ++ ".tsx")

/-- In every project, an import of a script of the stem that does not exist, from a file next to a
typed source of the stem under the root, is an import of that typed source. -/
def ScriptsStandForSources (stem : String) : Prop :=
  ∀ (p : Project) (importer : Path), ∀ suffix ∈ Config.untypedSuffixes,
    p.tree.isFile (importer.parent.child (stem ++ suffix)) = false →
    p.tree.isFile (typedSource p importer.parent stem) = true →
    p.isUnderRoot (typedSource p importer.parent stem) = true →
    p.resolveFile? (importer.parent.child (stem ++ suffix)) =
        some (typedSource p importer.parent stem) ∧
      ∃ file, p.sourceFile? (typedSource p importer.parent stem) = some file ∧
        p.resolveModule ("./" ++ (stem ++ suffix)) importer = .ok (some file)

/-- The files that are tried for a script: itself, what it may stand for when the suffix of the stem
counts for nothing, and then files that have its whole name in theirs. -/
theorem fileCandidates_script
    {stem suffix : String}
    (directory : Path)
    (hstem : stem ≠ "")
    (hsuffix : suffix ∈ Config.untypedSuffixes) :
    Project.fileCandidates (directory.child (stem ++ suffix)) =
      [directory.child (stem ++ suffix), directory.child ((Path.cutName stem).1 ++ ".ts"),
        directory.child ((Path.cutName stem).1 ++ ".tsx")] ++
      (Project.triedSuffixes.map fun s => directory.child (stem ++ suffix ++ s)) ++
      (Project.triedSuffixes.map fun s => (directory.child (stem ++ suffix)).child ("index" ++ s)) := by
  have hcut := Path.cutName_append_untyped hstem hsuffix
  have hsource : suffix ∈ Syntax.SourceFile.sourceSuffixes := by
    simp only [Config.untypedSuffixes, List.mem_cons, List.not_mem_nil, or_false] at hsuffix
    rcases hsuffix with rfl | rfl | rfl | rfl <;> decide
  simp [Project.fileCandidates, Path.suffix, Path.withSuffix, Path.name_child, Path.withName_child,
    hcut, hsource, hsuffix]

theorem moduleCandidates_here
    {name : String}
    (p : Project)
    (importer : Path)
    (h : Path.IsFileName name) :
    p.moduleCandidates ("./" ++ name) importer = .ok [importer.parent.child name] := by
  have hstart : Text.startsWith ("./" ++ name) "." = true := by
    rw [Text.startsWith, String.toList_append]
    rfl
  rw [Project.moduleCandidates, if_pos hstart, Path.append_here _ h]

/-- A file under the root has a source. -/
theorem exists_sourceFile
    {p : Project}
    {path : Path}
    (hfile : p.tree.isFile path = true)
    (hroot : p.isUnderRoot path = true) :
    ∃ file, p.sourceFile? path = some file := by
  obtain ⟨content, hcontent⟩ := Tree.content?_resolve hfile
  rw [Project.isUnderRoot] at hroot
  unfold Project.sourceFile?
  cases hread : Project.source? (p.tree.resolve path) p.sources with
  | some file => exact ⟨file, by simp [hread]⟩
  | none => simp [hread, hroot, hcontent]

/-- A stem without a suffix of its own stands for its typed source. -/
theorem scriptsStandForSources_of_no_suffix
    {stem : String}
    (hname : Path.IsFileName stem)
    (hstem : (Path.cutName stem).2 = "") :
    ScriptsStandForSources stem := by
  intro p importer suffix hsuffix hscript hsource hroot
  have hresolved : p.resolveFile? (importer.parent.child (stem ++ suffix)) =
      some (typedSource p importer.parent stem) := by
    rw [Project.resolveFile?, fileCandidates_script _ hname.ne_empty hsuffix,
      Path.cutName_of_no_suffix hstem]
    unfold typedSource at hsource ⊢
    by_cases hplain : p.tree.isFile (importer.parent.child (stem ++ ".ts"))
    · simp [hscript, hplain]
    · rw [if_neg hplain] at hsource
      simp [hscript, hplain, hsource]
  obtain ⟨file, hfile⟩ := exists_sourceFile hsource hroot
  refine ⟨hresolved, file, hfile, ?_⟩
  have hscriptName := hname.append_untyped hsuffix
  have hnamed : (importer.parent.child (stem ++ suffix)).name.isEmpty = false := by
    simpa [Path.name_child] using hscriptName.ne_empty
  rw [Project.resolveModule, moduleCandidates_here p importer hscriptName]
  simp [Project.resolveFirst?, hnamed, hresolved, hfile, bind, Except.bind, pure, Except.pure]

/-- A project of one file, which stands at the root. -/
def lone (name : String) : Project :=
  ⟨⟨.directory [(name, .file (.text ""))]⟩, Path.root, none, [], []⟩

theorem find?_lone
    {name : String}
    (hname : name ≠ "..") :
    (lone name).tree.find? (Path.root.child name) = some (.file (.text "")) := by
  have hentry : (lone name).tree.root.get? [name] = some (.file (.text "")) := by
    simp [lone, Entry.get?, Entry.lookup?]
  exact (Tree.find?_of_reached (.file .root hname hentry)).trans hentry

/-- No other path leads to a file. -/
theorem isFile_lone_of_ne
    {name other : String}
    {p : Path}
    {rest : List String}
    (hp : p.components = other :: rest)
    (habove : other ≠ "..")
    (hother : other ≠ name) :
    (lone name).tree.isFile p = false := by
  have hentry : (lone name).tree.root.get? [other] = none := by
    simp [lone, Entry.get?, Entry.lookup?, Ne.symm hother]
  simp [Tree.isFile, Tree.find?_of_missing hp habove hentry]

/-- When the stem has a suffix of its own, no file that is tried for a script is the typed source of
the stem or is below it. -/
theorem exists_name_of_mem_fileCandidates
    {stem : String}
    (hname : Path.IsFileName stem)
    (hstem : (Path.cutName stem).2 ≠ "")
    {p : Path}
    (hp : p ∈ Project.fileCandidates (Path.root.child (stem ++ ".js"))) :
    ∃ name rest, p.components = name :: rest ∧ name ≠ ".." ∧ name ≠ stem ++ ".ts" := by
  have hjs : ".js" ∈ Config.untypedSuffixes := by decide
  have habove (start s : String) (h : 2 < s.length) : start ++ s ≠ ".." :=
    Path.append_ne_of_length_lt h
  have hscript : stem ++ ".js" ≠ stem ++ ".ts" := by simp
  rw [fileCandidates_script _ hname.ne_empty hjs] at hp
  simp only [List.append_assoc, List.mem_append, List.mem_cons, List.not_mem_nil, or_false,
    List.mem_map] at hp
  rcases hp with (rfl | rfl | rfl) | ⟨s, hs, rfl⟩ | ⟨s, hs, rfl⟩
  · exact ⟨_, _, rfl, habove _ _ (by decide), hscript⟩
  · refine ⟨_, _, rfl, habove _ _ (by decide), fun heq => hstem ?_⟩
    have hcut := Path.cutName_fst_append_snd stem
    rw [(String.append_left_inj ".ts").1 heq] at hcut
    simpa using hcut
  · refine ⟨_, _, rfl, habove _ _ (by decide), fun heq => ?_⟩
    have hlast := congrArg (fun s : String => s.toList.getLast?) heq
    simp at hlast
  · have hlong : 2 < s.length := by
      simp only [Project.triedSuffixes, List.mem_cons, List.not_mem_nil, or_false] at hs
      rcases hs with rfl | rfl | rfl | rfl | rfl | rfl <;> decide
    refine ⟨_, _, rfl, habove _ _ hlong, fun heq => ?_⟩
    have hlength := congrArg String.length heq
    simp only [String.length_append] at hlength
    rw [show (".js").length = (".ts").length from rfl] at hlength
    omega
  · exact ⟨_, _, rfl, habove _ _ (by decide), hscript⟩

/-- When the stem has a suffix of its own, its typed source may be missed: nothing else is there, and
nothing is found. -/
theorem not_scriptsStandForSources_of_suffix
    {stem : String}
    (hname : Path.IsFileName stem)
    (hstem : (Path.cutName stem).2 ≠ "") :
    ¬ScriptsStandForSources stem := by
  intro h
  have hjs : ".js" ∈ Config.untypedSuffixes := by decide
  have hfound : (lone (stem ++ ".ts")).tree.find? (Path.root.child (stem ++ ".ts")) =
      some (.file (.text "")) :=
    find?_lone (Path.append_ne_of_length_lt (by decide))
  have hsource : (lone (stem ++ ".ts")).tree.isFile (Path.root.child (stem ++ ".ts")) = true := by
    simp [Tree.isFile, hfound]
  have hmissed : ∀ p ∈ Project.fileCandidates (Path.root.child (stem ++ ".js")),
      (lone (stem ++ ".ts")).tree.isFile p = false := by
    intro p hp
    obtain ⟨name, rest, hcomponents, habove, hother⟩ :=
      exists_name_of_mem_fileCandidates hname hstem hp
    exact isFile_lone_of_ne hcomponents habove hother
  have hnone : (lone (stem ++ ".ts")).resolveFile? (Path.root.child (stem ++ ".js")) = none := by
    rw [Project.resolveFile?, List.find?_eq_none]
    intro p hp
    simp [hmissed p hp]
  have hsourceHere : typedSource (lone (stem ++ ".ts")) Path.root stem =
      Path.root.child (stem ++ ".ts") :=
    if_pos hsource
  have hroot : (lone (stem ++ ".ts")).isUnderRoot (Path.root.child (stem ++ ".ts")) = true := by
    simp [Project.isUnderRoot, Path.isBelow, Path.relativeTo?, lone, Path.root, Path.relativeTo?.go,
      Tree.resolve]
  have hscript : (lone (stem ++ ".ts")).tree.isFile (Path.root.child (stem ++ ".js")) = false := by
    refine hmissed _ ?_
    simp [fileCandidates_script _ hname.ne_empty hjs]
  have hresolved := (h (lone (stem ++ ".ts")) (Path.root.child "main.ts") ".js" hjs hscript
    (hsourceHere ▸ hsource) (hsourceHere ▸ hroot)).1
  rw [show (Path.root.child "main.ts").parent = Path.root from rfl, hnone] at hresolved
  simp at hresolved

/-- Scripts of a stem stand for its typed sources if and only if the stem has no suffix of its own. -/
theorem scriptsStandForSources_iff
    (stem : String)
    (hname : Path.IsFileName stem) :
    ScriptsStandForSources stem ↔ (Path.cutName stem).2 = "" := by
  constructor
  · intro h
    by_contra hstem
    exact not_scriptsStandForSources_of_suffix hname hstem h
  · exact scriptsStandForSources_of_no_suffix hname

theorem scriptsStandForSources_createUser :
    Path.IsFileName "create-user" ∧ ScriptsStandForSources "create-user" := by
  have hname : Path.IsFileName "create-user" :=
    ⟨by decide, by decide, by decide, by decide⟩
  exact ⟨hname, (scriptsStandForSources_iff "create-user" hname).2 (by decide)⟩

/-- Not every stem has its scripts stand for its typed sources: what follows its last point is lost. -/
theorem not_scriptsStandForSources_createUserDto :
    ¬∀ stem, Path.IsFileName stem → ScriptsStandForSources stem := by
  intro h
  have hname : Path.IsFileName "create-user.dto" :=
    ⟨by decide, by decide, by decide, by decide⟩
  exact not_scriptsStandForSources_of_suffix hname (by decide) (h "create-user.dto" hname)

end Scripts

end Project

end RouteAtlas
