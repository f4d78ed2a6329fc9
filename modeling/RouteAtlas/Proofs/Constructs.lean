import Mathlib
import RouteAtlas.Proofs.FileParts
import RouteAtlas.Proofs.RootConfinement
import RouteAtlas.Proofs.TreePlaces

/-!
# Constructs behind handlers

A handler names a file and a line, by which it points to what it describes: a declaration, a method of a class,
or a whole file. The line is always that of the construct, which stands in a source file below the root. Pages
and controllers name the file of the construct too. A route file is named for all its methods, also for those
whose function it exports from another file, so its handlers point to what they describe only if that is
declared in the route file itself.
-/

namespace RouteAtlas

open Files
open Syntax (Export Node SourceFile)
open Extraction

section Constructs

/-- A construct of a source file: a declaration, a method, an entry of a router, or the whole file. -/
structure Construct where
  file : SourceFile
  node : Node

namespace Construct

variable {s : Site} {c : Construct}

/-- A construct stands in a file that is read from below the root. -/
structure StandsIn
    (s : Site)
    (c : Construct) :
    Prop where
  read : Project.ReadBelow s.tree (s.tree.resolve s.root) c.file
  mem : c.node ∈ c.file.root.subtree

/-- A record points to a construct by a file and a line: it names the file of the construct, in the way in
which such records name files, and the construct starts in the line, which is one of that file. -/
structure IsAt
    (s : Site)
    (name : Path → String)
    (c : Construct)
    (filePath : String)
    (line : Nat) :
    Prop where
  read : Project.ReadBelow s.tree (s.tree.resolve s.root) c.file
  file_eq : filePath = name c.file.path
  one_le : 1 ≤ line
  le_lineCount : line ≤ c.file.lineCount
  starts : c.file.StartsIn c.node line

/-- The line of the node of a construct is always right. -/
theorem StandsIn.isAt
    (h : c.StandsIn s)
    {name : Path → String}
    {filePath : String}
    (hfile : filePath = name c.file.path) :
    c.IsAt s name filePath c.node.line := by
  have hstarts : c.file.StartsIn c.node c.node.line := by
    obtain ⟨content, -, hread⟩ := h.read.read
    have hmem := h.mem
    rw [hread] at hmem ⊢
    exact SourceFile.startsIn_line hmem
  exact ⟨h.read, hfile, hstarts.one_le, hstarts.le_lineCount, hstarts⟩

end Construct

variable {s : Site} {f g : SourceFile}

/-- Source files that are named alike are at the same place. -/
theorem path_eq_of_toText_eq
    (ht : s.tree.HasFileNames)
    (hf : Project.ReadBelow s.tree (s.tree.resolve s.root) f)
    (hg : Project.ReadBelow s.tree (s.tree.resolve s.root) g)
    (h : f.path.toText = g.path.toText) :
    f.path = g.path :=
  hf.reached.eq_of_toText_eq ht hg.reached h

theorem path_eq_of_relativePath_eq
    (ht : s.tree.HasFileNames)
    (hf : Project.ReadBelow s.tree (s.tree.resolve s.root) f)
    (hg : Project.ReadBelow s.tree (s.tree.resolve s.root) g)
    (h : relativePath s f.path = relativePath s g.path) :
    f.path = g.path := by
  rw [← join_relativePath ht hf.absolute hf.reached, h, join_relativePath ht hg.absolute hg.reached]

/-- Handlers that some work finds, whatever was logged and remembered before it. -/
def Finds
    (work : Extraction (List Handler))
    (h : Handler) :
    Prop :=
  ∃ p hs, ends work p = .ok hs ∧ h ∈ hs

theorem Extraction.Yields.of_finds
    {P : Memory → Handler → Prop}
    {work : Extraction (List Handler)}
    (hyields : Yields s (fun m hs => ∀ h ∈ hs, P m h) work)
    {h : Handler}
    (hfinds : Finds work h) :
    ∃ m, P m h := by
  obtain ⟨p, hs, hends, hh⟩ := hfinds
  exact ⟨_, (hyields p).2 hs hends h hh⟩

theorem Extraction.Yields.and_finds
    {P : Memory → Handler → Prop}
    {work : Extraction (List Handler)}
    (h : Yields s (fun m hs => ∀ h ∈ hs, P m h) work) :
    Yields s (fun m hs => ∀ h ∈ hs, Finds work h ∧ P m h) work :=
  fun p => ⟨(h p).1, fun hs hends x hx => ⟨⟨p, hs, hends, hx⟩, (h p).2 hs hends x hx⟩⟩

end Constructs

namespace FileRoutes

section App

namespace App

/-- What an export stands for, in the file where that is. -/
def exportedConstruct?
    (project : Project)
    (file : SourceFile)
    (e : Export) :
    Option Construct :=
  match e.moduleName.filter fun m => !m.isEmpty with
  | none => e.node.map fun n => ⟨file, n⟩
  | some m =>
    match project.resolveModule m file.path with
    | .ok (some target) =>
      (target.localDeclaration? ((e.localName.filter fun n => !n.isEmpty).getD e.name)).map fun n =>
        ⟨target, n⟩
    | _ => none

/-- The declaration that an export gives to a method, if it has the name of the method. -/
def declaredBy?
    (project : Project)
    (file : SourceFile)
    (verb : String)
    (e : Export) :
    Option Construct :=
  if Route.verbs.contains e.name && e.name == verb then
    (exportedConstruct? project file e).filter fun c => isHandlerNode c.node
  else none

/-- What a handler of a route file describes: the declaration that the exports of the file give to its
method, or the whole file when no declaration stands for the method. -/
def constructOf
    (project : Project)
    (file : SourceFile)
    (verb : String) :
    Construct :=
  (file.exports.findSome? (declaredBy? project file verb)).getD ⟨file, file.root⟩

/-- The declaration that functions give to a method. -/
def declarationAmong?
    (functions : List VerbHandler)
    (verb : String) :
    Option Construct :=
  (functions.find? fun h => h.verb == verb).map fun h => ⟨h.file, h.node⟩

end App

open App

variable {s : Site} {project : Project} {file : SourceFile}

theorem settled_exported_construct (e : Export) :
    Settled (fun found => found.map (fun x => ⟨x.2, x.1⟩) = exportedConstruct? project file e)
      (exported project file e) := by
  unfold exported exportedConstruct?
  cases e.moduleName.filter fun m => !m.isEmpty with
  | none => exact settled_pure (by simp [Function.comp_def])
  | some m =>
    refine (settled_ofExcept _).bind fun target htarget => ?_
    simp only [htarget]
    cases target with
    | none => exact (settled_say _ _ _).bind fun _ _ => settled_pure rfl
    | some target => exact settled_pure (by simp [Function.comp_def])

theorem declarationAmong?_append
    (functions more : List VerbHandler)
    (verb : String) :
    declarationAmong? (functions ++ more) verb =
      (declarationAmong? functions verb).or (declarationAmong? more verb) := by
  simp only [declarationAmong?, List.find?_append, Option.map_or]

theorem findSome?_declaredBy?_cons
    (e : Export)
    (rest : List Export)
    (verb : String) :
    (e :: rest).findSome? (declaredBy? project file verb) =
      (declaredBy? project file verb e).or (rest.findSome? (declaredBy? project file verb)) := by
  rw [List.findSome?_cons]
  cases declaredBy? project file verb e <;> rfl

/-- The functions that are collected from exports are the declarations that the exports give to methods,
the first for each method. -/
theorem settled_verbHandlers_declarations
    (found : List VerbHandler)
    (exports : List Export) :
    Settled (fun functions => ∀ verb, declarationAmong? functions verb =
        (declarationAmong? found verb).or (exports.findSome? (declaredBy? project file verb)))
      (verbHandlers project file found exports) := by
  induction exports generalizing found with
  | nil => exact settled_pure (by simp)
  | cons e rest ih =>
    simp only [findSome?_declaredBy?_cons]
    unfold verbHandlers
    split
    · next hskip =>
      refine (ih found).mono fun functions hfunctions verb => ?_
      rw [hfunctions verb]
      -- an export that is passed over has no name of a method, or its method is found before it
      rw [Bool.or_eq_true, Bool.not_eq_true'] at hskip
      by_cases hverb : Route.verbs.contains e.name && e.name == verb
      · rw [Bool.and_eq_true, beq_iff_eq] at hverb
        have hbefore : (declarationAmong? found verb).isSome := by
          simpa [declarationAmong?, hverb.2] using hskip.resolve_left (ne_false_of_eq_true hverb.1)
        obtain ⟨c, hc⟩ := Option.isSome_iff_exists.1 hbefore
        rw [hc]
        rfl
      · rw [declaredBy?, if_neg hverb, Option.none_or]
    · next hverb =>
      rw [Bool.or_eq_true, not_or, Bool.not_eq_true', Bool.not_eq_false] at hverb
      refine (settled_exported_construct e).bind fun target htarget => ?_
      have hgives (verb : String) : declaredBy? project file verb e =
          if e.name == verb then
            (target.map fun x => (⟨x.2, x.1⟩ : Construct)).filter fun c => isHandlerNode c.node
          else none := by
        rw [declaredBy?, hverb.1, Bool.true_and, htarget]
      cases target with
      | none =>
        refine (ih found).mono fun functions hfunctions verb => ?_
        rw [hfunctions verb, hgives]
        simp
      | some x =>
        refine (ih _).mono fun functions hfunctions verb => ?_
        rw [hfunctions verb, hgives, declarationAmong?_append, Option.or_assoc]
        congr 2
        by_cases hnode : isHandlerNode x.1 <;> by_cases hname : e.name = verb <;>
          simp [declarationAmong?, Option.filter, hnode, hname]

/-- A handler is reported for the file whose exports are looked at, but with the line of the declaration
that they give to its method. -/
theorem yields_appFile_construct :
    Yields s (fun _ hs => ∀ h ∈ hs, h.filePath = file.path.toText ∧
      h.line = (constructOf project file h.method).node.line) (App.ofFile s project file) := by
  unfold App.ofFile
  dsimp only
  split
  · exact (settled_say _ _ _).yields.bind fun _ _ => yields_pure (by simp)
  · rw [App.pathsOf_bind]
    refine ((yields_derivedPath _ _).mono fun _ _ _ => trivial).bind fun raw _ => ?_
    refine (settled_verbHandlers_declarations _ _).yields.bind fun functions hfunctions => ?_
    dsimp only
    split
    · exact (settled_say _ _ _).yields.bind fun _ _ => yields_pure (by simp)
    · refine yields_mapM (lasting_const _) fun verb _ => ?_
      unfold App.handlerFor
      dsimp only
      refine (yields_ofExcept _).bind fun facts _ => ?_
      refine (settled_say _ _ _).yields.bind fun _ _ => yields_pure fun _ => ⟨rfl, ?_⟩
      have hverb : constructOf project file verb =
          (declarationAmong? functions verb).getD ⟨file, file.root⟩ := by
        rw [hfunctions verb]
        rfl
      show _ = (constructOf project file verb).node.line
      rw [hverb, declarationAmong?]
      cases functions.find? fun h => h.verb == verb <;> rfl

/-- A handler is found in a route file of a project. -/
structure App.IsFoundIn
    (s : Site)
    (project : Project)
    (file : SourceFile)
    (h : Handler) :
    Prop where
  source : IsSource s patterns project file
  found : Finds (App.ofFile s project file) h

/-- A handler of a route file describes what its method stands for there. -/
def App.Describes
    (s : Site)
    (h : Handler)
    (c : Construct) :
    Prop :=
  ∃ project file, IsFoundIn s project file h ∧ c = constructOf project file h.method

theorem exists_isFoundIn
    {h : Handler}
    (hfinds : Finds (App.structured s) h) :
    ∃ project file, IsFoundIn s project file h := by
  have hyields : Yields s (fun _ hs => ∀ h ∈ hs, ∃ project file, IsFoundIn s project file h)
      (App.structured s) := by
    refine appLayout.yields_structured (lasting_const _) endsIn_appAccepts (fun project file hsource => ?_)
      fun n => "Found " ++ toString n ++ " App Router route files"
    exact yields_appFile_construct.and_finds.mono fun _ hs hall h hh => ⟨project, file, hsource, (hall h hh).1⟩
  exact (hyields.of_finds hfinds).elim fun _ hd => hd

/-- What an export stands for is a construct of a source file. -/
theorem standsIn_exportedConstruct?
    {patterns : List String}
    (hsource : IsSource s patterns project file)
    {e : Export}
    (he : e ∈ file.exports)
    {c : Construct}
    (hc : exportedConstruct? project file e = some c) :
    c.StandsIn s := by
  obtain ⟨htree, hroot, hholds, hread⟩ := readBelow_of_isSource hsource
  unfold exportedConstruct? at hc
  split at hc
  · obtain ⟨n, hn, rfl⟩ := Option.map_eq_some_iff.1 hc
    exact ⟨hread, SourceFile.mem_subtree_of_mem_exports he hn⟩
  · split at hc
    · next target htarget =>
      obtain ⟨n, hn, rfl⟩ := Option.map_eq_some_iff.1 hc
      have htargetRead := hholds.of_resolveModule htarget
      rw [htree, hroot] at htargetRead
      exact ⟨htargetRead, SourceFile.mem_subtree_of_localDeclaration? hn⟩
    · cases hc

theorem standsIn_constructOf
    {patterns : List String}
    (hsource : IsSource s patterns project file)
    (verb : String) :
    (constructOf project file verb).StandsIn s := by
  unfold constructOf
  cases hc : file.exports.findSome? (declaredBy? project file verb) with
  | none =>
    obtain ⟨-, -, -, hread⟩ := readBelow_of_isSource hsource
    exact ⟨hread, Node.mem_subtree_self _⟩
  | some c =>
    obtain ⟨e, he, hdeclared⟩ := List.exists_of_findSome?_eq_some hc
    unfold declaredBy? at hdeclared
    split at hdeclared
    · exact standsIn_exportedConstruct? hsource he (Option.eq_some_of_filter_eq_some hdeclared)
    · cases hdeclared

/-- A handler of a route file points to what it describes exactly if that is declared in the route file. -/
theorem App.IsFoundIn.isAt_iff
    (ht : s.tree.HasFileNames)
    {h : Handler}
    (hfound : IsFoundIn s project file h) :
    (constructOf project file h.method).IsAt s Path.toText h.filePath h.line ↔
      (constructOf project file h.method).file.path = file.path := by
  obtain ⟨m, hfile, hline⟩ := yields_appFile_construct.of_finds hfound.found
  obtain ⟨-, -, -, hread⟩ := readBelow_of_isSource hfound.source
  have hstands := standsIn_constructOf hfound.source h.method
  constructor
  · intro hat
    exact path_eq_of_toText_eq ht hstands.read hread (hat.file_eq.symm.trans hfile)
  · intro hpath
    rw [hline]
    exact hstands.isAt (hpath ▸ hfile)

/-- A route file that exports nothing from other files declares the functions for its methods itself. -/
theorem constructOf_file_of_exports
    (h : ∀ e ∈ file.exports, e.moduleName.filter (fun m => !m.isEmpty) = none)
    (verb : String) :
    (constructOf project file verb).file = file := by
  unfold constructOf
  cases hc : file.exports.findSome? (declaredBy? project file verb) with
  | none => rfl
  | some c =>
    obtain ⟨e, he, hdeclared⟩ := List.exists_of_findSome?_eq_some hc
    unfold declaredBy? at hdeclared
    split at hdeclared
    · have hexported := Option.eq_some_of_filter_eq_some hdeclared
      simp only [exportedConstruct?, h e he] at hexported
      obtain ⟨n, -, rfl⟩ := Option.map_eq_some_iff.1 hexported
      rfl
    · cases hdeclared

end App

section Pages

variable {s : Site} {project : Project} {file : SourceFile}

/-- A handler of a page describes what answers the requests of the page: a function, or the whole file when
none is found behind the export. -/
structure Pages.Describes
    (s : Site)
    (h : Handler)
    (c : Construct) :
    Prop where
  source : ∃ project, IsSource s patterns project c.file ∧ Finds (Pages.ofFile s project c.file) h
  handler : ∃ page, pageHandler? c.file = some page ∧ c.node = page.node c.file

theorem yields_pagesFile_construct :
    Yields s (fun _ hs => ∀ h ∈ hs, ∃ page, pageHandler? file = some page ∧
      h.filePath = file.path.toText ∧ h.line = (page.node file).line) (Pages.ofFile s project file) := by
  unfold Pages.ofFile
  dsimp only
  split
  · exact (settled_say _ _ _).yields.bind fun _ _ => yields_pure (by simp)
  · split
    · exact (settled_say _ _ _).yields.bind fun _ _ => yields_pure (by simp)
    · next page hpage =>
      rw [Pages.pathsOf_bind]
      refine ((yields_derivedPath _ _).mono fun _ _ _ => trivial).bind fun raw _ => ?_
      refine (yields_ofExcept _).bind fun facts _ => ?_
      refine (settled_say _ _ _).yields.bind fun _ _ => yields_pure fun _ h hh => ?_
      obtain ⟨verb, -, rfl⟩ := List.mem_map.1 hh
      exact ⟨page, hpage, rfl, rfl⟩

/-- Handlers of pages always point to what they describe. -/
theorem exists_pagesDescribes
    {h : Handler}
    (hfinds : Finds (Pages.structured s) h) :
    ∃ c, Pages.Describes s h c ∧ c.IsAt s Path.toText h.filePath h.line := by
  have hyields : Yields s (fun _ hs => ∀ h ∈ hs,
      ∃ c, Pages.Describes s h c ∧ c.IsAt s Path.toText h.filePath h.line) (Pages.structured s) := by
    refine pagesLayout.yields_structured (lasting_const _) endsIn_pagesAccepts (fun project file hsource => ?_)
      fun n => "Found " ++ toString n ++ " Pages API files"
    refine yields_pagesFile_construct.and_finds.mono fun _ hs hall h hh => ?_
    obtain ⟨hfound, page, hpage, hfile, hline⟩ := hall h hh
    obtain ⟨-, -, -, hread⟩ := readBelow_of_isSource hsource
    have hstands : Construct.StandsIn s ⟨file, page.node file⟩ := ⟨hread, mem_subtree_of_pageHandler? hpage⟩
    refine ⟨⟨file, page.node file⟩, ⟨⟨project, hsource, hfound⟩, page, hpage, rfl⟩, ?_⟩
    rw [hline]
    exact hstands.isAt hfile
  exact (hyields.of_finds hfinds).elim fun _ hd => hd

end Pages

end FileRoutes

namespace Controllers

section Controllers

variable {s : Site}

/-- A handler of a controller describes a method of the class. -/
structure Describes
    (s : Site)
    (h : Handler)
    (c : Construct) :
    Prop where
  method : MethodOf s c.file c.node
  made : ∃ controller facts verb path, controller.file = c.file ∧
    h = handlerAt controller c.node facts verb path

/-- Handlers of controllers always point to what they describe. -/
theorem exists_describes
    {h : Handler}
    (hfinds : Finds (structured s) h) :
    ∃ c, Describes s h c ∧ c.IsAt s Path.toText h.filePath h.line := by
  have hsettled : Settled (fun hs => ∀ h ∈ hs,
      ∃ c, Describes s h c ∧ c.IsAt s Path.toText h.filePath h.line) (structured s) := by
    refine settled_structured fun controller m facts verb path hmethod _ => ?_
    obtain ⟨project, hsource⟩ := hmethod.source
    obtain ⟨-, -, -, hread⟩ := readBelow_of_isSource hsource
    obtain ⟨c, hc, m', hm', rfl⟩ := hmethod.declared
    have hstands : Construct.StandsIn s ⟨controller.file, m'.node⟩ :=
      ⟨hread, Node.mem_subtree_trans (SourceFile.mem_subtree_of_mem_methods hm')
        (SourceFile.mem_subtree_of_mem_classes hc)⟩
    exact ⟨_, ⟨hmethod, controller, facts, verb, path, rfl, rfl⟩, hstands.isAt rfl⟩
  exact ((hsettled.yields (s := s)).of_finds hfinds).elim fun _ hd => hd

end Controllers

end Controllers

end RouteAtlas
