import Mathlib
import RouteAtlas.Proofs.ReportedRoutes
import RouteAtlas.Proofs.RouteOrigins
import RouteAtlas.Proofs.SkippedFiles

/-!
# Identities of routes

The identity of a route is written of the tag of its framework, its file, the name of its handler and its
method. The path has no part in it when the handler has a name, and one handler of a controller may
answer under several paths, which then share an identity. Otherwise the path can be told from file and
name: where files are routes, the file determines it, and the name of a procedure is a part of it.

Nothing in an identity is escaped. The names of handlers where files are routes never hold the sign that
stands between file and name. Those of procedures and of methods of controllers may hold it, and so may
the path of a file. Then file and name can be one text in two ways: the path of one file goes on in that
of another one, and the name of the first handler begins with the rest of that path. So two routes that
differ in their path share an identity exactly if they are of one handler of a controller, or are apart by
such a rest.
-/

namespace RouteAtlas

open Extraction

namespace Route

section Parts

/-- What stands for a route in its file: the name of its handler, or else its path. -/
def label (r : Route) : String :=
  (filled? r.handlerName).getD r.path

theorem colon_not_mem_tag (f : Framework) : ':' ∉ f.tag.toList := by
  cases f <;> decide

theorem colon_not_mem_verb
    {s m : String}
    (h : verb? s = some m) :
    ':' ∉ m.toList := by
  have hverbs : ∀ v ∈ verbs, ':' ∉ v.toList := by decide
  simp only [verb?, Option.ite_none_right_eq_some, Option.some.injEq, List.contains_iff_mem] at h
  obtain ⟨hmem, rfl⟩ := h
  exact hverbs _ hmem

/-- The name of a method holds no sign that letter case leaves alone. -/
theorem hash_not_mem_of_verb?
    {s m : String}
    (h : verb? s = some m) :
    '#' ∉ s.toList := by
  have hverbs : ∀ v ∈ verbs, '#' ∉ v.toList := by decide
  simp only [verb?, Option.ite_none_right_eq_some, List.contains_iff_mem] at h
  intro hhash
  refine hverbs _ h.1 ?_
  have hupper : '#' ∈ Text.upperChar '#' := by decide
  simpa [Text.upper] using ⟨'#', hhash, hupper⟩

theorem toList_externalId (r : Route) :
    r.externalId.toList = r.type.toList ++ ':' ::
      (((r.filePath.getD "None").toList ++ '#' :: r.label.toList) ++ ':' :: r.method.toList) := by
  simp [externalId, label]

end Parts

section Reading

variable {h h' : Handler} {r r' : Route}

/-- The tag, the method and what stands between them can be read off an identity. -/
theorem parts_eq_of_externalId_eq
    (hr : ofHandler? h = some r)
    (hr' : ofHandler? h' = some r')
    (hid : r.externalId = r'.externalId) :
    r.type = r'.type ∧ r.method = r'.method ∧
      h.filePath.toList ++ '#' :: r.label.toList = h'.filePath.toList ++ '#' :: r'.label.toList := by
  obtain ⟨hverb, -, htype, hfile, -⟩ := fields_of_ofHandler? hr
  obtain ⟨hverb', -, htype', hfile', -⟩ := fields_of_ofHandler? hr'
  have hchars := congrArg String.toList hid
  rw [toList_externalId, toList_externalId, hfile, hfile'] at hchars
  have htags : ':' ∉ r.type.toList ∧ ':' ∉ r'.type.toList := by
    rw [htype, htype']
    exact ⟨colon_not_mem_tag _, colon_not_mem_tag _⟩
  obtain ⟨htag, hrest⟩ := Text.append_sep_inj_of_before htags.1 htags.2 hchars
  obtain ⟨hplace, hmethod⟩ := Text.append_sep_inj (colon_not_mem_verb hverb)
    (colon_not_mem_verb hverb') hrest
  exact ⟨String.toList_inj.1 htag, String.toList_inj.1 hmethod, hplace⟩

theorem label_of_filled
    {name : String}
    (hname : filled? r.handlerName = some name) :
    r.label = name := by
  rw [label, hname, Option.getD_some]

theorem filled?_some
    {name : String}
    (hname : name ≠ "") :
    filled? (some name) = some name := by
  simp [filled?, Option.filter, hname]

theorem tag_injective {f f' : Framework} (htag : f.tag = f'.tag) : f = f' := by
  cases f <;> cases f' <;> first | rfl | exact absurd htag (by decide)

end Reading

section Sharing

/-- Whether two routes are of one handler of a controller. -/
def IsOneHandler (r r' : Route) : Prop :=
  r.type = Framework.nest.tag ∧ r.filePath = r'.filePath ∧ r.handlerName = r'.handlerName

/-- Whether the path of the file of one route goes on in that of the other one, and the rest of it begins
the name of the handler of the first. Both routes are of procedures, or of methods of controllers. -/
def RunsInto (r r' : Route) : Prop :=
  (r.type = Framework.nest.tag ∨ r.type = Framework.trpc.tag) ∧
    ∃ file rest name, r.filePath = some file ∧ r'.filePath = some (file ++ "#" ++ rest) ∧
      r.handlerName = some (rest ++ "#" ++ name) ∧ r'.handlerName = some name

/-- No file runs into itself. -/
theorem RunsInto.filePath_ne
    {r r' : Route}
    (h : r.RunsInto r') :
    r.filePath ≠ r'.filePath := by
  obtain ⟨-, file, rest, name, hfile, hfile', -⟩ := h
  rw [hfile, hfile']
  intro hsame
  have hlength := congrArg String.length (Option.some.inj hsame)
  have hsign : "#".length = 1 := rfl
  rw [String.length_append, String.length_append, hsign] at hlength
  omega

/-- The ways in which routes with different paths share an identity: as one handler of a controller, or
because the file of the one runs into that of the other. -/
def SharesIdentity (r r' : Route) : Prop :=
  r.type = r'.type ∧ r.method = r'.method ∧ (r.IsOneHandler r' ∨ r.RunsInto r' ∨ r'.RunsInto r)

/-- Routes that agree in all that an identity is written of share it. -/
theorem externalId_eq_of_toList_eq
    {r r' : Route}
    (htype : r.type = r'.type)
    (hmethod : r.method = r'.method)
    (hplace : (r.filePath.getD "None").toList ++ '#' :: r.label.toList =
      (r'.filePath.getD "None").toList ++ '#' :: r'.label.toList) :
    r.externalId = r'.externalId := by
  refine String.toList_inj.1 ?_
  rw [toList_externalId, toList_externalId, htype, hmethod, hplace]

theorem eq_append_of_toList_eq
    {t : String}
    {before rest : List Char}
    (h : t.toList = before ++ '#' :: rest) :
    t = .ofList before ++ "#" ++ .ofList rest :=
  String.toList_inj.1 (by simpa using h)

theorem runsInto_of_toList_eq
    {r r' : Route}
    (hkind : r.type = Framework.nest.tag ∨ r.type = Framework.trpc.tag)
    (hname : r.handlerName = some r.label)
    (hname' : r'.handlerName = some r'.label)
    {file file' : String}
    (hfile : r.filePath = some file)
    (hfile' : r'.filePath = some file')
    {rest : List Char}
    (hfiles : file'.toList = file.toList ++ '#' :: rest)
    (hlabels : r.label.toList = rest ++ '#' :: r'.label.toList) :
    r.RunsInto r' := by
  refine ⟨hkind, file, .ofList rest, r'.label, hfile, ?_, ?_, hname'⟩
  · rw [hfile', eq_append_of_toList_eq hfiles, String.ofList_toList]
  · rw [hname, eq_append_of_toList_eq hlabels, String.ofList_toList]

end Sharing

end Route

section Stemming

/-- A route of a handler, with what the path and the name of the handler come from. -/
def Stems
    (s : Site)
    (m : Memory)
    (r : Route) :
    Prop :=
  ∃ h, Route.ofHandler? h = some r ∧ Originates s m h

variable {s : Site} {m : Memory}

/-- Handlers that stand at the remembered path of one file stand at one path. -/
theorem Placed.path_eq
    {h h' : Handler}
    (hplaced : Placed s m h)
    (hplaced' : Placed s m h')
    (hfile : h.filePath = h'.filePath) :
    h.path = h'.path := by
  obtain ⟨file, raw, hplain, habsolute, htext, hraw, hpath⟩ := hplaced
  obtain ⟨file', raw', hplain', habsolute', htext', hraw', hpath'⟩ := hplaced'
  have hsame : file = file' := by
    refine Files.Path.eq_of_toText_eq hplain hplain' habsolute habsolute' ?_
    rw [← htext, ← htext', hfile]
  subst hsame
  rw [hraw] at hraw'
  rw [hpath, hpath', Option.some.inj hraw']

/-- Procedures and methods of controllers have a name, which stands for their route. -/
theorem Stems.handlerName_eq
    {r : Route}
    (hr : Stems s m r)
    (htype : r.type = Framework.nest.tag ∨ r.type = Framework.trpc.tag) :
    r.handlerName = some r.label := by
  obtain ⟨h, hroute, horigin⟩ := hr
  obtain ⟨-, -, htag, -, hname⟩ := Route.fields_of_ofHandler? hroute
  unfold Originates at horigin
  obtain ⟨name, hhandler, hne⟩ : ∃ name, h.handlerName = some name ∧ name ≠ "" := by
    rcases htype with htype | htype
    · rw [Route.tag_injective (htag.symm.trans htype)] at horigin
      exact horigin
    · rw [Route.tag_injective (htag.symm.trans htype)] at horigin
      obtain ⟨basePath, p, -, hrouter, rfl⟩ := horigin
      exact ⟨p.qualifiedName, rfl, Procedures.qualifiedName_ne_empty hrouter⟩
  have hfilled : Route.filled? r.handlerName = some name := by
    rw [hname, hhandler, Route.filled?_some hne]
  rw [Route.label_of_filled hfilled, hname, hhandler]

/-- Where files are routes, no name holds the sign, so the last one ends the file, and the file has one
path. -/
theorem Stems.path_eq_of_placed
    {r r' : Route}
    (hr : Stems s m r)
    (hr' : Stems s m r')
    (hid : r.externalId = r'.externalId)
    (hkind : ¬ (r.type = Framework.nest.tag ∨ r.type = Framework.trpc.tag)) :
    r.path = r'.path := by
  obtain ⟨h, hroute, horigin⟩ := hr
  obtain ⟨h', hroute', horigin'⟩ := hr'
  obtain ⟨htag, -, hplace⟩ := Route.parts_eq_of_externalId_eq hroute hroute' hid
  obtain ⟨hverb, hpath, htype, -, hname⟩ := Route.fields_of_ofHandler? hroute
  obtain ⟨hverb', hpath', htype', -, hname'⟩ := Route.fields_of_ofHandler? hroute'
  have hframework : h'.framework = h.framework :=
    Route.tag_injective (htype'.symm.trans (htag.symm.trans htype))
  have hplaced {name name' : String}
      (hhandler : h.handlerName = some name ∧ Placed s m h)
      (hhandler' : h'.handlerName = some name' ∧ Placed s m h')
      (hne : name ≠ "" ∧ name' ≠ "")
      (hclear : '#' ∉ name.toList ∧ '#' ∉ name'.toList) : r.path = r'.path := by
    have hfilled : Route.filled? r.handlerName = some name := by
      rw [hname, hhandler.1, Route.filled?_some hne.1]
    have hfilled' : Route.filled? r'.handlerName = some name' := by
      rw [hname', hhandler'.1, Route.filled?_some hne.2]
    rw [Route.label_of_filled hfilled, Route.label_of_filled hfilled'] at hplace
    have hfiles := (Text.append_sep_inj hclear.1 hclear.2 hplace).1
    rw [hpath, hpath', hhandler.2.path_eq hhandler'.2 (String.toList_inj.1 hfiles)]
  unfold Originates at horigin horigin'
  rw [hframework] at horigin'
  cases hf : h.framework with
  | appRouter =>
    rw [hf] at horigin horigin'
    have hmethod {h : Handler} {v : String} (hv : Route.verb? h.method = some v) : h.method ≠ "" := by
      intro hempty
      rw [hempty] at hv
      revert hv
      exact nofun
    exact hplaced horigin horigin' ⟨hmethod hverb, hmethod hverb'⟩
      ⟨Route.hash_not_mem_of_verb? hverb, Route.hash_not_mem_of_verb? hverb'⟩
  | pagesRouter =>
    rw [hf] at horigin horigin'
    exact hplaced horigin horigin' (by decide) (by decide)
  | trpc =>
    rw [hf] at htype
    exact absurd (.inr htype) hkind
  | nest =>
    rw [hf] at htype
    exact absurd (.inl htype) hkind

/-- Elsewhere file and name are cut at the same place, or one file runs into the other. -/
theorem Stems.eq_or_runsInto
    {r r' : Route}
    (hr : Stems s m r)
    (hr' : Stems s m r')
    (hid : r.externalId = r'.externalId)
    (hkind : r.type = Framework.nest.tag ∨ r.type = Framework.trpc.tag) :
    r.filePath = r'.filePath ∧ r.handlerName = r'.handlerName ∨ r.RunsInto r' ∨ r'.RunsInto r := by
  have hname := hr.handlerName_eq hkind
  obtain ⟨h, hroute, -⟩ := hr
  obtain ⟨h', hroute', -⟩ := id hr'
  obtain ⟨htag, -, hplace⟩ := Route.parts_eq_of_externalId_eq hroute hroute' hid
  obtain ⟨-, -, -, hfile, -⟩ := Route.fields_of_ofHandler? hroute
  obtain ⟨-, -, -, hfile', -⟩ := Route.fields_of_ofHandler? hroute'
  have hkind' := htag ▸ hkind
  have hname' := hr'.handlerName_eq hkind'
  rcases Text.append_sep_cases hplace with
    ⟨hfiles, hlabels⟩ | ⟨rest, hfiles, hlabels⟩ | ⟨rest, hfiles, hlabels⟩
  · refine .inl ⟨?_, ?_⟩
    · rw [hfile, hfile', String.toList_inj.1 hfiles]
    · rw [hname, hname', String.toList_inj.1 hlabels]
  · exact .inr (.inl (Route.runsInto_of_toList_eq hkind hname hname' hfile hfile' hfiles hlabels))
  · exact .inr (.inr (Route.runsInto_of_toList_eq hkind' hname' hname hfile' hfile hfiles hlabels))

/-- The name of a procedure is a part of its path, and all other parts are common to all procedures. -/
theorem Stems.path_eq_of_trpc
    {r r' : Route}
    (hr : Stems s m r)
    (hr' : Stems s m r')
    (htype : r.type = Framework.trpc.tag)
    (htype' : r'.type = Framework.trpc.tag)
    (hname : r.handlerName = r'.handlerName) :
    r.path = r'.path := by
  obtain ⟨h, hroute, horigin⟩ := hr
  obtain ⟨h', hroute', horigin'⟩ := hr'
  obtain ⟨-, hpath, htag, -, hhandler⟩ := Route.fields_of_ofHandler? hroute
  obtain ⟨-, hpath', htag', -, hhandler'⟩ := Route.fields_of_ofHandler? hroute'
  unfold Originates at horigin horigin'
  rw [Route.tag_injective (htag.symm.trans htype)] at horigin
  rw [Route.tag_injective (htag'.symm.trans htype')] at horigin'
  obtain ⟨basePath, p, hbase, -, rfl⟩ := horigin
  obtain ⟨basePath', p', hbase', -, rfl⟩ := horigin'
  obtain rfl : basePath = basePath' := Value.str.inj (hbase.symm.trans hbase')
  have hqualified : p.qualifiedName = p'.qualifiedName :=
    Option.some.inj (hhandler.symm.trans (hname.trans hhandler'))
  rw [hpath, hpath']
  refine congrArg Route.normalizePath ?_
  show Procedures.requestPath basePath p = Procedures.requestPath basePath p'
  rw [Procedures.requestPath, Procedures.requestPath, hqualified]

/-- Routes of one identity and different paths share it in one of the ways in which that can be. -/
theorem Stems.sharesIdentity
    {r r' : Route}
    (hr : Stems s m r)
    (hr' : Stems s m r')
    (hid : r.externalId = r'.externalId)
    (hpath : r.path ≠ r'.path) :
    r.SharesIdentity r' := by
  obtain ⟨htype, hmethod⟩ : r.type = r'.type ∧ r.method = r'.method := by
    obtain ⟨h, hroute, -⟩ := hr
    obtain ⟨h', hroute', -⟩ := hr'
    obtain ⟨htype, hmethod, -⟩ := Route.parts_eq_of_externalId_eq hroute hroute' hid
    exact ⟨htype, hmethod⟩
  have hkind : r.type = Framework.nest.tag ∨ r.type = Framework.trpc.tag :=
    Classical.byContradiction fun hkind => hpath (hr.path_eq_of_placed hr' hid hkind)
  refine ⟨htype, hmethod, (hr.eq_or_runsInto hr' hid hkind).imp_left fun hsame => ?_⟩
  rcases hkind with hnest | htrpc
  · exact ⟨hnest, hsame⟩
  · exact absurd (hr.path_eq_of_trpc hr' htrpc (htype ▸ htrpc) hsame.2) hpath

theorem Stems.externalId_eq_of_runsInto
    {r r' : Route}
    (hr : Stems s m r)
    (hr' : Stems s m r')
    (htype : r.type = r'.type)
    (hmethod : r.method = r'.method)
    (h : r.RunsInto r') :
    r.externalId = r'.externalId := by
  obtain ⟨hkind, file, rest, name, hfile, hfile', hname, hname'⟩ := h
  have hlabel := Option.some.inj ((hr.handlerName_eq hkind).symm.trans hname)
  have hlabel' := Option.some.inj ((hr'.handlerName_eq (htype ▸ hkind)).symm.trans hname')
  refine Route.externalId_eq_of_toList_eq htype hmethod ?_
  rw [hfile, hfile', hlabel, hlabel']
  simp

/-- Routes that share an identity in one of these ways have the same one. -/
theorem Stems.externalId_eq
    {r r' : Route}
    (hr : Stems s m r)
    (hr' : Stems s m r')
    (h : r.SharesIdentity r') :
    r.externalId = r'.externalId := by
  obtain ⟨htype, hmethod, ⟨hnest, hfile, hname⟩ | hruns | hruns⟩ := h
  · have hlabel : r.label = r'.label := by
      refine Option.some.inj ?_
      rw [← hr.handlerName_eq (.inl hnest), ← hr'.handlerName_eq (.inl (htype ▸ hnest)), hname]
    exact Route.externalId_eq_of_toList_eq htype hmethod (by rw [hfile, hlabel])
  · exact hr.externalId_eq_of_runsInto hr' htype hmethod hruns
  · exact (hr'.externalId_eq_of_runsInto hr htype.symm hmethod.symm hruns).symm

end Stemming

section SoleControllers

/-- A project with a file of controllers and its manifest, and nothing else. -/
def soleController (text : String) : Site where
  tree := ⟨.directory [("a.controller.ts", .file (.text text)),
    ("package.json", .file (.text "\x7b\"dependencies\":\x7b\"@nestjs/core\":1\x7d\x7d"))]⟩
  root := ⟨true, []⟩
  options := .default

/-- What the project is loaded from. -/
def soleLoader (text : String) : Project.Loader :=
  ⟨(soleController text).tree, (soleController text).root, none, .ofPatterns []⟩

/-- The files of the project, loaded. -/
def soleProject (text : String) : Project :=
  ⟨(soleController text).tree, (soleController text).root, none, [⟨true, ["a.controller.ts"]⟩], []⟩

theorem walk_soleController
    (text : String)
    (enter : String → Bool) :
    (soleController text).tree.walk enter (soleController text).root =
      [⟨true, ["a.controller.ts"]⟩, ⟨true, ["package.json"]⟩] := by
  have hsorted : (!decide ("package.json" < "a.controller.ts")) = true := by decide
  show Files.Tree.walkEntries _ _ 1 _ _ = _
  rw [Files.Tree.walkEntries, Files.Tree.sortEntries_of_pairwise]
  · rfl
  · exact List.pairwise_pair.2 hsorted

/-- The file of controllers is a source, and the manifest is none. -/
theorem isCandidate_soleLoader (text : String) :
    (soleLoader text).isCandidate ⟨true, ["a.controller.ts"]⟩ = true ∧
      (soleLoader text).isCandidate ⟨true, ["package.json"]⟩ = false := by
  constructor
  · have hresolve : (soleLoader text).tree.resolve ⟨true, ["a.controller.ts"]⟩ =
        ⟨true, ["a.controller.ts"]⟩ := rfl
    rw [Project.Loader.isCandidate, Project.Loader.rootRelative, hresolve]
    show (_ && _ && !(Glob.Matcher.ofPatterns []).accepts
      ((Files.Path.relativeTo? ⟨true, ["a.controller.ts"]⟩ ⟨true, []⟩).getD _).toText) = true
    decide
  · have hsuffix : Syntax.SourceFile.sourceSuffixes.contains
        (Files.Path.suffix ⟨true, ["package.json"]⟩) = false := by
      decide
    rw [Project.Loader.isCandidate, hsuffix]
    rfl

theorem findFiles_soleLoader (text : String) :
    (soleLoader text).findFiles Controllers.patterns = [⟨true, ["a.controller.ts"]⟩] := by
  obtain ⟨hcontroller, hmanifest⟩ := isCandidate_soleLoader text
  have hresolve : (soleLoader text).tree.resolve ⟨true, ["a.controller.ts"]⟩ =
      ⟨true, ["a.controller.ts"]⟩ := rfl
  have hrelative : Files.Path.relativeTo? ⟨true, ["a.controller.ts"]⟩ (soleLoader text).root =
      some ⟨false, ["a.controller.ts"]⟩ := rfl
  have haccepts : (Glob.Matcher.ofPatterns Controllers.patterns).accepts
      (Files.Path.toText ⟨false, ["a.controller.ts"]⟩) = true := by
    decide
  have hpatterns : (Glob.Matcher.ofPatterns Controllers.patterns).isEmpty = false := by
    decide
  have hwalk : (soleLoader text).walk (soleLoader text).root (soleLoader text).root =
      [(⟨true, ["a.controller.ts"]⟩, Files.Path.toText ⟨false, ["a.controller.ts"]⟩)] := by
    rw [Project.Loader.walk]
    rw [show (soleLoader text).tree.walk _ (soleLoader text).root = _ from walk_soleController text _]
    simp only [List.filter_cons, List.filter_nil, hcontroller, hmanifest, if_true, if_false,
      Bool.false_eq_true, List.filterMap_cons, List.filterMap_nil, hresolve, hrelative,
      Option.map_some]
  rw [Project.Loader.findFiles, hwalk]
  simp only [hpatterns, haccepts, List.filter_cons, List.filter_nil, if_true, if_false,
    Bool.false_eq_true, List.map_cons, List.map_nil]

theorem load_soleLoader (text : String) :
    (soleLoader text).load Controllers.patterns true = .ok (soleProject text) := by
  have hconfig : (soleLoader text).readConfig? = .ok none := rfl
  rw [Project.Loader.load, hconfig, findFiles_soleLoader]
  rfl

theorem structured_soleController (text : String) :
    Controllers.structured (soleController text) = (do
      say .nest .debug "No tsconfig.json found, scanning controller files only"
      let project : Project := (soleProject text).readAll
      let s := soleController text
      let o ← Controllers.Overall.ofFiles s project .unset s.options.bootstrapFiles
      let files := project.sourceFiles.filter fun f => Text.contains f.text "Controller"
      say .nest .debug ("Found " ++ toString files.length ++ " candidate controller files")
      perFile s .nest (Controllers.ofFile s ⟨some project⟩ o) files) := by
  have hload : Extraction.load (soleLoader text) Controllers.patterns =
      pure (soleProject text).readAll := by
    rw [Extraction.load, load_soleLoader]
    rfl
  have hloader : Extraction.loader (soleController text) = pure (soleLoader text) := rfl
  have hconfig : (soleLoader text).findConfig?.isNone = true := rfl
  rw [Controllers.structured, hloader, pure_bind]
  simp only [hconfig, if_true, hload, pure_bind]
  rfl

end SoleControllers

section ContinuedFiles

/-- A project of two files with a procedure each. The path of the first file goes on in that of the second
one, and the rest of it begins the name of the first procedure. -/
def continuedFile : Site where
  tree := ⟨.directory [
    ("a.ts", .file (.text "const appRouter = router(\x7b \"ts#user.get\": t.query(f) \x7d);")),
    ("a.ts#app.ts", .file (.text "const userRouter = router(\x7b get: t.query(f) \x7d);")),
    ("package.json", .file (.text "\x7b\"dependencies\":\x7b\"@trpc/server\":1\x7d\x7d")),
    ("tsconfig.json", .file (.text "\x7b\x7d"))]⟩
  root := ⟨true, []⟩
  options := .default

/-- What the project is loaded from. -/
def continuedLoader : Project.Loader :=
  ⟨continuedFile.tree, continuedFile.root, none, .ofPatterns []⟩

/-- The files of the project, loaded. -/
def continuedProject : Project :=
  ⟨continuedFile.tree, continuedFile.root, some (.empty ⟨true, ["tsconfig.json"]⟩),
    [⟨true, ["a.ts"]⟩, ⟨true, ["a.ts#app.ts"]⟩], []⟩

theorem walk_continuedFile (enter : String → Bool) :
    continuedFile.tree.walk enter continuedFile.root =
      [⟨true, ["a.ts"]⟩, ⟨true, ["a.ts#app.ts"]⟩, ⟨true, ["package.json"]⟩,
        ⟨true, ["tsconfig.json"]⟩] := by
  show Files.Tree.walkEntries _ _ 1 _ _ = _
  rw [Files.Tree.walkEntries, Files.Tree.sortEntries_of_pairwise (by decide)]
  rfl

theorem projectOf_continuedFile :
    Procedures.projectOf continuedFile = .ok continuedProject.readAll := by
  have hfound : continuedLoader.findFiles ["src/server/api/**/*.\x7bts,tsx\x7d"] = [] := by
    rw [Project.Loader.findFiles, Project.Loader.walk]
    rw [show continuedLoader.tree.walk _ continuedLoader.root = _ from walk_continuedFile _]
    decide +kernel
  have hlisted : continuedLoader.configFiles (.empty ⟨true, ["tsconfig.json"]⟩) =
      .ok [⟨true, ["a.ts"]⟩, ⟨true, ["a.ts#app.ts"]⟩] := by
    have hbase : (if continuedLoader.root.isBelow
        (Project.Config.empty ⟨true, ["tsconfig.json"]⟩).directory then continuedLoader.root
        else (Project.Config.empty ⟨true, ["tsconfig.json"]⟩).directory) = continuedLoader.root := rfl
    simp only [Project.Loader.configFiles, hbase, Project.Loader.walk]
    rw [show continuedLoader.tree.walk _ continuedLoader.root = _ from walk_continuedFile _]
    decide +kernel
  exact Procedures.projectOf_eq_of_listed (l := continuedLoader) rfl rfl rfl rfl hlisted hfound

/-- The routes of a scan for which one framework is looked at, whose handlers are found. -/
theorem exists_scan_of_endsIn
    {s : Site}
    {wanted : List Framework}
    {f : Framework}
    {work : Extraction (List Handler)}
    {hs : List Handler}
    (hroot : s.tree.isDirectory s.root = true)
    (hselected : Scan.selected (RouteAtlas.detection s.tree s.root) wanted = [f])
    (hwork : f.handlers s = .ok work)
    (hhandlers : EndsIn work (.ok hs))
    (p : Progress) :
    ∃ scan, ends (Scan.run s wanted) p = .ok scan ∧ scan.routes = Route.ofHandlers hs := by
  have hroutes (q : Progress) : ends (Scan.routesOf s [f]) q = .ok (Route.ofHandlers hs) :=
    Scan.ends_routesOf_singleton hwork (hhandlers q).1
  refine ⟨⟨s.root, (RouteAtlas.detection s.tree s.root).map fun d => (d.1.key, d.2),
    Route.ofHandlers hs⟩, ?_, rfl⟩
  unfold Scan.run
  simp only [hroot, hselected, Bool.not_true, if_false, Bool.false_eq_true]
  refine (congrArg Prod.fst (run_bind_of_ok rfl _)).trans ?_
  exact congrArg Prod.fst (run_bind_of_ok (hroutes _) _)

/-- The two procedures, both queries, with the paths and the identities of their routes. -/
theorem exists_scan_continuedFile :
    ∃ scan r r', ends (Scan.run continuedFile []) .start = .ok scan ∧ scan.routes = [r, r'] ∧
      r.path ≠ r'.path ∧ r.externalId = r'.externalId := by
  have hfound : (Procedures.handlersOf continuedFile (Procedures.surveyed
        (Procedures.readerOf continuedFile Site.usualRecognition continuedProject.readAll)
        continuedProject.readAll.sourceFiles).withPaths).map (fun hs =>
      (Route.ofHandlers hs).map fun r => (r.path, r.externalId)) =
        .ok [("/api/trpc/app.ts#user.get", "trpc:/a.ts#app.ts#user.get:GET"),
          ("/api/trpc/user.get", "trpc:/a.ts#app.ts#user.get:GET")] := by
    decide +kernel
  obtain ⟨hs, hhandlers, hroutes⟩ := exists_of_map_eq_ok hfound
  have hstructured : EndsIn (Procedures.structured continuedFile Site.usualRecognition) (.ok hs) :=
    hhandlers ▸ Procedures.endsIn_structured projectOf_continuedFile
  have hselected : Scan.selected (RouteAtlas.detection continuedFile.tree continuedFile.root) [] =
      [.trpc] := by
    decide +kernel
  have hwork : Framework.trpc.handlers continuedFile =
      .ok (Procedures.handlers continuedFile Site.usualRecognition) := by
    show (Procedures.Recognition.ofSettings Options.default.routerFactories
      Options.default.routerPattern >>= fun r => .ok (Procedures.handlers continuedFile r)) = _
    rw [Site.ofSettings_default]
    rfl
  obtain ⟨scan, hscan, hscanned⟩ :=
    exists_scan_of_endsIn rfl hselected hwork (hstructured.orElseWith _) .start
  obtain ⟨r, rest, hlist, hr, hrest⟩ := List.map_eq_cons_iff.1 hroutes
  obtain ⟨r', rfl, hr'⟩ := List.map_eq_singleton_iff.1 hrest
  obtain ⟨hpath, hid⟩ := Prod.mk.inj hr
  obtain ⟨hpath', hid'⟩ := Prod.mk.inj hr'
  refine ⟨scan, r, r', hscan, hscanned.trans hlist, ?_, hid.trans hid'.symm⟩
  rw [hpath, hpath']
  decide

end ContinuedFiles

section Results

/-- Two routes of a scan that differ in their path or in their method have different identities, unless
they agree in their method and are apart in one of the ways in which routes share an identity. Then they
have the same one. -/
theorem Scan.externalId_eq_iff
    {s : Site}
    (hs : s.IsPlain)
    {wanted : List Framework}
    {p : Progress}
    {scan : Scan}
    (hscan : ends (Scan.run s wanted) p = .ok scan)
    {r r' : Route}
    (hr : r ∈ scan.routes)
    (hr' : r' ∈ scan.routes)
    (hne : r.path ≠ r'.path ∨ r.method ≠ r'.method) :
    r.externalId = r'.externalId ↔ r.SharesIdentity r' := by
  have hstems : ∀ r ∈ scan.routes, Stems s _ r :=
    (yields_run (lasting_originates s) (fun _ _ => yields_frameworkHandlers hs) wanted p).2 scan hscan
  constructor
  · intro hid
    refine (hstems r hr).sharesIdentity (hstems r' hr') hid (hne.resolve_right fun hmethod => hmethod ?_)
    obtain ⟨h, hroute, -⟩ := hstems r hr
    obtain ⟨h', hroute', -⟩ := hstems r' hr'
    exact (Route.parts_eq_of_externalId_eq hroute hroute' hid).2.1
  · exact (hstems r hr).externalId_eq (hstems r' hr')

/-- A project with one controller that lists two paths, whose methods answer under both. -/
def listedPaths : Site where
  tree := ⟨.directory [("a.controller.ts", .file (.text
      "@Controller(['a','b'])class C\x7b@Get()m()\x7b\x7d@Get('x')n()\x7b\x7d\x7d")),
    ("package.json", .file (.text "\x7b\"dependencies\":\x7b\"@nestjs/core\":1\x7d\x7d"))]⟩
  root := ⟨true, []⟩
  options := .default

/-- A route of the controller of the project. -/
def listedRoute (path handlerName : String) : Route where
  name := "GET " ++ path
  path := path
  method := "GET"
  filePath := some "/a.controller.ts"
  type := "nestjs"
  handlerName := some handlerName
  headers := none
  query := none
  body := none

theorem routes_listedPaths :
    (ends (Scan.run listedPaths []) .start).map Scan.routes =
      .ok [listedRoute "/a" "C.m", listedRoute "/b" "C.m", listedRoute "/a/x" "C.n",
        listedRoute "/b/x" "C.n"] := by
  have hsole : listedPaths = soleController
      "@Controller(['a','b'])class C\x7b@Get()m()\x7b\x7d@Get('x')n()\x7b\x7d\x7d" := rfl
  rw [hsole]
  simp only [Scan.run, Scan.routesOf, Framework.handlers, Controllers.handlers,
    structured_soleController]
  decide +kernel

theorem isPlain_listedPaths : listedPaths.IsPlain where
  tree := by
    refine .directory ?_ ?_
    · simp [Files.IsPlainName]
    · simp only [List.forall_mem_cons]
      exact ⟨.file _, .file _, by simp⟩
  root := by simp [listedPaths, Files.Path.IsPlain]
  config := by
    rintro p ⟨⟩

theorem exists_scan_listedPaths :
    ∃ scan, ends (Scan.run listedPaths []) .start = .ok scan ∧
      scan.routes = [listedRoute "/a" "C.m", listedRoute "/b" "C.m", listedRoute "/a/x" "C.n",
        listedRoute "/b/x" "C.n"] :=
  exists_of_map_eq_ok routes_listedPaths

/-- The two paths of one method share an identity, and those of different methods do not. -/
theorem Scan.externalId_eq_iff_listedPaths :
    listedPaths.IsPlain ∧ ∃ scan, ends (Scan.run listedPaths []) .start = .ok scan ∧
      listedRoute "/a" "C.m" ∈ scan.routes ∧ listedRoute "/b" "C.m" ∈ scan.routes ∧
      listedRoute "/b/x" "C.n" ∈ scan.routes ∧
      (listedRoute "/a" "C.m").externalId = (listedRoute "/b" "C.m").externalId ∧
      (listedRoute "/a" "C.m").externalId ≠ (listedRoute "/b/x" "C.n").externalId := by
  obtain ⟨scan, hscan, hroutes⟩ := exists_scan_listedPaths
  have hr : listedRoute "/a" "C.m" ∈ scan.routes := by simp [hroutes]
  have hsame : listedRoute "/b" "C.m" ∈ scan.routes := by simp [hroutes]
  have hother : listedRoute "/b/x" "C.n" ∈ scan.routes := by simp [hroutes]
  refine ⟨isPlain_listedPaths, scan, hscan, hr, hsame, hother, ?_, fun hid => ?_⟩
  · exact (Scan.externalId_eq_iff isPlain_listedPaths hscan hr hsame (.inl (by decide))).2
      ⟨rfl, rfl, .inl ⟨rfl, rfl, rfl⟩⟩
  · obtain ⟨-, -, ⟨-, -, hnames⟩ | hruns | hruns⟩ :=
      (Scan.externalId_eq_iff isPlain_listedPaths hscan hr hother (.inl (by decide))).1 hid
    · revert hnames
      decide
    · exact hruns.filePath_ne rfl
    · exact hruns.filePath_ne rfl

/-- A path is not always told by the identity of a route. A method of a controller that lists two paths has
one identity under both, and so have procedures of two files when the one path goes on in the other. -/
theorem Scan.not_externalId_ne :
    (¬ ∀ scan, ends (Scan.run listedPaths []) .start = .ok scan →
        ∀ r ∈ scan.routes, ∀ r' ∈ scan.routes,
          r.path ≠ r'.path ∨ r.method ≠ r'.method → r.externalId ≠ r'.externalId) ∧
      ¬ ∀ scan, ends (Scan.run continuedFile []) .start = .ok scan →
        ∀ r ∈ scan.routes, ∀ r' ∈ scan.routes,
          r.path ≠ r'.path ∨ r.method ≠ r'.method → r.externalId ≠ r'.externalId := by
  constructor
  · intro h
    obtain ⟨scan, hscan, hroutes⟩ := exists_scan_listedPaths
    exact h scan hscan (listedRoute "/a" "C.m") (by simp [hroutes]) (listedRoute "/b" "C.m")
      (by simp [hroutes]) (.inl (by decide)) rfl
  · intro h
    obtain ⟨scan, r, r', hscan, hroutes, hpath, hid⟩ := exists_scan_continuedFile
    exact h scan hscan r (by simp [hroutes]) r' (by simp [hroutes]) (.inl hpath) hid

end Results

end RouteAtlas
