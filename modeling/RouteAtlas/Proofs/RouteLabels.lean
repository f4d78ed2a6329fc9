import Mathlib
import RouteAtlas.Proofs.ReportedRoutes
import RouteAtlas.Proofs.ReportedVerbs
import RouteAtlas.Proofs.RouteIdentity

/-!
# Labels of routes

A handler is labelled with its method and its path, and its path is made canonical only when it is
reported. So the label of a route tells its path exactly if the path of the handler was canonical, and
ended with no white space, from the start. Where files are routes, it is made canonical for the label too,
and only white space may be left at its end. The path of a procedure is as canonical as the base path in
the options and the name of the procedure are, and that of a method of a controller as the pieces that
decorators give.
-/

namespace RouteAtlas

open Extraction
open Route (SlashesApart IsCanonical EndsBlank normalizePath)

section Spellings

/-- What the path of a handler is written with: the path that is remembered for its file, the base path
of procedures and the full name of one, or the pieces of a path of a controller. -/
inductive Spelling where
  | pattern (raw : String)
  | request (basePath name : String)
  | joined (pieces : List String)

namespace Spelling

/-- A base path without the slashes at its end. -/
def front (basePath : String) : List Char :=
  Text.dropLastWhile (· = '/') basePath.toList

/-- Pieces without the slashes at their ends, as far as something is left of them. -/
def kept (pieces : List String) : List String :=
  (pieces.map (Text.trimWith (· = '/'))).filter fun p => !p.isEmpty

/-- The path as it is written. -/
def path : Spelling → String
  | pattern raw => FileRoutes.patternOf raw
  | request basePath name => String.ofList (front basePath) ++ "/" ++ name
  | joined pieces => Controllers.joinPieces pieces

/-- What a path has to be written with to be reported as it is written. -/
def IsTidy : Spelling → Prop
  | pattern raw => ¬EndsBlank (FileRoutes.patternOf raw)
  | request basePath name =>
    (∀ c, (front basePath).head? = some c → c = '/') ∧ SlashesApart (front basePath) ∧
      SlashesApart ('/' :: name.toList) ∧ name.toList.getLast? ≠ some '/' ∧ ¬EndsBlank name
  | joined pieces =>
    (∀ p ∈ kept pieces, SlashesApart p.toList) ∧
      ∀ p, (kept pieces).getLast? = some p → ¬EndsBlank p

end Spelling

end Spellings

section Tidying

open Spelling

/-- Anything may follow what does not end with a slash. -/
theorem slashesApart_append
    {cs : List Char}
    (hlast : cs.getLast? ≠ some '/')
    (ds : List Char) :
    SlashesApart (cs ++ ds) ↔ SlashesApart cs ∧ SlashesApart ds := by
  unfold Route.SlashesApart
  rw [List.isChain_append]
  refine and_congr_right fun _ => ⟨And.left, fun hds => ⟨hds, ?_⟩⟩
  rintro c hc d - ⟨rfl, -⟩
  exact hlast hc

/-- What is left of a list without the characters of a class at its end does not end with one. -/
theorem not_of_getLast?_dropLastWhile
    {p : Char → Bool}
    {cs : List Char}
    {c : Char}
    (hlast : (Text.dropLastWhile p cs).getLast? = some c) :
    ¬p c := by
  have hne : cs.rdropWhile p ≠ [] := List.ne_nil_of_mem (List.mem_of_getLast? hlast)
  have hnot := List.rdropWhile_last_not p cs hne
  have hlast' : (cs.rdropWhile p).getLast? = some c := hlast
  rw [List.getLast?_eq_some_getLast hne, Option.some.injEq] at hlast'
  rwa [hlast'] at hnot

/-- What is left of a list without the characters of a class at its start does not start with one. -/
theorem not_of_head?_dropWhile
    {p : Char → Bool}
    {cs : List Char}
    {c : Char}
    (hhead : (cs.dropWhile p).head? = some c) :
    ¬p c := by
  have hnot := List.head?_dropWhile_not p cs
  rw [hhead] at hnot
  simpa using hnot

/-- A path of a file is reported as it is written unless it ends with white space. -/
theorem normalizePath_pattern (raw : String) :
    normalizePath (pattern raw).path = (pattern raw).path ↔ (pattern raw).IsTidy := by
  rw [Route.normalizePath_eq_self_iff]
  exact and_iff_right (Route.isCanonical_normalizePath _)

theorem normalizePath_request
    (basePath : String)
    {name : String}
    (hname : name ≠ "") :
    normalizePath (request basePath name).path = (request basePath name).path ↔
      (request basePath name).IsTidy := by
  have hchars : (request basePath name).path.toList = front basePath ++ '/' :: name.toList := by
    simp [path]
  have hne : name.toList ≠ [] := by simpa using hname
  have hlast : (request basePath name).path.toList.getLast? = name.toList.getLast? := by
    rw [hchars, List.getLast?_append_cons, List.getLast?_cons_of_ne_nil hne]
  have hroot : (request basePath name).path ≠ "/" := by
    intro hroot
    have hlength := congrArg (fun s => s.toList.length) hroot
    have hpos := List.length_pos_of_ne_nil hne
    simp only [hchars, List.length_append, List.length_cons] at hlength
    have hslash : "/".toList.length = 1 := rfl
    omega
  have hfront : (front basePath).getLast? ≠ some '/' :=
    fun h => not_of_getLast?_dropLastWhile h (by decide)
  have hstarts : (front basePath ++ '/' :: name.toList).head? = some '/' ↔
      ∀ c, (front basePath).head? = some c → c = '/' := by
    cases front basePath with
    | nil => simp
    | cons c rest => simp
  have hblank : EndsBlank (request basePath name).path ↔ EndsBlank name := by
    rw [EndsBlank, hlast]
    rfl
  rw [Route.normalizePath_eq_self_iff, hblank]
  constructor
  · rintro ⟨⟨hstart, hapart, hend⟩, hblank⟩
    rw [← Route.slashesApart_iff, hchars, slashesApart_append hfront] at hapart
    rw [hlast] at hend
    exact ⟨hstarts.1 (hchars ▸ hstart), hapart.1, hapart.2, fun h => hroot (hend h), hblank⟩
  · rintro ⟨hstart, hapart, hapart', hend, hblank⟩
    refine ⟨⟨?_, ?_, fun h => absurd (hlast ▸ h) hend⟩, hblank⟩
    · rw [hchars]
      exact hstarts.2 hstart
    · rw [← Route.slashesApart_iff, hchars]
      exact (slashesApart_append hfront _).2 ⟨hapart, hapart'⟩

/-- What is left of a piece starts and ends with no slash. -/
theorem ends_of_mem_kept
    {pieces : List String}
    {p : String}
    (hp : p ∈ kept pieces) :
    p.toList ≠ [] ∧ p.toList.head? ≠ some '/' ∧ p.toList.getLast? ≠ some '/' := by
  obtain ⟨hmem, hfull⟩ := List.mem_filter.1 hp
  obtain ⟨piece, -, rfl⟩ := List.mem_map.1 hmem
  have hne : (Text.trimWith (· = '/') piece).toList ≠ [] := by simpa using hfull
  have hchars : (Text.trimWith (· = '/') piece).toList =
      (piece.toList.dropWhile (· = '/')).rdropWhile (· = '/') := String.toList_ofList
  refine ⟨hne, fun hhead => ?_, fun hlast => ?_⟩
  · rw [hchars] at hhead hne
    obtain ⟨dropped, hdropped⟩ := List.rdropWhile_prefix (· = '/') (piece.toList.dropWhile (· = '/'))
    have hhead' : (piece.toList.dropWhile (· = '/')).head? = some '/' := by
      rw [← hdropped, List.head?_append_of_ne_nil _ hne]
      exact hhead
    exact not_of_head?_dropWhile hhead' (by decide)
  · rw [hchars] at hlast
    exact not_of_getLast?_dropLastWhile hlast (by decide)

/-- Pieces that are joined have a slash in front of each. -/
theorem slash_joinWith
    {ps : List String}
    (hne : ps ≠ []) :
    '/' :: (Text.joinWith "/" ps).toList = ps.flatMap fun p => '/' :: p.toList := by
  induction ps with
  | nil => exact absurd rfl hne
  | cons p rest ih =>
    cases rest with
    | nil => simp [Text.joinWith]
    | cons q more =>
      rw [List.flatMap_cons, ← ih (List.cons_ne_nil q more), Text.joinWith]
      · simp
      · exact List.cons_ne_nil q more

/-- Slashes stand apart among joined pieces if they do within each. -/
theorem slashesApart_flatMap
    {ps : List String}
    (hps : ∀ p ∈ ps, p.toList ≠ [] ∧ p.toList.head? ≠ some '/' ∧ p.toList.getLast? ≠ some '/') :
    SlashesApart (ps.flatMap fun p => '/' :: p.toList) ↔ ∀ p ∈ ps, SlashesApart p.toList := by
  induction ps with
  | nil => simp [Route.SlashesApart]
  | cons p rest ih =>
    rw [List.forall_mem_cons] at hps
    obtain ⟨⟨hne, hhead, hlast⟩, hrest⟩ := hps
    have hlast' : ('/' :: p.toList).getLast? ≠ some '/' := by
      rwa [List.getLast?_cons_of_ne_nil hne]
    have hpiece : SlashesApart ('/' :: p.toList) ↔ SlashesApart p.toList := by
      unfold Route.SlashesApart
      rw [List.isChain_cons]
      refine and_iff_right ?_
      rintro c hc ⟨-, rfl⟩
      exact hhead hc
    rw [List.flatMap_cons, slashesApart_append hlast', hpiece, ih hrest, List.forall_mem_cons]

theorem normalizePath_joined (pieces : List String) :
    normalizePath (joined pieces).path = (joined pieces).path ↔ (joined pieces).IsTidy := by
  have hpath : (joined pieces).path = "/" ++ Text.joinWith "/" (kept pieces) := rfl
  rw [Route.normalizePath_eq_self_iff]
  rcases List.eq_nil_or_concat (kept pieces) with hnil | ⟨before, last, hlast⟩
  · have hroot : (joined pieces).path = "/" := by rw [hpath, hnil]; rfl
    have hcanonical := (Route.normalizePath_eq_self_iff "/").1 (by decide)
    rw [hroot]
    simp [IsTidy, hnil, hcanonical]
  · have hne : kept pieces ≠ [] := by simp [hlast]
    have hpieces : ∀ p ∈ kept pieces, _ := fun p hp => ends_of_mem_kept hp
    have hchars : (joined pieces).path.toList = (kept pieces).flatMap fun p => '/' :: p.toList := by
      rw [← slash_joinWith hne, hpath]
      simp
    obtain ⟨hfull, -, hend⟩ := hpieces last (by simp [hlast])
    have hgetLast : (joined pieces).path.toList.getLast? = last.toList.getLast? := by
      rw [hchars, hlast, List.concat_eq_append, List.flatMap_append, List.flatMap_singleton,
        List.getLast?_append_cons, List.getLast?_cons_of_ne_nil hfull]
    have hstart : (joined pieces).path.toList.head? = some '/' := by rw [hpath]; simp
    have hblank : EndsBlank (joined pieces).path ↔ EndsBlank last := by
      rw [EndsBlank, hgetLast]
      rfl
    rw [hblank]
    constructor
    · rintro ⟨⟨-, hapart, -⟩, hblank⟩
      rw [← Route.slashesApart_iff, hchars, slashesApart_flatMap hpieces] at hapart
      refine ⟨hapart, fun p hp => ?_⟩
      rw [hlast, List.concat_eq_append, List.getLast?_concat, Option.some.injEq] at hp
      rwa [← hp]
    · rintro ⟨hapart, hblank⟩
      refine ⟨⟨hstart, ?_, fun h => absurd (hgetLast ▸ h) hend⟩, hblank last ?_⟩
      · rw [← Route.slashesApart_iff, hchars, slashesApart_flatMap hpieces]
        exact hapart
      · rw [hlast, List.concat_eq_append, List.getLast?_concat]

end Tidying

section Labels

/-- What the path of a handler is written with at a site. -/
def Spelling.IsOf
    (s : Site)
    (m : Memory)
    (h : Handler) :
    Spelling → Prop
  | .pattern raw =>
    (h.framework = .appRouter ∨ h.framework = .pagesRouter) ∧
      ∃ file : Files.Path, h.filePath = file.toText ∧ m (s.tree.resolve file) = some raw
  | .request basePath name =>
    h.framework = .trpc ∧ s.options.basePath = .str basePath ∧ h.handlerName = some name ∧ name ≠ ""
  | .joined pieces =>
    h.framework = .nest ∧
      ∃ (c : Controllers.Controller) (method : Syntax.Node) (facts : Controllers.RequestFacts),
        Controllers.MethodOf s c.file method ∧
          h = Controllers.handlerAt c method facts h.method h.path ∧
          ∃ controllerPath ∈ c.paths, ∃ version methodPath,
            pieces = [c.overallPrefix.getD "", version, controllerPath, methodPath]

/-- A handler that is labelled with its method and its path, as that is written. -/
structure Labelled
    (s : Site)
    (m : Memory)
    (h : Handler) :
    Prop where
  verb : h.method ∈ Route.verbs
  name : h.name = some (h.method ++ " " ++ h.path)
  spelled : ∃ sp : Spelling, sp.IsOf s m h ∧ h.path = sp.path

variable {s : Site}

theorem lasting_labelled (s : Site) : Lasting (Labelled s) := by
  rintro m m' h hm ⟨hverb, hname, sp, hsp, hpath⟩
  refine ⟨hverb, hname, sp, ?_, hpath⟩
  cases sp with
  | pattern raw =>
    obtain ⟨hframework, file, hfile, hraw⟩ := hsp
    exact ⟨hframework, file, hfile, hm _ _ hraw⟩
  | request basePath name => exact hsp
  | joined pieces => exact hsp

theorem FileRoutes.LocatedAt.labelled
    {f : Framework}
    {file : Files.Path}
    {m : Memory}
    {h : Handler}
    (hf : f = .appRouter ∨ f = .pagesRouter)
    (hlocated : LocatedAt s f file m h)
    (hverb : h.method ∈ Route.verbs) :
    Labelled s m h := by
  obtain ⟨raw, hmade, hraw⟩ := hlocated
  exact ⟨hverb, hmade.name_eq, .pattern raw,
    ⟨hmade.framework_eq ▸ hf, file, hmade.filePath_eq, hraw⟩, hmade.path_eq⟩

/-- Handlers that are found at the path of their file, one for each of some methods, are labelled. -/
theorem FileRoutes.GivesVerbs.yields_labelled
    {f : Framework}
    {file : Files.Path}
    {R : Handler → Prop}
    {work : Extraction (List Handler)}
    (hf : f = .appRouter ∨ f = .pagesRouter)
    (hverbs : GivesVerbs s work)
    (hlocated : Yields s (fun m hs => ∀ h ∈ hs, R h ∧ LocatedAt s f file m h) work) :
    Yields s (fun m hs => ∀ h ∈ hs, Labelled s m h) work := by
  obtain ⟨vs, hvs, hmethods⟩ := hverbs
  intro p
  refine ⟨(hlocated p).1, fun hs hends h hh => ?_⟩
  have hmethod : h.method ∈ vs := (hmethods p).2 hs hends ▸ List.mem_map_of_mem hh
  exact ((hlocated p).2 hs hends h hh).2.labelled hf (hvs.are_verbs _ hmethod)

theorem Procedures.labelled_handlerOf
    {m : Memory}
    {basePath : String}
    {p : Procedure}
    (hbase : s.options.basePath = .str basePath)
    (hrouter : p.router ≠ "") :
    Labelled s m (handlerOf s basePath p) where
  verb := by
    show p.method ∈ Route.verbs
    unfold Procedure.method
    split <;> decide
  name := rfl
  spelled := ⟨.request basePath p.qualifiedName,
    ⟨rfl, hbase, rfl, qualifiedName_ne_empty hrouter⟩, rfl⟩

theorem Controllers.exists_joinPieces_of_mem_routePaths
    {overall : Option String}
    {versions : List String}
    {controllerPath methodPath path : String}
    (hpath : path ∈ routePaths overall versions controllerPath methodPath) :
    ∃ version, path = joinPieces [overall.getD "", version, controllerPath, methodPath] := by
  unfold routePaths at hpath
  dsimp only at hpath
  split at hpath
  · exact ⟨"", List.mem_singleton.1 hpath⟩
  · obtain ⟨version, -, hversion⟩ := List.mem_map.1 hpath
    exact ⟨version, hversion.symm⟩

theorem Controllers.labelled_handlerAt
    {m : Memory}
    {c : Controller}
    {method : Syntax.Node}
    {verb path : String}
    (hmethod : MethodOf s c.file method)
    (hroutes : c.Routes verb path)
    (facts : RequestFacts) :
    Labelled s m (handlerAt c method facts verb path) := by
  obtain ⟨hverb, versions, controllerPath, methodPath, hlisted, hpath⟩ := hroutes
  obtain ⟨version, hpath⟩ := exists_joinPieces_of_mem_routePaths hpath
  exact ⟨hverb, rfl, .joined _,
    ⟨rfl, c, method, facts, hmethod, rfl, controllerPath, hlisted, version, methodPath, rfl⟩, hpath⟩

/-- The handlers that a framework finds are labelled. -/
theorem yields_labelled
    {f : Framework}
    {work : Extraction (List Handler)}
    (h : f.handlers s = .ok work) :
    Yields s (fun m hs => ∀ h ∈ hs, Labelled s m h) work := by
  cases f with
  | appRouter =>
    obtain rfl := Except.ok.inj h
    refine FileRoutes.appLayout.yields_handlers (lasting_labelled s) FileRoutes.endsIn_appAccepts
      (fun project file _ => ?_) (fun n => "Found " ++ toString n ++ " App Router route files")
      (fun n => "Basic mode found " ++ toString n ++ " App Router handlers") fun _ _ _ path _ => ?_
    · exact FileRoutes.givesVerbs_appFile.yields_labelled (.inl rfl) FileRoutes.yields_appFile
    · exact (FileRoutes.givesVerbs_appText path).yields_labelled (.inl rfl)
        (FileRoutes.yields_appText path)
  | pagesRouter =>
    obtain rfl := Except.ok.inj h
    refine FileRoutes.pagesLayout.yields_handlers (lasting_labelled s) FileRoutes.endsIn_pagesAccepts
      (fun project file _ => ?_) (fun n => "Found " ++ toString n ++ " Pages API files")
      (fun n => "Basic mode found " ++ toString n ++ " Pages API handlers") fun _ _ _ path _ => ?_
    · exact FileRoutes.givesVerbs_pagesFile.yields_labelled (.inr rfl) FileRoutes.yields_pagesFile
    · exact (FileRoutes.givesVerbs_pagesText path).yields_labelled (.inr rfl)
        (FileRoutes.yields_pagesText path)
  | trpc =>
    unfold Framework.handlers at h
    obtain ⟨recognition, -, h⟩ := exists_of_bind_eq_ok h
    obtain rfl := Except.ok.inj h
    refine (Procedures.settled_handlers (P := fun h => ∀ m, Labelled s m h) ?_).yields.mono
      fun m hs hall h hh => hall h hh m
    exact fun basePath p hbase hsurveyed _ =>
      Procedures.labelled_handlerOf hbase hsurveyed.router_ne_empty
  | nest =>
    obtain rfl := Except.ok.inj h
    refine (Controllers.settled_handlers (P := fun h => ∀ m, Labelled s m h) ?_).yields.mono
      fun m hs hall h hh => hall h hh m
    exact fun c method facts verb path hmethod hroutes _ =>
      Controllers.labelled_handlerAt hmethod hroutes facts

end Labels

section Results

/-- A path is reported as it is written exactly if it is written with tidy parts. -/
theorem Spelling.IsOf.normalizePath_eq_iff
    {s : Site}
    {m : Memory}
    {h : Handler}
    {sp : Spelling}
    (hsp : sp.IsOf s m h) :
    normalizePath sp.path = sp.path ↔ sp.IsTidy := by
  cases sp with
  | pattern raw => exact normalizePath_pattern raw
  | request basePath name =>
    obtain ⟨-, -, -, hname⟩ := hsp
    exact normalizePath_request basePath hname
  | joined pieces => exact normalizePath_joined pieces

/-- A handler that has a name is reported under it. -/
theorem Route.name_of_ofHandler?
    {h : Handler}
    {r : Route}
    {name : String}
    (hr : ofHandler? h = some r)
    (hname : h.name = some name)
    (hne : name ≠ "") :
    r.name = name := by
  obtain ⟨m, -, rfl⟩ := Option.map_eq_some_iff.1 hr
  show (filled? h.name).getD _ = name
  rw [hname, filled?_some hne, Option.getD_some]

/-- The label of a labelled handler is what its route is reported under. -/
theorem Labelled.name_eq
    {s : Site}
    {m : Memory}
    {h : Handler}
    {r : Route}
    (hlabelled : Labelled s m h)
    (hr : Route.ofHandler? h = some r) :
    r.name = r.method ++ " " ++ h.path := by
  obtain ⟨hverb, -⟩ := Route.fields_of_ofHandler? hr
  have hmethod : h.method = r.method := by
    rw [FileRoutes.verb?_of_mem hlabelled.verb] at hverb
    exact Option.some.inj hverb
  have hne : h.method ++ " " ++ h.path ≠ "" := by
    intro hempty
    have hlength := congrArg String.length hempty
    simp [String.length_append] at hlength
  rw [Route.name_of_ofHandler? hr hlabelled.name hne, hmethod]

/-- Every route of a scan is labelled with its method and the path of its handler as that is written, and
has the canonical form of this path. So it is labelled with its method and its own path exactly if the
path is written with tidy parts. -/
theorem Scan.label_eq_iff
    {s : Site}
    {wanted : List Framework}
    {p : Progress}
    {scan : Scan}
    (hscan : ends (Scan.run s wanted) p = .ok scan)
    {r : Route}
    (hr : r ∈ scan.routes) :
    ∃ h sp, Route.ofHandler? h = some r ∧
      Spelling.IsOf s (remembered s (leaves (Scan.run s wanted) p)) h sp ∧
      r.name = r.method ++ " " ++ sp.path ∧ r.path = normalizePath sp.path ∧
      (r.name = r.method ++ " " ++ r.path ↔ sp.IsTidy) := by
  have hroutes := (yields_run (lasting_labelled s) (fun _ _ => yields_labelled) wanted p).2 scan hscan
  obtain ⟨h, hroute, hlabelled⟩ := hroutes r hr
  obtain ⟨sp, hsp, hwritten⟩ := hlabelled.spelled
  have hname : r.name = r.method ++ " " ++ sp.path := hwritten ▸ hlabelled.name_eq hroute
  have hpath : r.path = normalizePath sp.path :=
    hwritten ▸ (Route.fields_of_ofHandler? hroute).2.1
  refine ⟨h, sp, hroute, hsp, hname, hpath, ?_⟩
  rw [hname, hpath, String.append_right_inj, eq_comm]
  exact hsp.normalizePath_eq_iff

theorem Scan.label_eq_iff_listedPaths :
    ∃ scan, ends (Scan.run listedPaths []) .start = .ok scan ∧
      listedRoute "/a/x" "C.n" ∈ scan.routes ∧
      ∃ h sp, Route.ofHandler? h = some (listedRoute "/a/x" "C.n") ∧
        Spelling.IsOf listedPaths
          (remembered listedPaths (leaves (Scan.run listedPaths []) .start)) h sp ∧
        (listedRoute "/a/x" "C.n").name = (listedRoute "/a/x" "C.n").method ++ " " ++ sp.path ∧
        (listedRoute "/a/x" "C.n").path = normalizePath sp.path ∧
        ((listedRoute "/a/x" "C.n").name =
          (listedRoute "/a/x" "C.n").method ++ " " ++ (listedRoute "/a/x" "C.n").path ↔
            sp.IsTidy) := by
  obtain ⟨scan, hscan, hroutes⟩ := exists_scan_listedPaths
  have hr : listedRoute "/a/x" "C.n" ∈ scan.routes := by simp [hroutes]
  exact ⟨scan, hscan, hr, Scan.label_eq_iff hscan hr⟩

/-- A project with one controller, in whose path a slash is doubled. -/
def doubledSlash : Site :=
  soleController "@Controller('api//users')class C\x7b@Get()list()\x7b\x7d\x7d"

theorem routes_doubledSlash :
    (ends (Scan.run doubledSlash []) .start).map Scan.routes =
      .ok [⟨"GET /api//users", "/api/users", "GET", some "/a.controller.ts", "nestjs", some "C.list",
        none, none, none⟩] := by
  simp only [doubledSlash, Scan.run, Scan.routesOf, Framework.handlers, Controllers.handlers,
    structured_soleController]
  decide +kernel

/-- The label of a route does not always tell its path: that of a controller keeps a doubled slash. -/
theorem Scan.not_label_eq_doubledSlash :
    ¬ ∀ (s : Site) (wanted : List Framework) (scan : Scan),
      ends (Scan.run s wanted) .start = .ok scan →
        ∀ r ∈ scan.routes, r.name = r.method ++ " " ++ r.path := by
  intro h
  obtain ⟨scan, hscan, hroutes⟩ := exists_of_map_eq_ok routes_doubledSlash
  have hlabel := h doubledSlash [] scan hscan
    ⟨"GET /api//users", "/api/users", "GET", some "/a.controller.ts", "nestjs", some "C.list",
      none, none, none⟩
    (by rw [hroutes]; exact List.mem_singleton_self _)
  revert hlabel
  decide

end Results

end RouteAtlas
