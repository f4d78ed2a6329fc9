import Mathlib
import RouteAtlas.Proofs.FileSources
import RouteAtlas.Scan

/-!
# Independence of frameworks

The frameworks of a scan are extracted one after the other, and all share the paths that are
remembered. Only the two layouts by which files are routes look paths up, and each derives a path of
its own for a file. So they interfere exactly at a file for which the earlier one remembers a path, and
in which the later one finds routes, if the two paths are different route patterns. Everything else is
the same as if each framework had been extracted alone.
-/

namespace RouteAtlas.Scan

open Extraction
open FileRoutes (Source Matches patternOf)

section Clashes

/-- The files that a framework looks at for routes, if it knows the path of a route by its file. -/
def sources (s : Site) : Framework → List Source
  | .appRouter => FileRoutes.appLayout.sources s
  | .pagesRouter => FileRoutes.pagesLayout.sources s
  | .trpc | .nest => []

/-- The extraction of a framework clashes with an earlier one at a file in which it finds routes, when
the two remember different route patterns for this file. -/
def Clash
    (s : Site)
    (earlier later : Framework) :
    Prop :=
  ∃ w ∈ sources s later, FindsRoutes w.find ∧
    ∃ v v',
      remembered s (leaves (routesOf s [earlier]) .start) (s.tree.resolve w.file) = some v ∧
      remembered s (leaves (routesOf s [later]) .start) (s.tree.resolve w.file) = some v' ∧
      patternOf v ≠ patternOf v'

/-- An extraction of some frameworks in a given order gives to every part of them, down to a single one,
exactly the routes that an extraction of this part gives. -/
def Independent
    (s : Site)
    (frameworks : List Framework) :
    Prop :=
  ∃ rs, ends (routesOf s frameworks) .start = .ok rs ∧
    ∀ part, part.Sublist frameworks →
      ends (routesOf s part) .start = .ok (rs.filter fun r => ∃ f ∈ part, r.type = f.tag)

end Clashes

section Frameworks

/-- The extraction of one framework: its fixed routes, those of its look-ups, and what it remembers. -/
structure Extracts
    (s : Site)
    (f : Framework)
    (work : Extraction (List Handler))
    (fixed : List Route)
    (uses : List PathUse) :
    Prop where
  routes_eq : ∀ p, ((Extraction.routes f work).run p).1 = fixed ++ routesAfter (remembered s p) uses
  remembered_eq : ∀ p, remembered s ((Extraction.routes f work).run p).2 = recalled (remembered s p) uses
  type_eq : ∀ r ∈ fixed, r.type = f.tag
  sources_match : Matches s f (sources s f) uses

theorem routes_of_ok
    {f : Framework}
    {work : Extraction (List Handler)}
    {p : Progress}
    {hs : List Handler}
    (h : ends work p = .ok hs) :
    ((Extraction.routes f work).run p).1 = Route.ofHandlers hs ∧
      ((Extraction.routes f work).run p).2.cache = (leaves work p).cache := by
  have hrun : work.run.run p = (.ok hs, leaves work p) := Prod.ext h rfl
  simp only [Extraction.routes, StateT.run_bind, hrun]
  exact ⟨rfl, rfl⟩

theorem routes_of_error
    {f : Framework}
    {work : Extraction (List Handler)}
    {p : Progress}
    {e : Fault}
    (h : ends work p = .error e) :
    ((Extraction.routes f work).run p).1 = [] ∧
      ((Extraction.routes f work).run p).2.cache = (leaves work p).cache := by
  have hrun : work.run.run p = (.error e, leaves work p) := Prod.ext h rfl
  simp only [Extraction.routes, StateT.run_bind, hrun]
  exact ⟨rfl, rfl⟩

theorem matches_nil (s : Site) (f : Framework) : Matches s f [] [] :=
  ⟨by simp, by simp⟩

/-- Work that looks up the paths of files. -/
theorem extracts_of_recalls
    {s : Site}
    {f : Framework}
    {work : Extraction (List Handler)}
    {uses : List PathUse}
    (h : Recalls s id work uses)
    (hmatches : Matches s f (sources s f) uses) :
    Extracts s f work [] uses := by
  refine ⟨fun p => ?_, fun p => ?_, by simp, hmatches⟩
  · obtain ⟨hs, hends, hroutes, -⟩ := h p
    rw [(routes_of_ok hends).1, List.nil_append]
    exact hroutes
  · obtain ⟨hs, hends, -, hleaves⟩ := h p
    rw [remembered_congr (routes_of_ok hends).2, hleaves]

/-- Work that needs no remembered paths. -/
theorem extracts_of_settled
    {s : Site}
    {f : Framework}
    {work : Extraction (List Handler)}
    (h : Settled (AllOf f) work)
    (hsources : sources s f = []) :
    ∃ fixed, Extracts s f work fixed [] := by
  obtain ⟨e, hends, hall⟩ := h
  have hmatches : Matches s f (sources s f) [] := hsources ▸ matches_nil s f
  cases e with
  | error fault =>
    refine ⟨[], fun p => ?_, fun p => ?_, by simp, hmatches⟩
    · rw [(routes_of_error (hends p).1).1]
      rfl
    · rw [recalled_nil, remembered_congr ((routes_of_error (hends p).1).2.trans (hends p).2)]
  | ok hs =>
    refine ⟨Route.ofHandlers hs, fun p => ?_, fun p => ?_, ?_, hmatches⟩
    · rw [(routes_of_ok (hends p).1).1]
      simp [routesAfter]
    · rw [recalled_nil, remembered_congr ((routes_of_ok (hends p).1).2.trans (hends p).2)]
    · intro r hr
      obtain ⟨h, hh, hroute⟩ := List.mem_filterMap.1 hr
      rw [FileRoutes.type_of_ofHandler? hroute, hall hs rfl h hh]

/-- Work on the files of a layout. -/
theorem extracts_of_layout
    {s : Site}
    {l : FileRoutes.Layout}
    {accepts : String → Extraction Bool}
    (hl : l.Regular)
    (haccepts : ∀ path, EndsIn (accepts path) (.ok (l.accepts path)))
    (hsources : sources s l.framework = l.sources s)
    (message message' : Nat → String) :
    ∃ fixed uses, Extracts s l.framework (handlers l.framework (l.structured accepts message s)
      (some (l.textual message' s))) fixed uses := by
  rcases FileRoutes.Layout.follows_handlers
    (FileRoutes.Layout.follows_structured hl haccepts message)
    (FileRoutes.Layout.follows_textual hl message') with
    ⟨e, hends, hnone⟩ | ⟨uses, hrecalls, hmatches⟩
  · have hsettled : Settled (AllOf l.framework) _ := ⟨.error e, hends, by rintro hs ⟨⟩⟩
    obtain ⟨fixed, hextracts⟩ := extracts_of_settled hsettled (hsources.trans hnone)
    exact ⟨fixed, [], hextracts⟩
  · exact ⟨[], uses, extracts_of_recalls hrecalls (hsources ▸ hmatches)⟩

/-- What the extraction of a framework is made of, if the settings for it can be read. -/
theorem exists_extracts
    {s : Site}
    {f : Framework}
    {work : Extraction (List Handler)}
    (h : f.handlers s = .ok work) :
    ∃ fixed uses, Extracts s f work fixed uses ∧ (uses ≠ [] → f = .appRouter ∨ f = .pagesRouter) := by
  cases f with
  | appRouter =>
    obtain rfl := Except.ok.inj h
    obtain ⟨fixed, uses, hextracts⟩ := extracts_of_layout FileRoutes.Layout.regular_appLayout
      FileRoutes.endsIn_appAccepts (s := s) rfl
      (fun n => "Found " ++ toString n ++ " App Router route files")
      (fun n => "Basic mode found " ++ toString n ++ " App Router handlers")
    exact ⟨fixed, uses, hextracts, by simp⟩
  | pagesRouter =>
    obtain rfl := Except.ok.inj h
    obtain ⟨fixed, uses, hextracts⟩ := extracts_of_layout FileRoutes.Layout.regular_pagesLayout
      FileRoutes.endsIn_pagesAccepts (s := s) rfl
      (fun n => "Found " ++ toString n ++ " Pages API files")
      (fun n => "Basic mode found " ++ toString n ++ " Pages API handlers")
    exact ⟨fixed, uses, hextracts, by simp⟩
  | trpc =>
    unfold Framework.handlers at h
    cases hsettings : Procedures.Recognition.ofSettings s.options.routerFactories
        s.options.routerPattern with
    | error fault => rw [hsettings] at h; cases h
    | ok r =>
      rw [hsettings] at h
      obtain rfl := Except.ok.inj h
      obtain ⟨fixed, hextracts⟩ := extracts_of_settled
        (Procedures.settled_handlers fun _ _ _ _ => rfl) rfl
      exact ⟨fixed, [], hextracts, by simp⟩
  | nest =>
    obtain rfl := Except.ok.inj h
    obtain ⟨fixed, hextracts⟩ := extracts_of_settled
        (Controllers.settled_handlers fun _ _ _ _ _ _ _ => rfl) rfl
    exact ⟨fixed, [], hextracts, by simp⟩

end Frameworks

section Runs

/-- What the extractions of all frameworks are made of. -/
structure Plan (s : Site) where
  fixed : Framework → List Route
  uses : Framework → List PathUse
  extracts : ∀ f work, f.handlers s = .ok work → Extracts s f work (fixed f) (uses f)
  layouts : ∀ f, uses f ≠ [] → f = .appRouter ∨ f = .pagesRouter

theorem nonempty_plan (s : Site) : Nonempty (Plan s) := by
  have hplan (f : Framework) : ∃ fixed uses,
      (∀ work, f.handlers s = .ok work → Extracts s f work fixed uses) ∧
        (uses ≠ [] → f = .appRouter ∨ f = .pagesRouter) := by
    cases hwork : f.handlers s with
    | error fault => exact ⟨[], [], by rintro work ⟨⟩, by simp⟩
    | ok work =>
      obtain ⟨fixed, uses, hextracts, hlayout⟩ := exists_extracts hwork
      refine ⟨fixed, uses, ?_, hlayout⟩
      rintro work ⟨⟩
      exact hextracts
  choose fixed uses hextracts hlayouts using hplan
  exact ⟨⟨fixed, uses, hextracts, hlayouts⟩⟩

namespace Plan

variable {s : Site} (plan : Plan s)

/-- The routes of some frameworks, each after what those before it remember. -/
def routesIn
    (before : Files.Path → Option String) :
    List Framework → List (List Route)
  | [] => []
  | f :: rest =>
    (plan.fixed f ++ routesAfter before (plan.uses f)) ::
      routesIn (recalled before (plan.uses f)) rest

/-- The routes of a framework when nothing has been remembered. -/
def alone (f : Framework) : List Route :=
  plan.fixed f ++ routesAfter (fun _ => none) (plan.uses f)

/-- The routes of a framework have its tag. -/
theorem type_of_mem
    {f : Framework}
    (hwork : ∃ work, f.handlers s = .ok work)
    (before : Files.Path → Option String) :
    ∀ r ∈ plan.fixed f ++ routesAfter before (plan.uses f), r.type = f.tag := by
  intro r h
  obtain ⟨work, hwork⟩ := hwork
  have hextracts := plan.extracts f work hwork
  rcases List.mem_append.1 h with h | h
  · exact hextracts.type_eq r h
  · obtain ⟨u, hu, hr⟩ := List.mem_flatMap.1 h
    exact (hextracts.sources_match.patterned u hu).type_eq _ r hr

theorem run_mapM_routes
    {works : List (Framework × Extraction (List Handler))}
    (h : ∀ w ∈ works, w.1.handlers s = .ok w.2)
    (p : Progress) :
    let work : Extraction (List (List Route)) := works.mapM fun w =>
      (Extraction.routes w.1 w.2 : StateM Progress (List Route))
    ends work p = .ok (plan.routesIn (remembered s p) (works.map Prod.fst)) ∧
      remembered s (leaves work p) =
        recalled (remembered s p) ((works.map Prod.fst).flatMap plan.uses) := by
  induction works generalizing p with
  | nil => exact ⟨rfl, (recalled_nil _).symm⟩
  | cons w rest ih =>
    have hw := plan.extracts w.1 w.2 (h w (List.mem_cons_self ..))
    obtain ⟨hends, hleaves⟩ := ih (fun w' hw' => h w' (List.mem_cons_of_mem w hw'))
      ((Extraction.routes w.1 w.2).run p).2
    rw [hw.remembered_eq] at hends hleaves
    have hfirst : ends (Extraction.routes w.1 w.2 : StateM Progress (List Route)) p =
        .ok (plan.fixed w.1 ++ routesAfter (remembered s p) (plan.uses w.1)) :=
      congrArg Except.ok (hw.routes_eq p)
    dsimp only
    rw [List.mapM_cons]
    have hrun := (run_bind_of_ok hfirst fun b => (rest.mapM fun w =>
      ((Extraction.routes w.1 w.2 : StateM Progress (List Route)) : Extraction (List Route))) >>=
        fun bs => pure (b :: bs)).trans (run_bind_of_ok hends _)
    refine ⟨congrArg Prod.fst hrun, ?_⟩
    rw [List.map_cons, List.flatMap_cons, recalled_append, ← hleaves]
    exact congrArg (fun r => remembered s r.2) hrun

theorem exists_works
    {frameworks : List Framework}
    (h : ∀ f ∈ frameworks, ∃ work, f.handlers s = .ok work) :
    ∃ works : List (Framework × Extraction (List Handler)),
      (frameworks.mapM fun f => (f.handlers s).map fun found => (f, found)) = .ok works ∧
        works.map Prod.fst = frameworks ∧ ∀ w ∈ works, w.1.handlers s = .ok w.2 := by
  induction frameworks with
  | nil => exact ⟨[], rfl, rfl, by simp⟩
  | cons f rest ih =>
    obtain ⟨work, hwork⟩ := h f (List.mem_cons_self ..)
    obtain ⟨works, hmapM, hfst, hworks⟩ := ih fun g hg => h g (List.mem_cons_of_mem f hg)
    refine ⟨(f, work) :: works, ?_, by simp [hfst], List.forall_mem_cons.2 ⟨hwork, hworks⟩⟩
    rw [List.mapM_cons, hwork, hmapM]
    rfl

theorem endsIn_settings (frameworks : List Framework) :
    EndsIn (frameworks.mapM fun f => do
      let found ← Extraction.ofExcept (f.handlers s)
      return (f, found))
      (frameworks.mapM fun f => (f.handlers s).map fun found => (f, found)) := by
  refine endsIn_mapM (fun f => ?_) frameworks
  cases f.handlers s with
  | error fault => exact (endsIn_ofExcept _).bind_error _
  | ok work => exact (endsIn_ofExcept _).bind (endsIn_pure _)

/-- How the extraction of some frameworks ends. -/
theorem run_routesOf
    {frameworks : List Framework}
    (h : ∀ f ∈ frameworks, ∃ work, f.handlers s = .ok work) :
    ends (routesOf s frameworks) .start = .ok (plan.routesIn (fun _ => none) frameworks).flatten ∧
      remembered s (leaves (routesOf s frameworks) .start) =
        firstDerived (frameworks.flatMap plan.uses) := by
  obtain ⟨works, hmapM, hfst, hworks⟩ := exists_works h
  have hsettings := endsIn_settings (s := s) frameworks
  rw [hmapM] at hsettings
  obtain ⟨hends, hcache⟩ := hsettings .start
  have hstart := remembered_congr (s := s) hcache
  obtain ⟨hroutes, hleaves⟩ := plan.run_mapM_routes hworks (leaves _ .start)
  rw [hstart, hfst] at hroutes hleaves
  have hrun := run_bind_of_ok hends fun work => (work.mapM fun w =>
    ((Extraction.routes w.1 w.2 : StateM Progress (List Route)) : Extraction (List Route))) >>=
      fun routes => pure routes.flatten
  rw [run_bind_of_ok hroutes] at hrun
  exact ⟨congrArg Prod.fst hrun, (congrArg (fun r => remembered s r.2) hrun).trans hleaves⟩

/-- Settings that cannot be read end the extraction before any routes are found. -/
theorem ends_routesOf_of_error
    {frameworks : List Framework}
    {f : Framework}
    {e : Fault}
    (hf : f ∈ frameworks)
    (h : f.handlers s = .error e) :
    ∃ fault, ends (routesOf s frameworks) .start = .error fault := by
  have hmapM : ∃ fault, (frameworks.mapM fun f => (f.handlers s).map fun found => (f, found)) =
      .error fault := by
    induction frameworks with
    | nil => cases hf
    | cons g rest ih =>
      rw [List.mapM_cons]
      cases hg : g.handlers s with
      | error fault => exact ⟨fault, rfl⟩
      | ok work =>
        rcases List.mem_cons.1 hf with rfl | hf
        · rw [h] at hg
          cases hg
        · obtain ⟨fault, hrest⟩ := ih hf
          exact ⟨fault, by rw [hrest]; rfl⟩
  obtain ⟨fault, hmapM⟩ := hmapM
  have hsettings := endsIn_settings (s := s) frameworks
  rw [hmapM] at hsettings
  exact ⟨fault, (hsettings.bind_error _ .start).1⟩

/-- The routes of an extraction have the tags of the frameworks in it. -/
theorem type_of_routesIn
    {frameworks : List Framework}
    (hwork : ∀ f ∈ frameworks, ∃ work, f.handlers s = .ok work)
    (before : Files.Path → Option String) :
    ∀ r ∈ (plan.routesIn before frameworks).flatten, ∃ f ∈ frameworks, r.type = f.tag := by
  induction frameworks generalizing before with
  | nil => simp [routesIn]
  | cons f rest ih =>
    intro r h
    rw [routesIn, List.flatten_cons, List.mem_append] at h
    rcases h with h | h
    · exact ⟨f, List.mem_cons_self .., plan.type_of_mem (hwork f (List.mem_cons_self ..)) _ r h⟩
    · obtain ⟨g, hg, htype⟩ := ih (fun g hg => hwork g (List.mem_cons_of_mem f hg)) _ r h
      exact ⟨g, List.mem_cons_of_mem f hg, htype⟩

theorem tag_injective
    {f g : Framework}
    (h : f.tag = g.tag) :
    f = g := by
  revert h
  cases f <;> cases g <;> decide

theorem filter_eq_nil
    {frameworks part : List Framework}
    {rs : List Route}
    (h : ∀ r ∈ rs, ∃ f ∈ frameworks, r.type = f.tag)
    (hdisjoint : ∀ f ∈ frameworks, f ∉ part) :
    (rs.filter fun r => ∃ f ∈ part, r.type = f.tag) = [] := by
  rw [List.filter_eq_nil_iff]
  intro r hr hpart
  obtain ⟨f, hf, htype⟩ := h r hr
  obtain ⟨g, hg, htype'⟩ := of_decide_eq_true hpart
  obtain rfl := tag_injective (htype.symm.trans htype')
  exact hdisjoint f hf hg

theorem filter_eq_self
    {part : List Framework}
    {f : Framework}
    {rs : List Route}
    (h : ∀ r ∈ rs, r.type = f.tag)
    (hf : f ∈ part) :
    (rs.filter fun r => ∃ f ∈ part, r.type = f.tag) = rs := by
  rw [List.filter_eq_self]
  intro r hr
  exact decide_eq_true ⟨f, hf, h r hr⟩

/-- The routes of one framework in an extraction: those that it has after what the frameworks before it
remember. -/
theorem filter_routesIn
    {pre post : List Framework}
    {f : Framework}
    (hnodup : (pre ++ f :: post).Nodup)
    (hwork : ∀ g ∈ pre ++ f :: post, ∃ work, g.handlers s = .ok work)
    (before : Files.Path → Option String) :
    ((plan.routesIn before (pre ++ f :: post)).flatten.filter fun r =>
        ∃ g ∈ [f], r.type = g.tag) =
      plan.fixed f ++ routesAfter (recalled before (pre.flatMap plan.uses)) (plan.uses f) := by
  induction pre generalizing before with
  | nil =>
    have hpost : f ∉ post := (List.nodup_cons.1 hnodup).1
    have hown := plan.type_of_mem (hwork f (by simp)) before
    have hwork' : ∀ g ∈ post, ∃ work, g.handlers s = .ok work := fun g hg => hwork g (by simp [hg])
    have hrest := plan.type_of_routesIn hwork' (recalled before (plan.uses f))
    have hdisjoint : ∀ g ∈ post, g ∉ [f] := by
      intro g hg hgf
      exact hpost (List.mem_singleton.1 hgf ▸ hg)
    rw [List.nil_append, routesIn, List.flatten_cons, List.filter_append,
      filter_eq_self hown (by simp), filter_eq_nil hrest hdisjoint, List.append_nil,
      List.flatMap_nil, recalled_nil]
  | cons g pre ih =>
    rw [List.cons_append] at hnodup hwork ⊢
    obtain ⟨hg, hnodup⟩ := List.nodup_cons.1 hnodup
    have hown : ∀ r ∈ plan.fixed g ++ routesAfter before (plan.uses g), ∃ g' ∈ [g], r.type = g'.tag :=
      fun r hr => ⟨g, by simp, plan.type_of_mem (hwork g (by simp)) before r hr⟩
    have hdisjoint : ∀ g' ∈ [g], g' ∉ [f] := by
      intro g' hg' hgf
      obtain rfl := List.mem_singleton.1 hg'
      exact hg (List.mem_singleton.1 hgf ▸ by simp)
    rw [routesIn, List.flatten_cons, List.filter_append, filter_eq_nil hown hdisjoint,
      List.nil_append, ih hnodup (fun g' hg' => hwork g' (List.mem_cons_of_mem g hg')),
      List.flatMap_cons, recalled_append]

/-- When what is remembered never matters, the routes are those of each framework alone. -/
theorem routesIn_eq_map_alone
    {frameworks : List Framework}
    {before : Files.Path → Option String}
    (h : ∀ pre f post, frameworks = pre ++ f :: post →
      routesAfter (recalled before (pre.flatMap plan.uses)) (plan.uses f) =
        routesAfter (fun _ => none) (plan.uses f)) :
    plan.routesIn before frameworks = frameworks.map plan.alone := by
  induction frameworks generalizing before with
  | nil => rfl
  | cons f rest ih =>
    have hfirst := h [] f rest rfl
    rw [List.flatMap_nil, recalled_nil] at hfirst
    have hrest : ∀ pre g post, rest = pre ++ g :: post →
        routesAfter (recalled (recalled before (plan.uses f)) (pre.flatMap plan.uses)) (plan.uses g) =
          routesAfter (fun _ => none) (plan.uses g) := by
      intro pre g post heq
      have hg := h (f :: pre) g post (by rw [heq]; rfl)
      rwa [List.flatMap_cons, recalled_append] at hg
    rw [routesIn, hfirst, ih hrest]
    rfl

theorem type_of_map_alone
    {frameworks : List Framework}
    (hwork : ∀ f ∈ frameworks, ∃ work, f.handlers s = .ok work) :
    ∀ r ∈ (frameworks.map plan.alone).flatten, ∃ f ∈ frameworks, r.type = f.tag := by
  intro r hr
  rw [← List.flatMap_def, List.mem_flatMap] at hr
  obtain ⟨f, hf, hr⟩ := hr
  exact ⟨f, hf, plan.type_of_mem (hwork f hf) _ r hr⟩

/-- A part of the frameworks has its part of the routes, in the same order. -/
theorem filter_map_alone
    {frameworks part : List Framework}
    (hsublist : part.Sublist frameworks)
    (hnodup : frameworks.Nodup)
    (hwork : ∀ f ∈ frameworks, ∃ work, f.handlers s = .ok work) :
    ((frameworks.map plan.alone).flatten.filter fun r => ∃ f ∈ part, r.type = f.tag) =
      (part.map plan.alone).flatten := by
  induction hsublist with
  | slnil => rfl
  | @cons part frameworks f hsublist ih =>
    obtain ⟨hf, hnodup⟩ := List.nodup_cons.1 hnodup
    have hown : ∀ r ∈ plan.alone f, ∃ g ∈ [f], r.type = g.tag :=
      fun r hr => ⟨f, by simp, plan.type_of_mem (hwork f (by simp)) _ r hr⟩
    have hdisjoint : ∀ g ∈ [f], g ∉ part := by
      intro g hg hpart
      exact hf (List.mem_singleton.1 hg ▸ hsublist.subset hpart)
    rw [List.map_cons, List.flatten_cons, List.filter_append, filter_eq_nil hown hdisjoint,
      List.nil_append, ih hnodup fun g hg => hwork g (List.mem_cons_of_mem f hg)]
  | @cons_cons part frameworks f hsublist ih =>
    obtain ⟨hf, hnodup⟩ := List.nodup_cons.1 hnodup
    have hwork' := fun g hg => hwork g (List.mem_cons_of_mem f hg)
    have hown := plan.type_of_mem (hwork f (by simp)) fun _ => none
    have hrest : ((frameworks.map plan.alone).flatten.filter fun r =>
          ∃ g ∈ f :: part, r.type = g.tag) =
        (frameworks.map plan.alone).flatten.filter fun r => ∃ g ∈ part, r.type = g.tag := by
      refine List.filter_congr fun r hr => decide_eq_decide.2 ?_
      obtain ⟨g, hg, htype⟩ := plan.type_of_map_alone hwork' r hr
      have hother : r.type ≠ f.tag := fun h => hf (tag_injective (htype.symm.trans h) ▸ hg)
      simp [hother]
    rw [List.map_cons, List.flatten_cons, List.filter_append, hrest, ih hnodup hwork',
      List.map_cons, List.flatten_cons]
    exact congrArg (· ++ _) (filter_eq_self hown (List.mem_cons_self ..))

end Plan

end Runs

section Independence

variable {s : Site} (plan : Plan s)

/-- A clash, by the look-ups of the two frameworks. -/
theorem clash_iff
    {g f : Framework}
    (hg : ∃ work, g.handlers s = .ok work)
    (hf : ∃ work, f.handlers s = .ok work) :
    Clash s g f ↔ ∃ u ∈ plan.uses f, u.routes u.derived ≠ [] ∧
      ∃ v v', firstDerived (plan.uses g) u.file = some v ∧
        firstDerived (plan.uses f) u.file = some v' ∧ patternOf v ≠ patternOf v' := by
  have hafter {h : Framework} (hh : ∃ work, h.handlers s = .ok work) :
      remembered s (leaves (routesOf s [h]) .start) = firstDerived (plan.uses h) := by
    have hsingle : ∀ h' ∈ [h], ∃ work, h'.handlers s = .ok work := by simpa using hh
    have hrun := (plan.run_routesOf hsingle).2
    rwa [List.flatMap_singleton] at hrun
  obtain ⟨work, hwork⟩ := hf
  have hmatches := (plan.extracts f work hwork).sources_match
  unfold Clash
  rw [hafter hg, hafter ⟨work, hwork⟩]
  constructor
  · rintro ⟨w, hw, hfinds, v, v', hv, hv', hpattern⟩
    obtain ⟨u, hu, hfile, hroutes⟩ := (hmatches.finds_iff _).2 ⟨w, hw, rfl, hfinds⟩
    exact ⟨u, hu, hroutes, v, v', hfile ▸ hv, hfile ▸ hv', hpattern⟩
  · rintro ⟨u, hu, hroutes, v, v', hv, hv', hpattern⟩
    obtain ⟨w, hw, hfile, hfinds⟩ := (hmatches.finds_iff _).1 ⟨u, hu, rfl, hroutes⟩
    exact ⟨w, hw, hfinds, v, v', hfile ▸ hv, hfile ▸ hv', hpattern⟩

theorem firstDerived_flatMap
    (usesOf : Framework → List PathUse)
    (frameworks : List Framework)
    (file : Files.Path) :
    firstDerived (frameworks.flatMap usesOf) file =
      frameworks.findSome? fun f => firstDerived (usesOf f) file := by
  induction frameworks with
  | nil => rfl
  | cons f rest ih =>
    rw [List.flatMap_cons, firstDerived_append, ih, List.findSome?_cons]
    cases firstDerived (usesOf f) file <;> rfl

/-- Of two layouts that look paths up, neither being the given one, there is one only. -/
theorem eq_of_uses
    {f g h : Framework}
    (hf : plan.uses f ≠ [])
    (hg : plan.uses g ≠ [])
    (hh : plan.uses h ≠ [])
    (hgf : g ≠ f)
    (hhf : h ≠ f) :
    g = h := by
  rcases plan.layouts f hf with rfl | rfl <;> rcases plan.layouts g hg with rfl | rfl <;>
    rcases plan.layouts h hh with rfl | rfl <;> simp_all

theorem uses_ne_nil
    {f : Framework}
    {file : Files.Path}
    {v : String}
    (h : firstDerived (plan.uses f) file = some v) :
    plan.uses f ≠ [] := by
  rintro hnil
  rw [hnil] at h
  cases h

/-- What the frameworks before one remember shows in its routes exactly when it clashes with one of
them. -/
theorem routesAfter_eq_iff_not_clash
    {pre : List Framework}
    {f : Framework}
    (hpre : f ∉ pre)
    (hwork : ∀ g ∈ pre, ∃ work, g.handlers s = .ok work)
    (hf : ∃ work, f.handlers s = .ok work) :
    routesAfter (recalled (fun _ => none) (pre.flatMap plan.uses)) (plan.uses f) =
        routesAfter (fun _ => none) (plan.uses f) ↔
      ∀ g ∈ pre, ¬ Clash s g f := by
  obtain ⟨work, hfwork⟩ := hf
  have hpatterned := (plan.extracts f work hfwork).sources_match.patterned
  have hrecalled (file : Files.Path) : recalled (fun _ => none) (pre.flatMap plan.uses) file =
      pre.findSome? fun g => firstDerived (plan.uses g) file :=
    firstDerived_flatMap plan.uses pre file
  rw [routesAfter_eq_iff hpatterned]
  constructor
  · intro hsame g hg hclash
    obtain ⟨u, hu, hroutes, v, v', hv, hv', hpattern⟩ :=
      (clash_iff plan (hwork g hg) ⟨work, hfwork⟩).1 hclash
    -- whoever remembers a path for the file first is the same framework
    have hsome : (pre.findSome? fun g => firstDerived (plan.uses g) u.file).isSome := by
      rw [List.findSome?_isSome_iff]
      exact ⟨g, hg, by rw [hv]; rfl⟩
    obtain ⟨v'', hfound⟩ := Option.isSome_iff_exists.1 hsome
    obtain ⟨h, hh, hv''⟩ := List.exists_of_findSome?_eq_some hfound
    have hgh : h = g := eq_of_uses plan (uses_ne_nil plan hv') (uses_ne_nil plan hv'')
      (uses_ne_nil plan hv) (fun heq => hpre (heq ▸ hh)) (fun heq => hpre (heq ▸ hg))
    rw [hgh, hv] at hv''
    obtain rfl := Option.some.inj hv''
    exact hpattern (hsame u hu hroutes v v' ((hrecalled _).trans hfound) hv')
  · intro hclear u hu hroutes v v' hv hv'
    obtain ⟨g, hg, hv⟩ := List.exists_of_findSome?_eq_some ((hrecalled _).symm.trans hv)
    by_contra hpattern
    exact hclear g hg ((clash_iff plan (hwork g hg) ⟨work, hfwork⟩).2
      ⟨u, hu, hroutes, v, v', hv, hv', hpattern⟩)

theorem pair_sublist_iff
    {frameworks : List Framework}
    {g f : Framework} :
    [g, f].Sublist frameworks ↔
      ∃ pre post, frameworks = pre ++ f :: post ∧ g ∈ pre := by
  constructor
  · intro h
    obtain ⟨first, second, rfl, hg, hf⟩ := List.cons_sublist_iff.1 h
    obtain ⟨middle, post, rfl⟩ := List.append_of_mem (List.singleton_sublist.1 hf)
    exact ⟨first ++ middle, post, by simp, List.mem_append_left _ hg⟩
  · rintro ⟨pre, post, rfl, hg⟩
    exact (List.singleton_sublist.2 hg).append (List.singleton_sublist.2 (List.mem_cons_self ..))

/-- Without clashes, an extraction gives the routes of each framework alone. -/
theorem ends_routesOf_of_not_clash
    {frameworks : List Framework}
    (hnodup : frameworks.Nodup)
    (hwork : ∀ f ∈ frameworks, ∃ work, f.handlers s = .ok work)
    (hclear : ∀ g f, [g, f].Sublist frameworks → ¬ Clash s g f) :
    ends (routesOf s frameworks) .start = .ok (frameworks.map plan.alone).flatten := by
  rw [(plan.run_routesOf hwork).1, plan.routesIn_eq_map_alone]
  rintro pre f post rfl
  have hpre : f ∉ pre := fun h =>
    (List.nodup_append.1 hnodup).2.2 f h f (List.mem_cons_self ..) rfl
  rw [routesAfter_eq_iff_not_clash plan hpre (fun g hg => hwork g (by simp [hg])) (hwork f (by simp))]
  exact fun g hg => hclear g f (pair_sublist_iff.2 ⟨pre, post, rfl, hg⟩)

/-- The frameworks of an extraction are independent exactly when their settings can be read and none
clashes with one before it. -/
theorem independent_iff
    (s : Site)
    (frameworks : List Framework)
    (hnodup : frameworks.Nodup) :
    Independent s frameworks ↔
      (∀ f ∈ frameworks, ∃ work, f.handlers s = .ok work) ∧
        ∀ g f, [g, f].Sublist frameworks → ¬ Clash s g f := by
  obtain ⟨plan⟩ := nonempty_plan s
  constructor
  · rintro ⟨rs, hrs, hpart⟩
    have hwork : ∀ f ∈ frameworks, ∃ work, f.handlers s = .ok work := by
      intro f hf
      cases hwork : f.handlers s with
      | ok work => exact ⟨work, rfl⟩
      | error fault =>
        obtain ⟨fault', hfault⟩ := Plan.ends_routesOf_of_error hf hwork
        rw [hrs] at hfault
        cases hfault
    refine ⟨hwork, fun g f hpair => ?_⟩
    obtain ⟨pre, post, rfl, hg⟩ := pair_sublist_iff.1 hpair
    have hpre : f ∉ pre := fun h =>
      (List.nodup_append.1 hnodup).2.2 f h f (List.mem_cons_self ..) rfl
    have hf := hwork f (by simp)
    have hall := (plan.run_routesOf hwork).1
    rw [hrs] at hall
    obtain rfl := Except.ok.inj hall
    have hone := hpart [f] (List.singleton_sublist.2 (by simp))
    have hsingle : ∀ g ∈ [f], ∃ work, g.handlers s = .ok work := by simpa using hf
    rw [(plan.run_routesOf hsingle).1, plan.filter_routesIn hnodup hwork] at hone
    have hroutes := Except.ok.inj hone
    simp only [Plan.routesIn, List.flatten_cons, List.flatten_nil, List.append_nil] at hroutes
    exact (routesAfter_eq_iff_not_clash plan hpre (fun g hg => hwork g (by simp [hg])) hf).1
      (List.append_cancel_left hroutes).symm g hg
  · rintro ⟨hwork, hclear⟩
    refine ⟨_, ends_routesOf_of_not_clash plan hnodup hwork hclear, fun part hsublist => ?_⟩
    rw [plan.filter_map_alone hsublist hnodup hwork]
    exact ends_routesOf_of_not_clash plan (hnodup.sublist hsublist)
      (fun f hf => hwork f (hsublist.subset hf)) fun g f hpair => hclear g f (hpair.trans hsublist)

/-- A project without a configuration whose only file is a route of both layouts. -/
def sharedFile : Site where
  tree := ⟨.directory [("app", .directory [("pages", .directory [("api", .directory [("route.ts",
    .file (.text "export function GET() \x7b\x7d\nexport default GET\n"))])])])]⟩
  root := ⟨true, []⟩
  options := .default

theorem clash_sharedFile : Clash sharedFile .appRouter .pagesRouter := by
  have hsource : ((sources sharedFile .pagesRouter).head?.map fun w =>
      (w.file, (ends w.find .start).map fun hs => (Route.ofHandlers hs).map Route.path)) =
      some (⟨true, ["app", "pages", "api", "route.ts"]⟩, .ok ["/api/route"]) := by
    decide +kernel
  obtain ⟨w, hw, hfound⟩ := Option.map_eq_some_iff.1 hsource
  obtain ⟨hfile, hroutes⟩ := Prod.mk.inj hfound
  refine ⟨w, List.mem_of_head? hw, findsRoutes_of_map hroutes, "/pages/api", "/api/route", ?_, ?_,
    by decide +kernel⟩
  · rw [hfile]
    decide +kernel
  · rw [hfile]
    decide +kernel

theorem not_independent_of_clash_sharedFile :
    [Framework.appRouter, .pagesRouter].Nodup ∧
      ¬ Independent sharedFile [.appRouter, .pagesRouter] := by
  refine ⟨by decide, fun h => ?_⟩
  exact ((independent_iff sharedFile _ (by decide)).1 h).2 _ _ (List.Sublist.refl _) clash_sharedFile

/-- The page is reported under the path that the app directory gives to its file. -/
theorem not_independent_sharedFile :
    ¬ Independent sharedFile [.appRouter, .pagesRouter] := by
  rintro ⟨rs, hrs, hpart⟩
  have hshared : (ends (routesOf sharedFile [.appRouter, .pagesRouter]) .start).map
      (fun rs => (rs.filter fun r => ∃ f ∈ [Framework.pagesRouter], r.type = f.tag).map Route.path) =
        .ok ["/pages/api"] := by
    decide +kernel
  have halone : (ends (routesOf sharedFile [.pagesRouter]) .start).map (List.map Route.path) =
      .ok ["/api/route"] := by
    decide +kernel
  rw [hpart [.pagesRouter] (by decide)] at halone
  rw [hrs] at hshared
  have hpaths := (Except.ok.inj hshared).symm.trans (Except.ok.inj halone)
  revert hpaths
  decide

end Independence

end RouteAtlas.Scan
