import Mathlib
import RouteAtlas.Proofs.SettledHandlers

/-!
# Looking up remembered paths

Work that makes handlers of files looks up the path of each file and makes its handlers of the path
that it gets. All that matters of such work is the list of its look-ups: which file each is for, which
path it derives when none is remembered, and which routes it makes of a path.

Two paths give the same routes just when they are the same route pattern, or when there are no routes
at all. So what was remembered before shows in the routes of a list of look-ups exactly where a look-up
makes routes and gets a path of another pattern than it would get by itself.
-/

namespace RouteAtlas

open Files

namespace FileRoutes

section Patterns

/-- The route pattern of a path as it is written in names of files. -/
def patternOf (raw : String) : String :=
  Route.normalizePath (Route.withParams raw)

/-- A handler at the path of its file. -/
def locate
    (raw : String)
    (h : Handler) :
    Handler :=
  { h with
    path := patternOf raw
    name := some (h.method ++ " " ++ patternOf raw)
    segments := Route.dynamicSegments raw }

@[simp] theorem locate_framework
    (raw : String)
    (h : Handler) :
    (locate raw h).framework = h.framework := by
  simp only [locate]

theorem filled?_spaced (a b : String) :
    Route.filled? (some (a ++ " " ++ b)) = some (a ++ " " ++ b) := by
  have hspace : (a ++ " " ++ b) ≠ "" := by
    intro h
    have := congrArg String.length h
    simp at this
  simp [Route.filled?, hspace]

theorem type_of_ofHandler?
    {h : Handler}
    {r : Route}
    (hr : Route.ofHandler? h = some r) :
    r.type = h.framework.tag := by
  simp only [Route.ofHandler?, Option.map_eq_some_iff] at hr
  obtain ⟨method, -, rfl⟩ := hr
  rfl

theorem length_toList_ofHandler?_locate
    (raw : String)
    (h : Handler) :
    (Route.ofHandler? (locate raw h)).toList.length = (Route.verb? h.method).toList.length := by
  cases hverb : Route.verb? h.method <;> simp [Route.ofHandler?, locate, hverb]

theorem ofHandler?_locate_eq_none_iff
    (h : Handler)
    (raw : String) :
    Route.ofHandler? (locate raw h) = none ↔ Route.verb? h.method = none := by
  simp [Route.ofHandler?, locate]

/-- The routes of a handler at two paths are the same just when there is none, or the paths are the
same pattern. -/
theorem ofHandler?_locate_eq_iff
    (h : Handler)
    (raw raw' : String) :
    Route.ofHandler? (locate raw h) = Route.ofHandler? (locate raw' h) ↔
      Route.verb? h.method = none ∨ patternOf raw = patternOf raw' := by
  cases hverb : Route.verb? h.method with
  | none => simp [Route.ofHandler?, locate, hverb]
  | some method =>
    constructor
    · intro heq
      have hname : h.method ++ " " ++ patternOf raw = h.method ++ " " ++ patternOf raw' := by
        have := congrArg (Option.map Route.name) heq
        simpa [Route.ofHandler?, locate, hverb, filled?_spaced] using this
      exact .inr (by simpa using hname)
    · rintro (hnone | hpattern)
      · cases hnone
      · simp only [Route.ofHandler?, locate, hverb, hpattern]
        rfl

end Patterns

end FileRoutes

namespace Extraction

open FileRoutes

section Uses

/-- A look-up of a path: the file that it is for, the path that it derives, and the routes that are
made of the path that it gets. -/
structure PathUse where
  file : Path
  derived : String
  routes : String → List Route

/-- The first path that look-ups derive for a file. -/
def firstDerived
    (uses : List PathUse)
    (file : Path) :
    Option String :=
  (uses.find? fun u => u.file = file).map PathUse.derived

/-- The path of a file that was remembered before look-ups, or else the first one that they derive. -/
def recalled
    (before : Path → Option String)
    (uses : List PathUse)
    (file : Path) :
    Option String :=
  (before file).or (firstDerived uses file)

/-- The routes of look-ups after some paths were remembered. -/
def routesAfter
    (before : Path → Option String)
    (uses : List PathUse) :
    List Route :=
  uses.flatMap fun u => u.routes ((recalled before uses u.file).getD "")

theorem firstDerived_append
    (uses uses' : List PathUse)
    (file : Path) :
    firstDerived (uses ++ uses') file =
      (firstDerived uses file).or (firstDerived uses' file) := by
  unfold firstDerived
  rw [List.find?_append]
  cases uses.find? fun u => u.file = file <;> simp

theorem exists_firstDerived
    {uses : List PathUse}
    {u : PathUse}
    (h : u ∈ uses) :
    ∃ v, firstDerived uses u.file = some v := by
  have hfound : (uses.find? fun u' => u'.file = u.file).isSome := by
    rw [List.find?_isSome]
    exact ⟨u, h, by simp⟩
  obtain ⟨u', hu'⟩ := Option.isSome_iff_exists.1 hfound
  exact ⟨u'.derived, by simp [firstDerived, hu']⟩

theorem recalled_append
    (before : Path → Option String)
    (uses uses' : List PathUse) :
    recalled before (uses ++ uses') = recalled (recalled before uses) uses' := by
  funext file
  simp [recalled, firstDerived_append, Option.or_assoc]

/-- Later look-ups of a file do not change the path that earlier ones get. -/
theorem recalled_append_of_mem
    (before : Path → Option String)
    (uses' : List PathUse)
    {uses : List PathUse}
    {u : PathUse}
    (h : u ∈ uses) :
    recalled before (uses ++ uses') u.file = recalled before uses u.file := by
  obtain ⟨v, hv⟩ := exists_firstDerived h
  simp [recalled, firstDerived_append, hv]

theorem routesAfter_append
    (before : Path → Option String)
    (uses uses' : List PathUse) :
    routesAfter before (uses ++ uses') =
      routesAfter before uses ++ routesAfter (recalled before uses) uses' := by
  unfold routesAfter
  rw [List.flatMap_append]
  congr 1
  · refine List.flatMap_congr fun u hu => ?_
    rw [recalled_append_of_mem before uses' hu]
  · refine List.flatMap_congr fun u _ => ?_
    rw [recalled_append]

end Uses

section Patterned

/-- A look-up makes routes of one framework, which tell two paths apart just as far as these are
different route patterns. -/
structure PathUse.Patterned
    (f : Framework)
    (u : PathUse) :
    Prop where
  length_eq : ∀ raw raw', (u.routes raw).length = (u.routes raw').length
  eq_iff : ∀ raw raw',
    u.routes raw = u.routes raw' ↔ u.routes raw = [] ∨ patternOf raw = patternOf raw'
  type_eq : ∀ raw, ∀ r ∈ u.routes raw, r.type = f.tag

/-- Whether a look-up makes routes does not depend on the path that it gets. -/
theorem PathUse.Patterned.eq_nil_iff
    {f : Framework}
    {u : PathUse}
    (h : u.Patterned f)
    (raw raw' : String) :
    u.routes raw = [] ↔ u.routes raw' = [] := by
  rw [← List.length_eq_zero_iff, ← List.length_eq_zero_iff, h.length_eq raw raw']

theorem flatMap_eq_flatMap_iff
    {α β : Type}
    {f g : α → List β}
    {as : List α}
    (h : ∀ a ∈ as, (f a).length = (g a).length) :
    as.flatMap f = as.flatMap g ↔ ∀ a ∈ as, f a = g a := by
  induction as with
  | nil => simp
  | cons a rest ih =>
    have hrest := ih fun b hb => h b (List.mem_cons_of_mem a hb)
    rw [List.flatMap_cons, List.flatMap_cons, List.forall_mem_cons, ← hrest]
    constructor
    · intro heq
      exact List.append_inj heq (h a (List.mem_cons_self ..))
    · rintro ⟨ha, hlater⟩
      rw [ha, hlater]

theorem toList_inj
    {α : Type}
    {a b : Option α} :
    a.toList = b.toList ↔ a = b := by
  cases a <;> cases b <;> simp

theorem ofHandlers_locate
    (raw : String)
    (hs : List Handler) :
    Route.ofHandlers (hs.map (locate raw)) =
      hs.flatMap fun h => (Route.ofHandler? (locate raw h)).toList := by
  simp [Route.ofHandlers, List.filterMap_eq_flatMap_toList, List.flatMap_map]

/-- A look-up whose handlers are placed at the path that it gets. -/
theorem patterned_locate
    {f : Framework}
    {hs : List Handler}
    (h : AllOf f hs)
    (file : Path)
    (derived : String) :
    PathUse.Patterned f ⟨file, derived, fun raw => Route.ofHandlers (hs.map (locate raw))⟩ := by
  simp only [ofHandlers_locate]
  have hlength (raw raw' : String) (x : Handler) :
      (Route.ofHandler? (locate raw x)).toList.length =
        (Route.ofHandler? (locate raw' x)).toList.length := by
    rw [length_toList_ofHandler?_locate, length_toList_ofHandler?_locate]
  refine ⟨fun raw raw' => ?_, fun raw raw' => ?_, fun raw r hr => ?_⟩
  · simp only [List.length_flatMap, hlength raw raw']
  · dsimp only
    rw [flatMap_eq_flatMap_iff fun x _ => hlength raw raw' x, List.flatMap_eq_nil_iff]
    simp only [toList_inj, Option.toList_eq_nil_iff, ofHandler?_locate_eq_iff,
      ofHandler?_locate_eq_none_iff]
    constructor
    · intro hall
      by_cases hpattern : patternOf raw = patternOf raw'
      · exact .inr hpattern
      · exact .inl fun x hx => (hall x hx).resolve_right hpattern
    · rintro (hnone | hpattern) x hx
      · exact .inl (hnone x hx)
      · exact .inr hpattern
  · simp only [List.mem_flatMap, Option.mem_toList] at hr
    obtain ⟨x, hx, hroute⟩ := hr
    rw [type_of_ofHandler? hroute, locate_framework, h x hx]

/-- What was remembered before shows in the routes of look-ups exactly where one makes routes and gets
a path of another pattern than it would get by itself. -/
theorem routesAfter_eq_iff
    {f : Framework}
    {uses : List PathUse}
    (h : ∀ u ∈ uses, u.Patterned f)
    (before : Path → Option String) :
    routesAfter before uses = routesAfter (fun _ => none) uses ↔
      ∀ u ∈ uses, u.routes u.derived ≠ [] → ∀ v w, before u.file = some v →
        firstDerived uses u.file = some w → patternOf v = patternOf w := by
  unfold routesAfter
  rw [flatMap_eq_flatMap_iff fun u hu => (h u hu).length_eq _ _]
  refine forall₂_congr fun u hu => ?_
  obtain ⟨w, hw⟩ := exists_firstDerived hu
  rw [(h u hu).eq_iff, (h u hu).eq_nil_iff _ u.derived]
  cases hbefore : before u.file with
  | none => simp [recalled, hbefore]
  | some v =>
    simp [recalled, hbefore, hw]
    tauto

end Patterned

section Recalling

/-- The paths that are remembered for the files of a site. -/
def remembered
    (s : Site)
    (p : Progress)
    (file : Path) :
    Option String :=
  p.cache.find? s.root file none

variable {α β : Type}

/-- Work that never faults and whose look-ups of paths are the given ones. The handlers are read off
its result. -/
def Recalls
    (s : Site)
    (handlersOf : α → List Handler)
    (work : Extraction α)
    (uses : List PathUse) :
    Prop :=
  ∀ p, ∃ a, ends work p = .ok a ∧
    Route.ofHandlers (handlersOf a) = routesAfter (remembered s p) uses ∧
    remembered s (leaves work p) = recalled (remembered s p) uses

variable {s : Site} {handlersOf : α → List Handler} {uses : List PathUse}

theorem remembered_congr
    {p q : Progress}
    (h : p.cache = q.cache) :
    remembered s p = remembered s q := by
  funext file
  simp [remembered, h]

theorem recalled_nil (before : Path → Option String) : recalled before [] = before := by
  funext file
  simp [recalled, firstDerived]

/-- Settled work without handlers looks no path up. -/
theorem EndsIn.recalls
    {work : Extraction α}
    {a : α}
    (h : EndsIn work (.ok a))
    (hnone : handlersOf a = []) :
    Recalls s handlersOf work [] := by
  intro p
  obtain ⟨hends, hcache⟩ := h p
  refine ⟨a, hends, ?_, ?_⟩
  · simp [hnone, Route.ofHandlers, routesAfter]
  · rw [recalled_nil, remembered_congr hcache]

/-- Settled work before look-ups. -/
theorem EndsIn.bind_recalls
    {work : Extraction β}
    {b : β}
    {f : β → Extraction α}
    (h : EndsIn work (.ok b))
    (hf : Recalls s handlersOf (f b) uses) :
    Recalls s handlersOf (work >>= f) uses := by
  intro p
  obtain ⟨hends, hcache⟩ := h p
  obtain ⟨a, hends', hroutes, hleaves⟩ := hf (leaves work p)
  have hrun := run_bind_of_ok hends f
  rw [remembered_congr hcache] at hroutes hleaves
  exact ⟨a, (congrArg Prod.fst hrun).trans hends', hroutes,
    (congrArg (fun r => remembered s r.2) hrun).trans hleaves⟩

/-- Settled work after look-ups, which keeps their handlers. -/
theorem Recalls.bind_endsIn
    {work : Extraction α}
    {f : α → Extraction β}
    {g : α → β}
    {handlersOf' : β → List Handler}
    (h : Recalls s handlersOf work uses)
    (hf : ∀ a, EndsIn (f a) (.ok (g a)))
    (hg : ∀ a, handlersOf' (g a) = handlersOf a) :
    Recalls s handlersOf' (work >>= f) uses := by
  intro p
  obtain ⟨a, hends, hroutes, hleaves⟩ := h p
  obtain ⟨hends', hcache⟩ := hf a (leaves work p)
  have hrun := run_bind_of_ok hends f
  refine ⟨g a, (congrArg Prod.fst hrun).trans hends', ?_, ?_⟩
  · rw [hg, hroutes]
  · rw [← hleaves, ← remembered_congr hcache]
    exact congrArg (fun r => remembered s r.2) hrun

theorem Recalls.orElseWith
    {work : Extraction α}
    (h : Recalls s handlersOf work uses)
    (other : Fault → Extraction α) :
    Recalls s handlersOf (orElseWith work other) uses := by
  intro p
  obtain ⟨a, hends, hroutes, hleaves⟩ := h p
  have hrun := run_orElseWith work other p
  rw [hends] at hrun
  exact ⟨a, congrArg Prod.fst hrun, hroutes,
    (congrArg (fun r => remembered s r.2) hrun).trans hleaves⟩

theorem EndsIn.orElseWith_recalls
    {work : Extraction α}
    {fault : Fault}
    {other : Fault → Extraction α}
    (h : EndsIn work (.error fault))
    (hother : Recalls s handlersOf (other fault) uses) :
    Recalls s handlersOf (Extraction.orElseWith work other) uses := by
  intro p
  obtain ⟨hends, hcache⟩ := h p
  obtain ⟨a, hends', hroutes, hleaves⟩ := hother (leaves work p)
  have hrun := run_orElseWith work other p
  rw [hends] at hrun
  rw [remembered_congr hcache] at hroutes hleaves
  exact ⟨a, (congrArg Prod.fst hrun).trans hends', hroutes,
    (congrArg (fun r => remembered s r.2) hrun).trans hleaves⟩

/-- Look-ups after look-ups, whose handlers are put together. -/
theorem Recalls.append
    {γ : Type}
    {work : Extraction α}
    {work' : Extraction β}
    {join : α → β → γ}
    {uses' : List PathUse}
    {handlersOf' : β → List Handler}
    {handlersOf'' : γ → List Handler}
    (h : Recalls s handlersOf work uses)
    (h' : Recalls s handlersOf' work' uses')
    (hjoin : ∀ a b, handlersOf'' (join a b) = handlersOf a ++ handlersOf' b) :
    Recalls s handlersOf'' (do
      let a ← work
      let b ← work'
      return join a b) (uses ++ uses') := by
  intro p
  obtain ⟨a, hends, hroutes, hleaves⟩ := h p
  obtain ⟨b, hends', hroutes', hleaves'⟩ := h' (leaves work p)
  have hrun := run_bind_of_ok hends fun a => work' >>= fun b => pure (join a b)
  rw [run_bind_of_ok hends'] at hrun
  refine ⟨join a b, congrArg Prod.fst hrun, ?_, ?_⟩
  · rw [hjoin, routesAfter_append, ← hroutes, ← hleaves, ← hroutes']
    exact List.filterMap_append ..
  · rw [recalled_append, ← hleaves, ← hleaves']
    exact congrArg (fun r => remembered s r.2) hrun

theorem ends_derivedPath
    (s : Site)
    (file : Path)
    (derive : String → String)
    (p : Progress) :
    ends (derivedPath s file derive) p =
      .ok ((remembered s p (s.tree.resolve file)).getD (derive (relativePath s file))) :=
  congrArg Except.ok (PathCache.getOrInsert_fst p.cache s.root (s.tree.resolve file)
    fun _ => derive (relativePath s file))

/-- After a look-up the derived path is remembered, unless there was one before. -/
theorem remembered_leaves_derivedPath
    (s : Site)
    (file k : Path)
    (derive : String → String)
    (p : Progress) :
    remembered s (leaves (derivedPath s file derive) p) k =
      (remembered s p k).or
        (if s.tree.resolve file = k then some (derive (relativePath s file)) else none) :=
  PathCache.find?_getOrInsert p.cache s.root (s.tree.resolve file) k
    fun _ => derive (relativePath s file)

/-- A look-up of the path of a file, and settled work with the path that it gets. -/
theorem recalls_derivedPath
    {file : Path}
    {derive : String → String}
    {rest : String → Extraction (List Handler)}
    {found : String → List Handler}
    (h : ∀ raw, EndsIn (rest raw) (.ok (found raw))) :
    Recalls s id (derivedPath s file derive >>= rest)
      [⟨s.tree.resolve file, derive (relativePath s file), fun raw => Route.ofHandlers (found raw)⟩] := by
  intro p
  have hends := ends_derivedPath s file derive p
  have hcache : remembered s (leaves (derivedPath s file derive) p) =
      recalled (remembered s p) [⟨s.tree.resolve file, derive (relativePath s file),
        fun raw => Route.ofHandlers (found raw)⟩] := by
    funext k
    refine (remembered_leaves_derivedPath s file k derive p).trans ?_
    by_cases hk : s.tree.resolve file = k <;> simp [recalled, firstDerived, hk]
  obtain ⟨hends', hcache'⟩ := h _ (leaves (derivedPath s file derive) p)
  have hrun := run_bind_of_ok hends rest
  refine ⟨_, (congrArg Prod.fst hrun).trans hends', ?_, ?_⟩
  · cases hp : remembered s p (s.tree.resolve file) <;>
      simp [routesAfter, recalled, firstDerived, hp]
  · rw [← hcache, ← remembered_congr hcache']
    exact congrArg (fun r => remembered s r.2) hrun

end Recalling

section Files

variable {s : Site} {f : Framework} {file : Path}

/-- Work on a file that looks up the path of this file, or none, and makes routes of one framework. -/
def Looks
    (s : Site)
    (f : Framework)
    (file : Path)
    (work : Extraction (List Handler)) :
    Prop :=
  ∃ uses, Recalls s id work uses ∧
    ∀ u ∈ uses, u.Patterned f ∧ u.file = s.tree.resolve file ∧ uses = [u]

/-- Work that finds routes when nothing has been remembered. -/
def FindsRoutes (work : Extraction (List Handler)) : Prop :=
  ∃ hs, ends work .start = .ok hs ∧ Route.ofHandlers hs ≠ []

/-- Work finds routes if anything is read off them. -/
theorem findsRoutes_of_map
    {α : Type}
    {work : Extraction (List Handler)}
    {g : Route → α}
    {a : α}
    {as : List α}
    (h : ((ends work .start).map fun hs => (Route.ofHandlers hs).map g) = .ok (a :: as)) :
    FindsRoutes work := by
  cases hends : ends work .start with
  | error e =>
    rw [hends] at h
    cases h
  | ok hs =>
    rw [hends] at h
    refine ⟨hs, hends, fun hnone => ?_⟩
    have hlist : (Route.ofHandlers hs).map g = a :: as := Except.ok.inj h
    rw [hnone] at hlist
    cases hlist

theorem EndsIn.looks
    {work : Extraction (List Handler)}
    (h : EndsIn work (.ok [])) :
    Looks s f file work :=
  ⟨[], h.recalls rfl, by simp⟩

theorem EndsIn.bind_looks
    {β : Type}
    {work : Extraction β}
    {b : β}
    {next : β → Extraction (List Handler)}
    (h : EndsIn work (.ok b))
    (hnext : Looks s f file (next b)) :
    Looks s f file (work >>= next) := by
  obtain ⟨uses, huses, hone⟩ := hnext
  exact ⟨uses, h.bind_recalls huses, hone⟩

/-- A look-up of the path of a file, and handlers at this path. -/
theorem looks_derivedPath
    {derive : String → String}
    {rest : String → Extraction (List Handler)}
    {hs : List Handler}
    (hall : AllOf f hs)
    (h : ∀ raw, EndsIn (rest raw) (.ok (hs.map (locate raw)))) :
    Looks s f file (derivedPath s file derive >>= rest) := by
  refine ⟨_, recalls_derivedPath h, fun u hu => ?_⟩
  obtain rfl := List.mem_singleton.1 hu
  exact ⟨patterned_locate hall _ _, rfl, rfl⟩

/-- The same when a fault of the work after the look-up is passed over. -/
theorem looks_orElseWith_derivedPath
    {derive : String → String}
    {rest : String → Extraction (List Handler)}
    {skip : Fault → Extraction (List Handler)}
    (base : Except Fault (List Handler))
    (hskip : ∀ e, EndsIn (skip e) (.ok []))
    (hall : ∀ hs, base = .ok hs → AllOf f hs)
    (h : ∀ raw, EndsIn (rest raw) (base.map (List.map (locate raw)))) :
    Looks s f file (orElseWith (derivedPath s file derive >>= rest) skip) := by
  have hswap : orElseWith (derivedPath s file derive >>= rest) skip =
      derivedPath s file derive >>= fun raw => orElseWith (rest raw) skip := rfl
  rw [hswap]
  cases base with
  | error fault =>
    exact looks_derivedPath (allOf_nil f) fun raw => (h raw).orElseWith_error (hskip _)
  | ok hs => exact looks_derivedPath (hall hs rfl) fun raw => (h raw).orElseWith skip

theorem findsRoutes_orElseWith
    {work : Extraction (List Handler)}
    {skip : Fault → Extraction (List Handler)}
    (hskip : ∀ e, EndsIn (skip e) (.ok [])) :
    FindsRoutes (orElseWith work skip) ↔ FindsRoutes work := by
  have hrun := run_orElseWith work skip .start
  unfold FindsRoutes
  cases hends : ends work .start with
  | ok hs =>
    rw [hends] at hrun
    rw [show ends (orElseWith work skip) .start = .ok hs from congrArg Prod.fst hrun]
  | error fault =>
    rw [hends] at hrun
    have hnone : ends (orElseWith work skip) .start = .ok [] :=
      (congrArg Prod.fst hrun).trans (hskip fault _).1
    simp [hnone, Route.ofHandlers]

/-- A work on a file finds routes just when its look-up makes some. -/
theorem Recalls.findsRoutes_iff
    {work : Extraction (List Handler)}
    {uses : List PathUse}
    (h : Recalls s id work uses)
    (hone : ∀ u ∈ uses, u.Patterned f ∧ u.file = s.tree.resolve file ∧ uses = [u]) :
    FindsRoutes work ↔ ∃ u ∈ uses, u.routes u.derived ≠ [] := by
  obtain ⟨hs, hends, hroutes, -⟩ := h .start
  have hfinds : FindsRoutes work ↔ Route.ofHandlers hs ≠ [] := by
    simp [FindsRoutes, hends]
  rw [hfinds, show Route.ofHandlers hs = _ from hroutes]
  cases uses with
  | nil => simp [routesAfter]
  | cons u rest =>
    obtain ⟨-, -, heq⟩ := hone u (List.mem_cons_self ..)
    obtain rfl : rest = [] := (List.cons.inj heq).2
    have hstart : remembered s .start u.file = none := rfl
    simp [routesAfter, recalled, hstart, firstDerived]

end Files

end Extraction

end RouteAtlas
