import Mathlib
import RouteAtlas.Proofs.HandlerOrigins

/-!
# Methods that a file is reported for

A file names its methods in several ways: by its exports, by lists of names, by what its handler
compares with, or by phrases of its text. However often a method is named, the work on the file gives
one handler for it. The methods do not depend on what was remembered before the work.
-/

namespace RouteAtlas

open Files
open Syntax
open Extraction

namespace FileRoutes

section Lists

/-- Methods of requests, each of them once. -/
structure IsVerbList (vs : List String) : Prop where
  nodup : vs.Nodup
  are_verbs : ∀ v ∈ vs, v ∈ Route.verbs

theorem isVerbList_nil : IsVerbList [] :=
  ⟨List.nodup_nil, by simp⟩

theorem isVerbList_filter (p : String → Bool) : IsVerbList (Route.verbs.filter p) :=
  ⟨List.Nodup.filter p (by decide), fun _ hv => List.mem_of_mem_filter hv⟩

theorem IsVerbList.concat
    {vs : List String}
    {v : String}
    (h : IsVerbList vs)
    (hv : v ∈ Route.verbs)
    (hnew : v ∉ vs) :
    IsVerbList (vs ++ [v]) := by
  refine ⟨List.nodup_append.2 ⟨h.nodup, List.nodup_singleton v, ?_⟩, ?_⟩
  · rintro w hw _ hv' rfl
    exact hnew (List.mem_singleton.1 hv' ▸ hw)
  · intro w hw
    rcases List.mem_append.1 hw with hw | hw
    · exact h.are_verbs w hw
    · exact List.mem_singleton.1 hw ▸ hv

theorem IsVerbList.addOnce
    {vs : List String}
    {v : String}
    (h : IsVerbList vs)
    (hv : v ∈ Route.verbs) :
    IsVerbList (addOnce vs v) := by
  unfold FileRoutes.addOnce
  split
  · exact h
  · next hnew => exact h.concat hv (by simpa using hnew)

theorem IsVerbList.foldl_addOnce
    {vs more : List String}
    (h : IsVerbList vs)
    (hmore : ∀ v ∈ more, v ∈ Route.verbs) :
    IsVerbList (more.foldl FileRoutes.addOnce vs) := by
  induction more generalizing vs with
  | nil => exact h
  | cons v rest ih =>
    rw [List.forall_mem_cons] at hmore
    exact ih (h.addOnce hmore.1) hmore.2

/-- The methods of a page, or the usual one. -/
theorem IsVerbList.orUsual
    {vs : List String}
    (h : IsVerbList vs) :
    IsVerbList (Pages.orUsual vs) := by
  unfold Pages.orUsual
  split
  · exact ⟨List.nodup_singleton _, by decide⟩
  · exact h

/-- The methods that a text exports or compares with. -/
theorem isVerbList_verbsOfText
    (text : String) :
    IsVerbList (App.verbsOfText text) ∧ IsVerbList (Pages.verbsOfText text) :=
  ⟨isVerbList_filter _, (isVerbList_filter _).orUsual⟩

theorem orUsual_ne_nil (vs : List String) : Pages.orUsual vs ≠ [] := by
  unfold Pages.orUsual
  split
  · simp
  · next h => simpa using h

end Lists

section Sources

theorem mem_verbs_of_verb?
    {text v : String}
    (h : Route.verb? text = some v) :
    v ∈ Route.verbs := by
  unfold Route.verb? at h
  dsimp only at h
  split at h
  · next hverb =>
    cases h
    simpa using hverb
  · cases h

/-- A method under its own name is that method. -/
theorem verb?_of_mem
    {v : String}
    (h : v ∈ Route.verbs) :
    Route.verb? v = some v := by
  revert v
  decide

theorem mem_verbs_of_verbLiteral?
    {n : Node}
    {v : String}
    (h : verbLiteral? n = some v) :
    v ∈ Route.verbs := by
  obtain ⟨text, -, hverb⟩ := Option.bind_eq_some_iff.1 h
  exact mem_verbs_of_verb? hverb

theorem mem_verbs_of_mem_literals
    {ns : List Node}
    {v : String}
    (h : v ∈ ns.filterMap verbLiteral?) :
    v ∈ Route.verbs := by
  obtain ⟨n, -, hn⟩ := List.mem_filterMap.1 h
  exact mem_verbs_of_verbLiteral? hn

theorem isVerbList_verbsOf
    (file : SourceFile)
    (expression : Option Node) :
    IsVerbList (verbsOf file expression) := by
  unfold verbsOf
  split
  · split
    · exact isVerbList_nil.foldl_addOnce fun _ => mem_verbs_of_mem_literals
    · exact isVerbList_nil
  · exact isVerbList_nil

/-- The methods that a file lists. -/
theorem isVerbList_exportedVerbs (file : SourceFile) : IsVerbList (exportedVerbs file) := by
  unfold exportedVerbs
  generalize file.boundVariables.filter _ = listing
  have hall : ∀ acc, IsVerbList acc → IsVerbList (listing.foldl
      (fun acc v => (verbsOf file v.value).foldl addOnce acc) acc) := by
    induction listing with
    | nil => exact fun acc h => h
    | cons v rest ih =>
      exact fun acc h => ih _ (h.foldl_addOnce (isVerbList_verbsOf file v.value).are_verbs)
  exact hall [] isVerbList_nil

theorem mem_verbs_of_mem_comparedVerbs
    {isReference : Node → Bool}
    {n : Node}
    {v : String}
    (h : v ∈ comparedVerbs isReference n) :
    v ∈ Route.verbs := by
  have hliteral (r : Role) (hv : v ∈ ((n.child? r).bind verbLiteral?).toList) : v ∈ Route.verbs := by
    obtain ⟨c, -, hc⟩ := Option.bind_eq_some_iff.1 (Option.mem_toList.1 hv)
    exact mem_verbs_of_verbLiteral? hc
  unfold comparedVerbs at h
  dsimp only at h
  split at h
  -- an equality, of either operand order
  · split at h
    · split at h
      · exact hliteral _ h
      · split at h
        · exact hliteral _ h
        · cases h
    · cases h
  -- the cases of a switch
  · split at h
    · split at h
      · obtain ⟨c, -, hc⟩ := List.mem_filterMap.1 h
        obtain ⟨value, -, hvalue⟩ := Option.bind_eq_some_iff.1 hc
        exact mem_verbs_of_verbLiteral? hvalue
      · cases h
    · cases h
  -- membership in a list
  · split at h
    · split at h
      · split at h
        · split at h
          · exact mem_verbs_of_mem_literals h
          · cases h
        · cases h
      · cases h
    · cases h
  · cases h

/-- The methods that a handler compares with. -/
theorem isVerbList_comparedMethods (handler : Node) : IsVerbList (comparedMethods handler) := by
  refine isVerbList_nil.foldl_addOnce fun v hv => ?_
  obtain ⟨n, -, hn⟩ := List.mem_flatMap.1 hv
  exact mem_verbs_of_mem_comparedVerbs hn

theorem isVerbList_verbsOfHandler
    (file : SourceFile)
    (h : PageHandler) :
    IsVerbList (Pages.verbsOfHandler file h) := by
  unfold Pages.verbsOfHandler
  refine IsVerbList.orUsual (IsVerbList.foldl_addOnce ?_ (isVerbList_exportedVerbs file).are_verbs)
  cases h with
  | function n => exact isVerbList_comparedMethods n
  | wholeFile => exact isVerbList_nil

end Sources

section Works

variable {s : Site} {project : Project} {file : SourceFile}

/-- Work on a file that gives one handler for each of some methods. -/
def GivesVerbs
    (s : Site)
    (work : Extraction (List Handler)) :
    Prop :=
  ∃ vs, IsVerbList vs ∧ Yields s (fun _ hs => hs.map Handler.method = vs) work

theorem EndsIn.givesVerbs
    {work : Extraction (List Handler)}
    (h : EndsIn work (.ok [])) :
    GivesVerbs s work := by
  refine ⟨[], isVerbList_nil, h.yields.mono ?_⟩
  rintro _ hs ⟨⟩
  rfl

theorem EndsIn.bind_givesVerbs
    {α : Type}
    {work : Extraction α}
    {a : α}
    {f : α → Extraction (List Handler)}
    (h : EndsIn work (.ok a))
    (hf : GivesVerbs s (f a)) :
    GivesVerbs s (work >>= f) := by
  obtain ⟨vs, hvs, hyields⟩ := hf
  refine ⟨vs, hvs, h.yields.bind fun b hb => ?_⟩
  obtain rfl := Except.ok.inj hb
  exact hyields

theorem givesVerbs_derivedPath
    {path : Path}
    {derive : String → String}
    {rest : String → Extraction (List Handler)}
    {vs : List String}
    (hvs : IsVerbList vs)
    (h : ∀ raw, Yields s (fun _ hs => hs.map Handler.method = vs) (rest raw)) :
    GivesVerbs s (derivedPath s path derive >>= rest) :=
  ⟨vs, hvs, ((yields_derivedPath path derive).mono fun _ _ _ => trivial).bind fun raw _ => h raw⟩

/-- The functions that exports give to methods, one for each. -/
theorem isVerbList_verbHandlers
    {found : List App.VerbHandler}
    (hfound : IsVerbList (found.map App.VerbHandler.verb))
    (exports : List Export) :
    Settled (fun hs => IsVerbList (hs.map App.VerbHandler.verb))
      (App.verbHandlers project file found exports) := by
  induction exports generalizing found with
  | nil => exact settled_pure hfound
  | cons e rest ih =>
    unfold App.verbHandlers
    split
    · exact ih hfound
    · next hskipped =>
      simp only [Bool.or_eq_true, Bool.not_eq_true', List.any_eq_true, beq_iff_eq, not_or,
        Bool.not_eq_false, List.contains_iff_mem, not_exists, not_and] at hskipped
      obtain ⟨hverb, hnew⟩ := hskipped
      refine (settled_exported project file e).bind fun target _ => ?_
      split
      · refine ih ?_
        rw [List.map_append]
        split
        · exact hfound.concat hverb (by simpa using hnew)
        · simpa using hfound
      · exact ih hfound

theorem yields_mapM_method
    {f : String → Extraction Handler}
    (h : ∀ v, Yields s (fun _ x => x.method = v) (f v))
    (vs : List String) :
    Yields s (fun _ hs => hs.map Handler.method = vs) (vs.mapM f) := by
  induction vs with
  | nil => exact yields_pure fun _ => rfl
  | cons v rest ih =>
    rw [List.mapM_cons]
    refine (h v).bind fun x hx => ih.bind fun hs hhs => yields_pure fun _ => ?_
    rw [List.map_cons, hx, hhs]

theorem givesVerbs_appFile : GivesVerbs s (App.ofFile s project file) := by
  unfold App.ofFile
  dsimp only
  split
  · exact EndsIn.givesVerbs ((endsIn_say _ _ _).bind (endsIn_pure []))
  · have hnone : IsVerbList (([] : List App.VerbHandler).map App.VerbHandler.verb) := isVerbList_nil
    obtain ⟨found, hfound, hverbs⟩ := isVerbList_verbHandlers hnone file.exports
    rw [App.pathsOf_bind]
    cases found with
    | error e =>
      exact givesVerbs_derivedPath isVerbList_nil fun raw =>
        (hfound.bind_error _).yields.mono fun _ _ hok => nomatch hok
    | ok functions =>
      have hlist := (hverbs functions rfl).foldl_addOnce (isVerbList_exportedVerbs file).are_verbs
      refine givesVerbs_derivedPath hlist fun raw => hfound.yields.bind fun _ hok => ?_
      obtain rfl := Except.ok.inj hok
      dsimp only
      split
      · next hempty =>
        rw [List.isEmpty_iff.1 hempty]
        exact (settled_say _ _ _).yields.bind fun _ _ => yields_pure fun _ => rfl
      · refine yields_mapM_method (fun verb => ?_) _
        unfold App.handlerFor
        dsimp only
        refine (yields_ofExcept _).bind fun facts _ => ?_
        exact (settled_say _ _ _).yields.bind fun _ _ => yields_pure fun _ => rfl

theorem givesVerbs_appText (path : Path) : GivesVerbs s (App.ofText s path) := by
  unfold App.ofText
  refine EndsIn.bind_givesVerbs (endsIn_appAccepts _) ?_
  split
  · dsimp only
    split
    · exact EndsIn.givesVerbs ((endsIn_say _ _ _).bind (endsIn_pure []))
    · rw [App.pathsOf_bind]
      generalize Text.plainNewlines _ = text
      refine givesVerbs_derivedPath (isVerbList_verbsOfText text).1 fun raw => yields_pure fun _ => ?_
      rw [List.map_map]
      exact List.map_id _
  · exact EndsIn.givesVerbs (endsIn_pure [])

theorem givesVerbs_pagesFile : GivesVerbs s (Pages.ofFile s project file) := by
  unfold Pages.ofFile
  dsimp only
  split
  · exact EndsIn.givesVerbs ((endsIn_say _ _ _).bind (endsIn_pure []))
  · split
    · exact EndsIn.givesVerbs ((endsIn_say _ _ _).bind (endsIn_pure []))
    · next h _ =>
      rw [Pages.pathsOf_bind]
      refine givesVerbs_derivedPath (isVerbList_verbsOfHandler file h) fun raw => ?_
      refine (yields_ofExcept _).bind fun facts _ => ?_
      refine (settled_say _ _ _).yields.bind fun _ _ => yields_pure fun _ => ?_
      rw [List.map_map]
      exact List.map_id _

theorem givesVerbs_pagesText (path : Path) : GivesVerbs s (Pages.ofText s path) := by
  unfold Pages.ofText
  refine EndsIn.bind_givesVerbs (endsIn_pagesAccepts _) ?_
  split
  · dsimp only
    split
    · exact EndsIn.givesVerbs (endsIn_pure [])
    · rw [Pages.pathsOf_bind]
      generalize Text.plainNewlines _ = text
      refine givesVerbs_derivedPath (isVerbList_verbsOfText text).2 fun raw => yields_pure fun _ => ?_
      rw [List.map_map]
      exact List.map_id _
  · exact EndsIn.givesVerbs (endsIn_pure [])

/-- A layout whose work on a file gives one handler for each of some methods. -/
structure Layout.VerbsOnce (l : Layout) : Prop where
  ofFile : ∀ s project file, GivesVerbs s (l.ofFile s project file)
  ofText : ∀ s path, GivesVerbs s (l.ofText s path)

theorem verbsOnce_appLayout : appLayout.VerbsOnce :=
  ⟨fun _ _ _ => givesVerbs_appFile, fun _ => givesVerbs_appText⟩

theorem verbsOnce_pagesLayout : pagesLayout.VerbsOnce :=
  ⟨fun _ _ _ => givesVerbs_pagesFile, fun _ => givesVerbs_pagesText⟩

end Works

end FileRoutes

end RouteAtlas
