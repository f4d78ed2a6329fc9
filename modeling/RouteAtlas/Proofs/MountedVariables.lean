import Mathlib
import RouteAtlas.Proofs.RouterPaths
import RouteAtlas.Router.Title

/-!
# Mounted variables

A router is declared under the title of its variable, and mounted by the variable itself. The two meet in
the index, which has a title under its own canonical name, while a mount looks for the canonical name of
its variable. So a mount finds its router for certain only if the variable has a canonical name, which is
then the title, and the title is its own canonical name. Otherwise the property of the mount decides, and
some property always decides wrongly.
-/

namespace RouteAtlas.Router

section Variables

/-- A variable that holds a router, and the path of its file. -/
structure RouterVariable where
  name : String
  filePath : String
  deriving Repr, DecidableEq, Inhabited

/-- The name under which the router of a variable is declared. -/
@[irreducible] def RouterVariable.title (v : RouterVariable) : String :=
  Router.title v.name v.filePath

/-- A title that is found where it is looked for: the variable has a canonical name, and the title has no
other canonical name than itself. -/
def RouterVariable.IsPlain (v : RouterVariable) : Prop :=
  canonicalName v.name ≠ "" ∧ indexName v.title = v.title

instance (v : RouterVariable) : Decidable v.IsPlain :=
  inferInstanceAs (Decidable (_ ∧ _))

theorem find?_nonempty_cons
    {first : String}
    (h : first ≠ "")
    (rest : List String) :
    ((first :: rest).find? fun c => !c.isEmpty) = some first := by
  simp [h]

/-- The title of a variable with a canonical name. -/
theorem RouterVariable.title_eq
    {v : RouterVariable}
    (h : canonicalName v.name ≠ "") :
    v.title = canonicalName v.name := by
  unfold title Router.title
  dsimp only
  rw [List.map_cons, find?_nonempty_cons h, Option.getD_some]

end Variables

namespace Graph

section Reaching

/-- Whenever the routers of a graph are those of some variables, a mount of a variable in another router
is a mount of the router of that variable, which then is no root, and is a mount of no other router. -/
def MountsReach (vars : List RouterVariable) : Prop :=
  ∀ g : Graph, g.routers.map Declaration.name = vars.map RouterVariable.title →
    ∀ v ∈ vars, ∀ w ∈ vars, w.title ≠ v.title → ∀ property : String,
      ⟨w.title, property, v.name⟩ ∈ g.mounts →
        ⟨w.title, property, v.name⟩ ∈ g.incoming v.title ∧
          v.title ∉ g.roots ∧
          ∀ r ∈ g.routers, r.name ≠ v.title → ⟨w.title, property, v.name⟩ ∉ g.incoming r.name

variable {g : Graph}

/-- A mount of a name is matched to it or to its canonical name. -/
theorem matched_of_mem_incoming
    {name : String}
    {m : Mount}
    (h : m ∈ g.incoming name) :
    mountedName? g.index m = some name ∨ mountedName? g.index m = some (indexName name) := by
  rw [incoming, incomingAmong_eq] at h
  split at h
  · exact .inr (mem_edges.1 (mem_mountsAt.1 h)).2
  · exact .inl (mem_edges.1 (mem_mountsAt.1 h)).2

/-- A mount that is matched to a name is a mount of it. -/
theorem mem_incoming_of_matched
    {name : String}
    {m : Mount}
    (hm : m ∈ g.mounts)
    (h : mountedName? g.index m = some name) :
    m ∈ g.incoming name := by
  have hat : m ∈ mountsAt g.edges name := mem_mountsAt.2 (mem_edges.2 ⟨hm, h⟩)
  rw [incoming, incomingAmong_eq, if_neg (List.ne_nil_of_mem hat)]
  exact hat

/-- Plain variables are reached by their mounts. -/
theorem mountsReach_of_plain
    {vars : List RouterVariable}
    (hplain : ∀ v ∈ vars, v.IsPlain) :
    MountsReach vars := by
  intro g hg v hv w _ _ property hm
  have hstable : ∀ r ∈ g.routers, indexName r.name = r.name := by
    intro r hr
    have hname : r.name ∈ vars.map RouterVariable.title := hg ▸ List.mem_map_of_mem hr
    obtain ⟨u, hu, htitle⟩ := List.mem_map.1 hname
    rw [← htitle]
    exact (hplain u hu).2
  have hdeclared : ∃ r ∈ g.routers, r.name = v.title := by
    have htitle : v.title ∈ g.routers.map Declaration.name := hg ▸ List.mem_map_of_mem hv
    exact List.mem_map.1 htitle
  have hentry : entryOf? v.title g.index = some v.title := by
    obtain ⟨r, hr, hname⟩ := hdeclared
    obtain ⟨found, hfound⟩ := exists_entry_of_router hr
    obtain ⟨r', hr', hkey, rfl⟩ := exists_router_of_entry hfound
    rw [hstable r hr, hname] at hfound hkey
    rw [hstable r' hr'] at hkey
    rw [hfound, hkey]
  obtain ⟨hname, -⟩ := hplain v hv
  have hmatched : mountedName? g.index ⟨w.title, property, v.name⟩ = some v.title := by
    refine mountedName?_of_target hname ?_
    rw [← RouterVariable.title_eq hname]
    exact hentry
  have hmem := mem_incoming_of_matched hm hmatched
  -- a router that has the mount is the one that the mount is matched to
  have honly : ∀ r ∈ g.routers, ⟨w.title, property, v.name⟩ ∈ g.incoming r.name →
      r.name = v.title := by
    intro r hr hin
    have hmatch := matched_of_mem_incoming hin
    rw [hstable r hr, or_self, hmatched] at hmatch
    exact (Option.some.inj hmatch).symm
  refine ⟨hmem, ?_, fun r hr hne hin => hne (honly r hr hin)⟩
  rw [mem_roots]
  rintro ⟨r, hr, htop, htitle⟩
  rw [hstable r hr, or_self] at htitle
  rw [← htitle] at htop
  exact List.ne_nil_of_mem hmem htop

end Reaching

section Missing

/-- The router of a variable, built in the first line of its file. -/
def declarationOf (v : RouterVariable) : Declaration :=
  ⟨v.title, v.filePath, 1, 1⟩

/-- The routers of some variables, with some mounts. -/
def declared
    (vars : List RouterVariable)
    (mounts : List Mount) :
    Graph :=
  ⟨vars.map declarationOf, mounts⟩

variable {vars : List RouterVariable} {v w : RouterVariable} {found : String}

theorem routers_declared
    (vars : List RouterVariable)
    (mounts : List Mount) :
    (declared vars mounts).routers.map Declaration.name = vars.map RouterVariable.title := by
  rw [declared, List.map_map]
  exact List.map_congr_left fun _ _ => rfl

theorem mem_routers_declared
    (hv : v ∈ vars)
    (mounts : List Mount) :
    declarationOf v ∈ (declared vars mounts).routers :=
  List.mem_map.2 ⟨v, hv, rfl⟩

/-- The index of the routers of some variables has one of their titles for each title. -/
theorem exists_entry_of_variable
    (hv : v ∈ vars) :
    ∃ u ∈ vars, entryOf? (indexName v.title) (declared vars []).index = some u.title := by
  obtain ⟨found, hfound⟩ := exists_entry_of_router (mem_routers_declared hv [])
  obtain ⟨r, hr, -, rfl⟩ := exists_router_of_entry hfound
  obtain ⟨u, hu, rfl⟩ := List.mem_map.1 hr
  exact ⟨u, hu, hfound⟩

theorem exists_variable_of_entry
    {key : String}
    (h : entryOf? key (declared vars []).index = some found) :
    ∃ u ∈ vars, indexName u.title = key ∧ u.title = found := by
  obtain ⟨r, hr, hkey, hname⟩ := exists_router_of_entry h
  obtain ⟨u, hu, rfl⟩ := List.mem_map.1 hr
  exact ⟨u, hu, hkey, hname⟩

/-- When mounts reach their routers, a mount of a variable in another router is matched, and to no title
but that of the variable. -/
theorem MountsReach.matched
    (h : MountsReach vars)
    (hv : v ∈ vars)
    (hw : w ∈ vars)
    (hne : w.title ≠ v.title)
    (property : String) :
    mountedName? (declared vars []).index ⟨w.title, property, v.name⟩ ≠ none ∧
      ∀ u ∈ vars, mountedName? (declared vars []).index ⟨w.title, property, v.name⟩ = some u.title →
        u.title = v.title := by
  let m : Mount := ⟨w.title, property, v.name⟩
  have hm : m ∈ (declared vars [m]).mounts := List.mem_singleton_self m
  obtain ⟨hin, -, hothers⟩ :=
    h (declared vars [m]) (routers_declared vars [m]) v hv w hw hne property hm
  refine ⟨fun hnone => ?_, fun u hu hmatched => ?_⟩
  · rcases matched_of_mem_incoming hin with hmatched | hmatched
    · exact Option.some_ne_none _ (hmatched.symm.trans hnone)
    · exact Option.some_ne_none _ (hmatched.symm.trans hnone)
  · by_contra htitle
    exact hothers _ (mem_routers_declared hu [m]) htitle (mem_incoming_of_matched hm hmatched)

/-- A variable with no canonical name is missed under a property that has none either. -/
theorem MountsReach.canonicalName_ne
    (h : MountsReach vars)
    (hv : v ∈ vars)
    (hw : w ∈ vars)
    (hne : w.title ≠ v.title) :
    canonicalName v.name ≠ "" := by
  intro hbare
  have hproperty : canonicalName "_" = "" := by decide +kernel
  exact (h.matched hv hw hne "_").1 (mountedName?_of_bare hbare hproperty)

/-- A title that is found in the index is found as itself. -/
theorem MountsReach.eq_of_entry
    (h : MountsReach vars)
    (hv : v ∈ vars)
    (hw : w ∈ vars)
    (hne : w.title ≠ v.title)
    (hentry : entryOf? v.title (declared vars []).index = some found) :
    found = v.title := by
  have hname := h.canonicalName_ne hv hw hne
  obtain ⟨u, hu, -, rfl⟩ := exists_variable_of_entry hentry
  rw [RouterVariable.title_eq hname] at hentry
  exact (h.matched hv hw hne "_").2 u hu (mountedName?_of_target hname hentry)

/-- Every title is looked up by some property. -/
theorem exists_property
    (hname : canonicalName v.name ≠ "") :
    ∃ property, canonicalName property = indexName v.title ∧ canonicalName property ≠ "" := by
  by_cases htitle : canonicalName v.title = ""
  · refine ⟨v.name, ?_, hname⟩
    rw [indexName, htitle, RouterVariable.title_eq hname]
    simp
  · refine ⟨v.title, ?_, htitle⟩
    simp [indexName, htitle]

/-- A title that is not its own canonical name is found under the canonical name of every other title:
otherwise the mount under a property of that name would go astray. -/
theorem MountsReach.entry_of_unstable
    (h : MountsReach vars)
    (hv : v ∈ vars)
    (hw : w ∈ vars)
    (hne : w.title ≠ v.title)
    (hunstable : indexName v.title ≠ v.title) :
    entryOf? (indexName w.title) (declared vars []).index = some v.title := by
  have hmissing : entryOf? v.title (declared vars []).index = none := by
    cases hentry : entryOf? v.title (declared vars []).index with
    | none => rfl
    | some found =>
      have hfound := h.eq_of_entry hv hw hne hentry
      obtain ⟨u, -, hkey, hu⟩ := exists_variable_of_entry hentry
      rw [hu, hfound] at hkey
      exact absurd hkey hunstable
  have hname := h.canonicalName_ne hv hw hne
  obtain ⟨property, hproperty, hfull⟩ := exists_property (h.canonicalName_ne hw hv hne.symm)
  obtain ⟨u, hu, hfound⟩ := exists_entry_of_variable hw
  have hmatched :
      mountedName? (declared vars []).index ⟨w.title, property, v.name⟩ = some u.title := by
    refine mountedName?_of_property hfull (.inr ?_) ?_
    · rw [← RouterVariable.title_eq hname]
      exact hmissing
    · rw [hproperty]
      exact hfound
  rw [hfound, (h.matched hv hw hne property).2 u hu hmatched]

/-- When mounts reach their routers, a title that differs from another one is its own canonical name. -/
theorem MountsReach.isPlain
    (h : MountsReach vars)
    (hv : v ∈ vars)
    (hw : w ∈ vars)
    (hne : w.title ≠ v.title) :
    v.IsPlain := by
  refine ⟨h.canonicalName_ne hv hw hne, ?_⟩
  by_contra hunstable
  have hentry := h.entry_of_unstable hv hw hne hunstable
  by_cases hother : indexName w.title = w.title
  · rw [hother] at hentry
    exact hne (h.eq_of_entry hw hv hne.symm hentry).symm
  · have hentry' := h.entry_of_unstable hw hv hne.symm hother
    obtain ⟨u, -, hkey, hu⟩ := exists_variable_of_entry hentry
    rw [hu] at hkey
    rw [hkey, hentry] at hentry'
    exact hne (Option.some.inj hentry').symm

end Missing

section Condition

/-- Mounts reach the routers of some variables exactly if every variable whose title differs from another
one has a canonical name and a title that is its own canonical name. -/
theorem mountsReach_iff (vars : List RouterVariable) :
    MountsReach vars ↔ ∀ v ∈ vars, ∀ w ∈ vars, w.title ≠ v.title → v.IsPlain := by
  constructor
  · intro h v hv w hw hne
    exact h.isPlain hv hw hne
  · intro h g hg v hv w hw hne
    -- once two titles differ, every title differs from one of the two
    have hplain : ∀ u ∈ vars, u.IsPlain := by
      intro u hu
      by_cases hu' : v.title = u.title
      · exact h u hu w hw (hu' ▸ hne)
      · exact h u hu v hv hu'
    exact mountsReach_of_plain hplain g hg v hv w hw hne

/-- Variables whose names are decorated in the usual ways are reached. -/
example :
    MountsReach [⟨"appRouter", "src/root.ts"⟩, ⟨"createPostRouter", "src/post.ts"⟩,
      ⟨"user_router", "src/user.ts"⟩] :=
  mountsReach_of_plain (by decide +kernel)

/-- The title `createUser` of the second variable is looked for as it is, and stands in the index as
`user`. So its mount under `accounts` is taken by the first. -/
def misledVariables : List RouterVariable :=
  [⟨"accountsRouter", "src/server/api/root.ts"⟩, ⟨"create_user_router", "src/server/api/root.ts"⟩,
    ⟨"appRouter", "src/server/api/root.ts"⟩]

theorem not_mountsReach_misledVariables :
    (misledVariables.map RouterVariable.title).Nodup ∧ ¬MountsReach misledVariables := by
  have hapart : (misledVariables.map RouterVariable.title).Nodup := by decide +kernel
  refine ⟨hapart, fun h => ?_⟩
  let accounts : Mount := ⟨"app", "accounts", "create_user_router"⟩
  let g : Graph := declared misledVariables [⟨"app", "admin", "accountsRouter"⟩, accounts]
  have hroot : RouterVariable.title ⟨"appRouter", "src/server/api/root.ts"⟩ = "app" := by
    decide +kernel
  have hne : RouterVariable.title ⟨"appRouter", "src/server/api/root.ts"⟩ ≠
      RouterVariable.title ⟨"create_user_router", "src/server/api/root.ts"⟩ := by
    decide +kernel
  have hmount : ⟨RouterVariable.title ⟨"appRouter", "src/server/api/root.ts"⟩, "accounts",
      "create_user_router"⟩ ∈ g.mounts := by
    rw [hroot]
    decide
  have htaken : g.incoming (RouterVariable.title ⟨"create_user_router", "src/server/api/root.ts"⟩) =
      [] := by
    decide +kernel
  have hin := (h g (routers_declared _ _) ⟨"create_user_router", "src/server/api/root.ts"⟩
    (by decide) ⟨"appRouter", "src/server/api/root.ts"⟩ (by decide) hne "accounts" hmount).1
  rw [htaken] at hin
  exact List.not_mem_nil hin

end Condition

end Graph

end RouteAtlas.Router
