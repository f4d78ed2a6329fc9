import Mathlib
import RouteAtlas.Proofs.Entries
import RouteAtlas.Router.Graph

/-!
# The paths of mounted routers

The path of a router is defined by recursion along the first mounts, from the router up to a name
that nothing mounts. `MountPath` states that recursion as a relation; it is undefined exactly where
the way up turns in a circle.

The resolver computes paths with a table of those found so far and a list of the names that are being
resolved, both shared by all routers. Two facts make the table trustworthy. A name on a circle leads
to names on circles only, so what is entered on its behalf concerns no other name. And a name off all
circles never comes again on its own way up, so while it is resolved the list of open names cuts
nothing short.
-/

namespace RouteAtlas.Router.Graph

section Edges

/-- The mounts that are matched to a name, among given edges. -/
def mountsAt
    (edges : List (Mount × String))
    (key : String) :
    List Mount :=
  edges.filterMap fun e => if e.2 = key then some e.1 else none

theorem mem_mountsAt
    {edges : List (Mount × String)}
    {key : String}
    {m : Mount} :
    m ∈ mountsAt edges key ↔ (m, key) ∈ edges := by
  simp only [mountsAt, List.mem_filterMap, Option.ite_none_right_eq_some, Option.some.injEq]
  constructor
  · rintro ⟨⟨m', key'⟩, he, rfl, rfl⟩
    exact he
  · intro h
    exact ⟨(m, key), h, rfl, rfl⟩

/-- The mounts of a name are those at the name as it is, or else those at its canonical form. -/
theorem incomingAmong_eq
    (edges : List (Mount × String))
    (name : String) :
    incomingAmong edges name =
      if mountsAt edges name = [] then mountsAt edges (indexName name) else mountsAt edges name := by
  cases h : mountsAt edges name with
  | nil =>
    rw [if_pos rfl]
    unfold mountsAt at h ⊢
    simp only [incomingAmong, h]
  | cons m rest =>
    rw [if_neg (List.cons_ne_nil m rest)]
    unfold mountsAt at h
    simp only [incomingAmong, h]

theorem mem_edges
    {g : Graph}
    {m : Mount}
    {name : String} :
    (m, name) ∈ g.edges ↔ m ∈ g.mounts ∧ mountedName? g.index m = some name := by
  simp only [edges, List.mem_filterMap, Option.map_eq_some_iff, Prod.mk.injEq]
  constructor
  · rintro ⟨m', hm', n, hn, rfl, rfl⟩
    exact ⟨hm', hn⟩
  · rintro ⟨hm, hn⟩
    exact ⟨m, hm, name, hn, rfl, rfl⟩

theorem mem_roots
    {g : Graph}
    {name : String} :
    name ∈ g.roots ↔
      ∃ d ∈ g.routers, g.incoming d.name = [] ∧ (name = d.name ∨ name = indexName d.name) := by
  simp only [Graph.roots, List.mem_flatMap]
  refine exists_congr fun d => and_congr_right fun _ => ?_
  have hin : incomingAmong g.edges d.name = g.incoming d.name := rfl
  rw [hin]
  cases g.incoming d.name with
  | nil => simp
  | cons m rest => simp

/-- What the index has is a declared router, under its canonical name. -/
theorem exists_router_of_entry
    {g : Graph}
    {key name : String}
    (h : entryOf? key g.index = some name) :
    ∃ r ∈ g.routers, indexName r.name = key ∧ r.name = name := by
  obtain ⟨r, hr, hpair⟩ := List.mem_map.1 (mem_of_entryOf?_ofPairs h)
  obtain ⟨hkey, hname⟩ := Prod.mk.inj hpair
  exact ⟨r, hr, hkey, hname⟩

/-- The index has an entry for every declared router. -/
theorem exists_entry_of_router
    {g : Graph}
    {r : Declaration}
    (hr : r ∈ g.routers) :
    ∃ name, entryOf? (indexName r.name) g.index = some name :=
  Option.isSome_iff_exists.1 (entryOf?_ofPairs_isSome (List.mem_map.2 ⟨r, hr, rfl⟩))

/-- A mount whose target is a router is matched by its target. -/
theorem mountedName?_of_target
    {index : List (String × String)}
    {m : Mount}
    {found : String}
    (htarget : canonicalName m.target ≠ "")
    (hentry : entryOf? (canonicalName m.target) index = some found) :
    mountedName? index m = some found := by
  unfold mountedName?
  simp [htarget, hentry]

/-- A mount whose target is no router is matched by its property. -/
theorem mountedName?_of_property
    {index : List (String × String)}
    {m : Mount}
    {found : String}
    (hproperty : canonicalName m.property ≠ "")
    (htarget : canonicalName m.target = "" ∨ entryOf? (canonicalName m.target) index = none)
    (hentry : entryOf? (canonicalName m.property) index = some found) :
    mountedName? index m = some found := by
  unfold mountedName?
  by_cases hempty : canonicalName m.target = ""
  · simp [hempty, hproperty, hentry]
  · have hnone := htarget.resolve_left hempty
    simp [hempty, hproperty, hnone, hentry]

/-- A mount whose names are nothing but decoration is matched to no router. -/
theorem mountedName?_of_bare
    {index : List (String × String)}
    {m : Mount}
    (htarget : canonicalName m.target = "")
    (hproperty : canonicalName m.property = "") :
    mountedName? index m = none := by
  unfold mountedName?
  simp [htarget, hproperty]

end Edges

section Climbing

/-- The router whose property a name is first mounted under. -/
def mounter?
    (g : Graph)
    (name : String) :
    Option String :=
  (g.incoming name).head?.map Mount.parent

/-- The name that is reached from a name by a number of steps up along first mounts. -/
def ancestor?
    (g : Graph) :
    Nat → String → Option String
  | 0, name => some name
  | n + 1, name => (g.mounter? name).bind (ancestor? g n)

/-- The way up from a name never comes to a name twice. -/
def ClimbsOnce
    (g : Graph)
    (name : String) :
    Prop :=
  ∀ i j a, i < j → g.ancestor? i name = some a → g.ancestor? j name ≠ some a

variable {g : Graph}

theorem mounter?_eq_none
    {name : String}
    (h : g.incoming name = []) :
    g.mounter? name = none := by
  simp [mounter?, h]

theorem mounter?_eq_some
    {name : String}
    {m : Mount}
    {rest : List Mount}
    (h : g.incoming name = m :: rest) :
    g.mounter? name = some m.parent := by
  simp [mounter?, h]

theorem ancestor?_add
    (name : String)
    (i j : Nat) :
    g.ancestor? (i + j) name = (g.ancestor? i name).bind (g.ancestor? j) := by
  induction i generalizing name with
  | zero => simp [ancestor?]
  | succ i ih =>
    rw [Nat.succ_add_eq_add_succ, Nat.add_succ]
    cases hm : g.mounter? name with
    | none => simp [ancestor?, hm]
    | some p => simp [ancestor?, hm, ih]

/-- Above the top there is nothing. -/
theorem ancestor?_eq_none_of_le
    {name : String}
    {i j : Nat}
    (h : g.ancestor? i name = none)
    (hij : i ≤ j) :
    g.ancestor? j name = none := by
  obtain ⟨k, rfl⟩ := Nat.exists_eq_add_of_le hij
  simp [ancestor?_add, h]

/-- A name that is its own ancestor is so again and again. -/
theorem ancestor?_mul_self
    {name : String}
    {i : Nat}
    (h : g.ancestor? i name = some name)
    (k : Nat) :
    g.ancestor? (i * k) name = some name := by
  induction k with
  | zero => simp [ancestor?]
  | succ k ih => simp [Nat.mul_succ, ancestor?_add, ih, h]

/-- A name with a top above it is none of its own ancestors. -/
theorem ancestor?_ne_self
    {name : String}
    {top : Nat}
    (htop : g.ancestor? top name = none)
    (i : Nat) :
    g.ancestor? (i + 1) name ≠ some name := by
  intro h
  have hback : g.ancestor? ((i + 1) * top) name = some name := ancestor?_mul_self h top
  have hle : top ≤ (i + 1) * top := Nat.le_mul_of_pos_left top (Nat.succ_pos i)
  rw [ancestor?_eq_none_of_le htop hle] at hback
  cases hback

/-- Only a declared mount is a mount of some name. -/
theorem mem_mounts_of_mem_incoming
    {name : String}
    {m : Mount}
    (h : m ∈ g.incoming name) :
    m ∈ g.mounts := by
  rw [incoming, incomingAmong_eq] at h
  split at h
  · exact (mem_edges.1 (mem_mountsAt.1 h)).1
  · exact (mem_edges.1 (mem_mountsAt.1 h)).1

/-- Every ancestor but the name itself is the parent of a mount. -/
theorem mem_parents_of_ancestor?
    {name a : String}
    {i : Nat}
    (h : g.ancestor? (i + 1) name = some a) :
    a ∈ g.mounts.map Mount.parent := by
  induction i generalizing name with
  | zero =>
    cases hin : g.incoming name with
    | nil => simp [ancestor?, mounter?_eq_none hin] at h
    | cons m rest =>
      have ha : m.parent = a := by simpa [ancestor?, mounter?_eq_some hin] using h
      have hm : m ∈ g.incoming name := by simp [hin]
      exact List.mem_map.2 ⟨m, mem_mounts_of_mem_incoming hm, ha⟩
  | succ i ih =>
    rw [ancestor?] at h
    obtain ⟨p, -, hp⟩ := Option.bind_eq_some_iff.1 h
    exact ih hp

/-- A way up that comes to no name twice ends after no more steps than there are mounts. -/
theorem ClimbsOnce.ancestor?_eq_none
    {name : String}
    (h : g.ClimbsOnce name) :
    g.ancestor? (g.mounts.length + 1) name = none := by
  by_contra hsome
  let steps := Finset.range (g.mounts.length + 1)
  let parents := (g.mounts.map Mount.parent).toFinset
  let above (i : Nat) : String := (g.ancestor? (i + 1) name).getD ""
  have habove : ∀ i ∈ steps, g.ancestor? (i + 1) name = some (above i) := by
    intro i hi
    cases hi' : g.ancestor? (i + 1) name with
    | none =>
      have hle : i + 1 ≤ g.mounts.length + 1 := Nat.succ_le_of_lt (Finset.mem_range.1 hi)
      exact absurd (ancestor?_eq_none_of_le hi' hle) hsome
    | some a => simp [above, hi']
  have hmaps : ∀ i ∈ steps, above i ∈ parents := by
    intro i hi
    exact List.mem_toFinset.2 (mem_parents_of_ancestor? (habove i hi))
  have hcard : parents.card < steps.card := by
    have hparents : parents.card ≤ (g.mounts.map Mount.parent).length := List.toFinset_card_le _
    simp only [List.length_map] at hparents
    simpa [steps] using Nat.lt_succ_of_le hparents
  obtain ⟨i, hi, j, hj, hne, heq⟩ := Finset.exists_ne_map_eq_of_card_lt_of_maps_to hcard hmaps
  have hi' := habove i hi
  have hj' := habove j hj
  rcases Nat.lt_or_gt_of_ne hne with hlt | hlt
  · exact h (i + 1) (j + 1) _ (by omega) hi' (heq ▸ hj')
  · exact h (j + 1) (i + 1) _ (by omega) hj' (heq ▸ hi')

end Climbing

section Paths

/-- The path of a name by recursion along first mounts: a root has the empty path, any other name that
nothing mounts stands for itself, and a mounted name adds a property to the path of its mounter. -/
inductive MountPath (g : Graph) : String → String → Prop
  | root
      {name : String}
      (htop : g.incoming name = [])
      (hroot : name ∈ g.roots ∨ indexName name ∈ g.roots) :
      MountPath g name ""
  | undeclared
      {name : String}
      (htop : g.incoming name = [])
      (hroot : ¬(name ∈ g.roots ∨ indexName name ∈ g.roots)) :
      MountPath g name name
  | inRoot
      {name : String}
      {m : Mount}
      {rest : List Mount}
      (hfirst : g.incoming name = m :: rest)
      (hparent : MountPath g m.parent "") :
      MountPath g name m.property
  | inPath
      {name path : String}
      {m : Mount}
      {rest : List Mount}
      (hfirst : g.incoming name = m :: rest)
      (hparent : MountPath g m.parent path)
      (hpath : path ≠ "") :
      MountPath g name (path ++ "." ++ m.property)

variable {g : Graph}

@[simp] theorem below_empty (property : String) : below "" property = property := by
  simp [below]

theorem below_of_ne
    {path : String}
    (hpath : path ≠ "")
    (property : String) :
    below path property = path ++ "." ++ property := by
  simp [below, hpath]

theorem basePath_of_root
    {roots : List String}
    {name : String}
    (hroot : name ∈ roots ∨ indexName name ∈ roots) :
    basePath roots name = "" := by
  simp [basePath, hroot]

theorem basePath_of_not_root
    {roots : List String}
    {name : String}
    (hroot : ¬(name ∈ roots ∨ indexName name ∈ roots)) :
    basePath roots name = name := by
  simp [basePath, hroot]

theorem MountPath.top
    {name : String}
    (htop : g.incoming name = []) :
    MountPath g name (basePath g.roots name) := by
  by_cases hroot : name ∈ g.roots ∨ indexName name ∈ g.roots
  · rw [basePath_of_root hroot]
    exact MountPath.root htop hroot
  · rw [basePath_of_not_root hroot]
    exact MountPath.undeclared htop hroot

theorem MountPath.mounted
    {name path : String}
    {m : Mount}
    {rest : List Mount}
    (hfirst : g.incoming name = m :: rest)
    (hparent : MountPath g m.parent path) :
    MountPath g name (Graph.below path m.property) := by
  by_cases hpath : path = ""
  · subst hpath
    rw [below_empty]
    exact MountPath.inRoot hfirst hparent
  · rw [below_of_ne hpath]
    exact MountPath.inPath hfirst hparent hpath

/-- The path of a name that nothing mounts. -/
theorem MountPath.eq_basePath
    {name path : String}
    (h : MountPath g name path)
    (htop : g.incoming name = []) :
    path = basePath g.roots name := by
  cases h with
  | root _ hroot => exact (basePath_of_root hroot).symm
  | undeclared _ hroot => exact (basePath_of_not_root hroot).symm
  | inRoot hfirst _ => simp [htop] at hfirst
  | inPath hfirst _ _ => simp [htop] at hfirst

/-- The path of a mounted name is made of the path of its first mounter. -/
theorem MountPath.exists_parent
    {name path : String}
    {m : Mount}
    {rest : List Mount}
    (h : MountPath g name path)
    (hfirst : g.incoming name = m :: rest) :
    ∃ parentPath, MountPath g m.parent parentPath ∧ path = Graph.below parentPath m.property := by
  cases h with
  | root htop _ => simp [htop] at hfirst
  | undeclared htop _ => simp [htop] at hfirst
  | inRoot hfirst' hparent =>
    rw [hfirst'] at hfirst
    cases hfirst
    exact ⟨"", hparent, (below_empty _).symm⟩
  | inPath hfirst' hparent hpath =>
    rw [hfirst'] at hfirst
    cases hfirst
    exact ⟨_, hparent, (below_of_ne hpath _).symm⟩

/-- A name has one path at most. -/
theorem MountPath.unique
    {name p q : String}
    (hp : MountPath g name p)
    (hq : MountPath g name q) :
    p = q := by
  induction hp generalizing q with
  | root htop hroot => rw [hq.eq_basePath htop, basePath_of_root hroot]
  | undeclared htop hroot => rw [hq.eq_basePath htop, basePath_of_not_root hroot]
  | inRoot hfirst _ ih =>
    obtain ⟨parentPath, hparent, rfl⟩ := hq.exists_parent hfirst
    rw [← ih hparent, below_empty]
  | inPath hfirst _ hpath ih =>
    obtain ⟨parentPath, hparent, rfl⟩ := hq.exists_parent hfirst
    rw [← ih hparent, below_of_ne hpath]

/-- A name with a top above it has a path. -/
theorem exists_mountPath
    {top : Nat}
    {name : String}
    (htop : g.ancestor? top name = none) :
    ∃ path, MountPath g name path := by
  induction top generalizing name with
  | zero => simp [ancestor?] at htop
  | succ top ih =>
    cases hin : g.incoming name with
    | nil => exact ⟨_, MountPath.top hin⟩
    | cons m rest =>
      have hparent : g.ancestor? top m.parent = none := by
        simpa [ancestor?, mounter?_eq_some hin] using htop
      obtain ⟨path, hpath⟩ := ih hparent
      exact ⟨_, hpath.mounted hin⟩

/-- A name with a path has a top above it. -/
theorem MountPath.exists_top
    {name path : String}
    (h : MountPath g name path) :
    ∃ top, g.ancestor? top name = none := by
  induction h with
  | root htop _ => exact ⟨1, by simp [ancestor?, mounter?_eq_none htop]⟩
  | undeclared htop _ => exact ⟨1, by simp [ancestor?, mounter?_eq_none htop]⟩
  | inRoot hfirst _ ih =>
    obtain ⟨top, htop⟩ := ih
    exact ⟨top + 1, by simp [ancestor?, mounter?_eq_some hfirst, htop]⟩
  | inPath hfirst _ _ ih =>
    obtain ⟨top, htop⟩ := ih
    exact ⟨top + 1, by simp [ancestor?, mounter?_eq_some hfirst, htop]⟩

/-- A name with a path climbs to its top without coming to a name twice. -/
theorem MountPath.climbsOnce
    {name path : String}
    (h : MountPath g name path) :
    g.ClimbsOnce name := by
  intro i j a hij hi hj
  obtain ⟨top, htop⟩ := h.exists_top
  obtain ⟨d, rfl⟩ : ∃ d, j = i + (d + 1) := ⟨j - i - 1, by omega⟩
  have hback : g.ancestor? (d + 1) a = some a := by simpa [ancestor?_add, hi] using hj
  have htop' : g.ancestor? top a = none := by
    have hsum : g.ancestor? (i + top) name = none :=
      ancestor?_eq_none_of_le htop (Nat.le_add_left top i)
    simpa [ancestor?_add, hi] using hsum
  exact ancestor?_ne_self htop' d hback

end Paths

section Resolving

/-- The bound on chains of mounts with which paths are resolved. -/
def chainBound (g : Graph) : Nat :=
  g.routers.length + g.mounts.length + 2

/-- The table of paths after some names were resolved one after the other. -/
def pathsInOrder
    (g : Graph)
    (order : List String) :
    List (String × String) :=
  order.foldl (fun known name => (resolveName g.edges g.roots g.chainBound [] known name).2) []

/-- Names are resolved in the order in which routers are declared. -/
theorem resolvePaths_eq (g : Graph) :
    g.resolvePaths = g.pathsInOrder (g.routers.map Declaration.name) := by
  simp [resolvePaths, pathsInOrder, chainBound, List.foldl_map]

/-- Paths depend on the names of routers and on mounts, in their order, and on nothing else. -/
theorem resolvePaths_congr
    {g g' : Graph}
    (hrouters : g.routers.map Declaration.name = g'.routers.map Declaration.name)
    (hmounts : g.mounts = g'.mounts) :
    g.resolvePaths = g'.resolvePaths := by
  have hindex : g.index = g'.index := by
    have hpairs := congrArg (List.map fun name => (indexName name, name)) hrouters
    simp only [List.map_map] at hpairs
    exact congrArg ofPairs hpairs
  have hedges : g.edges = g'.edges := by
    simp only [edges, hindex, hmounts]
  have hroots : g.roots = g'.roots := by
    have hnames := congrArg (List.flatMap fun name =>
      if (incomingAmong g'.edges name).isEmpty then [name, indexName name] else []) hrouters
    simp only [List.flatMap_map] at hnames
    simpa only [roots, hedges] using hnames
  have hbound : g.chainBound = g'.chainBound := by
    have hlength := congrArg List.length hrouters
    simp only [List.length_map] at hlength
    rw [chainBound, chainBound, hlength, hmounts]
  simp only [resolvePaths_eq, pathsInOrder, hedges, hroots, hbound, hrouters]

/-- A table is sound if no name that has a path is entered with another one. -/
def Sound
    (g : Graph)
    (known : List (String × String)) :
    Prop :=
  ∀ name path p, entryOf? name known = some path → MountPath g name p → path = p

variable {g : Graph}

theorem Sound.putEntry
    {known : List (String × String)}
    {name path : String}
    (h : g.Sound known)
    (hpath : ∀ p, MountPath g name p → path = p) :
    g.Sound (putEntry name path known) := by
  intro name' path' p hentry hp
  rw [entryOf?_putEntry] at hentry
  split at hentry
  · next heq =>
    subst heq
    cases hentry
    exact hpath p hp
  · exact h name' path' p hentry hp

/-- What was entered stays entered. -/
theorem entryOf?_resolveName_isSome
    {fuel : Nat}
    {open_ : List String}
    {known : List (String × String)}
    {name other : String}
    (h : (entryOf? other known).isSome) :
    (entryOf? other (resolveName g.edges g.roots fuel open_ known name).2).isSome := by
  induction fuel generalizing open_ known name with
  | zero => exact h
  | succ fuel ih =>
    unfold resolveName
    split
    · exact h
    · split
      · exact h
      · split
        · exact entryOf?_putEntry_isSome h
        · exact entryOf?_putEntry_isSome (ih h)

/-- Resolving a name without a path enters names without a path only. -/
theorem Sound.resolveName_of_circle
    {fuel : Nat}
    {open_ : List String}
    {known : List (String × String)}
    {name : String}
    (h : g.Sound known)
    (hcircle : ∀ p, ¬MountPath g name p) :
    g.Sound (resolveName g.edges g.roots fuel open_ known name).2 := by
  induction fuel generalizing open_ known name with
  | zero => exact h
  | succ fuel ih =>
    unfold resolveName
    split
    · exact h
    · split
      · exact h
      · split
        · next htop => exact absurd (MountPath.top htop) (hcircle _)
        · next m rest hfirst =>
          have hparent : ∀ p, ¬MountPath g m.parent p :=
            fun p hp => hcircle _ (hp.mounted hfirst)
          exact (ih h hparent).putEntry fun p hp => absurd hp (hcircle p)

/-- A name with a path is resolved to it, when the chain of mounts above it is within the bound and
no name of that chain is being resolved already. -/
theorem resolveName_of_mountPath
    {fuel : Nat}
    {open_ : List String}
    {known : List (String × String)}
    {name path : String}
    (hpath : MountPath g name path)
    (hknown : g.Sound known)
    (hfuel : g.ancestor? fuel name = none)
    (hopen : ∀ i a, g.ancestor? i name = some a → a ∉ open_) :
    (resolveName g.edges g.roots fuel open_ known name).1 = path ∧
      g.Sound (resolveName g.edges g.roots fuel open_ known name).2 ∧
      entryOf? name (resolveName g.edges g.roots fuel open_ known name).2 = some path := by
  induction fuel generalizing open_ known name path with
  | zero => simp [ancestor?] at hfuel
  | succ fuel ih =>
    have hself : name ∉ open_ := hopen 0 name rfl
    unfold resolveName
    cases hentry : entryOf? name known with
    | some found =>
      have hfound : found = path := hknown name found path hentry hpath
      subst hfound
      exact ⟨rfl, hknown, hentry⟩
    | none =>
      cases hin : incomingAmong g.edges name with
      | nil =>
        have hbase : path = basePath g.roots name := hpath.eq_basePath hin
        subst hbase
        have hsound := hknown.putEntry fun p hp => hpath.unique hp
        simp [hself, hsound]
      | cons m rest =>
        obtain ⟨parentPath, hparent, rfl⟩ := hpath.exists_parent hin
        have hstep : g.mounter? name = some m.parent := mounter?_eq_some hin
        have hfuel' : g.ancestor? fuel m.parent = none := by
          simpa [ancestor?, hstep] using hfuel
        -- the name itself is open from here on, and is no ancestor of its parent
        have hopen' : ∀ i a, g.ancestor? i m.parent = some a → a ∉ name :: open_ := by
          intro i a ha hmem
          have ha' : g.ancestor? (i + 1) name = some a := by simpa [ancestor?, hstep] using ha
          rcases List.mem_cons.1 hmem with rfl | hmem
          · exact ancestor?_ne_self hfuel i ha'
          · exact hopen (i + 1) a ha' hmem
        obtain ⟨hvalue, hsound, -⟩ := ih hparent hknown hfuel' hopen'
        have hsound' := hsound.putEntry fun p hp => hpath.unique hp
        simp [hself, hvalue, hsound']

/-- The bound is beyond the top of every chain that has one. -/
theorem MountPath.ancestor?_chainBound
    {name path : String}
    (h : MountPath g name path) :
    g.ancestor? g.chainBound name = none := by
  have hbound : g.mounts.length + 1 ≤ g.chainBound := by
    unfold chainBound
    omega
  exact ancestor?_eq_none_of_le h.climbsOnce.ancestor?_eq_none hbound

/-- Resolving any name from the start keeps a table sound. -/
theorem Sound.resolveName
    {known : List (String × String)}
    (h : g.Sound known)
    (name : String) :
    g.Sound (resolveName g.edges g.roots g.chainBound [] known name).2 := by
  by_cases hpath : ∃ path, MountPath g name path
  · obtain ⟨path, hpath⟩ := hpath
    exact (resolveName_of_mountPath hpath h hpath.ancestor?_chainBound (by simp)).2.1
  · exact h.resolveName_of_circle (not_exists.1 hpath)

theorem sound_nil : g.Sound [] := by
  intro name path p hentry
  simp [entryOf?] at hentry

/-- Whatever the order of names, the table stays sound, and in the end it has every name that was
resolved and has a path. -/
theorem sound_pathsInOrder (order : List String) :
    g.Sound (g.pathsInOrder order) ∧
      ∀ name path, name ∈ order → MountPath g name path →
        (entryOf? name (g.pathsInOrder order)).isSome := by
  induction order using List.reverseRecOn with
  | nil => exact ⟨sound_nil, by simp⟩
  | append_singleton order last ih =>
    obtain ⟨hsound, hentered⟩ := ih
    have hlast : g.pathsInOrder (order ++ [last]) =
        (Graph.resolveName g.edges g.roots g.chainBound [] (g.pathsInOrder order) last).2 := by
      simp [pathsInOrder]
    rw [hlast]
    refine ⟨hsound.resolveName last, ?_⟩
    intro name path hname hpath
    rcases List.mem_append.1 hname with hname | hname
    · exact entryOf?_resolveName_isSome (hentered name path hname hpath)
    · obtain rfl := List.mem_singleton.1 hname
      have hopen : ∀ i a, g.ancestor? i name = some a → a ∉ ([] : List String) := by simp
      have hentry := (resolveName_of_mountPath hpath hsound hpath.ancestor?_chainBound hopen).2.2
      simp [hentry]

theorem entryOf?_pathsInOrder
    {order : List String}
    {name path : String}
    (hname : name ∈ order)
    (hpath : MountPath g name path) :
    entryOf? name (g.pathsInOrder order) = some path := by
  obtain ⟨hsound, hentered⟩ := sound_pathsInOrder (g := g) order
  obtain ⟨found, hfound⟩ := Option.isSome_iff_exists.1 (hentered name path hname hpath)
  rw [hfound, hsound name found path hfound hpath]

/-- A declared router above which no name comes twice has exactly one path by recursion along first
mounts, the table of all paths has that path, and so has the table that is made in any other order of
names. -/
theorem resolvePaths_of_climbsOnce
    (g : Graph)
    (r : Declaration)
    (hr : r ∈ g.routers)
    (hclimb : g.ClimbsOnce r.name) :
    ∃ path, MountPath g r.name path ∧
      (∀ p, MountPath g r.name p → p = path) ∧
      entryOf? r.name g.resolvePaths = some path ∧
      ∀ order, r.name ∈ order → entryOf? r.name (g.pathsInOrder order) = some path := by
  obtain ⟨path, hpath⟩ := exists_mountPath hclimb.ancestor?_eq_none
  have hdeclared : r.name ∈ g.routers.map Declaration.name := List.mem_map.2 ⟨r, hr, rfl⟩
  refine ⟨path, hpath, fun p hp => hp.unique hpath, ?_, ?_⟩
  · rw [resolvePaths_eq]
    exact entryOf?_pathsInOrder hdeclared hpath
  · intro order hname
    exact entryOf?_pathsInOrder hname hpath

/-- Routers on a chain of two mounts, declared after a router that mounts itself. -/
def chainBesideLoop : Graph :=
  ⟨[⟨"loop", "loop.ts", 1, 5⟩, ⟨"post", "post.ts", 1, 5⟩, ⟨"app", "root.ts", 1, 9⟩,
      ⟨"auth", "auth.ts", 1, 5⟩],
    [⟨"app", "auth", "authRouter"⟩, ⟨"loop", "loop", "loopRouter"⟩,
      ⟨"auth", "posts", "createPostRouter"⟩]⟩

theorem resolvePaths_chainBesideLoop :
    ⟨"post", "post.ts", 1, 5⟩ ∈ chainBesideLoop.routers ∧
      chainBesideLoop.ClimbsOnce "post" ∧
      ∃ path, MountPath chainBesideLoop "post" path ∧
        (∀ p, MountPath chainBesideLoop "post" p → p = path) ∧
        entryOf? "post" chainBesideLoop.resolvePaths = some path ∧
        ∀ order, "post" ∈ order →
          entryOf? "post" (chainBesideLoop.pathsInOrder order) = some path := by
  have hdeclared : ⟨"post", "post.ts", 1, 5⟩ ∈ chainBesideLoop.routers := by
    simp [chainBesideLoop]
  have htop : chainBesideLoop.ancestor? 3 "post" = none := by decide +kernel
  obtain ⟨path, hpath⟩ := exists_mountPath htop
  have hclimb : chainBesideLoop.ClimbsOnce "post" := hpath.climbsOnce
  exact ⟨hdeclared, hclimb, resolvePaths_of_climbsOnce _ _ hdeclared hclimb⟩

end Resolving

section Tracing

variable {g : Graph}

/-- What a table says of a name in any case, on a circle or not: an empty path is right, and the path of
a mounted name ends with the property of its first mount. -/
def Traced
    (g : Graph)
    (known : List (String × String)) :
    Prop :=
  ∀ name path, entryOf? name known = some path →
    (path = "" → MountPath g name "") ∧
    ∀ m rest, g.incoming name = m :: rest →
      ∃ parentPath, path = below parentPath m.property ∧
        (parentPath = "" → MountPath g m.parent "")

theorem below_ne_empty
    {property : String}
    (h : property ≠ "")
    (path : String) :
    below path property ≠ "" := by
  by_cases hpath : path = ""
  · simpa [hpath] using h
  · rw [below_of_ne hpath]
    intro hempty
    have hlength := congrArg String.length hempty
    simp [String.length_append] at hlength

theorem Traced.putEntry
    {known : List (String × String)}
    {name path : String}
    (h : g.Traced known)
    (hempty : path = "" → MountPath g name "")
    (hmounted : ∀ m rest, g.incoming name = m :: rest →
      ∃ parentPath, path = below parentPath m.property ∧
        (parentPath = "" → MountPath g m.parent "")) :
    g.Traced (putEntry name path known) := by
  intro name' path' hentry
  rw [entryOf?_putEntry] at hentry
  split at hentry
  · next heq =>
    subst heq
    cases hentry
    exact ⟨hempty, hmounted⟩
  · exact h name' path' hentry

/-- When no parent and no property is empty, resolving a name keeps a table traced, and the name gets
the empty path only if that is its path. -/
theorem Traced.resolveName
    (hmounts : ∀ m ∈ g.mounts, m.parent ≠ "" ∧ m.property ≠ "")
    {fuel : Nat}
    {open_ : List String}
    {known : List (String × String)}
    {name : String}
    (hname : name ≠ "")
    (h : g.Traced known) :
    g.Traced (resolveName g.edges g.roots fuel open_ known name).2 ∧
      ((resolveName g.edges g.roots fuel open_ known name).1 = "" → MountPath g name "") := by
  induction fuel generalizing open_ known name with
  | zero => exact ⟨h, fun hempty => absurd hempty hname⟩
  | succ fuel ih =>
    unfold Graph.resolveName
    cases hentry : entryOf? name known with
    | some found => exact ⟨h, (h name found hentry).1⟩
    | none =>
      by_cases hopen : open_.contains name
      · simpa only [hopen, if_true] using ⟨h, fun hempty => absurd hempty hname⟩
      · simp only [hopen, if_false, Bool.false_eq_true]
        cases hin : incomingAmong g.edges name with
        | nil =>
          have hempty : basePath g.roots name = "" → MountPath g name "" :=
            fun hbase => hbase ▸ MountPath.top hin
          exact ⟨h.putEntry hempty fun m rest hfirst => by simp [incoming, hin] at hfirst, hempty⟩
        | cons m rest =>
          have hm : m ∈ g.incoming name := by simp [incoming, hin]
          obtain ⟨hparent, hproperty⟩ := hmounts m (mem_mounts_of_mem_incoming hm)
          have habove : g.Traced
              (Graph.resolveName g.edges g.roots fuel (name :: open_) known m.parent).2 ∧ _ :=
            ih hparent h
          obtain ⟨htraced, hroot⟩ := habove
          have hfull := below_ne_empty hproperty
          refine ⟨htraced.putEntry (fun hempty => absurd hempty (hfull _)) ?_,
            fun hempty => absurd hempty (hfull _)⟩
          intro m' rest' hfirst
          obtain ⟨rfl, -⟩ : m = m' ∧ rest = rest' := by simpa [incoming, hin] using hfirst
          exact ⟨_, rfl, hroot⟩

/-- A name that is resolved from the start is entered. -/
theorem entryOf?_resolveName_self
    (fuel : Nat)
    (known : List (String × String))
    (name : String) :
    (entryOf? name (resolveName g.edges g.roots (fuel + 1) [] known name).2).isSome := by
  unfold resolveName
  cases hentry : entryOf? name known with
  | some found => simp [hentry]
  | none =>
    cases incomingAmong g.edges name with
    | nil => simp
    | cons m rest => simp

/-- The table of all paths is traced and has every declared router. -/
theorem traced_resolvePaths
    (hmounts : ∀ m ∈ g.mounts, m.parent ≠ "" ∧ m.property ≠ "")
    (hrouters : ∀ r ∈ g.routers, r.name ≠ "") :
    g.Traced g.resolvePaths ∧ ∀ r ∈ g.routers, (entryOf? r.name g.resolvePaths).isSome := by
  rw [resolvePaths_eq]
  generalize hdeclared : g.routers = routers at hrouters
  clear hdeclared
  induction routers using List.reverseRecOn with
  | nil =>
    have hnil : g.Traced [] := by
      intro name path hentry
      simp [entryOf?] at hentry
    exact ⟨hnil, by simp⟩
  | append_singleton routers last ih =>
    obtain ⟨htraced, hentered⟩ := ih fun r hr => hrouters r (List.mem_append_left _ hr)
    have hstep : g.pathsInOrder ((routers ++ [last]).map Declaration.name) =
        (Graph.resolveName g.edges g.roots g.chainBound []
          (g.pathsInOrder (routers.map Declaration.name)) last.name).2 := by
      simp [pathsInOrder]
    rw [hstep]
    refine ⟨(htraced.resolveName hmounts (hrouters last (by simp))).1, fun r hr => ?_⟩
    rcases List.mem_append.1 hr with hr | hr
    · exact entryOf?_resolveName_isSome (hentered r hr)
    · obtain rfl := List.mem_singleton.1 hr
      exact entryOf?_resolveName_self _ _ _

end Tracing

end RouteAtlas.Router.Graph
