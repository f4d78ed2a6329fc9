import Mathlib
import RouteAtlas.Proofs.RouterOutlines

/-!
# The paths of nested routers

A router built in place is named by its last key alone, and mounts are matched to routers by name. So
the path of a router follows its keys only as long as the first mount that is matched to its name is
its own, and so on up to a root that nothing mounts. `MountedInPlace` says this of one router.

It is enough for a router to be renamed to its key path, and in two situations it is also needed. One
is that all routers below the root are renamed to their key paths: then each has a name of its own, and
only its own mount can end its path with its last key. The other is that names are plain, so that a
mount is matched to the router of its key and to no other, and no key is taken for the root: then every
router has a path, because its first mount stands in a router that comes before it.
-/

namespace RouteAtlas.Router.Outline

open Text (joinWith)

section Following

/-- The first mount that is matched to the name of a router is its own, and the same is true of the
router that holds it, and so on up to the root, which nothing mounts. -/
inductive MountedInPlace
    (g : Graph)
    (name : List String → String) :
    List String → Prop
  | root
      (htop : g.incoming (name []) = []) :
      MountedInPlace g name []
  | inside
      {path : List String}
      {key target : String}
      {rest : List Mount}
      (hparent : MountedInPlace g name path)
      (hfirst : g.incoming (name (path ++ [key])) = ⟨name path, key, target⟩ :: rest) :
      MountedInPlace g name (path ++ [key])

/-- Nothing mounts a router, and its name is its whole key path anyway. -/
def StandsAlone
    (g : Graph)
    (name : List String → String)
    (path : List String) :
    Prop :=
  g.incoming (name path) = [] ∧ name path = joinWith "." path

/-- Every router below the root that holds a procedure is mounted in place or stands alone. -/
def InPlace
    (name : List String → String)
    (o : Outline) :
    Prop :=
  ∀ place ∈ o.places, place.1 ≠ [] →
    MountedInPlace (o.graph name) name place.1 ∨ StandsAlone (o.graph name) name place.1

/-- Every router below the root that holds a procedure is renamed to its key path. -/
def FollowsKeys
    (name : List String → String)
    (o : Outline) :
    Prop :=
  ∀ place ∈ o.places, place.1 ≠ [] →
    Graph.renamed (o.graph name).resolvePaths (name place.1) = joinWith "." place.1

/-- Every router below the root holds a procedure of its own. -/
def IsInhabited (o : Outline) : Prop :=
  ∀ l ∈ nestedIn [] o, l.holds.procedures ≠ []

variable {name : List String → String} {o : Outline}

/-- A declared router that nothing mounts is a root. -/
theorem mem_roots_of_top
    {l : Level}
    (hl : l ∈ o.levels)
    (htop : (o.graph name).incoming (name l.path) = []) :
    name l.path ∈ (o.graph name).roots := by
  obtain ⟨r, hr, hname⟩ := List.mem_map.1 (declared_of_mem_levels name hl)
  rw [← hname] at htop ⊢
  refine List.mem_flatMap.2 ⟨r, hr, ?_⟩
  rw [if_pos (by rw [List.isEmpty_iff]; exact htop)]
  exact List.mem_cons_self

theorem mountPath_of_top
    {l : Level}
    (hl : l ∈ o.levels)
    (htop : (o.graph name).incoming (name l.path) = []) :
    Graph.MountPath (o.graph name) (name l.path) "" :=
  Graph.MountPath.root htop (Or.inl (mem_roots_of_top hl htop))

theorem renamed_of_mountPath
    {l : Level}
    {path : String}
    (hl : l ∈ o.levels)
    (hpath : Graph.MountPath (o.graph name) (name l.path) path) :
    Graph.renamed (o.graph name).resolvePaths (name l.path) =
      if path = "" then name l.path else path := by
  have hentry := Graph.entryOf?_pathsInOrder (declared_of_mem_levels name hl) hpath
  rw [Graph.renamed, Graph.resolvePaths_eq, hentry]
  simp

/-- A router that is mounted in place has the path that its keys make. -/
theorem MountedInPlace.mountPath
    {path : List String}
    (h : MountedInPlace (o.graph name) name path)
    (hkeys : ∀ key ∈ path, isKey key) :
    Graph.MountPath (o.graph name) (name path) (joinWith "." path) := by
  induction h with
  | root htop =>
    rw [joinWith]
    exact mountPath_of_top (root_mem_levels o) htop
  | @inside path key target rest _ hfirst ih =>
    have hpath : ∀ k ∈ path, isKey k := fun k hk => hkeys k (List.mem_append_left _ hk)
    rw [← below_joinWith hpath]
    exact Graph.MountPath.mounted hfirst (ih hpath)

/-- Routers that are mounted in place or stand alone are renamed to their key paths. -/
theorem followsKeys_of_inPlace
    (ho : o.isKeyed)
    (h : o.InPlace name) :
    o.FollowsKeys name := by
  intro place hplace hpath
  obtain ⟨l, hl, -, hl'⟩ := mem_places.1 hplace
  have hcase := h place hplace hpath
  rw [hl'] at hcase hpath ⊢
  have hkeys := (isKeyed_of_mem_levels ho hl).2
  rcases hcase with hmounted | ⟨htop, hname⟩
  · rw [renamed_of_mountPath hl (hmounted.mountPath hkeys), if_neg (joinWith_ne_empty hpath hkeys)]
  · rw [renamed_of_mountPath hl (mountPath_of_top hl htop), if_pos rfl, hname]

end Following

section Inhabited

variable {name : List String → String} {o : Outline}

/-- A router with the empty path is one that nothing mounts. -/
theorem incoming_eq_nil_of_mountPath
    (ho : o.isKeyed)
    {at_ : String}
    (h : Graph.MountPath (o.graph name) at_ "") :
    (o.graph name).incoming at_ = [] := by
  cases hin : (o.graph name).incoming at_ with
  | nil => rfl
  | cons m rest =>
    have hm : m ∈ (o.graph name).incoming at_ := by simp [hin]
    have hkey := isKey_of_mem_mounts_graph ho (Graph.mem_mounts_of_mem_incoming hm)
    obtain ⟨parentPath, -, hpath⟩ := h.exists_parent hin
    exact absurd hpath.symm (Graph.below_ne_empty (isKey_iff.1 hkey).1 parentPath)

theorem exists_nested_parent
    {l : Level}
    {path : List String}
    {key : String}
    (hl : l ∈ nestedIn [] o)
    (hpath : l.path = path ++ [key])
    (hnil : path ≠ []) :
    ∃ parent ∈ nestedIn [] o, parent.path = path := by
  obtain ⟨parent, hparent, key', target, -, hpath'⟩ := exists_parent_of_mem_nestedIn hl
  have hsame : parent.path = path := (List.append_inj' (hpath'.symm.trans hpath) rfl).1
  rcases List.mem_cons.1 hparent with rfl | hparent
  · exact absurd hsame.symm hnil
  · exact ⟨parent, hparent, hsame⟩

/-- When all routers below the root are renamed to their key paths, each of them has a name of its own. -/
theorem path_eq_of_renamed
    (ho : o.isKeyed)
    (hfollows : ∀ l ∈ nestedIn [] o,
      Graph.renamed (o.graph name).resolvePaths (name l.path) = joinWith "." l.path)
    {l l' : Level}
    (hl : l ∈ nestedIn [] o)
    (hl' : l' ∈ nestedIn [] o)
    (hname : name l.path = name l'.path) :
    l.path = l'.path := by
  have hkeys := (isKeyed_of_mem_levels ho (List.mem_cons_of_mem _ hl)).2
  have hkeys' := (isKeyed_of_mem_levels ho (List.mem_cons_of_mem _ hl')).2
  have hjoined : joinWith "." l.path = joinWith "." l'.path := by
    rw [← hfollows l hl, ← hfollows l' hl', hname]
  exact joinWith_inj hkeys hkeys' hjoined

/-- Then a mount of a router under its last key is its own, because only one router below the root can
have the name that the key gives. -/
theorem parent_eq_of_renamed
    (hlast : ∀ path path' key, name (path ++ [key]) = name (path' ++ [key]))
    (ho : o.isKeyed)
    (hfollows : ∀ l ∈ nestedIn [] o,
      Graph.renamed (o.graph name).resolvePaths (name l.path) = joinWith "." l.path)
    {l : Level}
    {path : List String}
    {m : Mount}
    (hl : l ∈ nestedIn [] o)
    (hpath : l.path = path ++ [m.property])
    (hm : m ∈ (o.graph name).mounts) :
    m.parent = name path := by
  obtain ⟨parent, hparent, key, target, hmounted, rfl⟩ := mem_mounts_graph.1 hm
  obtain ⟨l', hl', hpath'⟩ := exists_nested_of_mem_mounted hparent hmounted
  have hname : name l.path = name l'.path := by
    rw [hpath, hpath']
    exact hlast path parent.path key
  have hsame := path_eq_of_renamed ho hfollows hl hl' hname
  rw [hpath, hpath'] at hsame
  rw [(List.append_inj' hsame rfl).1]

/-- A router with a mount is entered with a path below that of the router that holds its first mount. -/
theorem exists_entry_below
    (hnames : ∀ l ∈ o.levels, name l.path ≠ "")
    (ho : o.isKeyed)
    {l : Level}
    {m : Mount}
    {rest : List Mount}
    (hl : l ∈ o.levels)
    (hin : (o.graph name).incoming (name l.path) = m :: rest) :
    ∃ parentPath,
      entryOf? (name l.path) (o.graph name).resolvePaths = some (Graph.below parentPath m.property) ∧
      (parentPath = "" → Graph.MountPath (o.graph name) m.parent "") := by
  have hmounts : ∀ m ∈ (o.graph name).mounts, m.parent ≠ "" ∧ m.property ≠ "" := by
    intro m hm
    have hkey := isKey_of_mem_mounts_graph ho hm
    obtain ⟨parent, hparent, key, target, -, rfl⟩ := mem_mounts_graph.1 hm
    exact ⟨hnames parent hparent, (isKey_iff.1 hkey).1⟩
  have hrouters : ∀ r ∈ (o.graph name).routers, r.name ≠ "" := by
    intro r hr
    obtain ⟨l, hl, rfl⟩ := List.mem_map.1 hr
    exact hnames l hl
  obtain ⟨htraced, hentered⟩ := Graph.traced_resolvePaths hmounts hrouters
  obtain ⟨r, hr, hname⟩ := List.mem_map.1 (declared_of_mem_levels name hl)
  obtain ⟨found, hentry⟩ := Option.isSome_iff_exists.1 (hentered r hr)
  rw [hname] at hentry
  obtain ⟨-, hfirst⟩ := htraced (name l.path) found hentry
  obtain ⟨parentPath, rfl, hroot⟩ := hfirst m rest hin
  exact ⟨parentPath, hentry, hroot⟩

/-- The first mount of a router that is renamed to its key path has the last key, and what is left of the
path is that of the router that holds the mount. -/
theorem first_of_renamed
    (hnames : ∀ l ∈ o.levels, name l.path ≠ "")
    (ho : o.isKeyed)
    {l : Level}
    {path : List String}
    {key : String}
    {m : Mount}
    {rest : List Mount}
    (hl : l ∈ o.levels)
    (hpath : l.path = path ++ [key])
    (hrenamed : Graph.renamed (o.graph name).resolvePaths (name l.path) = joinWith "." l.path)
    (hin : (o.graph name).incoming (name l.path) = m :: rest) :
    m.property = key ∧
      entryOf? (name l.path) (o.graph name).resolvePaths =
        some (Graph.below (joinWith "." path) key) ∧
      (joinWith "." path = "" → Graph.MountPath (o.graph name) m.parent "") := by
  obtain ⟨parentPath, hentry, hroot⟩ := exists_entry_below hnames ho hl hin
  have hkeys := (isKeyed_of_mem_levels ho hl).2
  have hkeys' : ∀ k ∈ path, isKey k := fun k hk => hkeys k (by simp [hpath, hk])
  have hm : m ∈ (o.graph name).incoming (name l.path) := by simp [hin]
  have hproperty := isKey_of_mem_mounts_graph ho (Graph.mem_mounts_of_mem_incoming hm)
  have hfull := Graph.below_ne_empty (isKey_iff.1 hproperty).1 parentPath
  have hjoined : Graph.below parentPath m.property = Graph.below (joinWith "." path) key := by
    rw [below_joinWith hkeys', ← hpath, ← hrenamed, Graph.renamed, hentry]
    simp [hfull]
  obtain ⟨rfl, rfl⟩ := below_inj hproperty (hkeys key (by simp [hpath])) hjoined
  exact ⟨rfl, hentry, hroot⟩

/-- When all routers below the root are renamed to their key paths, each is mounted in place or stands
alone. The induction goes down the key path: the path of a mounted router ends with its last key, so its
first mount is its own, and what is left of the path is that of its parent. -/
theorem mountedInPlace_of_renamed
    (hlast : ∀ path path' key, name (path ++ [key]) = name (path' ++ [key]))
    (hnames : ∀ l ∈ o.levels, name l.path ≠ "")
    (ho : o.isKeyed)
    (hfollows : ∀ l ∈ nestedIn [] o,
      Graph.renamed (o.graph name).resolvePaths (name l.path) = joinWith "." l.path)
    {l : Level}
    (hl : l ∈ nestedIn [] o) :
    MountedInPlace (o.graph name) name l.path ∨ StandsAlone (o.graph name) name l.path := by
  generalize hpath : l.path = path
  induction path using List.reverseRecOn generalizing l with
  | nil => exact absurd hpath (ne_nil_of_mem_nestedIn hl)
  | append_singleton path key ih =>
    have hlevel : l ∈ o.levels := List.mem_cons_of_mem _ hl
    have hrenamed := hfollows l hl
    cases hin : (o.graph name).incoming (name l.path) with
    | nil =>
      rw [renamed_of_mountPath hlevel (mountPath_of_top hlevel hin), if_pos rfl] at hrenamed
      rw [← hpath]
      exact Or.inr ⟨hin, hrenamed⟩
    | cons m rest =>
      obtain ⟨rfl, hentry, hroot⟩ := first_of_renamed hnames ho hlevel hpath hrenamed hin
      have hm : m ∈ (o.graph name).incoming (name l.path) := by simp [hin]
      have hparent :=
        parent_eq_of_renamed hlast ho hfollows hl hpath (Graph.mem_mounts_of_mem_incoming hm)
      have hplaced : MountedInPlace (o.graph name) name path := by
        by_cases hnil : path = []
        · subst hnil
          exact .root (incoming_eq_nil_of_mountPath ho (hparent ▸ hroot rfl))
        · obtain ⟨parent, hmem, hsplit⟩ := exists_nested_parent hl hpath hnil
          rcases ih hmem hsplit with hplaced | ⟨htop, -⟩
          · exact hplaced
          · -- below a router without a path, a router would be renamed to its key alone
            have hroot' := mountPath_of_top (List.mem_cons_of_mem _ hmem) (hsplit.symm ▸ htop)
            rw [hsplit, ← hparent] at hroot'
            have hentry' := Graph.entryOf?_pathsInOrder (declared_of_mem_levels name hlevel)
              (Graph.MountPath.mounted hin hroot')
            rw [← Graph.resolvePaths_eq, hentry] at hentry'
            have hkeys := (isKeyed_of_mem_levels ho hlevel).2
            have hkey : isKey m.property := hkeys m.property (by simp [hpath])
            have hempty := (below_inj hkey hkey (Option.some.inj hentry')).1
            have hkeys' : ∀ k ∈ path, isKey k := fun k hk => hkeys k (by simp [hpath, hk])
            exact absurd hempty (joinWith_ne_empty hnil hkeys')
      have hfirst : (o.graph name).incoming (name (path ++ [m.property])) =
          ⟨name path, m.property, m.target⟩ :: rest := by
        rw [← hpath, hin, ← hparent]
      exact Or.inl (hplaced.inside hfirst)

theorem renamed_of_followsKeys
    (hfull : o.IsInhabited)
    (h : o.FollowsKeys name)
    {l : Level}
    (hl : l ∈ nestedIn [] o) :
    Graph.renamed (o.graph name).resolvePaths (name l.path) = joinWith "." l.path := by
  obtain ⟨procedure, hprocedure⟩ := List.exists_mem_of_ne_nil _ (hfull l hl)
  have hplace : (l.path, procedure) ∈ o.places :=
    mem_places.2 ⟨l, List.mem_cons_of_mem _ hl, hprocedure, rfl⟩
  exact h _ hplace (ne_nil_of_mem_nestedIn hl)

/-- When every router below the root holds a procedure and those are renamed to their key paths, they are
mounted in place or stand alone. -/
theorem inPlace_of_followsKeys
    (hlast : ∀ path path' key, name (path ++ [key]) = name (path' ++ [key]))
    (hnames : ∀ l ∈ o.levels, name l.path ≠ "")
    (ho : o.isKeyed)
    (hfull : o.IsInhabited)
    (h : o.FollowsKeys name) :
    o.InPlace name := by
  have hfollows : ∀ l ∈ nestedIn [] o,
      Graph.renamed (o.graph name).resolvePaths (name l.path) = joinWith "." l.path :=
    fun l hl => renamed_of_followsKeys hfull h hl
  intro place hplace hpath
  obtain ⟨l, hl, -, hl'⟩ := mem_places.1 hplace
  rw [hl'] at hpath ⊢
  rcases List.mem_cons.1 hl with rfl | hl
  · exact absurd rfl hpath
  · exact mountedInPlace_of_renamed hlast hnames ho hfollows hl

end Inhabited

section Plain

/-- Names that are matched as they are meant: every key has a canonical name, which is its own canonical
name, as that of the root is; the words that name what is mounted name no router of the outline; and no
router below the root is named like the root. -/
structure IsPlain
    (name : List String → String)
    (o : Outline) :
    Prop where
  keys :
    ∀ l ∈ o.levels, ∀ m ∈ l.holds.mounted,
      canonicalName m.1 ≠ "" ∧ canonicalName (canonicalName m.1) = canonicalName m.1
  targets :
    ∀ l ∈ o.levels, ∀ m ∈ l.holds.mounted, ∀ l' ∈ o.levels,
      canonicalName m.2 = "" ∨ canonicalName m.2 ≠ indexName (name l'.path)
  root : indexName (name []) = name []
  nested : ∀ l ∈ nestedIn [] o, name l.path ≠ name []

variable {name : List String → String} {o : Outline}

theorem exists_level_of_entry
    {key found : String}
    (h : entryOf? key (o.graph name).index = some found) :
    ∃ l ∈ o.levels, key = indexName (name l.path) ∧ found = name l.path := by
  obtain ⟨r, hr, hkey, hfound⟩ := Graph.exists_router_of_entry h
  obtain ⟨l, hl, rfl⟩ := List.mem_map.1 hr
  exact ⟨l, hl, hkey.symm, hfound.symm⟩

theorem IsPlain.indexName_name
    (hnamed : ∀ path key, canonicalName key ≠ "" → name (path ++ [key]) = canonicalName key)
    (h : o.IsPlain name)
    {l : Level}
    (hl : l ∈ o.levels) :
    indexName (name l.path) = name l.path := by
  rcases List.mem_cons.1 hl with rfl | hl
  · exact h.root
  · obtain ⟨parent, hparent, key, target, hmounted, hpath⟩ := exists_parent_of_mem_nestedIn hl
    obtain ⟨hfull, hstable⟩ := h.keys parent hparent _ hmounted
    rw [hpath, hnamed parent.path key hfull, indexName, hstable]
    simp

/-- Plain mounts are matched to the routers that they stand for. -/
theorem IsPlain.mountedName?
    (hnamed : ∀ path key, canonicalName key ≠ "" → name (path ++ [key]) = canonicalName key)
    (h : o.IsPlain name)
    {m : Mount}
    (hm : m ∈ (o.graph name).mounts) :
    Graph.mountedName? (o.graph name).index m = some (canonicalName m.property) := by
  obtain ⟨l, hl, key, target, hmounted, rfl⟩ := mem_mounts_graph.1 hm
  obtain ⟨hfull, -⟩ := h.keys l hl _ hmounted
  obtain ⟨child, hchild, hpath⟩ := exists_nested_of_mem_mounted hl hmounted
  have hchild' : child ∈ o.levels := List.mem_cons_of_mem _ hchild
  have hname : name child.path = canonicalName key := by
    rw [hpath, hnamed l.path key hfull]
  have hdeclared : (canonicalName key, name child.path) ∈
      (o.graph name).routers.map fun r => (indexName r.name, r.name) := by
    rw [← hname, ← h.indexName_name hnamed hchild']
    simp only [graph, List.map_map, List.mem_map, Function.comp_apply]
    exact ⟨child, hchild', by rw [h.indexName_name hnamed hchild']⟩
  obtain ⟨found, hfound⟩ := Option.isSome_iff_exists.1 (entryOf?_ofPairs_isSome hdeclared)
  obtain ⟨l', hl', hkey, rfl⟩ := exists_level_of_entry hfound
  rw [h.indexName_name hnamed hl'] at hkey
  rw [← hkey] at hfound
  refine Graph.mountedName?_of_property hfull ?_ hfound
  by_cases hempty : canonicalName target = ""
  · exact Or.inl hempty
  · right
    cases hlook : entryOf? (canonicalName target) (o.graph name).index with
    | none => rfl
    | some other =>
      obtain ⟨l'', hl'', hkey', -⟩ := exists_level_of_entry hlook
      exact absurd hkey' ((h.targets l hl _ hmounted l'' hl'').resolve_left hempty)

/-- The mounts that are matched to a name are, in their order, those under keys of that name. -/
theorem IsPlain.mountsAt_eq
    (hnamed : ∀ path key, canonicalName key ≠ "" → name (path ++ [key]) = canonicalName key)
    (h : o.IsPlain name)
    (at_ : String) :
    Graph.mountsAt (o.graph name).edges at_ =
      (o.graph name).mounts.filter fun m => canonicalName m.property = at_ := by
  have hedges : (o.graph name).edges =
      (o.graph name).mounts.map fun m => (m, canonicalName m.property) := by
    rw [Graph.edges, ← List.filterMap_eq_map]
    refine List.filterMap_congr fun m hm => ?_
    rw [h.mountedName? hnamed hm]
    rfl
  rw [Graph.mountsAt, hedges, List.filterMap_map, ← List.filterMap_eq_filter]
  refine List.filterMap_congr fun m _ => ?_
  simp [Option.guard]

theorem IsPlain.incoming_root
    (hnamed : ∀ path key, canonicalName key ≠ "" → name (path ++ [key]) = canonicalName key)
    (h : o.IsPlain name) :
    (o.graph name).incoming (name []) = [] := by
  rw [Graph.incoming, Graph.incomingAmong_eq, h.root, ite_self, h.mountsAt_eq hnamed]
  refine List.filter_eq_nil_iff.2 fun m hm => ?_
  obtain ⟨l, hl, key, target, hmounted, rfl⟩ := mem_mounts_graph.1 hm
  obtain ⟨child, hchild, hpath⟩ := exists_nested_of_mem_mounted hl hmounted
  have hne := h.nested child hchild
  rw [hpath, hnamed l.path key (h.keys l hl _ hmounted).1] at hne
  simpa using hne

theorem IsPlain.canonicalName_of_parent
    (hnamed : ∀ path key, canonicalName key ≠ "" → name (path ++ [key]) = canonicalName key)
    (h : o.IsPlain name)
    {parent l : Level}
    {key target : String}
    (hparent : parent ∈ o.levels)
    (hmounted : (key, target) ∈ parent.holds.mounted)
    (hpath : l.path = parent.path ++ [key]) :
    canonicalName key = name l.path := by
  rw [hpath, hnamed parent.path key (h.keys parent hparent _ hmounted).1]

theorem IsPlain.incoming_nested
    (hnamed : ∀ path key, canonicalName key ≠ "" → name (path ++ [key]) = canonicalName key)
    (h : o.IsPlain name)
    {l : Level}
    (hl : l ∈ nestedIn [] o) :
    (o.graph name).incoming (name l.path) =
        (o.graph name).mounts.filter (fun m => canonicalName m.property = name l.path) ∧
      (o.graph name).incoming (name l.path) ≠ [] := by
  obtain ⟨parent, hparent, key, target, hmounted, hpath⟩ := exists_parent_of_mem_nestedIn hl
  have hown : (⟨name parent.path, key, target⟩ : Mount) ∈
      (o.graph name).mounts.filter fun m => canonicalName m.property = name l.path := by
    refine List.mem_filter.2 ⟨mem_mounts_graph.2 ⟨parent, hparent, key, target, hmounted, rfl⟩, ?_⟩
    simpa using h.canonicalName_of_parent hnamed hparent hmounted hpath
  have hne := List.ne_nil_of_mem hown
  rw [Graph.incoming, Graph.incomingAmong_eq, h.mountsAt_eq hnamed, if_neg hne]
  exact ⟨rfl, hne⟩

/-- The mounts of the routers that come before a given one. -/
theorem mounts_graph_split
    {before after : List Level}
    {l : Level}
    (h : o.levels = before ++ l :: after) :
    (o.graph name).mounts =
      (before.flatMap fun l => l.holds.mounted.map fun m => ⟨name l.path, m.1, m.2⟩) ++
        (l :: after).flatMap fun l => l.holds.mounted.map fun m => ⟨name l.path, m.1, m.2⟩ := by
  rw [graph, h, List.flatMap_append]

/-- The first mount of a router below the root stands in a router that comes before it. -/
theorem IsPlain.exists_first_before
    (hnamed : ∀ path key, canonicalName key ≠ "" → name (path ++ [key]) = canonicalName key)
    (h : o.IsPlain name)
    {before after : List Level}
    {l : Level}
    (hsplit : nestedIn [] o = before ++ l :: after) :
    ∃ holder ∈ ⟨[], o⟩ :: before, ∃ m rest,
      (o.graph name).incoming (name l.path) = m :: rest ∧ m.parent = name holder.path := by
  have hl : l ∈ nestedIn [] o := by simp [hsplit]
  obtain ⟨parent, hparent, key, target, hmounted, hpath⟩ := exists_parent_before hsplit
  have hlevels : o.levels = (⟨[], o⟩ :: before) ++ l :: after := by
    rw [levels, hsplit, List.cons_append]
  have hparent' : parent ∈ o.levels := hlevels ▸ List.mem_append_left _ hparent
  have hkey := h.canonicalName_of_parent hnamed hparent' hmounted hpath
  have hown : (⟨name parent.path, key, target⟩ : Mount) ∈
      ((Level.mk [] o :: before).flatMap fun l =>
        l.holds.mounted.map fun m => (⟨name l.path, m.1, m.2⟩ : Mount)).filter
          fun m => canonicalName m.property = name l.path := by
    refine List.mem_filter.2 ⟨List.mem_flatMap.2 ⟨parent, hparent, ?_⟩, by simpa using hkey⟩
    exact List.mem_map.2 ⟨(key, target), hmounted, rfl⟩
  rw [(h.incoming_nested hnamed hl).1, mounts_graph_split hlevels, List.filter_append]
  cases hfirst : ((Level.mk [] o :: before).flatMap fun l =>
      l.holds.mounted.map fun m => (⟨name l.path, m.1, m.2⟩ : Mount)).filter
        fun m => canonicalName m.property = name l.path with
  | nil =>
    rw [hfirst] at hown
    cases hown
  | cons m rest =>
    have hm := List.mem_of_mem_filter (hfirst ▸ List.mem_cons_self : m ∈ _)
    obtain ⟨holder, hholder, hm⟩ := List.mem_flatMap.1 hm
    obtain ⟨m', -, rfl⟩ := List.mem_map.1 hm
    exact ⟨holder, hholder, _, _, rfl, rfl⟩

/-- Every router with a plain name has a path: the induction goes along the routers in source order. -/
theorem IsPlain.exists_mountPath
    (hnamed : ∀ path key, canonicalName key ≠ "" → name (path ++ [key]) = canonicalName key)
    (h : o.IsPlain name)
    {l : Level}
    (hl : l ∈ o.levels) :
    ∃ path, Graph.MountPath (o.graph name) (name l.path) path := by
  have hroot : ∃ path, Graph.MountPath (o.graph name) (name []) path :=
    ⟨_, Graph.MountPath.top (h.incoming_root hnamed)⟩
  rcases List.mem_cons.1 hl with rfl | hl
  · exact hroot
  · obtain ⟨before, after, hsplit⟩ := List.append_of_mem hl
    generalize hn : before.length = n
    induction n using Nat.strong_induction_on generalizing l before after with
    | _ n ih =>
      obtain ⟨holder, hholder, m, rest, hfirst, hparent⟩ := h.exists_first_before hnamed hsplit
      have habove : ∃ path, Graph.MountPath (o.graph name) m.parent path := by
        rw [hparent]
        rcases List.mem_cons.1 hholder with rfl | hholder
        · exact hroot
        · obtain ⟨before', after', rfl⟩ := List.append_of_mem hholder
          have hmem : holder ∈ nestedIn [] o := by simp [hsplit]
          have hsplit' : nestedIn [] o = before' ++ holder :: (after' ++ l :: after) := by
            simp [hsplit]
          exact ih before'.length (by simp [← hn]) (List.mem_cons_of_mem _ hmem) hmem before' _
            hsplit' rfl
      obtain ⟨path, hpath⟩ := habove
      exact ⟨_, Graph.MountPath.mounted hfirst hpath⟩

/-- A plain mount stands in the router of its parent's name. -/
theorem IsPlain.parent_eq
    (hnamed : ∀ path key, canonicalName key ≠ "" → name (path ++ [key]) = canonicalName key)
    (h : o.IsPlain name)
    (ho : o.isKeyed)
    {path : List String}
    {m : Mount}
    (hkeys : ∀ key ∈ path, isKey key)
    (hm : m ∈ (o.graph name).mounts)
    (hparent : Graph.MountPath (o.graph name) m.parent (joinWith "." path)) :
    m.parent = name path := by
  obtain ⟨parent, hlevel, key, target, -, rfl⟩ := mem_mounts_graph.1 hm
  dsimp only at hparent ⊢
  rcases List.mem_cons.1 hlevel with rfl | hnested
  · -- the root has the empty path
    have hempty := hparent.unique (mountPath_of_top hlevel (h.incoming_root hnamed))
    by_contra hne
    exact joinWith_ne_empty (fun hnil => hne (by rw [hnil])) hkeys hempty
  · obtain ⟨hincoming, hne⟩ := h.incoming_nested hnamed hnested
    obtain ⟨first, rest, hfirst⟩ := List.exists_cons_of_ne_nil hne
    obtain ⟨above, -, hjoined⟩ := hparent.exists_parent hfirst
    have hmem : first ∈ (o.graph name).mounts.filter
        fun m => canonicalName m.property = name parent.path := by
      rw [← hincoming, hfirst]
      exact List.mem_cons_self
    obtain ⟨hmount, hname⟩ := List.mem_filter.1 hmem
    have hfirstKey := isKey_of_mem_mounts_graph ho hmount
    cases path using List.reverseRecOn with
    | nil => exact absurd hjoined.symm (Graph.below_ne_empty (isKey_iff.1 hfirstKey).1 above)
    | append_singleton path key' =>
      have hkeys' : ∀ k ∈ path, isKey k := fun k hk => hkeys k (List.mem_append_left _ hk)
      rw [← below_joinWith hkeys'] at hjoined
      obtain ⟨-, rfl⟩ := below_inj (hkeys key' (by simp)) hfirstKey hjoined
      obtain ⟨l, hl, key'', target'', hmounted, hfirst'⟩ := mem_mounts_graph.1 hmount
      have hfull : canonicalName first.property ≠ "" := by
        rw [hfirst']
        exact (h.keys l hl _ hmounted).1
      rw [hnamed path first.property hfull]
      exact (of_decide_eq_true hname).symm

/-- When names are plain, a router below the root that is renamed to its key path is mounted in place. -/
theorem IsPlain.mountedInPlace_of_renamed
    (hnamed : ∀ path key, canonicalName key ≠ "" → name (path ++ [key]) = canonicalName key)
    (h : o.IsPlain name)
    (ho : o.isKeyed)
    {l : Level}
    (hl : l ∈ nestedIn [] o)
    (hrenamed : Graph.renamed (o.graph name).resolvePaths (name l.path) = joinWith "." l.path) :
    MountedInPlace (o.graph name) name l.path := by
  generalize hpath : l.path = path
  induction path using List.reverseRecOn generalizing l with
  | nil => exact absurd hpath (ne_nil_of_mem_nestedIn hl)
  | append_singleton path key ih =>
    have hlevel : l ∈ o.levels := List.mem_cons_of_mem _ hl
    have hkeys := (isKeyed_of_mem_levels ho hlevel).2
    have hkeys' : ∀ k ∈ path, isKey k := fun k hk => hkeys k (by simp [hpath, hk])
    obtain ⟨found, hfound⟩ := h.exists_mountPath hnamed hlevel
    obtain ⟨m, rest, hfirst⟩ := List.exists_cons_of_ne_nil (h.incoming_nested hnamed hl).2
    obtain ⟨above, habove, rfl⟩ := hfound.exists_parent hfirst
    have hm : m ∈ (o.graph name).mounts :=
      Graph.mem_mounts_of_mem_incoming (hfirst ▸ List.mem_cons_self)
    have hproperty := isKey_of_mem_mounts_graph ho hm
    rw [renamed_of_mountPath hlevel hfound,
      if_neg (Graph.below_ne_empty (isKey_iff.1 hproperty).1 above), hpath,
      ← below_joinWith hkeys'] at hrenamed
    obtain ⟨rfl, rfl⟩ := below_inj hproperty (hkeys key (by simp [hpath])) hrenamed
    have hparent := h.parent_eq hnamed ho hkeys' hm habove
    have hplaced : MountedInPlace (o.graph name) name path := by
      by_cases hnil : path = []
      · subst hnil
        exact .root (h.incoming_root hnamed)
      · obtain ⟨parent, hmem, hparentPath⟩ := exists_nested_parent hl hpath hnil
        rw [hparent, ← hparentPath] at habove
        have hrenamed' := renamed_of_mountPath (List.mem_cons_of_mem _ hmem) habove
        rw [if_neg (joinWith_ne_empty (hparentPath ▸ hnil) (hparentPath ▸ hkeys'))] at hrenamed'
        exact ih hmem hrenamed' hparentPath
    have hfirst' : (o.graph name).incoming (name (path ++ [m.property])) =
        ⟨name path, m.property, m.target⟩ :: rest := by
      rw [← hpath, hfirst, ← hparent]
    exact hplaced.inside hfirst'

end Plain

section Apart

/-- Plain names of which each belongs to one key path. -/
structure NamesApart
    (name : List String → String)
    (o : Outline) :
    Prop extends
    o.IsPlain name where
  paths : ∀ l ∈ nestedIn [] o, ∀ l' ∈ nestedIn [] o, name l.path = name l'.path → l.path = l'.path

variable {name : List String → String} {o : Outline}

/-- When names are apart, every router is mounted in place. -/
theorem NamesApart.mountedInPlace
    (hnamed : ∀ path key, canonicalName key ≠ "" → name (path ++ [key]) = canonicalName key)
    (h : o.NamesApart name)
    {l : Level}
    (hl : l ∈ o.levels) :
    MountedInPlace (o.graph name) name l.path := by
  generalize hpath : l.path = path
  induction path using List.reverseRecOn generalizing l with
  | nil => exact .root (h.incoming_root hnamed)
  | append_singleton path key ih =>
    rcases List.mem_cons.1 hl with rfl | hl
    · simp at hpath
    · obtain ⟨hincoming, hne⟩ := h.incoming_nested hnamed hl
      obtain ⟨m, rest, hfirst⟩ := List.exists_cons_of_ne_nil hne
      have hmem : m ∈ (o.graph name).mounts.filter
          fun m => canonicalName m.property = name l.path := by
        rw [← hincoming, hfirst]
        exact List.mem_cons_self
      obtain ⟨hmount, hname⟩ := List.mem_filter.1 hmem
      obtain ⟨holder, hholder, key', target, hmounted, rfl⟩ := mem_mounts_graph.1 hmount
      obtain ⟨l', hl', hpath'⟩ := exists_nested_of_mem_mounted hholder hmounted
      have hsame : name l.path = name l'.path := by
        rw [← h.canonicalName_of_parent hnamed hholder hmounted hpath']
        exact (of_decide_eq_true hname).symm
      have hpaths := h.paths l hl l' hl' hsame
      rw [hpath, hpath'] at hpaths
      obtain ⟨hholderPath, hkeys⟩ := List.append_inj' hpaths rfl
      obtain rfl : key = key' := by simpa using hkeys
      rw [hpath, ← hholderPath] at hfirst
      exact (ih hholder hholderPath.symm).inside hfirst

end Apart

section Titles

theorem title_eq_canonicalName
    {variableName : String}
    (h : canonicalName variableName ≠ "")
    (filePath : String) :
    title variableName filePath = canonicalName variableName := by
  simp [title, h]

theorem title_ne_empty
    {variableName : String}
    (h : variableName ≠ "")
    (filePath : String) :
    title variableName filePath ≠ "" := by
  unfold title
  dsimp only
  cases hfound : List.find? (fun c : String => !c.isEmpty) _ with
  | none => exact h
  | some c => simpa using List.find?_some hfound

/-- The names by which the routers of a file are reported: each comes from the last key of its path, and
that of the root from the variable that holds it. -/
def nameAt
    (variableName filePath : String)
    (path : List String) :
    String :=
  title (path.getLastD variableName) filePath

variable {variableName filePath : String}

theorem nameAt_concat
    (path : List String)
    (key : String) :
    nameAt variableName filePath (path ++ [key]) = title key filePath := by
  simp [nameAt, List.getLastD_eq_getLast?]

theorem nameAt_ne_empty
    (hvariable : variableName ≠ "")
    {path : List String}
    (hkeys : ∀ key ∈ path, isKey key) :
    nameAt variableName filePath path ≠ "" := by
  cases path using List.reverseRecOn with
  | nil => exact title_ne_empty hvariable filePath
  | append_singleton path key =>
    rw [nameAt_concat]
    exact title_ne_empty (isKey_iff.1 (hkeys key (by simp))).1 filePath

variable {o : Outline}

theorem nameAt_eq_canonicalName
    (path : List String)
    (key : String)
    (h : canonicalName key ≠ "") :
    nameAt variableName filePath (path ++ [key]) = canonicalName key := by
  rw [nameAt_concat, title_eq_canonicalName h]

/-- Routers of a file whose names are apart are mounted in place. -/
theorem inPlace_of_namesApart
    (h : o.NamesApart (nameAt variableName filePath)) :
    o.InPlace (nameAt variableName filePath) := by
  intro place hplace _
  obtain ⟨l, hl, -, hpath⟩ := mem_places.1 hplace
  rw [hpath]
  exact Or.inl (h.mountedInPlace nameAt_eq_canonicalName hl)

/-- When the names of the routers of a file are plain, those that are renamed to their key paths are
mounted in place. -/
theorem inPlace_of_isPlain
    (ho : o.isKeyed)
    (hplain : o.IsPlain (nameAt variableName filePath))
    (h : o.FollowsKeys (nameAt variableName filePath)) :
    o.InPlace (nameAt variableName filePath) := by
  intro place hplace hpath
  obtain ⟨l, hl, -, hl'⟩ := mem_places.1 hplace
  have hrenamed := h place hplace hpath
  rw [hl'] at hpath hrenamed ⊢
  rcases List.mem_cons.1 hl with rfl | hl
  · exact absurd rfl hpath
  · exact Or.inl (hplain.mountedInPlace_of_renamed nameAt_eq_canonicalName ho hl hrenamed)

/-- When every router of a file below the root holds a procedure, and all are renamed to their key paths,
they are mounted in place or stand alone. -/
theorem inPlace_of_isInhabited
    (hvariable : variableName ≠ "")
    (ho : o.isKeyed)
    (hfull : o.IsInhabited)
    (h : o.FollowsKeys (nameAt variableName filePath)) :
    o.InPlace (nameAt variableName filePath) := by
  have hlast : ∀ path path' key, nameAt variableName filePath (path ++ [key]) =
      nameAt variableName filePath (path' ++ [key]) := by
    intro path path' key
    rw [nameAt_concat, nameAt_concat]
  have hnames : ∀ l ∈ o.levels, nameAt variableName filePath l.path ≠ "" :=
    fun l hl => nameAt_ne_empty hvariable (isKeyed_of_mem_levels ho hl).2
  exact inPlace_of_followsKeys hlast hnames ho hfull h

end Titles

end RouteAtlas.Router.Outline
