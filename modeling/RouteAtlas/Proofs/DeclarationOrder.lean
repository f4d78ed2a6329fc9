import Mathlib
import RouteAtlas.Proofs.MatchedMounts
import RouteAtlas.Proofs.RouterPaths

/-!
# The order of declarations

Routers and mounts may be declared in any order. Order counts in three places: of two routers with one
canonical name the later is found, of two mounts of a name the first is followed, and a name on a circle
of mounts is cut short where it is reached first. Where none of these arises, the mounts of every name
are the same in every order, so the same names are roots and every name has the same path.

The table of paths has the names above the declared routers, and nothing else: a name is entered only
after its parent, and all that is above it with it.
-/

namespace RouteAtlas

namespace Router.Graph

section Matching

variable {g g' : Graph}

/-- A mount is matched by what the index has for its two names. -/
theorem mountedName?_congr
    {index index' : List (String × String)}
    (h : ∀ key, entryOf? key index = entryOf? key index')
    (m : Mount) :
    mountedName? index m = mountedName? index' m := by
  have hlookup : (fun key => entryOf? key index) = fun key => entryOf? key index' := funext h
  unfold mountedName?
  rw [hlookup]

/-- Routers with different canonical names are entries of the index as they stand. -/
theorem index_of_nodup
    (hapart : (g.routers.map fun d => indexName d.name).Nodup) :
    g.index = g.routers.map (fun d => (indexName d.name, d.name)) ∧
      (g.index.map Prod.fst).Nodup := by
  have hpairs : ((g.routers.map fun d => (indexName d.name, d.name)).map Prod.fst).Nodup := by
    simpa only [List.map_map, Function.comp_def] using hapart
  have hindex : g.index = g.routers.map (fun d => (indexName d.name, d.name)) :=
    ofPairs_of_nodup hpairs
  exact ⟨hindex, hindex.symm ▸ hpairs⟩

/-- Routers with different canonical names are found whatever their order. -/
theorem entryOf?_index_perm
    (hrouters : g.routers.Perm g'.routers)
    (hapart : (g.routers.map fun d => indexName d.name).Nodup)
    (key : String) :
    entryOf? key g.index = entryOf? key g'.index := by
  have hapart' : (g'.routers.map fun d => indexName d.name).Nodup :=
    (hrouters.map _).nodup_iff.1 hapart
  obtain ⟨hindex, hkeys⟩ := index_of_nodup hapart
  obtain ⟨hindex', -⟩ := index_of_nodup hapart'
  have hperm : g.index.Perm g'.index := by
    rw [hindex, hindex']
    exact hrouters.map _
  exact entryOf?_perm hperm hkeys key

theorem edges_perm
    (hindex : ∀ key, entryOf? key g.index = entryOf? key g'.index)
    (hmounts : g.mounts.Perm g'.mounts) :
    g.edges.Perm g'.edges := by
  simp only [edges, mountedName?_congr hindex]
  exact hmounts.filterMap _

theorem mountsAt_perm
    {edges edges' : List (Mount × String)}
    (h : edges.Perm edges')
    (key : String) :
    (mountsAt edges key).Perm (mountsAt edges' key) :=
  h.filterMap _

theorem incomingAmong_perm
    {edges edges' : List (Mount × String)}
    (h : edges.Perm edges')
    (name : String) :
    (incomingAmong edges name).Perm (incomingAmong edges' name) := by
  have hempty : mountsAt edges name = [] ↔ mountsAt edges' name = [] := by
    constructor
    · intro hnil
      simpa [hnil] using mountsAt_perm h name
    · intro hnil
      simpa [hnil] using mountsAt_perm h name
  rw [incomingAmong_eq, incomingAmong_eq]
  by_cases hnil : mountsAt edges name = []
  · rw [if_pos hnil, if_pos (hempty.1 hnil)]
    exact mountsAt_perm h _
  · rw [if_neg hnil, if_neg (mt hempty.2 hnil)]
    exact mountsAt_perm h name

end Matching

section Alike

/-- Graphs that have the same mounts of every name and the same roots. -/
structure Alike (g g' : Graph) : Prop where
  incoming : ∀ name, g.incoming name = g'.incoming name
  roots : ∀ name, name ∈ g.roots ↔ name ∈ g'.roots

variable {g g' : Graph}

theorem Alike.symm (h : g.Alike g') : g'.Alike g :=
  ⟨fun name => (h.incoming name).symm, fun name => (h.roots name).symm⟩

/-- Order makes no difference to mounts and roots if routers are told apart by their canonical names and
no name is mounted twice. -/
theorem alike_of_perm
    (hrouters : g.routers.Perm g'.routers)
    (hmounts : g.mounts.Perm g'.mounts)
    (hapart : (g.routers.map fun d => indexName d.name).Nodup)
    (honce : ∀ name, (g.incoming name).length ≤ 1) :
    g.Alike g' := by
  have hedges : g.edges.Perm g'.edges := edges_perm (entryOf?_index_perm hrouters hapart) hmounts
  have hincoming : ∀ name, g.incoming name = g'.incoming name := by
    intro name
    have hperm : (g.incoming name).Perm (g'.incoming name) := incomingAmong_perm hedges name
    cases hin : g.incoming name with
    | nil =>
      rw [hin] at hperm
      exact (List.perm_nil.1 hperm.symm).symm
    | cons m rest =>
      have hlength := honce name
      rw [hin, List.length_cons] at hlength
      obtain rfl : rest = [] := List.length_eq_zero_iff.1 (by omega)
      rw [hin] at hperm
      exact (List.perm_singleton.1 hperm.symm).symm
  refine ⟨hincoming, fun name => ?_⟩
  simp only [mem_roots, hincoming, hrouters.mem_iff]

theorem Alike.mounter?_eq
    (h : g.Alike g')
    (name : String) :
    g.mounter? name = g'.mounter? name := by
  rw [mounter?, mounter?, h.incoming]

theorem Alike.ancestor?_eq
    (h : g.Alike g')
    (i : Nat)
    (name : String) :
    g.ancestor? i name = g'.ancestor? i name := by
  induction i generalizing name with
  | zero => rfl
  | succ i ih =>
    have hstep : g.ancestor? i = g'.ancestor? i := funext ih
    rw [ancestor?, ancestor?, h.mounter?_eq, hstep]

/-- Paths depend on the mounts of names and on roots only. -/
theorem MountPath.of_alike
    {name path : String}
    (hpath : MountPath g name path)
    (h : g.Alike g') :
    MountPath g' name path := by
  induction hpath with
  | root htop hroot => exact .root (h.incoming _ ▸ htop) (by simpa only [h.roots] using hroot)
  | undeclared htop hroot =>
    exact .undeclared (h.incoming _ ▸ htop) (by simpa only [h.roots] using hroot)
  | inRoot hfirst _ ih => exact .inRoot (h.incoming _ ▸ hfirst) ih
  | inPath hfirst _ hpath ih => exact .inPath (h.incoming _ ▸ hfirst) ih hpath

end Alike

section Above

/-- A name is that of which the paths are asked or is reached from it along first mounts. -/
def IsAbove
    (g : Graph)
    (start name : String) :
    Prop :=
  ∃ i, g.ancestor? i start = some name

variable {g : Graph}

theorem isAbove_self (name : String) : g.IsAbove name name :=
  ⟨0, rfl⟩

theorem IsAbove.trans
    {start name other : String}
    (h : g.IsAbove start name)
    (h' : g.IsAbove name other) :
    g.IsAbove start other := by
  obtain ⟨i, hi⟩ := h
  obtain ⟨j, hj⟩ := h'
  refine ⟨i + j, ?_⟩
  rw [ancestor?_add, hi, Option.bind_some, hj]

/-- Above a name that nothing mounts there is the name alone. -/
theorem isAbove_iff_of_top
    {name other : String}
    (htop : g.incoming name = []) :
    g.IsAbove name other ↔ other = name := by
  constructor
  · rintro ⟨i, hi⟩
    cases i with
    | zero => exact (Option.some.inj hi).symm
    | succ i => simp [ancestor?, mounter?_eq_none htop] at hi
  · rintro rfl
    exact isAbove_self other

/-- Above a mounted name there are the name and what is above its parent. -/
theorem isAbove_iff_of_mounted
    {name other : String}
    {m : Mount}
    {rest : List Mount}
    (hfirst : g.incoming name = m :: rest) :
    g.IsAbove name other ↔ other = name ∨ g.IsAbove m.parent other := by
  constructor
  · rintro ⟨i, hi⟩
    cases i with
    | zero => exact .inl (Option.some.inj hi).symm
    | succ i =>
      rw [ancestor?, mounter?_eq_some hfirst, Option.bind_some] at hi
      exact .inr ⟨i, hi⟩
  · rintro (rfl | ⟨i, hi⟩)
    · exact isAbove_self other
    · refine ⟨i + 1, ?_⟩
      rw [ancestor?, mounter?_eq_some hfirst, Option.bind_some, hi]

/-- A name above one that climbs to its top has a path. -/
theorem IsAbove.exists_mountPath
    {start name : String}
    (h : g.IsAbove start name)
    (hclimb : g.ClimbsOnce start) :
    ∃ path, MountPath g name path := by
  obtain ⟨i, hi⟩ := h
  have htop : g.ancestor? (i + (g.mounts.length + 1)) start = none :=
    ancestor?_eq_none_of_le hclimb.ancestor?_eq_none (Nat.le_add_left _ i)
  rw [ancestor?_add, hi, Option.bind_some] at htop
  exact Graph.exists_mountPath htop

end Above

section Entering

/-- A table is closed if it has all that is above what it has. -/
def Closed
    (g : Graph)
    (known : List (String × String)) :
    Prop :=
  ∀ name other, (entryOf? name known).isSome → g.IsAbove name other → (entryOf? other known).isSome

variable {g : Graph}

/-- Resolving a name enters what is above it into a closed table, and nothing else. -/
theorem entered_resolveName
    {fuel : Nat}
    {open_ : List String}
    {known : List (String × String)}
    {name other : String}
    (hclosed : g.Closed known)
    (hfuel : g.ancestor? fuel name = none)
    (hopen : ∀ a, g.IsAbove name a → a ∉ open_) :
    (entryOf? other (resolveName g.edges g.roots fuel open_ known name).2).isSome ↔
      (entryOf? other known).isSome ∨ g.IsAbove name other := by
  induction fuel generalizing open_ name with
  | zero => simp [ancestor?] at hfuel
  | succ fuel ih =>
    have hself : name ∉ open_ := hopen name (isAbove_self name)
    unfold resolveName
    cases hentry : entryOf? name known with
    | some path =>
      have hname : (entryOf? name known).isSome := by rw [hentry]; rfl
      exact ⟨.inl, fun h => h.elim id (hclosed name other hname)⟩
    | none =>
      simp only [List.contains_iff_mem, hself, if_false]
      cases hin : g.incoming name with
      | nil =>
        have hin' : incomingAmong g.edges name = [] := hin
        simp only [hin']
        rw [entryOf?_putEntry_isSome_iff, isAbove_iff_of_top hin, or_comm]
      | cons m rest =>
        have hin' : incomingAmong g.edges name = m :: rest := hin
        have hfuel' : g.ancestor? fuel m.parent = none := by
          simpa [ancestor?, mounter?_eq_some hin] using hfuel
        -- the name is open while its parent is resolved, and is not above its parent
        have hopen' : ∀ a, g.IsAbove m.parent a → a ∉ name :: open_ := by
          intro a ha hmem
          have ha' : g.IsAbove name a := (isAbove_iff_of_mounted hin).2 (.inr ha)
          rcases List.mem_cons.1 hmem with rfl | hmem
          · obtain ⟨i, hi⟩ := ha
            refine ancestor?_ne_self hfuel i ?_
            rw [ancestor?, mounter?_eq_some hin, Option.bind_some, hi]
          · exact hopen a ha' hmem
        simp only [hin']
        rw [entryOf?_putEntry_isSome_iff, ih hfuel' hopen', isAbove_iff_of_mounted hin, or_left_comm]

/-- The table of some names that climb to their tops has what is above them, and nothing else. -/
theorem entered_pathsInOrder
    {order : List String}
    (hclimb : ∀ name ∈ order, g.ClimbsOnce name)
    (other : String) :
    (entryOf? other (g.pathsInOrder order)).isSome ↔ ∃ name ∈ order, g.IsAbove name other := by
  induction order using List.reverseRecOn generalizing other with
  | nil => simp [pathsInOrder, entryOf?]
  | append_singleton order last ih =>
    have hbefore := ih fun name hname => hclimb name (List.mem_append_left _ hname)
    have hclosed : g.Closed (g.pathsInOrder order) := by
      intro name a hname ha
      obtain ⟨start, hstart, habove⟩ := (hbefore name).1 hname
      exact (hbefore a).2 ⟨start, hstart, habove.trans ha⟩
    have hlast : g.pathsInOrder (order ++ [last]) =
        (Graph.resolveName g.edges g.roots g.chainBound [] (g.pathsInOrder order) last).2 := by
      simp [pathsInOrder]
    have hlastClimb : g.ClimbsOnce last := hclimb last (by simp)
    obtain ⟨path, hpath⟩ := (isAbove_self last).exists_mountPath hlastClimb
    have hopen : ∀ a, g.IsAbove last a → a ∉ ([] : List String) := fun _ _ => List.not_mem_nil
    rw [hlast, entered_resolveName hclosed hpath.ancestor?_chainBound hopen, hbefore]
    simp [or_and_right, exists_or]

/-- The table of some names that climb to their tops has the paths of the names above them. -/
theorem entryOf?_pathsInOrder_eq_some_iff
    {order : List String}
    (hclimb : ∀ name ∈ order, g.ClimbsOnce name)
    {other path : String} :
    entryOf? other (g.pathsInOrder order) = some path ↔
      (∃ name ∈ order, g.IsAbove name other) ∧ MountPath g other path := by
  rw [← entered_pathsInOrder hclimb]
  have hsound : g.Sound (g.pathsInOrder order) := (sound_pathsInOrder order).1
  constructor
  · intro hentry
    have hentered : (entryOf? other (g.pathsInOrder order)).isSome := by rw [hentry]; rfl
    obtain ⟨name, hname, habove⟩ := (entered_pathsInOrder hclimb other).1 hentered
    obtain ⟨p, hp⟩ := habove.exists_mountPath (hclimb name hname)
    exact ⟨hentered, hsound other path p hentry hp ▸ hp⟩
  · rintro ⟨hentered, hpath⟩
    obtain ⟨found, hfound⟩ := Option.isSome_iff_exists.1 hentered
    rw [hfound, hsound other found path hfound hpath]

end Entering

section Reordering

variable {g g' : Graph}

/-- Alike graphs with the same routers have the same paths, whatever the order of the routers. -/
theorem Alike.entryOf?_resolvePaths
    (h : g.Alike g')
    (hrouters : g.routers.Perm g'.routers)
    (hclimb : ∀ d ∈ g.routers, g.ClimbsOnce d.name)
    (name : String) :
    entryOf? name g.resolvePaths = entryOf? name g'.resolvePaths := by
  have hnames : ∀ start, start ∈ g.routers.map Declaration.name ↔
      start ∈ g'.routers.map Declaration.name :=
    fun _ => (hrouters.map Declaration.name).mem_iff
  have hclimb : ∀ start ∈ g.routers.map Declaration.name, g.ClimbsOnce start := by
    rw [List.forall_mem_map]
    exact hclimb
  have hclimb' : ∀ start ∈ g'.routers.map Declaration.name, g'.ClimbsOnce start := by
    intro start hstart i j a hij hi hj
    rw [← h.ancestor?_eq] at hi hj
    exact hclimb start ((hnames start).2 hstart) i j a hij hi hj
  have habove : ∀ start, g.IsAbove start name ↔ g'.IsAbove start name := by
    intro start
    simp only [IsAbove, h.ancestor?_eq]
  have hpath : ∀ path, MountPath g name path ↔ MountPath g' name path :=
    fun path => ⟨fun hp => hp.of_alike h, fun hp => hp.of_alike h.symm⟩
  refine Option.ext fun path => ?_
  rw [resolvePaths_eq, resolvePaths_eq, entryOf?_pathsInOrder_eq_some_iff hclimb,
    entryOf?_pathsInOrder_eq_some_iff hclimb', hpath]
  simp only [hnames, habove]

end Reordering

section Deciding

variable {g : Graph}

theorem length_mountsAt
    (edges : List (Mount × String))
    (key : String) :
    (mountsAt edges key).length = (edges.map Prod.snd).count key := by
  induction edges with
  | nil => rfl
  | cons e rest ih =>
    rw [mountsAt] at ih
    by_cases hkey : e.2 = key <;> simp [mountsAt, hkey, ih]

/-- No name is mounted twice if no two mounts are matched to one router. -/
theorem length_incoming_le_one
    (h : (g.edges.map Prod.snd).Nodup)
    (name : String) :
    (g.incoming name).length ≤ 1 := by
  rw [incoming, incomingAmong_eq]
  split <;> rw [length_mountsAt] <;> exact List.nodup_iff_count_le_one.1 h _

theorem climbsOnce_of_top
    {top : Nat}
    {name : String}
    (htop : g.ancestor? top name = none) :
    g.ClimbsOnce name := by
  obtain ⟨path, hpath⟩ := exists_mountPath htop
  exact hpath.climbsOnce

end Deciding

end Router.Graph

namespace Procedures.Composition

open Router

/-- If routers differ in their canonical names, no name is mounted twice, and following the mounts of a
router upwards never comes to a name again, then every name has the same path whatever the order in
which the routers and the mounts are added. -/
theorem resolvePaths_composed_perm
    {adds adds' : List Addition}
    (hperm : adds.Perm adds')
    (hapart : ((composed adds).graph.routers.map fun d => indexName d.name).Nodup)
    (honce : ∀ name, ((incoming name).run (composed adds)).1.length ≤ 1)
    (hclimb : ∀ d ∈ (composed adds).graph.routers, (composed adds).graph.ClimbsOnce d.name)
    (name : String) :
    entryOf? name (resolvePaths.run (composed adds)).1 =
      entryOf? name (resolvePaths.run (composed adds')).1 := by
  have hpaths : ∀ adds : List Addition,
      (resolvePaths.run (composed adds)).1 = (composed adds).graph.resolvePaths :=
    fun adds => (answers_resolvePaths.run (isConsistent_composed adds)).1
  have honce : ∀ name, ((composed adds).graph.incoming name).length ≤ 1 := by
    intro name
    rw [← ((answers_incoming name).run (isConsistent_composed adds)).1]
    exact honce name
  have hrouters : (composed adds).graph.routers.Perm (composed adds').graph.routers := by
    rw [graph_composed, graph_composed]
    exact hperm.filterMap _
  have hmounts : (composed adds).graph.mounts.Perm (composed adds').graph.mounts := by
    rw [graph_composed, graph_composed]
    exact hperm.filterMap _
  have halike := Graph.alike_of_perm hrouters hmounts hapart honce
  rw [hpaths, hpaths]
  exact halike.entryOf?_resolvePaths hrouters hclimb name

/-- A chain of two mounts, added from below with each mount before its routers. -/
def chainFromBelow : List Addition :=
  [.mount ⟨"auth", "posts", "createPostRouter"⟩, .router ⟨"post", "post.ts", 1, 5⟩,
    .mount ⟨"app", "auth", "authRouter"⟩, .router ⟨"auth", "auth.ts", 1, 5⟩,
    .router ⟨"app", "root.ts", 1, 9⟩]

theorem resolvePaths_chainFromBelow :
    chainFromBelow.Perm chainFromBelow.reverse ∧
      ((composed chainFromBelow).graph.routers.map fun d => indexName d.name).Nodup ∧
      (∀ name, ((incoming name).run (composed chainFromBelow)).1.length ≤ 1) ∧
      (∀ d ∈ (composed chainFromBelow).graph.routers,
        (composed chainFromBelow).graph.ClimbsOnce d.name) ∧
      ∀ name, entryOf? name (resolvePaths.run (composed chainFromBelow)).1 =
        entryOf? name (resolvePaths.run (composed chainFromBelow.reverse)).1 := by
  have hperm : chainFromBelow.Perm chainFromBelow.reverse := (List.reverse_perm _).symm
  have hapart : ((composed chainFromBelow).graph.routers.map fun d => indexName d.name).Nodup := by
    decide +kernel
  have hedges : ((composed chainFromBelow).graph.edges.map Prod.snd).Nodup := by decide +kernel
  have honce : ∀ name, ((incoming name).run (composed chainFromBelow)).1.length ≤ 1 := by
    intro name
    rw [((answers_incoming name).run (isConsistent_composed _)).1]
    exact Graph.length_incoming_le_one hedges name
  have htop : ∀ d ∈ (composed chainFromBelow).graph.routers,
      (composed chainFromBelow).graph.ancestor? 3 d.name = none := by
    decide +kernel
  have hclimb : ∀ d ∈ (composed chainFromBelow).graph.routers,
      (composed chainFromBelow).graph.ClimbsOnce d.name :=
    fun d hd => Graph.climbsOnce_of_top (htop d hd)
  exact ⟨hperm, hapart, honce, hclimb,
    fun name => resolvePaths_composed_perm hperm hapart honce hclimb name⟩

end Procedures.Composition

end RouteAtlas
