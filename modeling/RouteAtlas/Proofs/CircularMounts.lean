import Mathlib
import RouteAtlas.Proofs.RouterPaths

/-!
# Routers that are mounted in a circle

The way up from a router along first mounts may run into a circle. Resolving it ends all the same: a name that
comes again while it is being resolved stands for itself, and a name that has been resolved is not resolved
again. `Resolution` states how names are resolved without any bound on the length of the chain of mounts, and
keeps the names that are worked out on the way.

Which name of the circle comes again depends on the router that is resolved first. Whichever it is, a router
above which there is a circle gets the path from some name on the circle down to it.
-/

namespace RouteAtlas.Router.Graph

section Resolutions

/-- How the path of a name is found, given the names that are being resolved and the paths that are known:
the path, the paths that are known afterwards, and the names that are worked out, each before those above
it. -/
inductive Resolution (g : Graph) :
    List String → List (String × String) → String → String → List (String × String) → List String → Prop
  | known
      {open_ : List String}
      {known : List (String × String)}
      {name path : String}
      (hknown : entryOf? name known = some path) :
      Resolution g open_ known name path known []
  | again
      {open_ : List String}
      {known : List (String × String)}
      {name : String}
      (hunknown : entryOf? name known = none)
      (hopen : name ∈ open_) :
      Resolution g open_ known name name known []
  | top
      {open_ : List String}
      {known : List (String × String)}
      {name : String}
      (hunknown : entryOf? name known = none)
      (hfresh : name ∉ open_)
      (htop : g.incoming name = []) :
      Resolution g open_ known name (basePath g.roots name)
        (putEntry name (basePath g.roots name) known) [name]
  | mounted
      {open_ worked : List String}
      {known after : List (String × String)}
      {name parentPath : String}
      {m : Mount}
      {rest : List Mount}
      (hunknown : entryOf? name known = none)
      (hfresh : name ∉ open_)
      (hfirst : g.incoming name = m :: rest)
      (habove : Resolution g (name :: open_) known m.parent parentPath after worked) :
      Resolution g open_ known name (below parentPath m.property)
        (putEntry name (below parentPath m.property) after) (name :: worked)

/-- How names are resolved one after the other: the paths that are known in the end, and the names that are
worked out. -/
inductive Resolutions (g : Graph) : List String → List (String × String) → List String → Prop
  | nil :
      Resolutions g [] [] []
  | concat
      {order worked new : List String}
      {known after : List (String × String)}
      {last path : String}
      (h : Resolutions g order known worked)
      (hlast : Resolution g [] known last path after new) :
      Resolutions g (order ++ [last]) after (worked ++ new)

variable {g : Graph} {open_ worked : List String} {known after : List (String × String)}
  {name path : String}

/-- A name is resolved in one way only. -/
theorem Resolution.unique
    {path' : String}
    {after' : List (String × String)}
    {worked' : List String}
    (h : Resolution g open_ known name path after worked)
    (h' : Resolution g open_ known name path' after' worked') :
    path = path' ∧ after = after' ∧ worked = worked' := by
  induction h generalizing path' after' worked' with
  | known hknown =>
    cases h' with
    | known hknown' => exact ⟨Option.some.inj (hknown.symm.trans hknown'), rfl, rfl⟩
    | again hunknown | top hunknown | mounted hunknown => cases hknown.symm.trans hunknown
  | again hunknown hopen =>
    cases h' with
    | known hknown => cases hknown.symm.trans hunknown
    | again => exact ⟨rfl, rfl, rfl⟩
    | top _ hfresh | mounted _ hfresh => exact absurd hopen hfresh
  | top hunknown hfresh htop =>
    cases h' with
    | known hknown => cases hknown.symm.trans hunknown
    | again _ hopen => exact absurd hopen hfresh
    | top => exact ⟨rfl, rfl, rfl⟩
    | mounted _ _ hfirst => cases htop.symm.trans hfirst
  | mounted hunknown hfresh hfirst _ ih =>
    cases h' with
    | known hknown => cases hknown.symm.trans hunknown
    | again _ hopen => exact absurd hopen hfresh
    | top _ _ htop => cases htop.symm.trans hfirst
    | mounted _ _ hfirst' habove =>
      obtain ⟨rfl, -⟩ := List.cons.inj (hfirst.symm.trans hfirst')
      obtain ⟨rfl, rfl, rfl⟩ := ih habove
      exact ⟨rfl, rfl, rfl⟩

/-- The bound on chains of mounts is not reached: with as many steps left as there are names that are not
being resolved, names are resolved as they are without a bound. -/
theorem exists_resolution
    {names : List String}
    {fuel : Nat}
    (hparents : g.mounts.map Mount.parent ⊆ names)
    (hname : name ∈ names)
    (hopen : open_ ⊆ names)
    (hapart : open_.Nodup)
    (hfuel : names.length < open_.length + fuel) :
    ∃ worked, Resolution g open_ known name (resolveName g.edges g.roots fuel open_ known name).1
      (resolveName g.edges g.roots fuel open_ known name).2 worked := by
  induction fuel generalizing open_ known name with
  | zero =>
    have hlength := (List.subperm_of_subset hapart hopen).length_le
    omega
  | succ fuel ih =>
    unfold resolveName
    cases hentry : entryOf? name known with
    | some found => exact ⟨[], .known hentry⟩
    | none =>
      by_cases hagain : name ∈ open_
      · exact ⟨[], by simpa [hagain] using Resolution.again hentry hagain⟩
      · simp only [List.contains_eq_mem, hagain, decide_false, Bool.false_eq_true, if_false]
        cases hin : incomingAmong g.edges name with
        | nil => exact ⟨[name], .top hentry hagain hin⟩
        | cons m rest =>
          have hm : m ∈ g.incoming name := by simp [incoming, hin]
          have hparent : m.parent ∈ names :=
            hparents (List.mem_map_of_mem (mem_mounts_of_mem_incoming hm))
          have hfuel' : names.length < (name :: open_).length + fuel := by
            rw [List.length_cons]
            omega
          obtain ⟨worked, habove⟩ := @ih _ known _ hparent (List.cons_subset.2 ⟨hname, hopen⟩)
            (List.nodup_cons.2 ⟨hagain, hapart⟩) hfuel'
          exact ⟨name :: worked, .mounted hentry hagain hin habove⟩

theorem exists_resolution_start
    (known : List (String × String))
    (name : String) :
    ∃ worked, Resolution g [] known name (resolveName g.edges g.roots g.chainBound [] known name).1
      (resolveName g.edges g.roots g.chainBound [] known name).2 worked := by
  refine exists_resolution (List.subset_cons_self name _) (List.mem_cons_self ..) (List.nil_subset _)
    List.nodup_nil ?_
  simp only [List.length_cons, List.length_map, List.length_nil, chainBound]
  omega

/-- What is worked out was neither known before nor being resolved, and is worked out once; it is known
afterwards, and nothing else is that was not known before. -/
theorem Resolution.worked_once
    (h : Resolution g open_ known name path after worked) :
    worked.Nodup ∧ (∀ x ∈ worked, entryOf? x known = none ∧ x ∉ open_) ∧
      ∀ x, (entryOf? x after).isSome ↔ (entryOf? x known).isSome ∨ x ∈ worked := by
  have hput (x key value : String) (table : List (String × String)) :
      (entryOf? x (putEntry key value table)).isSome ↔ (entryOf? x table).isSome ∨ x = key := by
    rw [entryOf?_putEntry]
    split
    · next heq => simp [heq]
    · next hne => simp [Ne.symm hne]
  induction h with
  | known | again => simp
  | top hunknown hfresh _ =>
    refine ⟨List.nodup_singleton _, List.forall_mem_singleton.2 ⟨hunknown, hfresh⟩, fun x => ?_⟩
    rw [hput, List.mem_singleton]
  | mounted hunknown hfresh _ _ ih =>
    obtain ⟨honce, hnew, hentered⟩ := ih
    refine ⟨List.nodup_cons.2 ⟨fun hmem => (hnew _ hmem).2 (List.mem_cons_self ..), honce⟩, ?_, fun x => ?_⟩
    · exact List.forall_mem_cons.2 ⟨⟨hunknown, hfresh⟩,
        fun x hx => ⟨(hnew x hx).1, fun hmem => (hnew x hx).2 (List.mem_cons_of_mem _ hmem)⟩⟩
    · rw [hput, hentered, List.mem_cons, or_assoc, or_comm (b := x = _)]

/-- Of all names that are resolved one after the other none is worked out twice, and those that are worked
out are the ones with a path. -/
theorem Resolutions.worked_once
    {order : List String}
    (h : Resolutions g order known worked) :
    worked.Nodup ∧ ∀ x, x ∈ worked ↔ (entryOf? x known).isSome := by
  induction h with
  | nil => simp [entryOf?]
  | concat _ hlast ih =>
    obtain ⟨honce, hentered⟩ := ih
    obtain ⟨honce', hnew, hentered'⟩ := hlast.worked_once
    refine ⟨List.nodup_append.2 ⟨honce, honce', ?_⟩, fun x => ?_⟩
    · rintro x hx _ hx' rfl
      have hsome := (hentered x).1 hx
      rw [(hnew x hx').1] at hsome
      cases hsome
    · rw [List.mem_append, hentered, hentered']

theorem pathsInOrder_concat
    (order : List String)
    (last : String) :
    g.pathsInOrder (order ++ [last]) =
      (resolveName g.edges g.roots g.chainBound [] (g.pathsInOrder order) last).2 := by
  simp [pathsInOrder]

/-- Resolving names one after the other ends, with one table of paths and one list of names that were worked
out. -/
theorem exists_resolutions (order : List String) :
    ∃ worked, ∀ known names, Resolutions g order known names ↔
      known = g.pathsInOrder order ∧ names = worked := by
  induction order using List.reverseRecOn with
  | nil =>
    refine ⟨[], fun known names => ⟨fun h => ?_, ?_⟩⟩
    · generalize horder : [] = order at h
      cases h with
      | nil => exact ⟨rfl, rfl⟩
      | concat => simp at horder
    · rintro ⟨rfl, rfl⟩
      exact .nil
  | append_singleton order last ih =>
    obtain ⟨worked, hworked⟩ := ih
    obtain ⟨new, hnew⟩ := exists_resolution_start (g.pathsInOrder order) last
    rw [← pathsInOrder_concat] at hnew
    refine ⟨worked ++ new, fun known names => ⟨fun h => ?_, ?_⟩⟩
    · generalize horder : order ++ [last] = order' at h
      cases h with
      | nil => simp at horder
      | concat h hlast =>
        obtain ⟨rfl, hsame⟩ := List.append_inj' horder rfl
        obtain rfl := List.singleton_inj.1 hsame
        obtain ⟨rfl, rfl⟩ := (hworked _ _).1 h
        obtain ⟨-, rfl, rfl⟩ := hlast.unique hnew
        exact ⟨rfl, rfl⟩
    · rintro ⟨rfl, rfl⟩
      exact .concat ((hworked _ _).2 ⟨rfl, rfl⟩) hnew

end Resolutions

section Circles

/-- Whether a name is one of its own ancestors along first mounts. -/
def OnCircle
    (g : Graph)
    (name : String) :
    Prop :=
  ∃ i, g.ancestor? (i + 1) name = some name

/-- The properties on the way from a name down to another one along first mounts, which may go around a
circle. -/
inductive Descends (g : Graph) (start : String) : String → List String → Prop
  | here :
      Descends g start start []
  | down
      {name : String}
      {properties : List String}
      {m : Mount}
      {rest : List Mount}
      (hfirst : g.incoming name = m :: rest)
      (hparent : Descends g start m.parent properties) :
      Descends g start name (properties ++ [m.property])

variable {g : Graph}

/-- Above a name there is a circle if there is one above the router that mounts it first, and the other way
round. -/
theorem climbsOnce_iff_of_incoming
    {name : String}
    {m : Mount}
    {rest : List Mount}
    (hfirst : g.incoming name = m :: rest) :
    g.ClimbsOnce name ↔ g.ClimbsOnce m.parent := by
  constructor
  · intro h
    obtain ⟨path, hpath⟩ := exists_mountPath h.ancestor?_eq_none
    obtain ⟨parentPath, hparent, -⟩ := hpath.exists_parent hfirst
    exact hparent.climbsOnce
  · intro h
    obtain ⟨path, hpath⟩ := exists_mountPath h.ancestor?_eq_none
    exact (hpath.mounted hfirst).climbsOnce

/-- A name on a circle is not empty if no parent of a mount is. -/
theorem OnCircle.ne_empty
    (hmounts : ∀ m ∈ g.mounts, m.parent ≠ "")
    {name : String}
    (h : g.OnCircle name) :
    name ≠ "" := by
  obtain ⟨i, hi⟩ := h
  obtain ⟨m, hm, rfl⟩ := List.mem_map.1 (mem_parents_of_ancestor? hi)
  exact hmounts m hm

/-- A text is the path from a name on a circle down to another name: the name on the circle and the properties
on the way, of which there is one at least. -/
def IsCirclePath
    (g : Graph)
    (name path : String) :
    Prop :=
  ∃ start properties, g.OnCircle start ∧ Descends g start name properties ∧ properties ≠ [] ∧
    path = start ++ "." ++ String.intercalate "." properties

/-- A table has paths from circles for all names above which there is a circle. -/
def HasCirclePaths
    (g : Graph)
    (known : List (String × String)) :
    Prop :=
  ∀ name path, entryOf? name known = some path → ¬ g.ClimbsOnce name → g.IsCirclePath name path

theorem HasCirclePaths.putEntry
    {known : List (String × String)}
    {name path : String}
    (h : g.HasCirclePaths known)
    (hpath : ¬ g.ClimbsOnce name → g.IsCirclePath name path) :
    g.HasCirclePaths (putEntry name path known) := by
  intro name' path' hentry hclimb
  rw [entryOf?_putEntry] at hentry
  split at hentry
  · next heq =>
    subst heq
    cases hentry
    exact hpath hclimb
  · exact h name' path' hentry hclimb

/-- One step down from a name on a circle, or one step further down. -/
theorem isCirclePath_below
    (hmounts : ∀ m ∈ g.mounts, m.parent ≠ "")
    {name parentPath : String}
    {m : Mount}
    {rest : List Mount}
    (hfirst : g.incoming name = m :: rest)
    (hparent : g.IsCirclePath m.parent parentPath ∨ g.OnCircle m.parent ∧ parentPath = m.parent) :
    g.IsCirclePath name (below parentPath m.property) := by
  rcases hparent with ⟨start, properties, hcircle, hdescends, hproperties, rfl⟩ | ⟨hcircle, rfl⟩
  · refine ⟨start, properties ++ [m.property], hcircle, .down hfirst hdescends, by simp, ?_⟩
    have hfilled : start ++ "." ++ String.intercalate "." properties ≠ "" := by
      intro hempty
      have hlength := congrArg String.length hempty
      simp [String.length_append] at hlength
    rw [below_of_ne hfilled, String.intercalate_append_of_ne_nil hproperties (List.cons_ne_nil _ _),
      String.intercalate_singleton]
    simp only [String.append_assoc]
  · refine ⟨m.parent, [m.property], hcircle, .down hfirst .here, by simp, ?_⟩
    rw [below_of_ne (hcircle.ne_empty hmounts), String.intercalate_singleton]

/-- While it is resolved, a name above which there is a circle gets a path from the circle, or it is on the
circle and stands for itself. -/
theorem Resolution.isCirclePath
    (hmounts : ∀ m ∈ g.mounts, m.parent ≠ "")
    {open_ worked : List String}
    {known after : List (String × String)}
    {name path : String}
    (h : Resolution g open_ known name path after worked)
    (hknown : g.HasCirclePaths known)
    (hopen : ∀ x ∈ open_, ∃ i, g.ancestor? (i + 1) x = some name) :
    g.HasCirclePaths after ∧
      (¬ g.ClimbsOnce name → g.IsCirclePath name path ∨ g.OnCircle name ∧ path = name) := by
  induction h with
  | known hentry => exact ⟨hknown, fun hcircle => .inl (hknown _ _ hentry hcircle)⟩
  | again _ hagain => exact ⟨hknown, fun _ => .inr ⟨hopen _ hagain, rfl⟩⟩
  | top _ _ htop =>
    have hclimb := (MountPath.top htop).climbsOnce
    exact ⟨hknown.putEntry fun hcircle => absurd hclimb hcircle, fun hcircle => absurd hclimb hcircle⟩
  | @mounted open_ _ _ _ name _ m rest _ _ hfirst _ ih =>
    have hstep : g.ancestor? 1 name = some m.parent := by
      simp [Graph.ancestor?, mounter?_eq_some hfirst]
    have habove : ∀ x ∈ open_, ∃ i, g.ancestor? (i + 1) x = some m.parent := by
      intro x hx
      obtain ⟨i, hi⟩ := hopen x hx
      exact ⟨i + 1, by rw [ancestor?_add, hi]; exact hstep⟩
    obtain ⟨hafter, hparent⟩ := ih hknown (List.forall_mem_cons.2 ⟨⟨0, hstep⟩, habove⟩)
    have hpath (hcircle : ¬ g.ClimbsOnce name) : g.IsCirclePath name (Graph.below _ m.property) :=
      isCirclePath_below hmounts hfirst (hparent ((climbsOnce_iff_of_incoming hfirst).not.1 hcircle))
    exact ⟨hafter.putEntry hpath, fun hcircle => .inl (hpath hcircle)⟩

/-- All names that were resolved one after the other have paths from circles where there are circles above
them. -/
theorem Resolutions.hasCirclePaths
    (hmounts : ∀ m ∈ g.mounts, m.parent ≠ "")
    {order worked : List String}
    {known : List (String × String)}
    (h : Resolutions g order known worked) :
    g.HasCirclePaths known := by
  induction h with
  | nil =>
    intro name path hentry
    simp [entryOf?] at hentry
  | concat _ hlast ih => exact (hlast.isCirclePath hmounts ih (by simp)).1

/-- All names that were resolved one after the other have a path. -/
theorem exists_entry_pathsInOrder
    {order : List String}
    {name : String}
    (hname : name ∈ order) :
    ∃ path, entryOf? name (g.pathsInOrder order) = some path := by
  rw [← Option.isSome_iff_exists]
  induction order using List.reverseRecOn with
  | nil => cases hname
  | append_singleton order last ih =>
    rw [pathsInOrder_concat]
    rcases List.mem_append.1 hname with hname | hname
    · exact entryOf?_resolveName_isSome (ih hname)
    · obtain rfl := List.mem_singleton.1 hname
      exact entryOf?_resolveName_self _ _ _

/-- Paths are resolved in the order in which routers are declared, but in whatever order names are resolved,
that ends, with one table of paths, no name is worked out twice, and every name has a path. If the way up from
the name runs into a circle, this is a name on the circle followed by the properties from there down. -/
theorem resolvePaths_of_circles
    (g : Graph)
    (hmounts : ∀ m ∈ g.mounts, m.parent ≠ "") :
    g.resolvePaths = g.pathsInOrder (g.routers.map Declaration.name) ∧
      ∀ order,
        (∃ worked, (∀ known names, Resolutions g order known names ↔
            known = g.pathsInOrder order ∧ names = worked) ∧
          worked.Nodup ∧ ∀ name, name ∈ worked ↔ (entryOf? name (g.pathsInOrder order)).isSome) ∧
        ∀ name ∈ order, ∃ path, entryOf? name (g.pathsInOrder order) = some path ∧
          (¬ g.ClimbsOnce name → ∃ start properties, g.OnCircle start ∧
            Descends g start name properties ∧ properties ≠ [] ∧
            path = start ++ "." ++ String.intercalate "." properties) := by
  refine ⟨resolvePaths_eq g, fun order => ?_⟩
  obtain ⟨worked, hworked⟩ := exists_resolutions (g := g) order
  have hrun : Resolutions g order (g.pathsInOrder order) worked := (hworked _ _).2 ⟨rfl, rfl⟩
  refine ⟨⟨worked, hworked, hrun.worked_once⟩, fun name hname => ?_⟩
  obtain ⟨path, hpath⟩ := exists_entry_pathsInOrder (g := g) hname
  exact ⟨path, hpath, hrun.hasCirclePaths hmounts name path hpath⟩

/-- Two routers that are mounted under one another, one of them under the variable that it is declared as, and
a router below them. -/
def mountedUnderEachOther : Graph :=
  ⟨[⟨"auth", "auth.ts", 1, 5⟩, ⟨"post", "post.ts", 1, 5⟩, ⟨"tag", "tag.ts", 1, 5⟩],
    [⟨"authRouter", "posts", "createPostRouter"⟩, ⟨"post", "owner", "authRouter"⟩,
      ⟨"post", "tags", "tagRouter"⟩]⟩

theorem resolvePaths_mountedUnderEachOther :
    ((∀ m ∈ mountedUnderEachOther.mounts, m.parent ≠ "") ∧ "tag" ∈ ["tag", "auth", "post"] ∧
      ¬ mountedUnderEachOther.ClimbsOnce "tag") ∧
      entryOf? "tag" mountedUnderEachOther.resolvePaths = some "post.owner.posts.tags" ∧
      ∃ path, entryOf? "tag" (mountedUnderEachOther.pathsInOrder ["tag", "auth", "post"]) = some path ∧
        ∃ start properties, mountedUnderEachOther.OnCircle start ∧
          Descends mountedUnderEachOther start "tag" properties ∧ properties ≠ [] ∧
          path = start ++ "." ++ String.intercalate "." properties := by
  have hmounts : ∀ m ∈ mountedUnderEachOther.mounts, m.parent ≠ "" := by decide
  have hname : "tag" ∈ ["tag", "auth", "post"] := by decide
  have hparent : mountedUnderEachOther.ancestor? 1 "tag" = some "post" := by decide +kernel
  have hagain : mountedUnderEachOther.ancestor? 3 "tag" = some "post" := by decide +kernel
  have hclimb : ¬ mountedUnderEachOther.ClimbsOnce "tag" :=
    fun h => h 1 3 "post" (by decide) hparent hagain
  obtain ⟨-, hall⟩ := resolvePaths_of_circles mountedUnderEachOther hmounts
  obtain ⟨path, hpath, hcircle⟩ := (hall _).2 "tag" hname
  exact ⟨⟨hmounts, hname, hclimb⟩, by decide +kernel, path, hpath, hcircle hclimb⟩

end Circles

end RouteAtlas.Router.Graph
