import Mathlib
import RouteAtlas.Proofs.PlainPaths
import RouteAtlas.Proofs.RouterPaths
import RouteAtlas.Router.Title

/-!
# Routers built inside routers

The object of a router may hold further routers, built in place under a key, and so on to any depth.
An outline keeps of all this what names and paths are made of: the keys, the names of procedures, and
the words by which each router built in place is mounted.

A router built in place is named by its last key alone, and mounts are matched to routers by name. So
the path of a router follows its keys only as long as the first mount that is matched to its name is
its own, and so on up to a root that nothing mounts. `MountedInPlace` says this of a router, and it
holds of all of them if no two routers at different key paths have names that are taken for each other.
-/

namespace RouteAtlas.Router

open Text (joinWith)

/-- What the object of a router holds, in source order: procedures, and routers that are built in place
and mounted under a key. -/
inductive Outline where
  | nil
  | procedure (name : String) (rest : Outline)
  | router (key target : String) (holds rest : Outline)
  deriving DecidableEq, Repr

namespace Outline

section Levels

/-- A router of an outline: the keys that lead from the root down to it, and what it holds. -/
structure Level where
  path : List String
  holds : Outline

/-- The routers that are built in place below a key path, in source order and outer before inner. -/
def nestedIn
    (path : List String) :
    Outline → List Level
  | nil => []
  | procedure _ rest => nestedIn path rest
  | router key _ holds rest =>
    ⟨path ++ [key], holds⟩ :: nestedIn (path ++ [key]) holds ++ nestedIn path rest

/-- The routers of an outline, the root first. -/
def levels (o : Outline) : List Level :=
  ⟨[], o⟩ :: nestedIn [] o

/-- The names of the procedures that a router itself holds. -/
def procedures : Outline → List String
  | nil => []
  | procedure name rest => name :: procedures rest
  | router _ _ _ rest => procedures rest

/-- The keys under which a router itself holds others, with the words that name them. -/
def mounted : Outline → List (String × String)
  | nil => []
  | procedure _ rest => mounted rest
  | router key target _ rest => (key, target) :: mounted rest

/-- All procedures of an outline with the key paths of their routers, router by router. -/
def places (o : Outline) : List (List String × String) :=
  o.levels.flatMap fun l => l.holds.procedures.map fun name => (l.path, name)

/-- A router built in place stands under a key of another router, which comes before it. -/
theorem exists_parent_before
    {path : List String}
    {o : Outline}
    {before after : List Level}
    {l : Level}
    (h : nestedIn path o = before ++ l :: after) :
    ∃ parent ∈ ⟨path, o⟩ :: before, ∃ key target,
      (key, target) ∈ parent.holds.mounted ∧ l.path = parent.path ++ [key] := by
  induction o generalizing path before after with
  | nil => simp [nestedIn] at h
  | procedure name rest ih =>
    obtain ⟨parent, hparent, key, target, hmounted, hpath⟩ := ih h
    rcases List.mem_cons.1 hparent with rfl | hparent
    · exact ⟨_, List.mem_cons_self, key, target, hmounted, hpath⟩
    · exact ⟨parent, List.mem_cons_of_mem _ hparent, key, target, hmounted, hpath⟩
  | router key target holds rest ihHolds ihRest =>
    rw [nestedIn, List.cons_append] at h
    cases before with
    | nil =>
      obtain ⟨rfl, -⟩ := List.cons.inj h
      exact ⟨_, List.mem_cons_self, key, target, by simp [mounted], rfl⟩
    | cons first before =>
      obtain ⟨rfl, hlater⟩ := List.cons.inj h
      rcases List.append_eq_append_iff.1 hlater with ⟨more, rfl, hrest⟩ | ⟨more, hholds, hmore⟩
      · obtain ⟨parent, hparent, key', target', hmounted, hpath⟩ := ihRest hrest
        rcases List.mem_cons.1 hparent with rfl | hparent
        · exact ⟨_, List.mem_cons_self, key', target', by simp [mounted, hmounted], hpath⟩
        · exact ⟨parent, by simp [hparent], key', target', hmounted, hpath⟩
      · cases more with
        | nil =>
          have hrest : nestedIn path rest = [] ++ l :: after := hmore.symm
          obtain ⟨parent, hparent, key', target', hmounted, hpath⟩ := ihRest hrest
          obtain rfl := List.mem_singleton.1 hparent
          exact ⟨_, List.mem_cons_self, key', target', by simp [mounted, hmounted], hpath⟩
        | cons l' more =>
          obtain ⟨rfl, -⟩ := List.cons.inj hmore
          obtain ⟨parent, hparent, found⟩ := ihHolds hholds
          exact ⟨parent, List.mem_cons_of_mem _ hparent, found⟩

theorem exists_parent_of_mem_nestedIn
    {path : List String}
    {o : Outline}
    {l : Level}
    (h : l ∈ nestedIn path o) :
    ∃ parent ∈ ⟨path, o⟩ :: nestedIn path o, ∃ key target,
      (key, target) ∈ parent.holds.mounted ∧ l.path = parent.path ++ [key] := by
  obtain ⟨before, after, hsplit⟩ := List.append_of_mem h
  obtain ⟨parent, hparent, found⟩ := exists_parent_before hsplit
  refine ⟨parent, ?_, found⟩
  rw [hsplit]
  rcases List.mem_cons.1 hparent with rfl | hparent
  · exact List.mem_cons_self
  · exact List.mem_cons_of_mem _ (List.mem_append_left _ hparent)

/-- Each key under which a router holds another one leads to a router. -/
theorem exists_nested_of_mem_mounted
    {path : List String}
    {o : Outline}
    {parent : Level}
    {m : String × String}
    (hparent : parent ∈ ⟨path, o⟩ :: nestedIn path o)
    (hm : m ∈ parent.holds.mounted) :
    ∃ l ∈ nestedIn path o, l.path = parent.path ++ [m.1] := by
  induction o generalizing path parent with
  | nil =>
    obtain rfl := List.mem_singleton.1 hparent
    simp [mounted] at hm
  | procedure name rest ih =>
    rcases List.mem_cons.1 hparent with rfl | hparent
    · obtain ⟨l, hl, hpath⟩ := ih (List.mem_cons_self (a := Level.mk path rest)) hm
      exact ⟨l, hl, hpath⟩
    · exact ih (List.mem_cons_of_mem _ hparent) hm
  | router key target holds rest ihHolds ihRest =>
    simp only [nestedIn, List.cons_append, List.mem_cons, List.mem_append] at hparent ⊢
    rcases hparent with rfl | rfl | hinner | hlater
    · rcases List.mem_cons.1 hm with rfl | hm
      · exact ⟨_, Or.inl rfl, rfl⟩
      · obtain ⟨l, hl, hpath⟩ := ihRest (List.mem_cons_self (a := Level.mk path rest)) hm
        exact ⟨l, Or.inr (Or.inr hl), hpath⟩
    · obtain ⟨l, hl, hpath⟩ := ihHolds List.mem_cons_self hm
      exact ⟨l, Or.inr (Or.inl hl), hpath⟩
    · obtain ⟨l, hl, hpath⟩ := ihHolds (List.mem_cons_of_mem _ hinner) hm
      exact ⟨l, Or.inr (Or.inl hl), hpath⟩
    · obtain ⟨l, hl, hpath⟩ := ihRest (List.mem_cons_of_mem _ hlater) hm
      exact ⟨l, Or.inr (Or.inr hl), hpath⟩

theorem ne_nil_of_mem_nestedIn
    {path : List String}
    {o : Outline}
    {l : Level}
    (h : l ∈ nestedIn path o) :
    l.path ≠ [] := by
  obtain ⟨parent, -, key, target, -, hpath⟩ := exists_parent_of_mem_nestedIn h
  simp [hpath]

theorem mem_places
    {o : Outline}
    {place : List String × String} :
    place ∈ o.places ↔ ∃ l ∈ o.levels, place.2 ∈ l.holds.procedures ∧ place.1 = l.path := by
  obtain ⟨path, procedure⟩ := place
  simp only [places, List.mem_flatMap, List.mem_map, Prod.mk.injEq]
  constructor
  · rintro ⟨l, hl, procedure', hprocedure, hpath, rfl⟩
    exact ⟨l, hl, hprocedure, hpath.symm⟩
  · rintro ⟨l, hl, hprocedure, hpath⟩
    exact ⟨l, hl, procedure, hprocedure, hpath.symm, rfl⟩

end Levels

section Keys

/-- A key that can be told apart in a path: it has a character and no dot, like every identifier. -/
def isKey (key : String) : Bool :=
  !key.isEmpty && !key.toList.contains '.'

/-- Whether all keys and names of an outline can be told apart in a path. -/
def isKeyed : Outline → Bool
  | nil => true
  | procedure name rest => isKey name && isKeyed rest
  | router key _ holds rest => isKey key && isKeyed holds && isKeyed rest

theorem isKeyed_of_mem_nestedIn
    {path : List String}
    {o : Outline}
    (ho : o.isKeyed)
    (hpath : ∀ key ∈ path, isKey key) :
    ∀ l ∈ nestedIn path o, l.holds.isKeyed ∧ ∀ key ∈ l.path, isKey key := by
  induction o generalizing path with
  | nil => simp [nestedIn]
  | procedure name rest ih =>
    rw [isKeyed, Bool.and_eq_true] at ho
    exact ih ho.2 hpath
  | router key target holds rest ihHolds ihRest =>
    simp only [isKeyed, Bool.and_eq_true] at ho
    obtain ⟨⟨hkey, hholds⟩, hrest⟩ := ho
    have hbelow : ∀ k ∈ path ++ [key], isKey k := by
      intro k hk
      rcases List.mem_append.1 hk with hk | hk
      · exact hpath k hk
      · exact List.mem_singleton.1 hk ▸ hkey
    intro l hl
    simp only [nestedIn, List.cons_append, List.mem_cons, List.mem_append] at hl
    rcases hl with rfl | hl | hl
    · exact ⟨hholds, hbelow⟩
    · exact ihHolds hholds hbelow l hl
    · exact ihRest hrest hpath l hl

theorem isKeyed_of_mem_levels
    {o : Outline}
    (ho : o.isKeyed)
    {l : Level}
    (hl : l ∈ o.levels) :
    l.holds.isKeyed ∧ ∀ key ∈ l.path, isKey key := by
  have hnone : ∀ key ∈ ([] : List String), isKey key := by simp
  rcases List.mem_cons.1 hl with rfl | hl
  · exact ⟨ho, hnone⟩
  · exact isKeyed_of_mem_nestedIn ho hnone l hl

theorem isKey_of_mem_procedures
    {o : Outline}
    (ho : o.isKeyed)
    {name : String}
    (h : name ∈ o.procedures) :
    isKey name := by
  induction o with
  | nil => simp [procedures] at h
  | procedure first rest ih =>
    rw [isKeyed, Bool.and_eq_true] at ho
    rcases List.mem_cons.1 h with rfl | h
    · exact ho.1
    · exact ih ho.2 h
  | router key target holds rest _ ih =>
    simp only [isKeyed, Bool.and_eq_true] at ho
    exact ih ho.2 h

theorem isKey_iff {key : String} : isKey key ↔ key ≠ "" ∧ '.' ∉ key.toList := by
  simp [isKey]

end Keys

section Joining

theorem joinWith_concat
    {path : List String}
    (h : path ≠ [])
    (key : String) :
    joinWith "." (path ++ [key]) = joinWith "." path ++ "." ++ key := by
  induction path with
  | nil => exact absurd rfl h
  | cons first rest ih =>
    cases rest with
    | nil => simp [joinWith]
    | cons second more =>
      have hrest := ih (List.cons_ne_nil second more)
      simp only [List.cons_append, joinWith] at hrest ⊢
      simp only [hrest, String.append_assoc]

theorem joinWith_ne_empty
    {path : List String}
    (h : path ≠ [])
    (hkeys : ∀ key ∈ path, isKey key) :
    joinWith "." path ≠ "" := by
  cases path with
  | nil => exact absurd rfl h
  | cons first rest =>
    have hfirst : first ≠ "" := (isKey_iff.1 (hkeys first (by simp))).1
    cases rest with
    | nil => exact hfirst
    | cons second more =>
      intro hempty
      simp [joinWith, hfirst] at hempty

/-- One more key at the end of a path is the path of a property below it. -/
theorem below_joinWith
    {path : List String}
    (hkeys : ∀ key ∈ path, isKey key)
    (key : String) :
    Graph.below (joinWith "." path) key = joinWith "." (path ++ [key]) := by
  by_cases hpath : path = []
  · simp [hpath, joinWith]
  · rw [Graph.below_of_ne (joinWith_ne_empty hpath hkeys), joinWith_concat hpath]

theorem below_inj
    {path path' key key' : String}
    (hkey : isKey key)
    (hkey' : isKey key')
    (h : Graph.below path key = Graph.below path' key') :
    path = path' ∧ key = key' := by
  have hdot : '.' ∉ key.toList := (isKey_iff.1 hkey).2
  have hdot' : '.' ∉ key'.toList := (isKey_iff.1 hkey').2
  by_cases hpath : path = "" <;> by_cases hpath' : path' = ""
  · subst hpath hpath'
    simpa using h
  · subst hpath
    rw [Graph.below_empty, Graph.below_of_ne hpath'] at h
    simp [h] at hdot
  · subst hpath'
    rw [Graph.below_empty, Graph.below_of_ne hpath] at h
    simp [← h] at hdot'
  · rw [Graph.below_of_ne hpath, Graph.below_of_ne hpath'] at h
    have hchars := congrArg String.toList h
    simp only [String.toList_append, List.append_assoc] at hchars
    obtain ⟨hbefore, hpart⟩ := Text.append_sep_inj hdot hdot' hchars
    exact ⟨String.toList_inj.1 hbefore, String.toList_inj.1 hpart⟩

/-- Key paths are told apart by their keys joined with dots. -/
theorem joinWith_inj
    {path path' : List String}
    (hkeys : ∀ key ∈ path, isKey key)
    (hkeys' : ∀ key ∈ path', isKey key)
    (h : joinWith "." path = joinWith "." path') :
    path = path' := by
  induction path using List.reverseRecOn generalizing path' with
  | nil =>
    by_contra hne
    exact joinWith_ne_empty (Ne.symm hne) hkeys' h.symm
  | append_singleton path key ih =>
    cases path' using List.reverseRecOn with
    | nil => exact absurd h (joinWith_ne_empty (by simp) hkeys)
    | append_singleton path' key' =>
      have hpath : ∀ k ∈ path, isKey k := fun k hk => hkeys k (List.mem_append_left _ hk)
      have hpath' : ∀ k ∈ path', isKey k := fun k hk => hkeys' k (List.mem_append_left _ hk)
      rw [← below_joinWith hpath, ← below_joinWith hpath'] at h
      obtain ⟨hjoined, rfl⟩ := below_inj (hkeys key (by simp)) (hkeys' key' (by simp)) h
      rw [ih hpath hpath' hjoined]

end Joining

section Graphs

/-- The routers and mounts of an outline whose routers are named in some way. Only names are kept of the
routers, no path depends on more. -/
def graph
    (name : List String → String)
    (o : Outline) :
    Graph where
  routers := o.levels.map fun l => ⟨name l.path, "", 0, 0⟩
  mounts := o.levels.flatMap fun l => l.holds.mounted.map fun m => ⟨name l.path, m.1, m.2⟩

variable {name : List String → String} {o : Outline}

theorem mem_mounts_graph {m : Mount} :
    m ∈ (o.graph name).mounts ↔
      ∃ l ∈ o.levels, ∃ key target,
        (key, target) ∈ l.holds.mounted ∧ m = ⟨name l.path, key, target⟩ := by
  simp only [graph, List.mem_flatMap, List.mem_map]
  constructor
  · rintro ⟨l, hl, ⟨key, target⟩, hmounted, hm⟩
    exact ⟨l, hl, key, target, hmounted, hm.symm⟩
  · rintro ⟨l, hl, key, target, hmounted, hm⟩
    exact ⟨l, hl, (key, target), hmounted, hm.symm⟩

theorem declared_of_mem_levels
    (name : List String → String)
    {l : Level}
    (hl : l ∈ o.levels) :
    name l.path ∈ (o.graph name).routers.map Declaration.name := by
  simp only [graph, List.map_map, List.mem_map, Function.comp_apply]
  exact ⟨l, hl, rfl⟩

theorem root_mem_levels (o : Outline) : ⟨[], o⟩ ∈ o.levels :=
  List.mem_cons_self

/-- The properties of mounts are keys. -/
theorem isKey_of_mem_mounts_graph
    (ho : o.isKeyed)
    {m : Mount}
    (hm : m ∈ (o.graph name).mounts) :
    isKey m.property := by
  obtain ⟨parent, hparent, key, target, hmounted, rfl⟩ := mem_mounts_graph.1 hm
  obtain ⟨l, hl, hpath⟩ := exists_nested_of_mem_mounted hparent hmounted
  exact (isKeyed_of_mem_levels ho (List.mem_cons_of_mem _ hl)).2 key (by simp [hpath])

end Graphs

end Outline

end RouteAtlas.Router
