import Mathlib
import RouteAtlas.Proofs.RouterPaths
import RouteAtlas.Router.Cycle

/-!
# Mounts that lead in a circle

The way up from a router along first mounts may come to a name for a second time. The name then stands for
itself, and the paths below it are no paths from a root. Cycles of mounts are listed to tell of that. They are
closed walks along the links of the graph, each from the parent of a mount to the router that it is matched
to, whereas the way up looks the mounts of a name up under its canonical name too. The two agree as long as
every parent is its own canonical name.
-/

namespace RouteAtlas.Router

section Walks

variable {links : List (String × String)} {a b c x : String} {between : List String}

/-- Whether names lead from one to another one along links. -/
def Walk
    (links : List (String × String)) :
    String → List String → String → Prop
  | a, [], b => (a, b) ∈ links
  | a, x :: between, b => (a, x) ∈ links ∧ Walk links x between b

/-- The relation of a name to those that it is linked to. -/
def Linked
    (links : List (String × String))
    (a b : String) :
    Prop :=
  (a, b) ∈ links

theorem Walk.transGen (h : Walk links a between b) : Relation.TransGen (Linked links) a b := by
  induction between generalizing a with
  | nil => exact .single h
  | cons x between ih => exact .head h.1 (ih h.2)

/-- A walk leads to every name on it, and from there to its end. -/
theorem Walk.through
    (h : Walk links a between b)
    (hx : x ∈ between) :
    Relation.TransGen (Linked links) a x ∧ Relation.TransGen (Linked links) x b := by
  induction between generalizing a with
  | nil => cases hx
  | cons y between ih =>
    obtain rfl | hx := List.mem_cons.1 hx
    · exact ⟨.single h.1, h.2.transGen⟩
    · obtain ⟨hbefore, hafter⟩ := ih h.2 hx
      exact ⟨.head h.1 hbefore, hafter⟩

/-- What is left of a walk from one of its names on is a walk. -/
theorem Walk.suffix
    (h : Walk links a between b)
    (hx : x ∈ a :: between) :
    ∃ rest, x :: rest <:+ a :: between ∧ Walk links x rest b := by
  induction between generalizing a with
  | nil =>
    obtain rfl := List.mem_singleton.1 hx
    exact ⟨[], List.suffix_rfl, h⟩
  | cons y between ih =>
    obtain rfl | hx := List.mem_cons.1 hx
    · exact ⟨y :: between, List.suffix_rfl, h⟩
    · obtain ⟨rest, hrest, hwalk⟩ := ih h.2 hx
      exact ⟨rest, hrest.trans (List.suffix_cons a _), hwalk⟩

/-- Where links lead, a walk leads that comes to no name twice, but for an end that is its start. -/
theorem exists_walk
    (h : Relation.TransGen (Linked links) a b) :
    ∃ between, Walk links a between b ∧ (a :: between).Nodup := by
  induction h using Relation.TransGen.head_induction_on with
  | single h => exact ⟨[], h, List.nodup_singleton _⟩
  | @head a x hlink _ ih =>
    obtain ⟨between, hwalk, hapart⟩ := ih
    by_cases ha : a ∈ x :: between
    -- The walk from `x` comes back to `a`, so it is enough to take it from there on.
    · obtain ⟨rest, hrest, hwalk'⟩ := hwalk.suffix ha
      exact ⟨rest, hwalk', hapart.sublist hrest.sublist⟩
    · exact ⟨x :: between, ⟨hlink, hwalk⟩, List.nodup_cons.2 ⟨ha, hapart⟩⟩

theorem mem_targets
    {here next : String} :
    next ∈ (links.filterMap fun l => if l.1 = here then some l.2 else none) ↔ (here, next) ∈ links := by
  simp only [List.mem_filterMap, Option.ite_none_right_eq_some, Option.some.injEq]
  constructor
  · rintro ⟨_, hmem, rfl, rfl⟩
    exact hmem
  · exact fun hmem => ⟨_, hmem, rfl, rfl⟩

/-- The search goes on from a walk by every walk back to the start that is not too long and comes to new
names above the start only. -/
theorem mem_cyclesFrom_iff
    {start here : String}
    {n : Nat}
    {walk cycle : List String} :
    cycle ∈ cyclesFrom links start n walk here ↔
      ∃ rest, cycle = (here :: walk).reverse ++ rest ∧ Walk links here rest start ∧
        (∀ x ∈ rest, start < x) ∧ rest.Nodup ∧ (∀ x ∈ rest, x ∉ here :: walk) ∧ rest.length < n := by
  induction n generalizing walk here with
  | zero => simp [cyclesFrom]
  | succ n ih =>
    rw [cyclesFrom]
    simp only [List.mem_flatMap, List.mem_eraseDups, mem_targets]
    constructor
    · rintro ⟨next, hlink, hc⟩
      split at hc
      · next hstart =>
        obtain rfl := List.mem_singleton.1 hc
        exact ⟨[], by simp, hstart ▸ hlink, by simp⟩
      · split at hc
        · next hfresh =>
          simp only [Bool.and_eq_true, decide_eq_true_eq, Bool.not_eq_true', List.contains_eq_mem,
            decide_eq_false_iff_not] at hfresh
          obtain ⟨rest, rfl, hwalk, habove, hapart, hnew, hlength⟩ := ih.1 hc
          refine ⟨next :: rest, by simp, ⟨hlink, hwalk⟩, ?_, ?_, ?_, by simpa using hlength⟩
          · exact List.forall_mem_cons.2 ⟨hfresh.1, habove⟩
          · exact List.nodup_cons.2 ⟨fun hmem => hnew next hmem (List.mem_cons_self ..), hapart⟩
          · exact List.forall_mem_cons.2
              ⟨hfresh.2, fun x hx hmem => hnew x hx (List.mem_cons_of_mem _ hmem)⟩
        · cases hc
    · rintro ⟨_ | ⟨next, rest⟩, rfl, hwalk, habove, hapart, hnew, hlength⟩
      · exact ⟨start, hwalk, by simp⟩
      · rw [List.forall_mem_cons] at habove hnew
        rw [List.nodup_cons] at hapart
        have hne : next ≠ start := (ne_of_lt habove.1).symm
        have hfresh : (decide (start < next) && !(here :: walk).contains next) = true := by
          simp only [Bool.and_eq_true, decide_eq_true_eq, Bool.not_eq_true', List.contains_eq_mem,
            decide_eq_false_iff_not]
          exact ⟨habove.1, hnew.1⟩
        refine ⟨next, hwalk.1, ?_⟩
        rw [if_neg hne, if_pos hfresh]
        refine ih.2 ⟨rest, by simp, hwalk.2, habove.2, hapart.2, ?_, by simpa using hlength⟩
        rintro x hx hmem
        obtain rfl | hmem := List.mem_cons.1 hmem
        · exact hapart.1 hx
        · exact hnew.2 x hx hmem

end Walks

namespace Graph

section Cycles

/-- The links of a graph, from the parents of mounts to the routers that they are matched to. -/
def links (g : Graph) : List (String × String) :=
  g.edges.map fun e => (e.1.parent, e.2)

variable {g : Graph}

theorem mem_links
    {a b : String} :
    (a, b) ∈ g.links ↔ ∃ m, (m, b) ∈ g.edges ∧ m.parent = a := by
  simp only [links, List.mem_map, Prod.mk.injEq, Prod.exists]
  constructor
  · rintro ⟨m, _, hm, rfl, rfl⟩
    exact ⟨m, hm, rfl⟩
  · rintro ⟨m, hm, rfl⟩
    exact ⟨m, _, hm, rfl, rfl⟩

/-- The names on either side of links. -/
def linkedNames (links : List (String × String)) : List String :=
  (links.flatMap fun l => [l.1, l.2]).eraseDups

theorem mem_linkedNames
    {links : List (String × String)}
    {a b : String}
    (h : (a, b) ∈ links) :
    a ∈ linkedNames links ∧ b ∈ linkedNames links := by
  simp only [linkedNames, List.mem_eraseDups, List.mem_flatMap]
  exact ⟨⟨_, h, by simp⟩, ⟨_, h, by simp⟩⟩

/-- The cycles of a graph are the closed walks that come to no name twice, each from its least name on. -/
theorem mem_cycles_iff
    {cycle : List String} :
    cycle ∈ g.cycles ↔
      ∃ start rest, cycle = start :: rest ∧ Walk g.links start rest start ∧
        (∀ x ∈ rest, start < x) ∧ rest.Nodup := by
  have hcycles : g.cycles = ((linkedNames g.links).flatMap fun start =>
      cyclesFrom g.links start ((linkedNames g.links).length + 1) [] start).mergeSort namesBefore := rfl
  rw [hcycles, List.mem_mergeSort]
  simp only [List.mem_flatMap, mem_cyclesFrom_iff]
  constructor
  · rintro ⟨start, -, rest, rfl, hwalk, habove, hapart, -, -⟩
    exact ⟨start, rest, by simp, hwalk, habove, hapart⟩
  · rintro ⟨start, rest, rfl, hwalk, habove, hapart⟩
    have hnames : rest ⊆ linkedNames g.links := by
      intro x hx
      obtain ⟨y, -, hy⟩ := Relation.TransGen.tail'_iff.1 (hwalk.through hx).1
      exact (mem_linkedNames hy).2
    have hstart : start ∈ linkedNames g.links := by
      obtain ⟨y, hy, -⟩ := Relation.TransGen.head'_iff.1 hwalk.transGen
      exact (mem_linkedNames hy).1
    have hlength := (List.subperm_of_subset hapart hnames).length_le
    refine ⟨start, hstart, rest, by simp, hwalk, habove, hapart, ?_, by omega⟩
    intro x hx hmem
    obtain rfl := List.mem_singleton.1 hmem
    exact lt_irrefl _ (habove x hx)

/-- A graph has cycles if and only if some name is linked to itself over one or more links. -/
theorem cycles_ne_nil_iff :
    g.cycles ≠ [] ↔ ∃ a, Relation.TransGen (Linked g.links) a a := by
  classical
  constructor
  · intro h
    obtain ⟨cycle, hcycle⟩ := List.exists_mem_of_ne_nil _ h
    obtain ⟨start, rest, -, hwalk, -⟩ := mem_cycles_iff.1 hcycle
    exact ⟨start, hwalk.transGen⟩
  · rintro ⟨a, ha⟩
    -- Of the names that are linked to themselves the least one starts a cycle.
    let circular := (linkedNames g.links).toFinset.filter fun a =>
      Relation.TransGen (Linked g.links) a a
    have hcircular {x : String} (hx : Relation.TransGen (Linked g.links) x x) : x ∈ circular := by
      obtain ⟨y, hy, -⟩ := Relation.TransGen.head'_iff.1 hx
      exact Finset.mem_filter.2 ⟨List.mem_toFinset.2 (mem_linkedNames hy).1, hx⟩
    obtain ⟨start, hstart, hleast⟩ := circular.exists_min_image id ⟨a, hcircular ha⟩
    obtain ⟨rest, hwalk, hapart⟩ := exists_walk (Finset.mem_filter.1 hstart).2
    rw [List.nodup_cons] at hapart
    refine List.ne_nil_of_mem (mem_cycles_iff.2 ⟨start, rest, rfl, hwalk, fun x hx => ?_, hapart.2⟩)
    obtain ⟨hbefore, hafter⟩ := hwalk.through hx
    refine lt_of_le_of_ne (hleast x (hcircular (hafter.trans hbefore))) ?_
    rintro rfl
    exact hapart.1 hx

end Cycles

section Fallbacks

/-- Whether a name comes up for a second time while it is being resolved itself, given the names that are
being resolved and the paths that are known. -/
inductive ComesAgain
    (g : Graph)
    (known : List (String × String)) :
    List String → String → Prop
  | here
      {open_ : List String}
      {name : String}
      (hunknown : entryOf? name known = none)
      (hopen : name ∈ open_) :
      ComesAgain g known open_ name
  | above
      {open_ : List String}
      {name : String}
      {m : Mount}
      {rest : List Mount}
      (hunknown : entryOf? name known = none)
      (hfresh : name ∉ open_)
      (hfirst : g.incoming name = m :: rest)
      (habove : ComesAgain g known (name :: open_) m.parent) :
      ComesAgain g known open_ name

/-- Whether a name comes again while some names are resolved one after the other. -/
def FallsBackIn
    (g : Graph)
    (order : List String) :
    Prop :=
  ∃ before name, before ++ [name] <+: order ∧ ComesAgain g (g.pathsInOrder before) [] name

/-- Whether a name comes again while the paths of the declared routers are resolved. -/
def FallsBack (g : Graph) : Prop :=
  g.FallsBackIn (g.routers.map Declaration.name)

/-- Resolving with something else in place of a name that comes again. -/
def resolveNameWith
    (standIn : String → String)
    (edges : List (Mount × String))
    (roots : List String) :
    Nat → List String → List (String × String) → String → String × List (String × String)
  | 0, _, known, name => (name, known)
  | n + 1, open_, known, name =>
    match entryOf? name known with
    | some path => (path, known)
    | none =>
      if open_.contains name then (standIn name, known)
      else
        match incomingAmong edges name with
        | [] =>
          let path := basePath roots name
          (path, putEntry name path known)
        | mount :: _ =>
          let (parentPath, known) :=
            resolveNameWith standIn edges roots n (name :: open_) known mount.parent
          let path := below parentPath mount.property
          (path, putEntry name path known)

/-- The table of paths after some names were resolved one after the other, with something else in place of
those that come again. -/
def pathsInOrderWith
    (standIn : String → String)
    (g : Graph)
    (order : List String) :
    List (String × String) :=
  order.foldl
    (fun known name => (resolveNameWith standIn g.edges g.roots g.chainBound [] known name).2) []

/-- The paths of all routers, with something else in place of names that come again. -/
def resolvePathsWith
    (standIn : String → String)
    (g : Graph) :
    List (String × String) :=
  g.pathsInOrderWith standIn (g.routers.map Declaration.name)

variable {g : Graph} {standIn : String → String}

/-- A name that comes again stands for itself. -/
theorem resolveNameWith_id
    (edges : List (Mount × String))
    (roots : List String)
    (fuel : Nat)
    (open_ : List String)
    (known : List (String × String))
    (name : String) :
    resolveNameWith id edges roots fuel open_ known name =
      resolveName edges roots fuel open_ known name := by
  induction fuel generalizing open_ known name with
  | zero => rfl
  | succ fuel ih =>
    unfold resolveNameWith resolveName
    simp only [ih]
    rfl

theorem pathsInOrderWith_id (order : List String) :
    g.pathsInOrderWith id order = g.pathsInOrder order := by
  simp only [pathsInOrderWith, pathsInOrder, resolveNameWith_id]

theorem pathsInOrderWith_nil : g.pathsInOrderWith standIn [] = [] :=
  rfl

theorem pathsInOrderWith_concat
    (order : List String)
    (last : String) :
    g.pathsInOrderWith standIn (order ++ [last]) =
      (resolveNameWith standIn g.edges g.roots g.chainBound []
        (g.pathsInOrderWith standIn order) last).2 := by
  simp [pathsInOrderWith]

/-- As long as no name comes again it does not matter what would stand for it. -/
theorem resolveNameWith_eq_of_not_comesAgain
    {open_ : List String}
    {known : List (String × String)}
    {name : String}
    (h : ¬ ComesAgain g known open_ name)
    (fuel : Nat) :
    resolveNameWith standIn g.edges g.roots fuel open_ known name =
      resolveName g.edges g.roots fuel open_ known name := by
  induction fuel generalizing open_ name with
  | zero => rfl
  | succ fuel ih =>
    unfold resolveNameWith resolveName
    cases hunknown : entryOf? name known with
    | some path => rfl
    | none =>
      have hfresh : name ∉ open_ := fun hopen => h (.here hunknown hopen)
      cases hfirst : incomingAmong g.edges name with
      | nil => simp [hfresh]
      | cons m rest =>
        have habove : ¬ ComesAgain g known (name :: open_) m.parent :=
          fun hagain => h (.above hunknown hfresh hfirst hagain)
        simp [hfresh, ih habove]

/-- What was entered stays as it was entered. -/
theorem entryOf?_resolveNameWith
    {fuel : Nat}
    {open_ : List String}
    {known : List (String × String)}
    {name other path : String}
    (h : entryOf? other known = some path) :
    entryOf? other (resolveNameWith standIn g.edges g.roots fuel open_ known name).2 = some path := by
  induction fuel generalizing open_ name with
  | zero => exact h
  | succ fuel ih =>
    unfold resolveNameWith
    cases hunknown : entryOf? name known with
    | some found => exact h
    | none =>
      have hne : name ≠ other := by
        rintro rfl
        rw [h] at hunknown
        cases hunknown
      cases open_.contains name with
      | true => exact h
      | false =>
        cases incomingAmong g.edges name with
        | nil => simpa [entryOf?_putEntry, hne] using h
        | cons m rest => simpa [entryOf?_putEntry, hne] using ih

/-- A name that is resolved from the start is entered with its path. -/
theorem entryOf?_resolveNameWith_self
    (fuel : Nat)
    (known : List (String × String))
    (name : String) :
    entryOf? name (resolveNameWith standIn g.edges g.roots (fuel + 1) [] known name).2 =
      some (resolveNameWith standIn g.edges g.roots (fuel + 1) [] known name).1 := by
  unfold resolveNameWith
  cases hunknown : entryOf? name known with
  | some found => exact hunknown
  | none =>
    cases incomingAmong g.edges name with
    | nil => simp
    | cons m rest => simp

theorem length_below_lt
    {path path' : String}
    (h : path.length < path'.length)
    (property : String) :
    (below path property).length < (below path' property).length := by
  have hpath' : path' ≠ "" := by
    rintro rfl
    simp at h
  rw [below_of_ne hpath']
  by_cases hpath : path = ""
  · subst hpath
    rw [below_empty]
    simp only [String.length_append]
    omega
  · rw [below_of_ne hpath]
    simp only [String.length_append]
    omega

/-- Whatever is longer than a name that comes again makes the path longer: the bound on chains of mounts is
not reached before the name comes again. -/
theorem length_resolveName_lt_of_comesAgain
    (hlonger : ∀ name, name.length < (standIn name).length)
    {names open_ : List String}
    {known : List (String × String)}
    {name : String}
    {fuel : Nat}
    (h : ComesAgain g known open_ name)
    (hparents : g.mounts.map Mount.parent ⊆ names)
    (hname : name ∈ names)
    (hopen : open_ ⊆ names)
    (hapart : open_.Nodup)
    (hfuel : names.length < open_.length + fuel) :
    (resolveName g.edges g.roots fuel open_ known name).1.length <
      (resolveNameWith standIn g.edges g.roots fuel open_ known name).1.length := by
  induction h generalizing fuel with
  | @here open_ name hunknown hagain =>
    have hlength := (List.subperm_of_subset hapart hopen).length_le
    obtain ⟨fuel, rfl⟩ : ∃ n, fuel = n + 1 := ⟨fuel - 1, by omega⟩
    simp [resolveName, resolveNameWith, hunknown, hagain, hlonger]
  | @above open_ name m rest hunknown hfresh hfirst _ ih =>
    have hlength := (List.subperm_of_subset hapart hopen).length_le
    obtain ⟨fuel, rfl⟩ : ∃ n, fuel = n + 1 := ⟨fuel - 1, by omega⟩
    have hm : m ∈ g.incoming name := by simp [hfirst]
    have hparent : m.parent ∈ names :=
      hparents (List.mem_map_of_mem (mem_mounts_of_mem_incoming hm))
    have hfuel' : names.length < (name :: open_).length + fuel := by
      rw [List.length_cons]
      omega
    have hlonger := ih hparent (List.cons_subset.2 ⟨hname, hopen⟩) (List.nodup_cons.2 ⟨hfresh, hapart⟩)
      hfuel'
    have hfirst' : incomingAmong g.edges name = m :: rest := hfirst
    have hbelow := length_below_lt hlonger m.property
    simpa [resolveName, resolveNameWith, hunknown, hfresh, hfirst'] using hbelow

theorem fallsBackIn_concat_iff
    {order : List String}
    {last : String} :
    g.FallsBackIn (order ++ [last]) ↔
      g.FallsBackIn order ∨ ComesAgain g (g.pathsInOrder order) [] last := by
  simp only [FallsBackIn, List.prefix_concat_iff]
  constructor
  · rintro ⟨before, name, heq | hstart, h⟩
    · obtain ⟨rfl, hlast⟩ := List.append_inj' heq rfl
      obtain rfl := List.singleton_inj.1 hlast
      exact .inr h
    · exact .inl ⟨before, name, hstart, h⟩
  · rintro (⟨before, name, hstart, h⟩ | h)
    · exact ⟨before, name, .inr hstart, h⟩
    · exact ⟨order, last, .inl rfl, h⟩

/-- As long as no name comes again the paths are the same whatever would stand for it. -/
theorem pathsInOrderWith_eq_of_not_fallsBackIn
    {order : List String}
    (h : ¬ g.FallsBackIn order) :
    g.pathsInOrderWith standIn order = g.pathsInOrder order := by
  rw [← pathsInOrderWith_id]
  induction order using List.reverseRecOn with
  | nil => rw [pathsInOrderWith_nil, pathsInOrderWith_nil]
  | append_singleton order last ih =>
    rw [fallsBackIn_concat_iff, not_or] at h
    have hlast : ¬ ComesAgain g (g.pathsInOrderWith id order) [] last := by
      rw [pathsInOrderWith_id]
      exact h.2
    rw [pathsInOrderWith_concat, pathsInOrderWith_concat, ih h.1,
      resolveNameWith_eq_of_not_comesAgain hlast, resolveNameWith_eq_of_not_comesAgain hlast]

/-- Once a name has come again, some name has another path if something longer stands for it. -/
theorem exists_entry_ne_of_fallsBackIn
    (hlonger : ∀ name, name.length < (standIn name).length)
    {order : List String}
    (h : g.FallsBackIn order) :
    ∃ name path path', entryOf? name (g.pathsInOrderWith id order) = some path ∧
      entryOf? name (g.pathsInOrderWith standIn order) = some path' ∧ path ≠ path' := by
  induction order using List.reverseRecOn with
  | nil =>
    obtain ⟨before, name, hstart, -⟩ := h
    simp at hstart
  | append_singleton order last ih =>
    rw [pathsInOrderWith_concat, pathsInOrderWith_concat]
    by_cases hbefore : g.FallsBackIn order
    · obtain ⟨name, path, path', hpath, hpath', hne⟩ := ih hbefore
      exact ⟨name, path, path', entryOf?_resolveNameWith hpath, entryOf?_resolveNameWith hpath', hne⟩
    · -- No name has come again before, so both tables are the same up to here.
      have hagain := (fallsBackIn_concat_iff.1 h).resolve_left hbefore
      have hfuel : (last :: g.mounts.map Mount.parent).length < ([] : List String).length + g.chainBound := by
        simp only [List.length_cons, List.length_map, List.length_nil, chainBound]
        omega
      have hlt := length_resolveName_lt_of_comesAgain hlonger hagain (List.subset_cons_self last _)
        (List.mem_cons_self ..) (List.nil_subset _) List.nodup_nil hfuel
      rw [pathsInOrderWith_id, pathsInOrderWith_eq_of_not_fallsBackIn hbefore]
      refine ⟨last, _, _, entryOf?_resolveNameWith_self _ _ _, entryOf?_resolveNameWith_self _ _ _, ?_⟩
      intro heq
      rw [resolveNameWith_id] at heq
      exact absurd (congrArg String.length heq) (ne_of_lt hlt)

/-- Some name comes again if and only if the paths depend on what stands for such names. -/
theorem fallsBack_iff :
    g.FallsBack ↔ ∃ standIn, g.resolvePathsWith standIn ≠ g.resolvePaths := by
  rw [resolvePaths_eq]
  constructor
  · intro h
    have hlonger (name : String) : name.length < (name ++ ".").length := by
      rw [String.length_append]
      exact Nat.lt_succ_self _
    obtain ⟨name, path, path', hpath, hpath', hne⟩ := exists_entry_ne_of_fallsBackIn hlonger h
    refine ⟨(· ++ "."), fun heq => hne ?_⟩
    rw [pathsInOrderWith_id, ← heq] at hpath
    exact Option.some.inj (hpath.symm.trans hpath')
  · rintro ⟨standIn, hne⟩
    by_contra h
    exact hne (pathsInOrderWith_eq_of_not_fallsBackIn h)

end Fallbacks

section Reporting

variable {g : Graph}

/-- A name that comes again is among its own ancestors. -/
theorem ComesAgain.exists_circle
    {known : List (String × String)}
    {open_ : List String}
    {name : String}
    (h : ComesAgain g known open_ name)
    (hopen : ∀ x ∈ open_, ∃ i, g.ancestor? (i + 1) x = some name) :
    ∃ a i, g.ancestor? (i + 1) a = some a := by
  induction h with
  | @here _ name _ hagain => exact ⟨name, hopen name hagain⟩
  | @above open_ name m rest _ _ hfirst _ ih =>
    have hstep : g.ancestor? 1 name = some m.parent := by
      simp [ancestor?, mounter?_eq_some hfirst]
    refine ih (List.forall_mem_cons.2 ⟨⟨0, hstep⟩, fun x hx => ?_⟩)
    obtain ⟨i, hi⟩ := hopen x hx
    exact ⟨i + 1, by rw [ancestor?_add, hi]; exact hstep⟩

/-- A name that is its own canonical name is linked from the router that it is first mounted under. -/
theorem linked_of_mounter?
    {a b : String}
    (hname : indexName a = a)
    (h : g.mounter? a = some b) :
    Linked g.links b a := by
  cases hin : g.incoming a with
  | nil => simp [mounter?_eq_none hin] at h
  | cons m rest =>
    obtain rfl : m.parent = b := by simpa [mounter?_eq_some hin] using h
    have hm : m ∈ incomingAmong g.edges a := by
      have hfirst : incomingAmong g.edges a = m :: rest := hin
      simp [hfirst]
    rw [incomingAmong_eq, hname, ite_self] at hm
    exact mem_links.2 ⟨m, mem_mountsAt.1 hm, rfl⟩

/-- If all parents are their own canonical names, the way up from one of them goes along links. -/
theorem transGen_of_ancestor?
    (hparents : ∀ m ∈ g.mounts, indexName m.parent = m.parent)
    {i : Nat}
    {a b : String}
    (hname : indexName a = a)
    (h : g.ancestor? (i + 1) a = some b) :
    Relation.TransGen (Linked g.links) b a := by
  induction i generalizing a with
  | zero =>
    rw [ancestor?] at h
    obtain ⟨p, hp, hb⟩ := Option.bind_eq_some_iff.1 h
    obtain rfl : p = b := Option.some.inj hb
    exact .single (linked_of_mounter? hname hp)
  | succ i ih =>
    rw [ancestor?] at h
    obtain ⟨p, hp, hb⟩ := Option.bind_eq_some_iff.1 h
    have hparent : p ∈ g.mounts.map Mount.parent :=
      mem_parents_of_ancestor? (i := 0) (by simpa [ancestor?] using hp)
    obtain ⟨m, hm, rfl⟩ := List.mem_map.1 hparent
    exact .tail (ih (hparents m hm) hb) (linked_of_mounter? hname hp)

/-- If all parents are their own canonical names, a name that comes again is on a cycle that is listed. -/
theorem FallsBack.cycles_ne_nil
    (hparents : ∀ m ∈ g.mounts, indexName m.parent = m.parent)
    (h : g.FallsBack) :
    g.cycles ≠ [] := by
  obtain ⟨before, name, -, hagain⟩ := h
  obtain ⟨a, i, hcircle⟩ := hagain.exists_circle (by simp)
  obtain ⟨m, hm, rfl⟩ := List.mem_map.1 (mem_parents_of_ancestor? hcircle)
  exact cycles_ne_nil_iff.2 ⟨_, transGen_of_ancestor? hparents (hparents m hm) hcircle⟩

/-- A router that mounts itself, itself being written with a decorated name. -/
def mountingItself (parent : String) : Graph :=
  ⟨[⟨indexName parent, "router.ts", 1, 3⟩], [⟨parent, parent, parent⟩]⟩

theorem routers_mountingItself (parent : String) :
    (mountingItself parent).routers = [⟨indexName parent, "router.ts", 1, 3⟩] :=
  rfl

theorem mounts_mountingItself (parent : String) :
    (mountingItself parent).mounts = [⟨parent, parent, parent⟩] :=
  rfl

/-- A mount of one name only, which is no router, is matched to its canonical name. -/
theorem mountedName?_of_missing
    {index : List (String × String)}
    {parent name : String}
    (hname : canonicalName name ≠ "")
    (hentry : entryOf? (canonicalName name) index = none) :
    mountedName? index ⟨parent, name, name⟩ = some (canonicalName name) := by
  unfold mountedName?
  dsimp only
  generalize canonicalName name = short at hname hentry
  simp [hname, hentry]

theorem edges_mountingItself
    {parent : String}
    (h : indexName parent ≠ parent) :
    (mountingItself parent).edges = [(⟨parent, parent, parent⟩, indexName parent)] := by
  have hname : canonicalName parent ≠ "" := by
    intro hempty
    exact h (by simp [indexName, hempty])
  have hshort : indexName parent = canonicalName parent := by simp [indexName, hname]
  have hmatched : mountedName? (mountingItself parent).index ⟨parent, parent, parent⟩ =
      some (indexName parent) := by
    rw [hshort]
    generalize hindex : (mountingItself parent).index = index
    cases hentry : entryOf? (canonicalName parent) index with
    | none => exact mountedName?_of_missing hname hentry
    | some found =>
      rw [mountedName?_of_target (m := ⟨parent, parent, parent⟩) hname hentry]
      rw [← hindex] at hentry
      obtain ⟨r, hr, -, hfound⟩ := exists_router_of_entry hentry
      rw [routers_mountingItself, List.mem_singleton] at hr
      rw [← hfound, hr, hshort]
  rw [edges, mounts_mountingItself, List.filterMap_cons, hmatched]
  rfl

theorem incoming_mountingItself
    {parent : String}
    (h : indexName parent ≠ parent) :
    (mountingItself parent).incoming parent = [⟨parent, parent, parent⟩] ∧
      (mountingItself parent).incoming (indexName parent) = [⟨parent, parent, parent⟩] := by
  simp [incoming, incomingAmong_eq, edges_mountingItself h, mountsAt, h]

theorem fallsBack_mountingItself
    {parent : String}
    (h : indexName parent ≠ parent) :
    (mountingItself parent).FallsBack := by
  obtain ⟨hparent, hname⟩ := incoming_mountingItself h
  refine ⟨[], indexName parent, ?_, ?_⟩
  · rw [routers_mountingItself, List.map_singleton, List.nil_append]
  · have hunknown (name : String) : entryOf? name ((mountingItself parent).pathsInOrder []) = none := rfl
    refine .above (hunknown _) List.not_mem_nil hname ?_
    refine .above (hunknown _) (by simpa using h.symm) hparent ?_
    exact .here (hunknown _) (List.mem_cons_self ..)

theorem cycles_mountingItself
    {parent : String}
    (h : indexName parent ≠ parent) :
    (mountingItself parent).cycles = [] := by
  by_contra hcycles
  obtain ⟨a, ha⟩ := cycles_ne_nil_iff.1 hcycles
  have hlinks : (mountingItself parent).links = [(parent, indexName parent)] := by
    rw [links, edges_mountingItself h, List.map_singleton]
  obtain ⟨y, hy, -⟩ := Relation.TransGen.head'_iff.1 ha
  obtain ⟨z, -, hz⟩ := Relation.TransGen.tail'_iff.1 ha
  simp only [Linked, hlinks, List.mem_singleton, Prod.mk.injEq] at hy hz
  exact h (hz.2.symm.trans hy.1)

/-- All graphs of which the parents of mounts are among some names have cycles to tell of a name that comes
again exactly when each of these names is its own canonical name. So it is with what the paths depend on: on
the same condition nothing else in place of names that come again makes a difference to a graph without
cycles. -/
theorem fallsBack_reported_iff (names : Set String) :
    ((∀ g : Graph, (∀ m ∈ g.mounts, m.parent ∈ names) → g.FallsBack → g.cycles ≠ []) ↔
        ∀ name ∈ names, indexName name = name) ∧
      ((∀ g : Graph, (∀ m ∈ g.mounts, m.parent ∈ names) → g.cycles = [] →
          ∀ standIn, g.resolvePathsWith standIn = g.resolvePaths) ↔
        ∀ name ∈ names, indexName name = name) := by
  have hiff : (∀ g : Graph, (∀ m ∈ g.mounts, m.parent ∈ names) → g.FallsBack → g.cycles ≠ []) ↔
      ∀ name ∈ names, indexName name = name := by
    refine ⟨fun h name hname => ?_, fun h g hg hback => hback.cycles_ne_nil fun m hm => h _ (hg m hm)⟩
    by_contra hne
    have hparents : ∀ m ∈ (mountingItself name).mounts, m.parent ∈ names := by
      intro m hm
      rw [mounts_mountingItself, List.mem_singleton] at hm
      rw [hm]
      exact hname
    exact h _ hparents (fallsBack_mountingItself hne) (cycles_mountingItself hne)
  refine ⟨hiff, ?_⟩
  rw [← hiff]
  refine forall_congr' fun g => imp_congr_right fun _ => ?_
  rw [fallsBack_iff]
  constructor
  · rintro h ⟨standIn, hne⟩ hcycles
    exact hne (h hcycles standIn)
  · intro h hcycles standIn
    by_contra hne
    exact h ⟨standIn, hne⟩ hcycles

/-- A router that mounts itself under `self`, with the variable as the parent of the mount. -/
def selfByVariable : Graph :=
  ⟨[⟨"auth", "auth.ts", 1, 3⟩], [⟨"authRouter", "self", "authRouter"⟩]⟩

theorem fallsBack_selfByVariable :
    selfByVariable.FallsBack ∧ selfByVariable.cycles = [] ∧
      selfByVariable.resolvePaths =
        [("authRouter", "authRouter.self"), ("auth", "authRouter.self.self")] ∧
      selfByVariable.resolvePathsWith (fun _ => "") = [("authRouter", "self"), ("auth", "self.self")] := by
  have hincoming : selfByVariable.incoming "auth" = [⟨"authRouter", "self", "authRouter"⟩] ∧
      selfByVariable.incoming "authRouter" = [⟨"authRouter", "self", "authRouter"⟩] := by
    decide +kernel
  refine ⟨⟨[], "auth", List.prefix_rfl, ?_⟩, by decide +kernel, by decide +kernel, by decide +kernel⟩
  refine .above rfl (by decide) hincoming.1 ?_
  exact .above rfl (by decide) hincoming.2 (.here rfl (by decide))

end Reporting

end Graph

end RouteAtlas.Router
