import Mathlib
import RouteAtlas.Proofs.MethodReferences

/-!
# Walks through trees

The nodes below a node are found with a stack, on which the children of a visited node are put in reverse. What
has been found and what is still to be found of the trees on the stack make up the same nodes after every turn,
so the walk finds the nodes of the trees in the order of their recursion. Each of them stands at one place, the
way to it from the root of the walk, and is found once: the places come in their order as words, in which a
place comes before all that are below it and these before its next sibling.
-/

namespace RouteAtlas.Syntax.Node

section Places

/-- The node at a place below a node: the way to it, as the number of a child for each step. -/
def at? (n : Node) : List Nat → Option Node
  | [] => some n
  | i :: place => n.children[i]?.bind fun c => c.at? place

mutual

/-- The places in a tree, each before those below it. -/
def places : Node → List (List Nat)
  | mk _ _ _ _ cs => [] :: placesFrom 0 cs

/-- The places in a list of trees, of which the first is the child with the given number. -/
def placesFrom (first : Nat) : List Node → List (List Nat)
  | [] => []
  | c :: rest => (places c).map (first :: ·) ++ placesFrom (first + 1) rest

end

variable {n c : Node} {place : List Nat} {first i : Nat} {cs : List Node}

theorem places_eq (n : Node) : places n = [] :: placesFrom 0 n.children := by
  cases n
  rfl

mutual

/-- The nodes of a tree are those at its places. -/
theorem map_subtree : ∀ n : Node, (subtree n).map some = (places n).map n.at?
  | mk k r s t cs => by
    rw [subtree, places, List.map_cons, List.map_cons]
    exact congrArg _ (map_forest (mk k r s t cs) 0 cs rfl)

theorem map_forest (n : Node) :
    ∀ (first : Nat) (cs : List Node), n.children.drop first = cs →
      (forest cs).map some = (placesFrom first cs).map n.at?
  | _, [] => fun _ => rfl
  | first, c :: rest => by
    intro hdrop
    have hchild : n.children[first]? = some c := by
      have hhead := congrArg List.head? hdrop
      rwa [List.head?_drop] at hhead
    have hrest : n.children.drop (first + 1) = rest := by
      rw [← List.tail_drop, hdrop, List.tail_cons]
    have hplaces : n.at? ∘ (first :: ·) = c.at? := by
      funext place
      rw [Function.comp_apply, at?, hchild, Option.bind_some]
    rw [forest, placesFrom, List.map_append, List.map_append, List.map_map, hplaces, map_subtree c,
      map_forest n (first + 1) rest hrest]

end

theorem exists_of_mem_placesFrom (h : place ∈ placesFrom first cs) :
    ∃ i more, place = i :: more ∧ first ≤ i := by
  induction cs generalizing first with
  | nil => cases h
  | cons c rest ih =>
    rw [placesFrom, List.mem_append, List.mem_map] at h
    rcases h with ⟨more, -, rfl⟩ | h
    · exact ⟨first, more, rfl, le_rfl⟩
    · obtain ⟨i, more, rfl, hi⟩ := ih h
      exact ⟨i, more, rfl, by omega⟩

mutual

/-- The places in a tree come in their order as words. -/
theorem pairwise_places : ∀ n : Node, (places n).Pairwise (· < ·)
  | mk k r s t cs => by
    rw [places, List.pairwise_cons]
    refine ⟨fun place hplace => ?_, pairwise_placesFrom 0 cs⟩
    obtain ⟨i, more, rfl, -⟩ := exists_of_mem_placesFrom hplace
    exact List.nil_lt_cons i more

theorem pairwise_placesFrom : ∀ (first : Nat) (cs : List Node), (placesFrom first cs).Pairwise (· < ·)
  | _, [] => .nil
  | first, c :: rest => by
    rw [placesFrom, List.pairwise_append, List.pairwise_map]
    refine ⟨(pairwise_places c).imp fun h => List.cons_lt_cons_iff.2 (.inr ⟨rfl, h⟩),
      pairwise_placesFrom (first + 1) rest, fun place hplace other hother => ?_⟩
    obtain ⟨more, -, rfl⟩ := List.mem_map.1 hplace
    obtain ⟨i, less, rfl, hi⟩ := exists_of_mem_placesFrom hother
    exact List.cons_lt_cons_iff.2 (.inl hi)

end

theorem mem_placesFrom
    (hc : cs[i]? = some c)
    (hplace : place ∈ places c) :
    (first + i) :: place ∈ placesFrom first cs := by
  induction cs generalizing first i with
  | nil => cases hc
  | cons d rest ih =>
    rw [placesFrom, List.mem_append]
    cases i with
    | zero =>
      obtain rfl : d = c := by simpa using hc
      exact .inl (List.mem_map_of_mem hplace)
    | succ i =>
      have hrest : (first + 1 + i) :: place ∈ placesFrom (first + 1) rest := ih (by simpa using hc)
      rw [show first + 1 + i = first + (i + 1) by omega] at hrest
      exact .inr hrest

/-- A node stands at every place in a tree, and at no other. -/
theorem mem_places_iff : place ∈ places n ↔ ∃ d, n.at? place = some d := by
  constructor
  · intro h
    have hmem : n.at? place ∈ (subtree n).map some := map_subtree n ▸ List.mem_map_of_mem h
    obtain ⟨d, -, hd⟩ := List.mem_map.1 hmem
    exact ⟨d, hd.symm⟩
  · rintro ⟨d, hd⟩
    induction place generalizing n with
    | nil =>
      rw [places_eq]
      exact List.mem_cons_self
    | cons i place ih =>
      rw [at?, Option.bind_eq_some_iff] at hd
      obtain ⟨c, hc, hd⟩ := hd
      rw [places_eq, ← Nat.zero_add i]
      exact List.mem_cons_of_mem _ (mem_placesFrom hc (ih hd))

theorem mem_placesFrom_zero_iff :
    place ∈ placesFrom 0 n.children ↔ place ≠ [] ∧ ∃ d, n.at? place = some d := by
  rw [← mem_places_iff, places_eq, List.mem_cons]
  constructor
  · intro h
    obtain ⟨i, more, rfl, -⟩ := exists_of_mem_placesFrom h
    exact ⟨by simp, .inr h⟩
  · rintro ⟨hne, h⟩
    exact h.resolve_left hne

end Places

section Turns

/-- One turn of a walk, told by the stack, whose top is its last node, and by what has been found. The top is
found if it is wanted, and its children are put in its place in reverse. -/
inductive Turn (wanted : Node → Bool) : List Node × List Node → List Node × List Node → Prop
  | visit (stack : List Node) (top : Node) (found : List Node) :
      Turn wanted (stack ++ [top], found) (stack ++ top.children.reverse, found ++ [top].filter wanted)

/-- What has been found and what is still to be found. -/
def outcome
    (wanted : Node → Bool)
    (state : List Node × List Node) :
    List Node :=
  state.2 ++ (forest state.1.reverse).filter wanted

variable {wanted : Node → Bool} {state next : List Node × List Node} {found : List Node}

theorem Turn.outcome_eq (h : Turn wanted state next) : outcome wanted next = outcome wanted state := by
  obtain ⟨stack, top, found⟩ := h
  have hbefore : forest (stack ++ [top]).reverse = [top] ++ (forest top.children ++ forest stack.reverse) := by
    rw [List.reverse_append, List.reverse_singleton, List.singleton_append, forest, subtree_eq]
    rfl
  have hafter : forest (stack ++ top.children.reverse).reverse =
      forest top.children ++ forest stack.reverse := by
    rw [List.reverse_append, List.reverse_reverse, forest_append]
  rw [outcome, outcome, hbefore, hafter, List.filter_append [top], List.append_assoc]

theorem countForest_reverse (ns : List Node) : countForest ns.reverse = countForest ns := by
  induction ns with
  | nil => rfl
  | cons n rest ih =>
    rw [List.reverse_cons, countForest_append, ih, countForest, countForest, countForest]
    omega

/-- Every turn leaves one node fewer in the trees of the stack. -/
theorem Turn.countForest_lt (h : Turn wanted state next) : countForest next.1 < countForest state.1 := by
  obtain ⟨stack, top, found⟩ := h
  have hchildren := countForest_children top
  simp only [countForest_append, countForest_reverse, countForest]
  omega

/-- A walk does not go on for ever. -/
theorem wellFounded_turn (wanted : Node → Bool) :
    WellFounded fun next state => Turn wanted state next :=
  Subrelation.wf Turn.countForest_lt (measure fun state : List Node × List Node => countForest state.1).wf

theorem outcome_eq_of_turns (h : Relation.ReflTransGen (Turn wanted) state next) :
    outcome wanted next = outcome wanted state := by
  induction h with
  | refl => rfl
  | tail _ hturn ih => exact hturn.outcome_eq.trans ih

/-- A walk goes on until its stack is empty, and has then found what there was to be found. -/
theorem turns_outcome (state : List Node × List Node) :
    Relation.ReflTransGen (Turn wanted) state ([], outcome wanted state) := by
  induction state using (wellFounded_turn wanted).induction with
  | _ state ih =>
    obtain ⟨stack, found⟩ := state
    rcases List.eq_nil_or_concat' stack with rfl | ⟨stack, top, rfl⟩
    · simp [outcome, forest, Relation.ReflTransGen.refl]
    · have hturn := @Turn.visit wanted stack top found
      rw [← hturn.outcome_eq]
      exact .head hturn (ih _ hturn)

end Turns

/-- The walk with a stack ends on every tree, and finds the wanted nodes below a node as the recursion through
its children does: those at the places below it, each once, and in the order of their places. -/
theorem descendants_spec
    (n : Node)
    (wanted : Node → Bool) :
    (WellFounded fun next state => Turn wanted state next) ∧
      (∀ found, Relation.ReflTransGen (Turn wanted) (n.children.reverse, []) ([], found) ↔
        found = n.descendants wanted) ∧
      n.descendants wanted = (forest n.children).filter wanted ∧
      ∃ ps : List (List Nat), ps.Pairwise (· < ·) ∧
        (∀ place, place ∈ ps ↔ place ≠ [] ∧ ∃ d, n.at? place = some d ∧ wanted d = true) ∧
        (n.descendants wanted).map some = ps.map n.at? := by
  have hfilter : n.descendants wanted = (forest n.children).filter wanted := walk_eq_filter wanted le_rfl
  have hstart : outcome wanted (n.children.reverse, []) = n.descendants wanted := by
    rw [outcome, List.reverse_reverse, List.nil_append, hfilter]
  refine ⟨wellFounded_turn wanted, fun found => ⟨fun h => ?_, ?_⟩, hfilter,
    (placesFrom 0 n.children).filter fun place => (n.at? place).any wanted, ?_, fun place => ?_, ?_⟩
  · have hend := outcome_eq_of_turns h
    rw [hstart] at hend
    simpa [outcome, forest] using hend
  · rintro rfl
    exact hstart ▸ turns_outcome (n.children.reverse, [])
  · exact (pairwise_placesFrom 0 n.children).filter _
  · rw [List.mem_filter, mem_placesFrom_zero_iff, Option.any_eq_true]
    constructor
    · rintro ⟨⟨hne, -⟩, d, hd, hwanted⟩
      exact ⟨hne, d, hd, hwanted⟩
    · rintro ⟨hne, d, hd, hwanted⟩
      exact ⟨⟨hne, d, hd⟩, d, hd, hwanted⟩
  · have hforest := map_forest n 0 n.children rfl
    have hany : (fun place => (n.at? place).any wanted) = Option.any wanted ∘ n.at? := rfl
    rw [hfilter, hany, ← List.filter_map, ← hforest, List.filter_map]
    rfl

end RouteAtlas.Syntax.Node
