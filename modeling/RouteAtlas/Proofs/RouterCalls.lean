import Mathlib
import RouteAtlas.Procedures.Survey
import RouteAtlas.Proofs.RouterOutlines

/-!
# The calls that build nested routers

The outline of a router is read from the object that is given to the call that builds it. Nothing in
the object may build a router but calls that are the values of entries, and every other entry must be a
procedure. Whether a call hides somewhere else is told by counting: as many calls stand in an entry as
in the object of its router, and the call itself.

The survey of a file does not follow entries. It collects all calls of the file that build routers, and
names each by what stands around it. Here the calls are shown to be those of the outline, in its order,
each with its last key as the nearest name.
-/

namespace RouteAtlas.Procedures

open Syntax
open Router (Outline)

section Trees

mutual

theorem map_node_placedTree
    (around : List Node) :
    ∀ n, (placedTree around n).map Placed.node = Node.subtree n
  | .mk k r s t cs => by
    simp only [placedTree, Node.subtree, List.map_cons, map_node_placedForest]

theorem map_node_placedForest
    (around : List Node) :
    ∀ ns, (placedForest around ns).map Placed.node = Node.forest ns
  | [] => by simp only [placedForest, Node.forest, List.map_nil]
  | c :: rest => by
    simp only [placedForest, Node.forest, List.map_append, map_node_placedTree around c,
      map_node_placedForest around rest]

end

theorem placedTree_eq
    (around : List Node)
    (n : Node) :
    placedTree around n = ⟨n, around⟩ :: placedForest (n :: around) n.children := by
  cases n
  rw [placedTree]
  rfl

theorem placedTree_sublist
    (around : List Node)
    {n : Node}
    {ns : List Node}
    (h : n ∈ ns) :
    (placedTree around n).Sublist (placedForest around ns) := by
  induction ns with
  | nil => cases h
  | cons c rest ih =>
    rw [placedForest]
    rcases List.mem_cons.1 h with rfl | h
    · exact List.sublist_append_left _ _
    · exact (ih h).trans (List.sublist_append_right _ _)

theorem placedForest_children_sublist
    (around : List Node)
    (n : Node) :
    (placedForest (n :: around) n.children).Sublist (placedTree around n) := by
  rw [placedTree_eq]
  exact List.sublist_cons_self _ _

mutual

/-- Every node of a tree stands there with all that is below it. -/
theorem exists_placedTree_of_mem_subtree
    {m : Node}
    (around : List Node) :
    ∀ n, m ∈ Node.subtree n → ∃ outer, (placedTree outer m).Sublist (placedTree around n)
  | .mk k r s t cs => fun h => by
    rw [Node.subtree] at h
    rcases List.mem_cons.1 h with rfl | h
    · exact ⟨around, List.Sublist.refl _⟩
    · obtain ⟨outer, hsub⟩ := exists_placedTree_of_mem_forest (.mk k r s t cs :: around) cs h
      exact ⟨outer, hsub.trans (placedForest_children_sublist around (.mk k r s t cs))⟩

theorem exists_placedTree_of_mem_forest
    {m : Node}
    (around : List Node) :
    ∀ ns, m ∈ Node.forest ns → ∃ outer, (placedTree outer m).Sublist (placedForest around ns)
  | [] => fun h => by simp [Node.forest] at h
  | c :: rest => fun h => by
    rw [Node.forest] at h
    rw [placedForest]
    rcases List.mem_append.1 h with h | h
    · obtain ⟨outer, hsub⟩ := exists_placedTree_of_mem_subtree around c h
      exact ⟨outer, hsub.trans (List.sublist_append_left _ _)⟩
    · obtain ⟨outer, hsub⟩ := exists_placedTree_of_mem_forest around rest h
      exact ⟨outer, hsub.trans (List.sublist_append_right _ _)⟩

end

end Trees

section Ways

/-- Whether a node gives no name to what stands in it. -/
def isNameless (n : Node) : Bool :=
  n.kind != .variableDeclarator && n.kind != .pair && !n.isFunction

/-- One node stands somewhere in another, with nothing but nameless nodes between them. -/
inductive StandsIn (m : Node) : Node → Prop
  | child
      {n : Node}
      (h : m ∈ n.children) :
      StandsIn m n
  | deeper
      {n c : Node}
      (hc : c ∈ n.children)
      (hnameless : isNameless c)
      (h : StandsIn m c) :
      StandsIn m n

theorem nameAround?_of_isNameless
    {n : Node}
    (h : isNameless n)
    (around : List Node) :
    nameAround? (n :: around) = nameAround? around := by
  simp only [isNameless, bne_iff_ne, Bool.and_eq_true, Bool.not_eq_true', ne_eq] at h
  obtain ⟨⟨hdeclarator, hpair⟩, hfunction⟩ := h
  simp [nameAround?, hdeclarator, hpair, hfunction]

/-- What stands in a node so is named like what stands right in it. -/
theorem StandsIn.exists_placed
    {m n : Node}
    (h : StandsIn m n)
    (around : List Node) :
    ∃ outer, (placedTree outer m).Sublist (placedForest (n :: around) n.children) ∧
      nameAround? outer = nameAround? (n :: around) := by
  induction h generalizing around with
  | @child n h => exact ⟨n :: around, placedTree_sublist _ h, rfl⟩
  | @deeper n c hc hnameless _ ih =>
    obtain ⟨outer, hsub, hname⟩ := ih (n :: around)
    refine ⟨outer, ?_, hname.trans (nameAround?_of_isNameless hnameless _)⟩
    exact (hsub.trans (placedForest_children_sublist _ c)).trans (placedTree_sublist _ hc)

theorem isNameless_of_isWrapper
    {n : Node}
    (h : n.isWrapper) :
    isNameless n := by
  unfold Node.isWrapper at h
  unfold isNameless Node.isFunction
  split at h <;> simp_all

/-- Casts and parentheses are nameless. -/
theorem standsIn_unwrap
    {c n : Node}
    (h : c ∈ n.children) :
    StandsIn c.unwrap n := by
  induction c using Node.unwrap_induction generalizing n with
  | held c held hwrapper hheld ih =>
    have hmem := Node.mem_children_of_mem_parts (Node.mem_parts_of_held? hheld)
    rw [Node.unwrap_of_held? hwrapper hheld]
    exact .deeper h (isNameless_of_isWrapper hwrapper) (ih hmem)
  | empty c _ hheld =>
    rw [Node.unwrap_of_held?_eq_none hheld]
    exact .child h
  | bare c hbare =>
    rw [Node.unwrap_of_not_isWrapper hbare]
    exact .child h

/-- The object that is given to a call. -/
def objectOf? (call : Node) : Option Node :=
  (call.callArguments.head?.map Node.unwrap).filter fun o => o.kind == .object

theorem objectOf?_eq_some
    {call o : Node}
    (h : objectOf? call = some o) :
    (call.callArguments.head?).map Node.unwrap = some o ∧ o.kind = .object := by
  obtain ⟨hfirst, hkind⟩ := Option.filter_eq_some_iff.1 h
  exact ⟨hfirst, by simpa using hkind⟩

theorem standsIn_objectOf?
    {call o : Node}
    (h : objectOf? call = some o) :
    StandsIn o call := by
  obtain ⟨hfirst, -⟩ := objectOf?_eq_some h
  obtain ⟨arg, harg, rfl⟩ := Option.map_eq_some_iff.1 hfirst
  have hmem := List.mem_of_head? harg
  unfold Node.callArguments at hmem
  cases hargs : call.child? .arguments with
  | none => simp [hargs] at hmem
  | some args =>
    simp only [hargs] at hmem
    split at hmem
    · next hkind =>
      have hnameless : isNameless args := by
        have hkind' : args.kind = .arguments := by simpa using hkind
        simp [isNameless, Node.isFunction, hkind']
      exact .deeper (List.mem_of_find?_eq_some hargs) hnameless
        (standsIn_unwrap (Node.mem_children_of_mem_parts hmem))
    · cases hmem

end Ways

section Outlines

/-- Whether a node is a call that builds a router. -/
def isRouterCall
    (r : Recognition)
    (n : Node) :
    Bool :=
  n.kind == .callExpression && r.buildsRouter n

/-- The number of calls that build routers, among some trees. -/
def callCount
    (r : Recognition)
    (ns : List Node) :
    Nat :=
  (Node.forest ns).countP (isRouterCall r)

/-- The object of the router that is built in place by the value of an entry. -/
def nestedObject?
    (r : Recognition)
    (p : Node.Property) :
    Option Node :=
  if isRouterCall r p.value.unwrap then objectOf? p.value.unwrap else none

/-- Whether an entry is a procedure. -/
def holdsProcedure
    (r : EntryReader)
    (file : SourceFile)
    (p : Node.Property) :
    Bool :=
  match r.entry "" file p with
  | .ok (.procedure _) => true
  | _ => false

/-- The words by which an entry names what it mounts. -/
def targetOf (p : Node.Property) : String :=
  (Recognition.referenceName? p.value).getD p.value.text

theorem property?_cases
    {n : Node}
    {p : Node.Property}
    (h : n.property? = some p) :
    p.entry = n ∧
      ((n.kind = .pair ∧ n.child? .value = some p.value ∧
          (n.child? .key).bind Node.keyName? = some p.name) ∨
        (n.kind = .shorthandPropertyIdentifier ∧ p.value = n)) := by
  unfold Node.property? at h
  split at h
  · next hkind =>
    split at h
    · next name value hname hvalue =>
      obtain rfl := Option.some.inj h
      exact ⟨rfl, Or.inl ⟨hkind, hvalue, hname⟩⟩
    · cases h
  · next hkind =>
    obtain rfl := Option.some.inj h
    exact ⟨rfl, Or.inr ⟨hkind, rfl⟩⟩
  · cases h

theorem isRouterCall_kind
    {r : Recognition}
    {n : Node}
    (h : isRouterCall r n) :
    n.kind = .callExpression := by
  simp only [isRouterCall, Bool.and_eq_true, beq_iff_eq] at h
  exact h.1

/-- An entry whose value builds a router is written as a key with a value. -/
theorem nestedObject?_eq_some
    {r : Recognition}
    {n o : Node}
    {p : Node.Property}
    (hp : n.property? = some p)
    (h : nestedObject? r p = some o) :
    isRouterCall r p.value.unwrap ∧ objectOf? p.value.unwrap = some o ∧ n.kind = .pair ∧
      n.child? .value = some p.value ∧ (n.child? .key).bind Node.keyName? = some p.name := by
  unfold nestedObject? at h
  split at h
  · next hcall =>
    obtain ⟨-, ⟨hkind, hvalue, hkey⟩ | ⟨hkind, hvalue⟩⟩ := property?_cases hp
    · exact ⟨hcall, h, hkind, hvalue, hkey⟩
    · have hself : p.value.unwrap = n := by
        rw [hvalue, Node.unwrap, if_neg (by simp [Node.isWrapper, hkind])]
      have hcallKind := isRouterCall_kind hcall
      rw [hself, hkind] at hcallKind
      cases hcallKind
  · cases h

theorem countForest_objectOf?_lt
    {call o : Node}
    (h : objectOf? call = some o) :
    Node.countForest o.children < call.count := by
  obtain ⟨hfirst, -⟩ := objectOf?_eq_some h
  obtain ⟨arg, harg, rfl⟩ := Option.map_eq_some_iff.1 hfirst
  have hmem := List.mem_of_head? harg
  unfold Node.callArguments at hmem
  cases hargs : call.child? .arguments with
  | none => simp [hargs] at hmem
  | some args =>
    simp only [hargs] at hmem
    split at hmem
    · have harg := Node.count_lt_of_mem (Node.mem_children_of_mem_parts hmem)
      have hcall := Node.count_lt_of_child? hargs
      have hunwrap := Node.count_unwrap_le arg
      have hchildren := Node.countForest_children arg.unwrap
      omega
    · cases hmem

/-- The entries of a router built in place are nodes of its entry. -/
theorem countForest_nestedObject?_lt
    {r : Recognition}
    {n o : Node}
    {p : Node.Property}
    (hp : n.property? = some p)
    (h : nestedObject? r p = some o) :
    Node.countForest o.children < n.count := by
  obtain ⟨-, hobject, -, hvalue, -⟩ := nestedObject?_eq_some hp h
  have hcall := countForest_objectOf?_lt hobject
  have hunwrap := Node.count_unwrap_le p.value
  have hvalue := Node.count_lt_of_child? hvalue
  omega

/-- The outline of a router whose object has given parts, when these hold nothing but procedures and
routers that are built in place. -/
def outline?
    (r : EntryReader)
    (file : SourceFile) :
    List Node → Option Outline
  | [] => some .nil
  | n :: rest =>
    match _hp : n.property? with
    | none => if callCount r.recognition [n] == 0 then outline? r file rest else none
    | some p =>
      match _ho : nestedObject? r.recognition p with
      | some o =>
        if callCount r.recognition [n] == callCount r.recognition o.children + 1 then
          match outline? r file o.children, outline? r file rest with
          | some holds, some later => some (.router p.name (targetOf p) holds later)
          | _, _ => none
        else none
      | none =>
        if callCount r.recognition [n] == 0 && holdsProcedure r file p then
          (outline? r file rest).map (.procedure p.name)
        else none
  termination_by ns => Node.countForest ns
  decreasing_by
    all_goals
      have hn := Node.count_pos n
      simp only [Node.countForest]
      try omega
    have hobject := countForest_nestedObject?_lt _hp _ho
    omega

/-- Induction over what has an outline: nothing, a part that is no entry and holds no call, a router that is
built in place, and a procedure. -/
theorem outline?_induction
    {r : EntryReader}
    {file : SourceFile}
    {motive : List Node → Outline → Prop}
    (nil : motive [] .nil)
    (other : ∀ n rest o, n.property? = none → callCount r.recognition [n] = 0 →
      motive rest o → motive (n :: rest) o)
    (router : ∀ n rest p object holds later, n.property? = some p →
      nestedObject? r.recognition p = some object →
      callCount r.recognition [n] = callCount r.recognition object.children + 1 →
      outline? r file object.children = some holds → motive object.children holds → motive rest later →
      motive (n :: rest) (.router p.name (targetOf p) holds later))
    (procedure : ∀ n rest p later, n.property? = some p → callCount r.recognition [n] = 0 →
      holdsProcedure r file p = true → motive rest later →
      motive (n :: rest) (.procedure p.name later))
    {ns : List Node}
    {o : Outline}
    (h : outline? r file ns = some o) :
    motive ns o := by
  match ns with
  | [] =>
    rw [outline?] at h
    obtain rfl := Option.some.inj h
    exact nil
  | n :: rest =>
    have below {ns : List Node} (hns : Node.countForest ns < Node.countForest (n :: rest)) {o : Outline}
        (h : outline? r file ns = some o) : motive ns o :=
      outline?_induction nil other router procedure h
    have hn := Node.count_pos n
    have hrest : Node.countForest rest < Node.countForest (n :: rest) := by
      rw [Node.countForest]
      omega
    rw [outline?] at h
    split at h
    · next hp =>
      obtain ⟨hcount, h⟩ := Option.ite_none_right_eq_some.1 h
      exact other n rest o hp (beq_iff_eq.1 hcount) (below hrest h)
    · next p hp =>
      split at h
      · next object hobject =>
        obtain ⟨hcount, h⟩ := Option.ite_none_right_eq_some.1 h
        split at h
        · next holds later hholds hlater =>
          obtain rfl := Option.some.inj h
          have hobject' := countForest_nestedObject?_lt hp hobject
          have hinner : Node.countForest object.children < Node.countForest (n :: rest) := by
            rw [Node.countForest]
            omega
          exact router n rest p object holds later hp hobject (beq_iff_eq.1 hcount) hholds
            (below hinner hholds) (below hrest hlater)
        · cases h
      · obtain ⟨hprocedure, h⟩ := Option.ite_none_right_eq_some.1 h
        simp only [Bool.and_eq_true, beq_iff_eq] at hprocedure
        obtain ⟨later, hlater, rfl⟩ := Option.map_eq_some_iff.1 h
        exact procedure n rest p later hp hprocedure.1 hprocedure.2 (below hrest hlater)
  termination_by Node.countForest ns

/-- The variable that holds a router and its outline, when a node declares one that has an outline and
is the only one in the file, apart from those inside it. No two calls may begin at the same place. -/
def declaredOutline?
    (r : EntryReader)
    (file : SourceFile)
    (declarator : Node) :
    Option (String × Outline) := do
  let name ← declarator.child? .name
  let value ← declarator.child? .value
  let object ← objectOf? value.unwrap
  let o ← outline? r file object.children
  let starts := ((Node.forest file.root.children).filter (isRouterCall r.recognition)).map
    fun call => call.span.start
  if declarator.kind == .variableDeclarator && name.kind == .identifier && !name.text.isEmpty &&
      isRouterCall r.recognition value.unwrap && o.isKeyed && decide starts.Nodup &&
      callCount r.recognition file.root.children == callCount r.recognition object.children + 1 then
    some (name.text, o)
  else none

/-- The variable that holds the only router of a file, apart from those inside it, and its outline. -/
def outlineOf?
    (r : EntryReader)
    (file : SourceFile) :
    Option (String × Outline) :=
  (Node.forest file.root.children).findSome? (declaredOutline? r file)

end Outlines

section Calls

/-- Those of some placed nodes that are calls which build routers. -/
def placedCalls
    (r : Recognition)
    (ps : List Placed) :
    List Placed :=
  ps.filter fun p => isRouterCall r p.node

theorem placedCalls_append
    (r : Recognition)
    (ps qs : List Placed) :
    placedCalls r (ps ++ qs) = placedCalls r ps ++ placedCalls r qs :=
  List.filter_append ps qs

theorem length_placedCalls
    (r : Recognition)
    (around ns : List Node) :
    (placedCalls r (placedForest around ns)).length = callCount r ns := by
  rw [callCount, ← map_node_placedForest around, List.countP_map, List.countP_eq_length_filter]
  rfl

theorem length_placedCalls_tree
    (r : Recognition)
    (around : List Node)
    (n : Node) :
    (placedCalls r (placedTree around n)).length = callCount r [n] := by
  rw [← length_placedCalls r around [n], placedForest, placedForest, List.append_nil]

/-- When as many calls stand among some nodes as in the object of one call, and that call itself, there
are no others. -/
theorem placedCalls_eq_of_count
    {r : Recognition}
    {call o : Node}
    {outer : List Node}
    {ps : List Placed}
    (hcall : isRouterCall r call)
    (hobject : objectOf? call = some o)
    (hsub : (placedTree outer call).Sublist ps)
    (hcount : (placedCalls r ps).length = callCount r o.children + 1) :
    ∃ inner, placedCalls r ps = ⟨call, outer⟩ :: placedCalls r (placedForest inner o.children) := by
  obtain ⟨around, hin, -⟩ := (standsIn_objectOf? hobject).exists_placed outer
  have hinner := (placedForest_children_sublist around o).trans hin
  rw [placedTree_eq] at hsub
  have hcalls := ((hinner.cons_cons ⟨call, outer⟩).trans hsub).filter fun p => isRouterCall r p.node
  rw [List.filter_cons_of_pos (by simpa using hcall)] at hcalls
  refine ⟨o :: around, (hcalls.eq_of_length ?_).symm⟩
  have hlength := length_placedCalls r (o :: around) o.children
  unfold placedCalls at hlength hcount
  rw [List.length_cons, hlength, hcount]

/-- A placed call is the one that builds a router of an outline: its name comes from the last key of the
router, or from a variable for the root, and its object has the outline of the router. -/
structure Builds
    (r : EntryReader)
    (file : SourceFile)
    (variableName : String)
    (p : Placed)
    (l : Outline.Level) :
    Prop where
  named : nameAround? p.around = some (l.path.getLastD variableName)
  full : l.path.getLastD variableName ≠ ""
  object : ∃ o, objectOf? p.node = some o ∧ outline? r file o.children = some l.holds

/-- The entry of a router that is built in place holds the call that builds it, which is named by the
key of the entry, and otherwise only the calls of its object. -/
theorem exists_placedCalls_nested
    {r : Recognition}
    {n o : Node}
    {p : Node.Property}
    (hp : n.property? = some p)
    (ho : nestedObject? r p = some o)
    (hcount : callCount r [n] = callCount r o.children + 1)
    (hkey : Outline.isKey p.name)
    (around : List Node) :
    ∃ outer inner,
      placedCalls r (placedTree around n) =
        ⟨p.value.unwrap, outer⟩ :: placedCalls r (placedForest inner o.children) ∧
      nameAround? outer = some p.name := by
  obtain ⟨hcall, hobject, hkind, hvalue, hname⟩ := nestedObject?_eq_some hp ho
  have hstands := standsIn_unwrap (List.mem_of_find?_eq_some hvalue)
  obtain ⟨outer, hsub, houter⟩ := hstands.exists_placed around
  have hsub' := hsub.trans (placedForest_children_sublist around n)
  obtain ⟨inner, hcalls⟩ := placedCalls_eq_of_count hcall hobject hsub'
    ((length_placedCalls_tree r around n).trans hcount)
  refine ⟨outer, inner, hcalls, ?_⟩
  have hfull : p.name ≠ "" := (Outline.isKey_iff.1 hkey).1
  rw [houter]
  simp [nameAround?, hkind, hname, hfull]

/-- The calls among the parts of an object are those that build the routers below it. -/
theorem forall₂_builds_nestedIn
    {r : EntryReader}
    {file : SourceFile}
    {variableName : String}
    {ns : List Node}
    {o : Outline}
    (h : outline? r file ns = some o)
    (ho : o.isKeyed)
    (around : List Node)
    (path : List String) :
    List.Forall₂ (Builds r file variableName)
      (placedCalls r.recognition (placedForest around ns)) (Outline.nestedIn path o) := by
  have hnone : ∀ (n : Node) (around : List Node), callCount r.recognition [n] = 0 →
      placedCalls r.recognition (placedTree around n) = [] := by
    intro n around hcount
    exact List.eq_nil_of_length_eq_zero ((length_placedCalls_tree r.recognition around n).trans hcount)
  refine outline?_induction (motive := fun ns o => o.isKeyed → ∀ around path,
    List.Forall₂ (Builds r file variableName)
      (placedCalls r.recognition (placedForest around ns)) (Outline.nestedIn path o))
    ?nil ?other ?router ?procedure h ho around path
  case nil => exact fun _ _ _ => .nil
  case other =>
    intro n rest o _ hcount ih ho around path
    rw [placedForest, placedCalls_append, hnone n around hcount, List.nil_append]
    exact ih ho around path
  case router =>
    intro n rest p object holds later hp hobject hcount hholds ihHolds ihRest ho around path
    simp only [Outline.isKeyed, Bool.and_eq_true] at ho
    obtain ⟨⟨hkey, hkeyed⟩, hkeyed'⟩ := ho
    obtain ⟨outer, inner, hcalls, hname⟩ := exists_placedCalls_nested hp hobject hcount hkey around
    obtain ⟨-, hobject', -⟩ := nestedObject?_eq_some hp hobject
    rw [placedForest, placedCalls_append, hcalls, Outline.nestedIn, List.cons_append]
    have hfirst : Builds r file variableName ⟨p.value.unwrap, outer⟩ ⟨path ++ [p.name], holds⟩ := by
      have hfull : p.name ≠ "" := (Outline.isKey_iff.1 hkey).1
      refine ⟨?_, ?_, object, hobject', hholds⟩
      · simp [hname, List.getLastD_eq_getLast?]
      · simpa [List.getLastD_eq_getLast?] using hfull
    have hbelow := ihHolds hkeyed inner (path ++ [p.name])
    have hrest := ihRest hkeyed' around path
    exact .cons hfirst (List.rel_append hbelow hrest)
  case procedure =>
    intro n rest p later _ hcount _ ih ho around path
    simp only [Outline.isKeyed, Bool.and_eq_true] at ho
    rw [placedForest, placedCalls_append, hnone n around hcount, List.nil_append]
    exact ih ho.2 around path

/-- In a file that has an outline, the calls that build routers are those of its routers, and begin at
different places. -/
theorem forall₂_builds_levels
    {r : EntryReader}
    {file : SourceFile}
    {variableName : String}
    {o : Outline}
    (h : outlineOf? r file = some (variableName, o)) :
    variableName ≠ "" ∧ o.isKeyed ∧
      List.Forall₂ (Builds r file variableName)
        (placedCalls r.recognition (placedForest [file.root] file.root.children)) o.levels ∧
      ((placedCalls r.recognition (placedForest [file.root] file.root.children)).map
        fun p => p.node.span.start).Nodup := by
  obtain ⟨declarator, hdeclarator, hdeclared⟩ := List.exists_of_findSome?_eq_some h
  simp only [declaredOutline?, Option.bind_eq_bind, Option.bind_eq_some_iff, Bool.and_eq_true,
    beq_iff_eq, decide_eq_true_eq, Option.ite_none_right_eq_some, Option.some.injEq,
    Prod.mk.injEq] at hdeclared
  obtain ⟨name, hname, value, hvalue, object, hobject, o', ho', hall, rfl, rfl⟩ := hdeclared
  obtain ⟨⟨⟨⟨⟨⟨hkind, hidentifier⟩, hfull⟩, hcall⟩, hkeyed⟩, hstarts⟩, hcount⟩ := hall
  have hfull' : name.text ≠ "" := by simpa using hfull
  obtain ⟨around, htree⟩ := exists_placedTree_of_mem_forest [file.root] _ hdeclarator
  obtain ⟨outer, hsub, houter⟩ :=
    (standsIn_unwrap (List.mem_of_find?_eq_some hvalue)).exists_placed around
  have hsub' := (hsub.trans (placedForest_children_sublist around declarator)).trans htree
  obtain ⟨inner, hcalls⟩ := placedCalls_eq_of_count hcall hobject hsub'
    ((length_placedCalls r.recognition _ _).trans hcount)
  have hroot : Builds r file name.text ⟨value.unwrap, outer⟩ ⟨[], o'⟩ := by
    refine ⟨?_, hfull', object, hobject, ho'⟩
    simp [houter, nameAround?, hkind, hname, hidentifier]
  refine ⟨hfull', hkeyed, ?_, ?_⟩
  · rw [hcalls]
    exact .cons hroot (forall₂_builds_nestedIn ho' hkeyed inner [])
  · rw [← map_node_placedForest [file.root], List.filter_map, List.map_map] at hstarts
    exact hstarts

theorem firstAtEachPlace_eq_self
    {seen : List Nat}
    {ps : List Placed}
    (hnodup : (ps.map fun p => p.node.span.start).Nodup)
    (hseen : ∀ p ∈ ps, p.node.span.start ∉ seen) :
    firstAtEachPlace seen ps = ps := by
  induction ps generalizing seen with
  | nil => rfl
  | cons p rest ih =>
    rw [List.map_cons, List.nodup_cons] at hnodup
    obtain ⟨hp, hrest⟩ := hnodup
    have hlater : ∀ q ∈ rest, q.node.span.start ∉ p.node.span.start :: seen := by
      intro q hq hmem
      rcases List.mem_cons.1 hmem with heq | hmem
      · exact hp (heq ▸ List.mem_map_of_mem hq)
      · exact hseen q (List.mem_cons_of_mem _ hq) hmem
    rw [firstAtEachPlace, if_neg (by simpa using hseen p List.mem_cons_self), ih hrest hlater]

/-- A call builds a router of an outline under the name of its last key. -/
structure IsCallOf
    (r : EntryReader)
    (file : SourceFile)
    (variableName : String)
    (c : RouterCall)
    (l : Outline.Level) :
    Prop where
  named : c.name = l.path.getLastD variableName
  object : ∃ o, objectOf? c.node = some o ∧ outline? r file o.children = some l.holds

/-- In a file that has an outline, the calls that are found are those of its routers. -/
theorem forall₂_routerCalls
    {r : EntryReader}
    {file : SourceFile}
    {variableName : String}
    {o : Outline}
    (h : outlineOf? r file = some (variableName, o)) :
    List.Forall₂ (IsCallOf r file variableName) (routerCalls r.recognition file) o.levels := by
  obtain ⟨-, -, hbuilds, hstarts⟩ := forall₂_builds_levels h
  have hcalls : routerCalls r.recognition file =
      (placedCalls r.recognition (placedForest [file.root] file.root.children)).map
        fun p => ⟨p.node, routerName p⟩ :=
    congrArg (List.map _) (firstAtEachPlace_eq_self hstarts (by simp))
  rw [hcalls, List.forall₂_map_left_iff]
  refine hbuilds.imp fun p l hp => ⟨?_, hp.object⟩
  have hfull := hp.full
  simp only [routerName, hp.named, String.isEmpty_iff, if_neg hfull]

end Calls

end RouteAtlas.Procedures
