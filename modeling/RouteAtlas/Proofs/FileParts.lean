import Mathlib
import RouteAtlas.Controllers.Handlers
import RouteAtlas.FileRoutes.PageMethods
import RouteAtlas.Proofs.RouterCalls
import RouteAtlas.Proofs.RouterReadings
import RouteAtlas.Proofs.SourcePieces

/-!
# What is looked up in a file

What a file declares and exports, the methods of its classes, the function behind an export and the entries
of its routers are nodes of its tree.
-/

namespace RouteAtlas

open Syntax

namespace Syntax.Node

section Parts

variable {n c : Node}

theorem mem_subtree_self (n : Node) : n ∈ n.subtree := by
  rw [subtree_eq]
  exact List.mem_cons_self ..

theorem mem_subtree_trans
    {l m n : Node}
    (hl : l ∈ m.subtree)
    (hm : m ∈ n.subtree) :
    l ∈ n.subtree := by
  rw [subtree_eq n, List.mem_cons] at hm ⊢
  rcases hm with rfl | hm
  · rwa [← List.mem_cons, ← subtree_eq]
  · obtain ⟨c, hc, hm⟩ := mem_forest_iff.1 hm
    exact .inr (mem_forest_iff.2 ⟨c, hc, mem_subtree_trans hl hm⟩)
  termination_by n.count
  decreasing_by exact count_lt_of_mem hc

theorem mem_subtree_of_mem_children (h : c ∈ n.children) : c ∈ n.subtree := by
  rw [subtree_eq]
  exact List.mem_cons_of_mem _ (mem_forest_iff.2 ⟨c, h, mem_subtree_self c⟩)

theorem mem_subtree_of_child?
    {r : Role}
    (h : n.child? r = some c) :
    c ∈ n.subtree :=
  mem_subtree_of_mem_children (List.mem_of_find?_eq_some h)

theorem mem_subtree_of_mem_namedChildren (h : c ∈ n.namedChildren) : c ∈ n.subtree :=
  mem_subtree_of_mem_children (List.mem_of_mem_filter h)

theorem mem_subtree_of_mem_parts (h : c ∈ n.parts) : c ∈ n.subtree :=
  mem_subtree_of_mem_children (mem_children_of_mem_parts h)

theorem unwrap_mem_subtree (n : Node) : n.unwrap ∈ n.subtree := by
  induction n using unwrap_induction with
  | held n c hwrapper hheld ih =>
    rw [unwrap_of_held? hwrapper hheld]
    exact mem_subtree_trans ih (mem_subtree_of_mem_parts (mem_parts_of_held? hheld))
  | empty n _ hheld =>
    rw [unwrap_of_held?_eq_none hheld]
    exact mem_subtree_self n
  | bare n hbare =>
    rw [unwrap_of_not_isWrapper hbare]
    exact mem_subtree_self n

theorem mem_subtree_of_mem_callArguments (h : c ∈ n.callArguments) : c ∈ n.subtree := by
  unfold callArguments at h
  split at h
  · next args hargs =>
    split at h
    · exact mem_subtree_trans (mem_subtree_of_mem_parts h) (mem_subtree_of_child? hargs)
    · cases h
  · cases h

theorem entry_mem_subtree
    {p : Property}
    (h : p ∈ n.properties) :
    p.entry ∈ n.subtree := by
  unfold properties at h
  dsimp only at h
  split at h
  · obtain ⟨c, hc, hp⟩ := List.mem_filterMap.1 h
    have hentry : p.entry = c := by
      unfold property? at hp
      split at hp
      · split at hp
        · cases hp
          rfl
        · cases hp
      · cases hp
        rfl
      · cases hp
    rw [hentry]
    exact mem_subtree_trans (mem_subtree_of_mem_namedChildren hc) (unwrap_mem_subtree n)
  · cases h

end Parts

end Syntax.Node

namespace Syntax.SourceFile

open Syntax.Node

variable {f : SourceFile}

section Declarations

theorem mem_subtree_of_mem_declaredIn
    {statement : Node}
    {d : Declared}
    (h : d ∈ declaredIn statement) :
    d.node ∈ statement.subtree := by
  unfold declaredIn at h
  split at h
  · split at h
    · next n hn =>
      obtain rfl := List.mem_singleton.1 h
      exact mem_subtree_of_child? hn
    · cases h
  · obtain ⟨c, hc, rfl⟩ := List.mem_map.1 h
    exact mem_subtree_of_mem_namedChildren hc
  · obtain rfl := List.mem_singleton.1 h
    exact mem_subtree_self statement

theorem mem_subtree_of_mem_declared
    {d : Declared}
    (h : d ∈ f.declared) :
    d.node ∈ f.root.subtree := by
  obtain ⟨statement, hstatement, hd⟩ := List.mem_flatMap.1 h
  exact mem_subtree_trans (mem_subtree_of_mem_declaredIn hd) (mem_subtree_of_mem_parts hstatement)

theorem node_of_mem_variablesOf
    {exported : Bool}
    {declarator : Node}
    {v : Variable}
    (hv : v ∈ variablesOf exported declarator) :
    v.node = declarator := by
  unfold variablesOf at hv
  split at hv
  · cases hv
  · dsimp only at hv
    split at hv
    · rw [List.mem_singleton.1 hv]
    · obtain ⟨name, -, rfl⟩ := List.mem_map.1 hv
      rfl

theorem mem_subtree_of_mem_variablesIn
    {exported : Bool}
    {statement : Node}
    {v : Variable}
    (h : v ∈ variablesIn exported statement) :
    v.node ∈ statement.subtree := by
  obtain ⟨declarator, hdeclarator, hv⟩ := List.mem_flatMap.1 h
  rw [node_of_mem_variablesOf hv]
  exact mem_subtree_of_mem_namedChildren (List.mem_of_mem_filter hdeclarator)

theorem mem_subtree_of_mem_boundVariables
    {v : Variable}
    (h : v ∈ f.boundVariables) :
    v.node ∈ f.root.subtree := by
  obtain ⟨d, hd, hv⟩ := List.mem_flatMap.1 h
  exact mem_subtree_trans (mem_subtree_of_mem_variablesIn hv)
    (mem_subtree_of_mem_declared (List.mem_of_mem_filter hd))

theorem mem_subtree_of_mem_functions
    {g : Function}
    (h : g ∈ f.functions) :
    g.node ∈ f.root.subtree := by
  obtain ⟨d, hd, rfl⟩ := List.mem_map.1 h
  exact mem_subtree_of_mem_declared (List.mem_of_mem_filter hd)

theorem mem_subtree_of_mem_classes
    {c : Class}
    (h : c ∈ f.classes) :
    c.node ∈ f.root.subtree := by
  obtain ⟨d, hd, rfl⟩ := List.mem_map.1 h
  exact mem_subtree_of_mem_declared (List.mem_of_mem_filter hd)

theorem mem_subtree_of_localDeclaration?
    {name : String}
    {n : Node}
    (h : f.localDeclaration? name = some n) :
    n ∈ f.root.subtree := by
  unfold localDeclaration? at h
  split at h
  · next g hg =>
    cases h
    exact mem_subtree_of_mem_functions (List.mem_of_find?_eq_some hg)
  · split at h
    · next v hv =>
      cases h
      exact mem_subtree_of_mem_boundVariables (List.mem_of_find?_eq_some hv)
    · obtain ⟨c, hc, rfl⟩ := Option.map_eq_some_iff.1 h
      exact mem_subtree_of_mem_classes (List.mem_of_find?_eq_some hc)

end Declarations

section Methods

theorem mem_of_mem_methodsAmong
    {before members : List Node}
    {m : Method}
    (h : m ∈ methodsAmong before members) :
    m.node ∈ members := by
  induction members generalizing before with
  | nil => simp [methodsAmong] at h
  | cons c rest ih =>
    unfold methodsAmong at h
    split at h
    · exact List.mem_cons_of_mem _ (ih h)
    · exact List.mem_cons_of_mem _ (ih h)
    · rcases List.mem_cons.1 h with rfl | h
      · exact List.mem_cons_self ..
      · exact List.mem_cons_of_mem _ (ih h)
    · exact List.mem_cons_of_mem _ (ih h)

theorem mem_subtree_of_mem_methods
    {c : Class}
    {m : Method}
    (h : m ∈ c.methods) :
    m.node ∈ c.node.subtree := by
  unfold Class.methods at h
  split at h
  · next body hbody =>
    exact mem_subtree_trans (mem_subtree_of_mem_children (mem_of_mem_methodsAmong h))
      (mem_subtree_of_child? hbody)
  · cases h

end Methods

section Exports

theorem mem_subtree_of_mem_exports
    {e : Export}
    (h : e ∈ f.exports)
    {n : Node}
    (hn : e.node = some n) :
    n ∈ f.root.subtree := by
  obtain ⟨statement, hstatement, he⟩ := List.mem_flatMap.1 h
  have hbelow {m : Node} (hm : m ∈ statement.subtree) : m ∈ f.root.subtree :=
    mem_subtree_trans hm (mem_subtree_of_mem_parts hstatement)
  unfold exportsOf at he
  split at he
  · dsimp only at he
    split at he
    · next d hd =>
      have hdeclaration := hbelow (mem_subtree_of_child? hd)
      split at he
      · obtain rfl := List.mem_singleton.1 he
        cases hn
        exact hdeclaration
      · split at he
        · obtain ⟨v, hv, rfl⟩ := List.mem_map.1 he
          cases hn
          exact mem_subtree_trans (mem_subtree_of_mem_variablesIn hv) hdeclaration
        · split at he
          · obtain rfl := List.mem_singleton.1 he
            cases hn
            exact hdeclaration
          · cases he
    · split at he
      · next v _ hv =>
        obtain rfl := List.mem_singleton.1 he
        cases hn
        exact hbelow (mem_subtree_of_child? hv)
      · split at he
        · obtain ⟨c, -, hc⟩ := List.mem_filterMap.1 he
          dsimp only at hc
          split at hc
          · cases hc
            dsimp only at hn
            split at hn
            · exact mem_subtree_of_localDeclaration? hn
            · cases hn
          · cases hc
        · cases he
  · cases he

theorem mem_subtree_of_defaultExport?
    {n : Node}
    (h : f.defaultExport? = some n) :
    n ∈ f.root.subtree := by
  obtain ⟨e, he, hn⟩ := Option.bind_eq_some_iff.1 h
  exact mem_subtree_of_mem_exports (List.mem_of_find?_eq_some he) hn

end Exports

end Syntax.SourceFile

open Syntax.Node Syntax.SourceFile

namespace FileRoutes

section Pages

variable {f : SourceFile}

theorem mem_subtree_of_handlerFunction?
    {steps : Nat}
    {expression n : Node}
    (hexpression : expression ∈ f.root.subtree)
    (h : handlerFunction? f steps expression = some n) :
    n ∈ f.root.subtree := by
  induction steps generalizing expression with
  | zero => cases h
  | succ steps ih =>
    have hunwrap := mem_subtree_trans (unwrap_mem_subtree expression) hexpression
    unfold handlerFunction? at h
    dsimp only at h
    split at h
    · cases h
      exact hunwrap
    · split at h
      · split at h
        · cases h
        · next d hd =>
          have hdeclaration := mem_subtree_of_localDeclaration? hd
          split at h
          · obtain ⟨v, hv, h⟩ := Option.bind_eq_some_iff.1 h
            exact ih (mem_subtree_trans (mem_subtree_of_child? hv) hdeclaration) h
          · split at h
            · cases h
              exact hdeclaration
            · cases h
      · obtain ⟨v, hv, h⟩ := Option.bind_eq_some_iff.1 h
        exact ih (mem_subtree_trans (mem_subtree_of_child? hv) hunwrap) h
      · obtain ⟨a, ha, h⟩ := List.exists_of_findSome?_eq_some h
        exact ih (mem_subtree_trans (mem_subtree_of_mem_callArguments ha) hunwrap) h
      · cases h

/-- The handler of a page stands in its file. -/
theorem mem_subtree_of_pageHandler?
    {page : PageHandler}
    (h : pageHandler? f = some page) :
    page.node f ∈ f.root.subtree := by
  have hfunction {node g : Node} (hnode : node ∈ f.root.subtree)
      (hg : handlerFunction? f maxHandlerSteps node = some g) :
      (PageHandler.function g).node f ∈ f.root.subtree :=
    mem_subtree_of_handlerFunction? hnode hg
  have hwhole : PageHandler.wholeFile.node f ∈ f.root.subtree := mem_subtree_self _
  unfold pageHandler? at h
  dsimp only at h
  split at h
  · next node hnode =>
    cases h
    split
    · next g hg => exact hfunction (mem_subtree_of_defaultExport? hnode) hg
    · exact hwhole
  · obtain ⟨node, hnode, rfl⟩ := Option.map_eq_some_iff.1 h
    obtain ⟨e, he, hn⟩ := Option.bind_eq_some_iff.1 hnode
    split
    · next g hg => exact hfunction (mem_subtree_of_mem_exports (List.mem_of_find?_eq_some he) hn) hg
    · exact hwhole

end Pages

end FileRoutes

namespace Procedures

section Routers

variable {f : SourceFile} {r : Recognition} {c : RouterCall}

theorem mem_of_mem_firstAtEachPlace
    {seen : List Nat}
    {ps : List Placed}
    {p : Placed}
    (h : p ∈ firstAtEachPlace seen ps) :
    p ∈ ps := by
  induction ps generalizing seen with
  | nil => simp [firstAtEachPlace] at h
  | cons q rest ih =>
    unfold firstAtEachPlace at h
    split at h
    · exact List.mem_cons_of_mem _ (ih h)
    · rcases List.mem_cons.1 h with rfl | h
      · exact List.mem_cons_self ..
      · exact List.mem_cons_of_mem _ (ih h)

theorem mem_subtree_of_mem_routerCalls (h : c ∈ routerCalls r f) : c.node ∈ f.root.subtree := by
  obtain ⟨p, hp, rfl⟩ := List.mem_map.1 h
  have hmem := List.mem_map_of_mem (f := Placed.node) (List.mem_of_mem_filter (mem_of_mem_firstAtEachPlace hp))
  rw [map_node_placedForest] at hmem
  rw [subtree_eq]
  exact List.mem_cons_of_mem _ hmem

/-- The entries of a router stand in its file. -/
theorem RouterCall.Lists.mem_subtree
    {p : Node.Property}
    (h : c.Lists p)
    (hc : c ∈ routerCalls r f) :
    p.entry ∈ f.root.subtree := by
  obtain ⟨o, ho, -, hp⟩ := h
  obtain ⟨a, ha, rfl⟩ := Option.map_eq_some_iff.1 ho
  have hargument := mem_subtree_of_mem_callArguments (List.mem_of_head? ha)
  refine mem_subtree_trans (entry_mem_subtree hp) ?_
  exact mem_subtree_trans (mem_subtree_trans (unwrap_mem_subtree a) hargument)
    (mem_subtree_of_mem_routerCalls hc)

end Routers

end Procedures

end RouteAtlas
