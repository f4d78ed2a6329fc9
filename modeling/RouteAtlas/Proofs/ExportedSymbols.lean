import Mathlib
import RouteAtlas.Project.Symbols
import RouteAtlas.Proofs.Entries
import RouteAtlas.Proofs.FileParts
import RouteAtlas.Proofs.Unfoldings

/-!
# Symbols over imports

A file exports symbols under names of its choice. An import names a symbol as the table of exports has it,
while the look-up takes that name for the name of a declaration. So a symbol is found over an import as long
as it is exported under the name by which it is declared, and the default export is found where the look-up
asks for it.
-/

namespace RouteAtlas

open Syntax

namespace Syntax

/-- What is looked up by a name: an initializer, a function, variable or class, or a type. -/
inductive SymbolKind where
  | value
  | declaration
  | type

namespace SourceFile

variable {f : SourceFile} {name : String} {n : Node}

section Bindings

/-- The name of the type that a node declares, if it declares one. -/
def typeName? (n : Node) : Option String :=
  if declaresType n then (n.child? .name).map Node.text else none

/-- The names that are declared at the top level, each with what it stands for as a symbol of a kind. -/
def bindings (f : SourceFile) : SymbolKind → List (String × Option Node)
  | .value => f.boundVariables.map fun v => (v.name, if v.destructured then none else v.value)
  | .declaration =>
    f.functions.map (fun g => (g.name, some g.node)) ++
      (f.boundVariables.map fun v => (v.name, some v.node)) ++
      f.classes.map fun c => (c.name, some c.node)
  | .type => f.declared.filterMap fun d => (typeName? d.node).map fun name => (name, some d.node)

/-- What the first declaration of a name stands for. -/
def bound?
    (f : SourceFile)
    (k : SymbolKind)
    (name : String) :
    Option Node :=
  ((f.bindings k).find? fun b => b.1 == name).bind Prod.snd

/-- A declaration of a name stands for a node. -/
def Declares
    (f : SourceFile)
    (k : SymbolKind)
    (name : String)
    (n : Node) :
    Prop :=
  (name, some n) ∈ f.bindings k

/-- All declarations of a name stand for the same. -/
def DeclaresOnce
    (f : SourceFile)
    (k : SymbolKind)
    (name : String) :
    Prop :=
  ∀ x y, (name, x) ∈ f.bindings k → (name, y) ∈ f.bindings k → x = y

theorem declares_of_bound?
    {k : SymbolKind}
    (h : f.bound? k name = some n) :
    f.Declares k name n := by
  obtain ⟨⟨name', n'⟩, hb, rfl⟩ := Option.bind_eq_some_iff.1 h
  obtain rfl : name' = name := by simpa using List.find?_some hb
  exact List.mem_of_find?_eq_some hb

theorem bound?_eq_some_iff
    {k : SymbolKind}
    (honce : f.DeclaresOnce k name) :
    f.bound? k name = some n ↔ f.Declares k name n := by
  refine ⟨declares_of_bound?, fun h => ?_⟩
  have hsome : ((f.bindings k).find? fun b => b.1 == name).isSome := by
    rw [List.find?_isSome]
    exact ⟨_, h, by simp⟩
  obtain ⟨⟨name', x⟩, hb⟩ := Option.isSome_iff_exists.1 hsome
  obtain rfl : name' = name := by simpa using List.find?_some hb
  rw [bound?, hb]
  exact honce x (some n) (List.mem_of_find?_eq_some hb) h

theorem declaresOnce_of_nodup
    {k : SymbolKind}
    (h : ((f.bindings k).map Prod.fst).Nodup) :
    f.DeclaresOnce k name :=
  fun _ _ hx hy => congrArg Prod.snd (List.inj_on_of_nodup_map h hx hy rfl)

theorem localValue?_eq (f : SourceFile) (name : String) :
    Project.Scope.localValue? f name = f.bound? .value name := by
  rw [Project.Scope.localValue?, bound?, bindings, List.find?_map, findVariable?]
  cases hv : f.boundVariables.find? fun v => v.name == name with
  | none => simp [hv]
  | some v => simp [hv]

theorem localDeclaration?_eq (f : SourceFile) (name : String) :
    f.localDeclaration? name = f.bound? .declaration name := by
  rw [localDeclaration?, bound?, bindings]
  simp only [List.find?_append, List.find?_map, Function.comp_def, findFunction?, findVariable?]
  cases f.functions.find? fun g => g.name == name with
  | some g => rfl
  | none =>
    cases f.boundVariables.find? fun v => v.name == name with
    | some v => rfl
    | none => cases f.classes.find? fun c => c.name == name <;> rfl

theorem findType?_eq (f : SourceFile) (name : String) :
    f.findType? name = f.bound? .type name := by
  have htypes : f.types =
      (f.declared.filterMap fun d => (typeName? d.node).map fun name => (name, d.node)).foldl
        (fun acc p => putMissing p.1 p.2 acc) [] := by
    rw [types, List.foldl_filterMap]
    congr 1
    funext acc d
    unfold typeName?
    cases declaresType d.node with
    | false => rfl
    | true => cases d.node.child? .name <;> rfl
  have hbindings : f.bindings .type =
      (f.declared.filterMap fun d => (typeName? d.node).map fun name => (name, d.node)).map
        fun p => (p.1, some p.2) := by
    simp only [bindings, List.map_filterMap, Option.map_map, Function.comp_def]
  rw [findType?, htypes, entryOf?_foldl_putMissing, bound?, hbindings, List.find?_map]
  simp only [entryOf?, Option.none_or, Function.comp_def, Option.bind_map]
  rw [Option.map_eq_bind]
  rfl

end Bindings

section Declarators

/-- Whether a node declares a function. -/
def declaresFunction (n : Node) : Bool :=
  n.kind == .functionDeclaration || n.kind == .generatorFunctionDeclaration

/-- Whether a node is a variable with its value, as it stands among others in a declaration. A
declarator is not what an export declares as a whole. -/
def isDeclarator (n : Node) : Bool :=
  n.kind == .variableDeclarator && n.role != some .declaration

/-- The initializer of a declarator of a name. -/
def initializer? (n : Node) : Option Node :=
  if isDeclarator n && (n.child? .name).any fun w => w.kind == .identifier then n.child? .value
  else none

theorem isDeclarator_of_initializer?
    {d : Node}
    (h : initializer? d = some n) :
    isDeclarator d = true := by
  unfold initializer? at h
  split at h
  · next hd => exact (Bool.and_eq_true_iff.1 hd).1
  · cases h

theorem isDeclarator_of_kind
    (h : n.kind ≠ .variableDeclarator) :
    isDeclarator n = false := by
  simp [isDeclarator, h]

/-- What an export declares as a whole is no declarator. -/
theorem isDeclarator_of_child?
    {statement : Node}
    (h : statement.child? .declaration = some n) :
    isDeclarator n = false := by
  have hrole : n.role = some .declaration := by simpa using List.find?_some h
  simp [isDeclarator, hrole]

/-- A variable is bound by a declarator. -/
theorem exists_declarator
    {v : Variable}
    (hv : v ∈ f.boundVariables) :
    ∃ exported declarator, declarator.kind = .variableDeclarator ∧ v ∈ variablesOf exported declarator := by
  obtain ⟨x, -, hv⟩ := List.mem_flatMap.1 hv
  obtain ⟨declarator, hdeclarator, hv⟩ := List.mem_flatMap.1 hv
  exact ⟨x.exported, declarator, by simpa using (List.mem_filter.1 hdeclarator).2, hv⟩

/-- The initializer of the declarator of a variable is that of the variable. -/
theorem declares_of_initializer?
    {v : Variable}
    (hv : v ∈ f.boundVariables)
    (hn : initializer? v.node = some n) :
    f.Declares .value v.name n := by
  obtain ⟨exported, declarator, -, hof⟩ := exists_declarator hv
  have hsimple : v.destructured = false ∧ v.value = some n := by
    unfold variablesOf at hof
    split at hof
    · cases hof
    · next w hw =>
      dsimp only at hof
      unfold initializer? at hn
      split at hof
      · obtain rfl := List.mem_singleton.1 hof
        split at hn
        · exact ⟨rfl, hn⟩
        · cases hn
      · next hkind =>
        obtain ⟨name, -, rfl⟩ := List.mem_map.1 hof
        simp [hw, hkind] at hn
  refine List.mem_map.2 ⟨v, hv, ?_⟩
  simp [hsimple.1, hsimple.2]

end Declarators

section Exports

/-- What an export gives to those who import its name: none if it is taken from another module, or if it is
no symbol of the kind. An export of a local name stands for the declaration of that name, which is an
initializer only if the node is that of a variable; types are not kept as nodes by exports in braces. A
default export without a local name stands for itself, or as an identifier for what that one stands for. -/
def exportedSymbol?
    (f : SourceFile)
    (k : SymbolKind)
    (e : Export) :
    Option Node :=
  if !(e.moduleName.getD "").isEmpty then none
  else
    match k, e.localName with
    | .value, some _ => e.node.bind initializer?
    | .declaration, some _ =>
      e.node.filter fun d => declaresFunction d || isDeclarator d || declaresClass d
    | .type, some l => (e.node.filter fun d => (typeName? d).isSome).or (f.bound? .type l)
    | .value, none =>
      e.node.bind fun d => if d.kind == .identifier then f.bound? .value d.text else some d
    | .declaration, none => e.node
    | .type, none =>
      e.node.bind fun d =>
        if d.kind == .identifier then f.bound? .type d.text else if declaresType d then some d else none

/-- Whether a node at the top level has a name itself, and not over a declarator in it. Functions and classes
without a name are called the default. -/
def IsNamedBy
    (f : SourceFile)
    (d : Node)
    (name : String) :
    Prop :=
  isDeclarator d = false ∧ (∃ x ∈ f.declared, x.node = d) ∧
    ((d.child? .name).map Node.text).getD "default" = name

theorem node_cases_of_localDeclaration?
    {d : Node}
    (h : f.localDeclaration? name = some d) :
    (∃ v ∈ f.boundVariables, v.name = name ∧ v.node = d) ∨ f.IsNamedBy d name := by
  unfold localDeclaration? at h
  split at h
  · next g hg =>
    obtain rfl := Option.some.inj h
    have hname : g.name = name := by simpa using List.find?_some hg
    obtain ⟨x, hx, rfl⟩ := List.mem_map.1 (List.mem_of_find?_eq_some hg)
    obtain ⟨hdeclared, hkind⟩ := List.mem_filter.1 hx
    refine .inr ⟨isDeclarator_of_kind fun hvariable => ?_, ⟨x, hdeclared, rfl⟩, hname⟩
    simp [hvariable] at hkind
  · split at h
    · next v hv =>
      obtain rfl := Option.some.inj h
      exact .inl ⟨v, List.mem_of_find?_eq_some hv, by simpa using List.find?_some hv, rfl⟩
    · obtain ⟨c, hc, rfl⟩ := Option.map_eq_some_iff.1 h
      have hname : c.name = name := by simpa using List.find?_some hc
      obtain ⟨x, hx, rfl⟩ := List.mem_map.1 (List.mem_of_find?_eq_some hc)
      obtain ⟨hdeclared, hkind⟩ := List.mem_filter.1 hx
      refine .inr ⟨isDeclarator_of_kind fun hvariable => ?_, ⟨x, hdeclared, rfl⟩, hname⟩
      simp [declaresClass, hvariable] at hkind

/-- The node of an export of a local name is that of a variable of the name, or it has the name itself. -/
theorem node_cases_of_mem_exports
    {e : Export}
    {l : String}
    {d : Node}
    (he : e ∈ f.exports)
    (hlocal : e.localName = some l)
    (hnode : e.node = some d) :
    (∃ v ∈ f.boundVariables, v.name = l ∧ v.node = d) ∨ f.IsNamedBy d l := by
  obtain ⟨statement, hstatement, he⟩ := List.mem_flatMap.1 he
  unfold exportsOf at he
  split at he
  · next hexport =>
    have hkind : statement.kind = .exportStatement := by simpa using hexport
    dsimp only at he
    split at he
    · next declaration hdeclaration =>
      have hdeclared : ∃ x ∈ f.declared, x.node = declaration ∧ x.exported = true := by
        refine ⟨⟨declaration, true, statement.hasToken "default", statement.ownDecorators⟩,
          List.mem_flatMap.2 ⟨statement, hstatement, ?_⟩, rfl, rfl⟩
        simp [declaredIn, hkind, hdeclaration]
      split at he
      · obtain rfl := List.mem_singleton.1 he
        cases hlocal
      · split at he
        · next hvariables =>
          obtain ⟨v, hv, rfl⟩ := List.mem_map.1 he
          cases hlocal
          cases hnode
          obtain ⟨x, hx, rfl, hexported⟩ := hdeclared
          refine .inl ⟨v, List.mem_flatMap.2 ⟨x, List.mem_filter.2 ⟨hx, hvariables⟩, ?_⟩, rfl, rfl⟩
          rw [hexported]
          exact hv
        · split at he
          · next w hw =>
            obtain rfl := List.mem_singleton.1 he
            cases hlocal
            cases hnode
            obtain ⟨x, hx, hxd, -⟩ := hdeclared
            exact .inr ⟨isDeclarator_of_child? hdeclaration, ⟨x, hx, hxd⟩, by simp [hw]⟩
          · cases he
    · split at he
      · obtain rfl := List.mem_singleton.1 he
        cases hlocal
      · split at he
        · obtain ⟨c, -, hc⟩ := List.mem_filterMap.1 he
          dsimp only at hc
          split at hc
          · cases hc
            cases hlocal
            dsimp only at hnode
            split at hnode
            · exact node_cases_of_localDeclaration? hnode
            · cases hnode
          · cases hc
        · cases he
  · cases he

theorem declares_value_of_exportedSymbol?
    {e : Export}
    {l : String}
    {d : Node}
    (he : e ∈ f.exports)
    (hlocal : e.localName = some l)
    (hnode : e.node = some d)
    (hn : initializer? d = some n) :
    f.Declares .value l n := by
  obtain ⟨v, hv, rfl, rfl⟩ | ⟨hdeclarator, -⟩ := node_cases_of_mem_exports he hlocal hnode
  · exact declares_of_initializer? hv hn
  · rw [isDeclarator_of_initializer? hn] at hdeclarator
    cases hdeclarator

theorem declares_declaration_of_exportedSymbol?
    {e : Export}
    {l : String}
    (he : e ∈ f.exports)
    (hlocal : e.localName = some l)
    (hnode : e.node = some n)
    (hn : (declaresFunction n || isDeclarator n || declaresClass n) = true) :
    f.Declares .declaration l n := by
  simp only [Declares, bindings, List.mem_append]
  obtain ⟨v, hv, rfl, rfl⟩ | ⟨hdeclarator, ⟨x, hx, rfl⟩, hname⟩ :=
    node_cases_of_mem_exports he hlocal hnode
  · exact .inl (.inr (List.mem_map.2 ⟨v, hv, rfl⟩))
  · rw [hdeclarator, Bool.or_false, Bool.or_eq_true] at hn
    subst hname
    obtain hn | hn := hn
    · refine .inl (.inl (List.mem_map.2 ⟨_, List.mem_map.2 ⟨x, List.mem_filter.2 ⟨hx, hn⟩, rfl⟩, rfl⟩))
    · exact .inr (List.mem_map.2 ⟨_, List.mem_map.2 ⟨x, List.mem_filter.2 ⟨hx, hn⟩, rfl⟩, rfl⟩)

theorem declares_type_of_exportedSymbol?
    {e : Export}
    {l : String}
    (he : e ∈ f.exports)
    (hlocal : e.localName = some l)
    (hnode : e.node = some n)
    (hn : (typeName? n).isSome) :
    f.Declares .type l n := by
  obtain ⟨t, ht⟩ := Option.isSome_iff_exists.1 hn
  obtain ⟨v, hv, rfl, rfl⟩ | ⟨hdeclarator, ⟨x, hx, rfl⟩, hname⟩ :=
    node_cases_of_mem_exports he hlocal hnode
  · obtain ⟨exported, declarator, hkind, hof⟩ := exists_declarator hv
    rw [node_of_mem_variablesOf hof] at ht
    simp [typeName?, declaresType, hkind] at ht
  · have hl : t = l := by
      unfold typeName? at ht
      split at ht
      · rw [ht] at hname
        exact hname
      · cases ht
    refine List.mem_filterMap.2 ⟨x, hx, ?_⟩
    rw [ht, hl]
    rfl

/-- What an export of a local name stands for is declared under that name. -/
theorem declares_of_exportedSymbol?
    {k : SymbolKind}
    {e : Export}
    {l : String}
    (he : e ∈ f.exports)
    (hlocal : e.localName = some l)
    (hsymbol : f.exportedSymbol? k e = some n) :
    f.Declares k l n := by
  unfold exportedSymbol? at hsymbol
  split at hsymbol
  · cases hsymbol
  · rw [hlocal] at hsymbol
    cases k with
    | value =>
      obtain ⟨d, hnode, hn⟩ := Option.bind_eq_some_iff.1 hsymbol
      exact declares_value_of_exportedSymbol? he hlocal hnode hn
    | declaration =>
      obtain ⟨hnode, hn⟩ := Option.filter_eq_some_iff.1 hsymbol
      exact declares_declaration_of_exportedSymbol? he hlocal hnode hn
    | type =>
      obtain hnode | ⟨-, hbound⟩ := Option.or_eq_some_iff.1 hsymbol
      · obtain ⟨hnode, hn⟩ := Option.filter_eq_some_iff.1 hnode
        exact declares_type_of_exportedSymbol? he hlocal hnode hn
      · exact declares_of_bound? hbound

end Exports

/-- Whether an export is found where the look-up of an import asks for it. For values and declarations the
default is asked of the default export, from where it is not led on to the initializer of a local name. Any
other name is asked of the declarations of that name. -/
def LeadsTo
    (f : SourceFile)
    (k : SymbolKind)
    (e : Export)
    (n : Node) :
    Prop :=
  match k with
  | .value => if e.name = "default" then e.localName = none else f.Declares .value e.name n
  | .declaration => e.name = "default" ∨ f.Declares .declaration e.name n
  | .type => f.Declares .type e.name n

end SourceFile

end Syntax

namespace Project.Scope

open SourceFile

variable {s : Scope} {file target : SourceFile} {name imported : String} {n : Node}

section Imports

/-- Looks a name up as a symbol of a kind. -/
def symbol
    (s : Scope) :
    SymbolKind → String → SourceFile → Lookup
  | .value => s.value
  | .declaration => s.declaration
  | .type => s.type

/-- A file imports a name from a file of the project, in which it has this name. -/
def Imports
    (s : Scope)
    (file : SourceFile)
    (name : String)
    (target : SourceFile)
    (imported : String) :
    Prop :=
  ∃ p i, s.project = some p ∧ file.findImport? name = some (i, imported) ∧
    p.resolveModule i.moduleName file.path = .ok (some target)

/-- A name that a file imports and has not itself is looked up in the imported file. -/
theorem lookup_of_imports
    (hfrom : s.Imports file name target imported)
    (there : SourceFile → String → Option Node)
    (missing : String → String → Missing) :
    s.lookup name file none there missing =
      match there target imported with
      | some node => .ok (.ok ⟨node, target, true⟩)
      | none => .ok (.error (missing imported target.path.name)) := by
  obtain ⟨p, i, hproject, himport, hmodule⟩ := hfrom
  have himported : s.importedFile name file = .ok (.ok (target, imported)) := by
    simp only [importedFile, himport, hproject, hmodule]
    rfl
  simp only [lookup, himported]
  cases hthere : there target imported <;> simp [bind, Except.bind, pure, Except.pure, hthere]

/-- Over an import is found what the imported file has, if the file itself has nothing of the name. -/
theorem lookup_eq_iff
    (hfrom : s.Imports file name target imported)
    (here : Option Node)
    (there : SourceFile → String → Option Node)
    (missing : String → String → Missing) :
    s.lookup name file here there missing = .ok (.ok ⟨n, target, true⟩) ↔
      here = none ∧ there target imported = some n := by
  cases here with
  | some node => simp [lookup]
  | none =>
    rw [lookup_of_imports hfrom]
    cases there target imported <;> simp

/-- The default export of a value is its node, or as an identifier what that one stands for. A declarator
that is exported as the default is not led on from. -/
theorem defaultValue?_eq_iff
    {e : Export}
    (hdefault : target.findExport? "default" = some e)
    (hsymbol : target.exportedSymbol? .value e = some n) :
    defaultValue? target = some n ↔ e.localName = none := by
  unfold exportedSymbol? at hsymbol
  split at hsymbol
  · cases hsymbol
  · cases hlocal : e.localName with
    | none =>
      rw [hlocal] at hsymbol
      obtain ⟨d, hnode, hn⟩ := Option.bind_eq_some_iff.1 hsymbol
      simpa [defaultValue?, defaultExport?, hdefault, hnode, localValue?_eq] using hn
    | some l =>
      rw [hlocal] at hsymbol
      obtain ⟨d, hnode, hn⟩ := Option.bind_eq_some_iff.1 hsymbol
      have hsmaller : n.count < d.count := by
        unfold initializer? at hn
        split at hn
        · exact Node.count_lt_of_child? hn
        · cases hn
      have hkind : d.kind = .variableDeclarator := by
        have hdeclarator := isDeclarator_of_initializer? hn
        simp only [isDeclarator, Bool.and_eq_true, beq_iff_eq] at hdeclarator
        exact hdeclarator.1
      have hne : d ≠ n := by
        rintro rfl
        exact lt_irrefl _ hsmaller
      simp [defaultValue?, defaultExport?, hdefault, hnode, hkind, hne]

theorem exportedSymbol?_declaration
    {e : Export}
    (hsymbol : target.exportedSymbol? .declaration e = some n) :
    e.node = some n := by
  unfold exportedSymbol? at hsymbol
  split at hsymbol
  · cases hsymbol
  · cases hlocal : e.localName with
    | none => simpa [hlocal] using hsymbol
    | some l =>
      rw [hlocal] at hsymbol
      exact (Option.filter_eq_some_iff.1 hsymbol).1

/-- What an export gives to its importers is declared under its local name, if it has one. It is found over
an import if and only if nothing of the importing file hides it and the look-up is led to it. A name is
declared once as a symbol of a kind, and there is one default export. -/
theorem symbol_eq_exportedSymbol?_iff
    {k : SymbolKind}
    {e : Export}
    (hfrom : s.Imports file name target e.name)
    (hentry : e ∈ target.exports)
    (hsymbol : target.exportedSymbol? k e = some n)
    (honce : target.DeclaresOnce k e.name)
    (hdefault : e.name = "default" → target.findExport? "default" = some e) :
    (∀ l, e.localName = some l → target.Declares k l n) ∧
      (s.symbol k name file = .ok (.ok ⟨n, target, true⟩) ↔
        file.bound? k name = none ∧ target.LeadsTo k e n) := by
  refine ⟨fun l hlocal => declares_of_exportedSymbol? hentry hlocal hsymbol, ?_⟩
  cases k with
  | value =>
    refine (lookup_eq_iff hfrom _ _ _).trans (and_congr (by rw [localValue?_eq]) ?_)
    by_cases hname : e.name = "default"
    · simpa [LeadsTo, hname] using defaultValue?_eq_iff (hdefault hname) hsymbol
    · simp [LeadsTo, hname, localValue?_eq, bound?_eq_some_iff honce]
  | declaration =>
    refine (lookup_eq_iff hfrom _ _ _).trans (and_congr (by rw [localDeclaration?_eq]) ?_)
    by_cases hname : e.name = "default"
    · simp [LeadsTo, hname, defaultExport?, hdefault hname, exportedSymbol?_declaration hsymbol]
    · simp [LeadsTo, hname, localDeclaration?_eq, bound?_eq_some_iff honce]
  | type =>
    refine (lookup_eq_iff hfrom _ _ _).trans (and_congr (by rw [findType?_eq]) ?_)
    simp [LeadsTo, findType?_eq, bound?_eq_some_iff honce]

end Imports

section Results

/-- The symbols of a kind that an import of a file may stand for, with the file, the file that it imports
from and the exports. -/
def importedSymbols
    (project : Project)
    (path : Files.Path)
    (name : String)
    (k : SymbolKind) :
    List (SourceFile × SourceFile × Export × Node) :=
  match project.sourceFile? path with
  | none => []
  | some file =>
    match file.findImport? name with
    | none => []
    | some (i, imported) =>
      match project.resolveModule i.moduleName file.path with
      | .ok (some target) =>
        target.exports.filterMap fun e =>
          if e.name = imported then (target.exportedSymbol? k e).map fun n => (file, target, e, n)
          else none
      | _ => []

theorem exists_imports
    (project : Project)
    (path : Files.Path)
    (name : String)
    (k : SymbolKind)
    (p : SourceFile × SourceFile × Export × Node → Bool)
    (h : (importedSymbols project path name k).any p = true) :
    ∃ file target e n, project.sourceFile? path = some file ∧
      Imports ⟨some project⟩ file name target e.name ∧ e ∈ target.exports ∧
      target.exportedSymbol? k e = some n ∧ p (file, target, e, n) = true := by
  obtain ⟨found, hfound, hp⟩ := List.any_eq_true.1 h
  unfold importedSymbols at hfound
  split at hfound
  · cases hfound
  · next file hfile =>
    split at hfound
    · cases hfound
    · next i imported himport =>
      split at hfound
      · next target hmodule =>
        obtain ⟨e, he, hsymbol⟩ := List.mem_filterMap.1 hfound
        split at hsymbol
        · next hname =>
          obtain ⟨n, hn, rfl⟩ := Option.map_eq_some_iff.1 hsymbol
          subst hname
          exact ⟨file, target, e, n, hfile, ⟨project, i, rfl, himport, hmodule⟩, he, hn, hp⟩
        · cases hsymbol
      · cases hfound

/-- A constant that is exported where it is declared. -/
def exportedInPlace : Project :=
  Shape.filesOf [("a.ts", "import \x7b size as limit \x7d from \"./m\";\n"), ("m.ts", "export const size = 1;\n")]

theorem symbol_exportedInPlace :
    ∃ file target e n, exportedInPlace.sourceFile? ⟨true, ["a.ts"]⟩ = some file ∧
      Imports ⟨some exportedInPlace⟩ file "limit" target e.name ∧ e ∈ target.exports ∧
      target.exportedSymbol? .value e = some n ∧ target.DeclaresOnce .value e.name ∧
      (e.name = "default" → target.findExport? "default" = some e) ∧ n.text = "1" ∧
      symbol ⟨some exportedInPlace⟩ .value "limit" file = .ok (.ok ⟨n, target, true⟩) := by
  obtain ⟨file, target, e, n, hfile, hfrom, he, hsymbol, hp⟩ :=
    exists_imports exportedInPlace ⟨true, ["a.ts"]⟩ "limit" .value
      (fun (file, target, e, n) => decide ((target.bindings .value).map Prod.fst).Nodup &&
        e.name != "default" && e.localName == some e.name && (file.bound? .value "limit").isNone &&
        n.text == "1")
      (by decide +kernel)
  simp only [Bool.and_eq_true, decide_eq_true_eq, bne_iff_ne, ne_eq, beq_iff_eq,
    Option.isNone_iff_eq_none] at hp
  obtain ⟨⟨⟨⟨hnodup, hname⟩, hlocal⟩, hhere⟩, htext⟩ := hp
  have honce : target.DeclaresOnce .value e.name := declaresOnce_of_nodup hnodup
  have hdefault : e.name = "default" → target.findExport? "default" = some e :=
    fun hdefault => absurd hdefault hname
  obtain ⟨hdeclares, hfound⟩ := symbol_eq_exportedSymbol?_iff hfrom he hsymbol honce hdefault
  have hleads : target.LeadsTo .value e n := by simpa [LeadsTo, hname] using hdeclares _ hlocal
  exact ⟨file, target, e, n, hfile, hfrom, he, hsymbol, honce, hdefault, htext, hfound.2 ⟨hhere, hleads⟩⟩

/-- A constant that is exported under another name. -/
def exportedRenamed : Project :=
  Shape.filesOf [("a.ts", "import \x7b b \x7d from \"./m\";\n"),
    ("m.ts", "const a = 1;\nexport \x7b a as b \x7d;\n")]

/-- What is exported under another name is not found over an import. -/
theorem symbol_exportedRenamed :
    ∃ file target e n, exportedRenamed.sourceFile? ⟨true, ["a.ts"]⟩ = some file ∧
      Imports ⟨some exportedRenamed⟩ file "b" target "b" ∧ e ∈ target.exports ∧ e.name = "b" ∧
      target.exportedSymbol? .value e = some n ∧ target.Declares .value "a" n ∧ n.text = "1" ∧
      symbol ⟨some exportedRenamed⟩ .value "b" file = .ok (.error (.noInitializer "b" target.path.name)) ∧
      symbol ⟨some exportedRenamed⟩ .declaration "b" file =
        .ok (.error (.notDeclared "b" target.path.name)) := by
  obtain ⟨file, target, e, n, hfile, hfrom, he, hsymbol, hp⟩ :=
    exists_imports exportedRenamed ⟨true, ["a.ts"]⟩ "b" .value
      (fun (file, target, e, n) => e.name == "b" && e.localName == some "a" &&
        (file.bound? .value "b").isNone && (target.bound? .value "b").isNone &&
        (file.bound? .declaration "b").isNone && (target.bound? .declaration "b").isNone && n.text == "1")
      (by decide +kernel)
  simp only [Bool.and_eq_true, beq_iff_eq, Option.isNone_iff_eq_none] at hp
  obtain ⟨⟨⟨⟨⟨⟨hname, hlocal⟩, hvalue⟩, hvalue'⟩, hdeclaration⟩, hdeclaration'⟩, htext⟩ := hp
  rw [hname] at hfrom
  refine ⟨file, target, e, n, hfile, hfrom, he, hname, hsymbol,
    declares_of_exportedSymbol? he hlocal hsymbol, htext, ?_, ?_⟩
  · rw [symbol, value, localValue?_eq, hvalue, lookup_of_imports hfrom]
    simp [localValue?_eq, hvalue']
  · rw [symbol, declaration, localDeclaration?_eq, hdeclaration, lookup_of_imports hfrom]
    simp [localDeclaration?_eq, hdeclaration']

end Results

end Project.Scope

end RouteAtlas
