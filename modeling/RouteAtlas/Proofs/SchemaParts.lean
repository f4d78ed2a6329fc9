import Mathlib
import RouteAtlas.Proofs.Entries
import RouteAtlas.Proofs.ExtendedConfigs
import RouteAtlas.Proofs.LostComments
import RouteAtlas.Proofs.SchemaChains

/-!
# Parts of a schema expression

The schema of an expression is made from the schemas of its parts: the start of a chain of methods, the
arguments and entries that are schemas themselves, or the value that a name stands for. Which parts these
are can depend on the start of a chain, since `extend` and `merge` read their argument only when an object
is extended.

Nothing else is read, and the parts are read in order until one of them fails. A part is smaller than the
whole, or it resolves one more of the finitely many names that there are. So the rules by which a schema is
made from its parts have exactly one solution, and this is what an interpreter without a bound on nesting
computes.
-/

namespace RouteAtlas.Schema

open Syntax Project

section Subjects

/-- What is read as a schema: an expression in a file, while some names are being resolved. -/
structure Subject where
  node : Option Node
  file : SourceFile
  open_ : List (Files.Path × String)

namespace Subject

/-- The schema that a reading gives. -/
def readBy
    (read : Reading)
    (x : Subject) :
    Except Fault Schema :=
  read x.node x.file x.open_

/-- An expression that stands inside another one. -/
def inner
    (x : Subject)
    (e : Node) :
    Subject :=
  { x with node := some e }

/-- The name that an expression is, if it is one. -/
def name? (x : Subject) : Option String :=
  (x.node.map Node.unwrap).bind fun e =>
    match e.kind with
    | .identifier | .shorthandPropertyIdentifier => some e.text
    | _ => none

end Subject

/-- One level of reading, the parts being read by another reading. -/
def step
    (scope : Scope)
    (read : Reading) :
    Reading :=
  fun e file open_ =>
    match e.map Node.unwrap with
    | none => .ok (unknown "empty expression")
    | some e =>
      match e.kind with
      | .identifier | .shorthandPropertyIdentifier => named read scope file open_ e.text
      | .callExpression => called read scope file open_ e
      | .memberExpression => .ok (unknown ("unsupported schema reference " ++ e.text))
      | kind => .ok (unknown ("unsupported schema expression " ++ kind.name))

theorem readUpTo_succ
    (scope : Scope)
    (levels : Nat) :
    readUpTo scope (levels + 1) = step scope (readUpTo scope levels) := rfl

end Subjects

section Parts

/-- What a call calls: a constructor of the library, a method of some receiver, or anything else. -/
inductive Callee where
  | constructor (name : String)
  | method (receiver : Option Node) (name : String)
  | other (text : String)

/-- What a call calls. -/
def calleeOf
    (file : SourceFile)
    (call : Node) :
    Callee :=
  match (call.child? .function).map Node.unwrap with
  | none => .other ""
  | some f =>
    if f.kind == .memberExpression then
      let base := (f.child? .object).map Node.unwrap
      if (base.map (isLibrary file)).getD false then .constructor f.propertyText
      else .method base f.propertyText
    else .other f.text

/-- The values of the entries of an object expression. -/
def entryValues (arg : Option Node) : List Node :=
  ((arg.map Node.properties).getD []).map Node.Property.value

/-- The first of the options that the last argument lists. -/
def firstOption? (args : List Node) : Option Node :=
  (args.getLast?.map Node.unwrap).bind fun e =>
    if e.kind = .array then e.namedChildren.head? else none

/-- The parts that a constructor reads. -/
def constructorParts
    (name : String)
    (args : List Node) :
    List Node :=
  if (entryOf? name primitives).isSome then []
  else
    match name with
    | "array" | "optional" | "nullable" => args.head?.toList
    | "object" | "strictObject" | "looseObject" => entryValues args.head?
    | "union" | "discriminatedUnion" => (firstOption? args).toList
    | _ => []

/-- The parts that a method of an object reads. -/
def methodParts
    (name : String)
    (args : List Node) :
    List Node :=
  match name, args with
  | "extend", a :: _ => entryValues (some a)
  | "merge", a :: _ => [a]
  | _, _ => []

/-- The parts of a call, given whether its receiver is an object. -/
def callParts
    (object : Bool)
    (file : SourceFile)
    (call : Node) :
    List (Option Node) :=
  match calleeOf file call with
  | .constructor name => (constructorParts name call.callArguments).map some
  | .method receiver name =>
    receiver :: if object then (methodParts name call.callArguments).map some else []
  | .other _ => []

namespace Subject

/-- What a name leads to that is not being resolved already. -/
def hop
    (scope : Scope)
    (x : Subject)
    (name : String) :
    List Subject :=
  if x.open_.contains (x.file.path, name) then []
  else
    match scope.value name x.file with
    | .ok (.ok found) => [⟨some found.node, found.file, (x.file.path, name) :: x.open_⟩]
    | _ => []

/-- The parts of an expression, given whether the receiver of a chained call is an object. -/
def partsWhen
    (scope : Scope)
    (object : Bool)
    (x : Subject) :
    List Subject :=
  match x.node.map Node.unwrap with
  | none => []
  | some e =>
    match e.kind with
    | .identifier | .shorthandPropertyIdentifier => x.hop scope e.text
    | .callExpression => (callParts object x.file e).map fun n => { x with node := n }
    | _ => []

/-- Whether the receiver of a chained call is read as an object. -/
def isOnObject
    (read : Reading)
    (x : Subject) :
    Bool :=
  match (x.node.map Node.unwrap).map (calleeOf x.file) with
  | some (.method receiver _) =>
    match read receiver x.file x.open_ with
    | .ok s => s.kind == .object
    | .error _ => false
  | _ => false

/-- The parts of an expression whose schemas make up its own, in the order in which they are read. -/
def parts
    (scope : Scope)
    (read : Reading)
    (x : Subject) :
    List Subject :=
  x.partsWhen scope (x.isOnObject read)

/-- A part is come to when some parts are read in order: all before it have a schema. -/
def ComesToIn
    (read : Reading)
    (xs : List Subject)
    (y : Subject) :
    Prop :=
  ∃ before after, xs = before ++ y :: after ∧ ∀ z ∈ before, ∃ s, z.readBy read = .ok s

variable {scope : Scope} {read : Reading} {x y : Subject} {xs : List Subject}

theorem ComesToIn.mem (h : ComesToIn read xs y) : y ∈ xs := by
  obtain ⟨before, after, rfl, -⟩ := h
  simp

theorem comesToIn_head : ComesToIn read (y :: xs) y :=
  ⟨[], xs, rfl, by simp⟩

theorem ComesToIn.tail
    {s : Schema}
    (hx : x.readBy read = .ok s)
    (h : ComesToIn read xs y) :
    ComesToIn read (x :: xs) y := by
  obtain ⟨before, after, rfl, hbefore⟩ := h
  exact ⟨x :: before, after, rfl, List.forall_mem_cons.2 ⟨⟨s, hx⟩, hbefore⟩⟩

theorem mem_partsWhen_true
    {object : Bool}
    (h : y ∈ x.partsWhen scope object) :
    y ∈ x.partsWhen scope true := by
  cases object with
  | true => exact h
  | false =>
    unfold partsWhen at h ⊢
    cases hx : x.node.map Node.unwrap with
    | none => simp [hx] at h
    | some e =>
      simp only [hx] at h ⊢
      split at h
      · exact h
      · exact h
      · obtain ⟨n, hn, rfl⟩ := List.mem_map.1 h
        refine List.mem_map_of_mem ?_
        unfold callParts at hn ⊢
        split at hn <;> simp_all
      · simp at h

end Subject

end Parts

section Rules

variable {read : Reading} {scope : Scope} {x y : Subject}

/-- A call is read by what it calls. -/
theorem called_eq_of_callee
    (file : SourceFile)
    (open_ : List (Files.Path × String))
    (call : Node) :
    called read scope file open_ call =
      match calleeOf file call with
      | .constructor name => constructed read scope file open_ name call.callArguments
      | .method receiver name =>
        read receiver file open_ >>= fun s => applied read file open_ s name call.callArguments
      | .other text => .ok (unknown ("unsupported call " ++ text)) := by
  unfold called calleeOf
  cases (call.child? .function).map Node.unwrap with
  | none => rfl
  | some f =>
    by_cases hmember : f.kind = .memberExpression
    · by_cases hlibrary : (((f.child? .object).map Node.unwrap).map (isLibrary file)).getD false = true
      · simp only [hmember, hlibrary, beq_self_eq_true, if_true]
      · simp only [hmember, hlibrary, beq_self_eq_true, if_true, Bool.false_eq_true, if_false]
    · simp [hmember]

theorem partsWhen_call
    {object : Bool}
    {e : Node}
    (hx : x.node.map Node.unwrap = some e)
    (hcall : e.kind = .callExpression) :
    x.partsWhen scope object = (callParts object x.file e).map fun n => { x with node := n } := by
  simp [Subject.partsWhen, hx, hcall]

end Rules

section Locality

variable {scope : Scope} {read read' : Reading} {file : SourceFile}
  {open_ : List (Files.Path × String)}

/-- A union is read by the first of its options. -/
theorem constructed_union
    {name : String}
    (hname : name = "union" ∨ name = "discriminatedUnion")
    (args : List Node) :
    constructed read scope file open_ name args =
      match firstOption? args with
      | some first => read (some first) file open_
      | none => .ok (unknown "union without static options") := by
  have hprimitive : entryOf? name primitives = none := by
    rcases hname with rfl | rfl <;> rfl
  unfold constructed firstOption?
  rw [hprimitive]
  rcases hname with rfl | rfl <;>
  · dsimp only
    cases args.getLast?.map Node.unwrap with
    | none => rfl
    | some e =>
      by_cases harray : e.kind = .array
      · cases hoptions : e.namedChildren <;> simp [harray, hoptions]
      · simp [harray]

/-- Lists of computations agree that agree up to the first failure. -/
theorem mapM_congr_to_failure
    {α β : Type}
    {f g : α → Except Fault β}
    {as : List α}
    (h : ∀ before a after, as = before ++ a :: after → (∀ c ∈ before, ∃ b, f c = .ok b) → f a = g a) :
    as.mapM f = as.mapM g := by
  induction as with
  | nil => rfl
  | cons a rest ih =>
    have hfirst := h [] a rest rfl (by simp)
    rw [List.mapM_cons, List.mapM_cons, ← hfirst]
    cases ha : f a with
    | error fault => rfl
    | ok b =>
      have hrest : rest.mapM f = rest.mapM g := by
        refine ih fun before c after hsplit hbefore => ?_
        refine h (a :: before) c after (by rw [hsplit]; rfl) ?_
        exact List.forall_mem_cons.2 ⟨⟨b, ha⟩, hbefore⟩
      rw [hrest]

/-- Two readings agree on the parts that are come to. -/
def AgreeOn
    (read read' : Reading)
    (xs : List Subject) :
    Prop :=
  ∀ y, Subject.ComesToIn read xs y → y.readBy read = y.readBy read'

theorem AgreeOn.head
    {x : Subject}
    {xs : List Subject}
    (h : AgreeOn read read' (x :: xs)) :
    x.readBy read = x.readBy read' :=
  h x Subject.comesToIn_head

theorem AgreeOn.tail
    {x : Subject}
    {xs : List Subject}
    {s : Schema}
    (h : AgreeOn read read' (x :: xs))
    (hx : x.readBy read = .ok s) :
    AgreeOn read read' xs :=
  fun y hy => h y (hy.tail hx)

theorem shape_congr
    {arg : Option Node}
    (h : AgreeOn read read' ((entryValues arg).map fun e => ⟨some e, file, open_⟩)) :
    shape read file open_ arg = shape read' file open_ arg := by
  unfold shape
  refine congrArg (· >>= _) (mapM_congr_to_failure fun before p after hsplit hbefore => ?_)
  have hread : read (some p.value) file open_ = read' (some p.value) file open_ := by
    refine h ⟨some p.value, file, open_⟩ ⟨before.map fun q => ⟨some q.value, file, open_⟩,
      after.map fun q => ⟨some q.value, file, open_⟩, by simp [entryValues, hsplit, Function.comp_def], ?_⟩
    intro z hz
    obtain ⟨q, hq, rfl⟩ := List.mem_map.1 hz
    obtain ⟨entry, hentry⟩ := hbefore q hq
    obtain ⟨s, hs, -⟩ := exists_of_bind_eq_ok hentry
    exact ⟨s, hs⟩
  rw [hread]

theorem constructed_congr
    {name : String}
    {args : List Node}
    (h : AgreeOn read read' ((constructorParts name args).map fun e => ⟨some e, file, open_⟩)) :
    constructed read scope file open_ name args = constructed read' scope file open_ name args := by
  by_cases hunion : name = "union" ∨ name = "discriminatedUnion"
  · have hparts : constructorParts name args = (firstOption? args).toList := by
      rcases hunion with rfl | rfl <;> rfl
    rw [hparts] at h
    rw [constructed_union hunion, constructed_union hunion]
    cases hfirst : firstOption? args with
    | none => rfl
    | some first =>
      rw [hfirst] at h
      exact h.head
  · unfold constructed
    unfold constructorParts at h
    cases hprimitive : entryOf? name primitives with
    | some kind => rfl
    | none =>
      simp only [hprimitive, Option.isSome_none, Bool.false_eq_true, if_false] at h
      dsimp only
      split
      · cases args with
        | nil => rfl
        | cons a rest => exact congrArg (· >>= _) h.head
      · exact congrArg (· >>= _) (shape_congr h)
      · exact congrArg (· >>= _) (shape_congr h)
      · exact congrArg (· >>= _) (shape_congr h)
      · rfl
      · rfl
      · rfl
      · simp at hunion
      · simp at hunion
      · rfl
      · rfl
      · split
        · exact congrArg (· >>= _) h.head
        · exact congrArg (· >>= _) h.head
        · rfl

theorem applied_congr
    {s : Schema}
    {name : String}
    {args : List Node}
    (h : s.kind = .object →
      AgreeOn read read' ((methodParts name args).map fun e => ⟨some e, file, open_⟩)) :
    applied read file open_ s name args = applied read' file open_ s name args := by
  unfold applied
  by_cases hobject : s.kind = .object
  · have h := h hobject
    unfold methodParts at h
    simp only [hobject, beq_self_eq_true, if_true]
    split
    · rfl
    · split
      · rfl
      · unfold reshaped
        split
        · rfl
        · rfl
        · exact congrArg (· >>= _) (shape_congr h)
        · exact congrArg (· >>= _) h.head
        · rfl
        · rfl
        · rfl
  · simp [hobject]

theorem named_congr
    {x : Subject}
    {name : String}
    (h : AgreeOn read read' (x.hop scope name)) :
    named read scope x.file x.open_ name = named read' scope x.file x.open_ name := by
  unfold named
  unfold Subject.hop at h
  by_cases hopen : x.open_.contains (x.file.path, name) = true
  · rw [if_pos hopen, if_pos hopen]
  · simp only [hopen, Bool.false_eq_true, if_false] at h ⊢
    cases hvalue : scope.value name x.file with
    | error fault => rfl
    | ok outcome =>
      cases outcome with
      | error missing => rfl
      | ok found =>
        rw [hvalue] at h
        exact h.head

theorem called_congr
    {x : Subject}
    {e : Node}
    (hx : x.node.map Node.unwrap = some e)
    (hcall : e.kind = .callExpression)
    (h : AgreeOn read read' (x.parts scope read)) :
    called read scope x.file x.open_ e = called read' scope x.file x.open_ e := by
  rw [Subject.parts, partsWhen_call hx hcall, callParts] at h
  rw [called_eq_of_callee, called_eq_of_callee]
  cases hcallee : calleeOf x.file e with
  | other text => rfl
  | constructor name =>
    rw [hcallee, List.map_map] at h
    exact constructed_congr h
  | method receiver name =>
    rw [hcallee, List.map_cons] at h
    have hreceiver := h.head
    dsimp only [Subject.readBy] at hreceiver ⊢
    rw [← hreceiver]
    cases hs : read receiver x.file x.open_ with
    | error fault => rfl
    | ok s =>
      refine applied_congr fun hobject => ?_
      have hon : x.isOnObject read = true := by
        simp [Subject.isOnObject, hx, hcallee, hs, hobject]
      have hrest := h.tail hs
      rwa [hon, if_pos rfl, List.map_map] at hrest

/-- The schema of an expression depends on its parts only. -/
theorem step_congr
    {x : Subject}
    (h : AgreeOn read read' (x.parts scope read)) :
    x.readBy (step scope read) = x.readBy (step scope read') := by
  unfold Subject.readBy step
  cases hx : x.node.map Node.unwrap with
  | none => rfl
  | some e =>
    dsimp only
    split
    · next hkind => exact named_congr (by simpa [Subject.parts, Subject.partsWhen, hx, hkind] using h)
    · next hkind => exact named_congr (by simpa [Subject.parts, Subject.partsWhen, hx, hkind] using h)
    · next hkind => exact called_congr hx hkind h
    · rfl
    · rfl

end Locality

section Places

variable {scope : Scope} {file : SourceFile} {name : String} {found : Found}

/-- The names that may stand for a value in a file. -/
def valueNames (file : SourceFile) : List String :=
  file.boundVariables.map Variable.name ++
    file.imports.flatMap fun i => i.named.map Prod.fst ++ i.defaultName.toList

/-- The names that may stand for a value, with the file where they do. -/
def valueKeys (file : SourceFile) : List (Files.Path × String) :=
  (valueNames file).map fun n => (file.path, n)

/-- The source files that imports may lead to. -/
def reachableFiles (scope : Scope) : List SourceFile :=
  match scope.project with
  | none => []
  | some p =>
    p.sources.map Prod.snd ++ (filePlaces p.tree.root).filterMap fun names =>
      (p.tree.content? ⟨true, names⟩).map fun c => SourceFile.ofText ⟨true, names⟩ c.lenientText

theorem mem_reachableFiles_of_sourceFile?
    {p : Project}
    {path : Files.Path}
    (hproject : scope.project = some p)
    (h : p.sourceFile? path = some file) :
    file ∈ reachableFiles scope := by
  simp only [reachableFiles, hproject, List.mem_append]
  unfold Project.sourceFile? at h
  dsimp only at h
  cases hsource : Project.source? (p.tree.resolve path) p.sources with
  | some f =>
    rw [hsource] at h
    cases h
    exact .inl (List.mem_map_of_mem (mem_of_source? hsource))
  | none =>
    rw [hsource] at h
    dsimp only at h
    split at h
    · obtain ⟨c, hc, rfl⟩ := Option.map_eq_some_iff.1 h
      have hplace : (⟨true, (p.tree.resolve path).components⟩ : Files.Path) = p.tree.resolve path := rfl
      refine .inr (List.mem_filterMap.2 ⟨(p.tree.resolve path).components, ?_, ?_⟩)
      · have hfile : p.tree.find? (p.tree.resolve path) = some (.file c) := by
          unfold Files.Tree.content? at hc
          split at hc
          · next hfound => cases hc; exact hfound
          · cases hc
        rw [Files.Tree.find?_of_reached (Files.Tree.reached_of_find?_resolve hfile)] at hfile
        exact mem_filePlaces_of_get? hfile
      · rw [hplace, hc]
        rfl
    · cases h

/-- A name that is found stands in its own file, or is imported from the one where it stands. -/
theorem found_of_lookup
    {here : Option Node}
    {there : SourceFile → String → Option Node}
    {missing : String → String → Missing}
    (h : scope.lookup name file here there missing = .ok (.ok found)) :
    (here = some found.node ∧ found.file = file) ∨
      ∃ p i imported, scope.project = some p ∧ file.findImport? name = some (i, imported) ∧
        p.resolveModule i.moduleName file.path = .ok (some found.file) := by
  unfold Scope.lookup at h
  cases here with
  | some node =>
    cases h
    exact .inl ⟨rfl, rfl⟩
  | none =>
    obtain ⟨outcome, himported, h⟩ := exists_of_bind_eq_ok h
    cases outcome with
    | error missing => cases h
    | ok source =>
      obtain ⟨target, imported⟩ := source
      dsimp only at h
      split at h
      · cases h
        refine .inr ?_
        unfold Scope.importedFile at himported
        cases himport : file.findImport? name with
        | none => simp [himport] at himported
        | some found =>
          obtain ⟨i, imported⟩ := found
          cases hproject : scope.project with
          | none => simp [himport, hproject] at himported
          | some p =>
            simp only [himport, hproject] at himported
            obtain ⟨resolved, hresolved, himported⟩ := exists_of_bind_eq_ok himported
            cases resolved with
            | none => cases himported
            | some source =>
              cases himported
              exact ⟨p, i, imported, rfl, rfl, hresolved⟩
      · cases h

theorem mem_importNames_of_findImport?
    {i : Import}
    {imported : String}
    (h : file.findImport? name = some (i, imported)) :
    name ∈ file.imports.flatMap fun i => i.named.map Prod.fst ++ i.defaultName.toList := by
  obtain ⟨j, hj, hname⟩ := List.exists_of_findSome?_eq_some h
  refine List.mem_flatMap.2 ⟨j, hj, ?_⟩
  split at hname
  · next hentry =>
    rw [entryOf?_eq_find?] at hentry
    obtain ⟨entry, hentry, -⟩ := Option.map_eq_some_iff.1 hentry
    have hkey : entry.1 = name := by simpa using List.find?_some hentry
    have hmem := List.mem_of_find?_eq_some hentry
    exact List.mem_append_left _ (List.mem_map.2 ⟨entry, hmem, hkey⟩)
  · split at hname
    · next hdefault => simp [hdefault]
    · cases hname

/-- A name that stands for a value is among the names of its file, and what it stands for is in this file
or in one that imports may lead to. -/
theorem mem_of_value
    (h : scope.value name file = .ok (.ok found)) :
    name ∈ valueNames file ∧ (found.file = file ∨ found.file ∈ reachableFiles scope) := by
  rcases found_of_lookup h with ⟨hlocal, hfile⟩ | ⟨p, i, imported, hproject, himport, hmodule⟩
  · refine ⟨List.mem_append_left _ ?_, .inl hfile⟩
    unfold Scope.localValue? at hlocal
    cases hvariable : file.findVariable? name with
    | none => simp [hvariable] at hlocal
    | some v =>
      have hname := List.find?_some hvariable
      have hmem := List.mem_of_find?_eq_some hvariable
      exact List.mem_map.2 ⟨v, hmem, by simpa using hname⟩
  · refine ⟨List.mem_append_right _ (mem_importNames_of_findImport? himport), .inr ?_⟩
    obtain ⟨candidates, -, h⟩ := exists_of_bind_eq_ok hmodule
    obtain ⟨found, -, h⟩ := exists_of_bind_eq_ok h
    obtain ⟨path, -, hsource⟩ := Option.bind_eq_some_iff.1 (Except.ok.inj h)
    exact mem_reachableFiles_of_sourceFile? hproject hsource

end Places

section Termination

namespace Subject

/-- The names that may still be resolved on the way from an expression. -/
def keysLeft
    (scope : Scope)
    (x : Subject) :
    Finset (Files.Path × String) :=
  ((x.file :: reachableFiles scope).flatMap valueKeys).toFinset \ x.open_.toFinset

/-- The number of nodes of an expression. -/
def size (x : Subject) : Nat :=
  (x.node.map Node.count).getD 0

/-- What grows smaller from an expression to its parts. -/
def weight
    (scope : Scope)
    (x : Subject) :
    Nat × Nat :=
  ((x.keysLeft scope).card, x.size)

variable {scope : Scope} {x y : Subject}

/-- A resolved name is not resolved again. -/
theorem card_keysLeft_lt_of_mem_hop
    {name : String}
    (h : y ∈ x.hop scope name) :
    (y.keysLeft scope).card < (x.keysLeft scope).card := by
  unfold hop at h
  split at h
  · simp at h
  · next hopen =>
    have hopen : (x.file.path, name) ∉ x.open_ := by simpa using hopen
    split at h
    · next found hvalue =>
      obtain rfl := List.mem_singleton.1 h
      obtain ⟨hname, hfile⟩ := mem_of_value hvalue
      refine Finset.card_lt_card (Finset.ssubset_iff_of_subset ?_ |>.2 ⟨(x.file.path, name), ?_, ?_⟩)
      · intro key hkey
        simp only [keysLeft, Finset.mem_sdiff, List.mem_toFinset, List.mem_flatMap, List.mem_cons,
          not_or] at hkey ⊢
        obtain ⟨⟨file, hmem, hin⟩, hnew⟩ := hkey
        refine ⟨⟨file, ?_, hin⟩, hnew.2⟩
        rcases hmem with rfl | hmem
        · exact hfile
        · exact .inr hmem
      · simp only [keysLeft, Finset.mem_sdiff, List.mem_toFinset, List.mem_flatMap]
        exact ⟨⟨x.file, List.mem_cons_self .., List.mem_map_of_mem hname⟩, hopen⟩
      · simp [keysLeft]
    · simp at h

end Subject

theorem count_lt_of_mem_callArguments
    {call a : Node}
    (h : a ∈ call.callArguments) :
    a.count < call.count := by
  unfold Node.callArguments at h
  split at h
  · next args hargs =>
    split at h
    · exact Nat.lt_trans (Node.count_lt_of_mem_parts h) (Node.count_lt_of_child? hargs)
    · simp at h
  · simp at h

theorem count_lt_of_mem_entryValues
    {a e : Node}
    (h : e ∈ entryValues (some a)) :
    e.count < a.count := by
  obtain ⟨p, hp, rfl⟩ := List.mem_map.1 h
  exact Node.count_lt_of_mem_properties hp

/-- What a constructor reads are its arguments or stands in them. -/
theorem count_le_of_mem_constructorParts
    {name : String}
    {args : List Node}
    {e : Node}
    (h : e ∈ constructorParts name args) :
    ∃ a ∈ args, e.count ≤ a.count := by
  have hhead : ∀ e' ∈ args.head?.toList, ∃ a ∈ args, e'.count ≤ a.count := by
    intro e' he'
    exact ⟨e', List.mem_of_head? (Option.mem_toList.1 he'), le_rfl⟩
  have hentries : ∀ e' ∈ entryValues args.head?, ∃ a ∈ args, e'.count ≤ a.count := by
    intro e' he'
    cases hargs : args.head? with
    | none => simp [hargs, entryValues] at he'
    | some a =>
      rw [hargs] at he'
      exact ⟨a, List.mem_of_head? hargs, (count_lt_of_mem_entryValues he').le⟩
  have hoption : ∀ e' ∈ (firstOption? args).toList, ∃ a ∈ args, e'.count ≤ a.count := by
    intro e' he'
    obtain ⟨u, hu, hfirst⟩ := Option.bind_eq_some_iff.1 (Option.mem_toList.1 he')
    obtain ⟨a, ha, rfl⟩ := Option.map_eq_some_iff.1 hu
    split at hfirst
    · have hlt := Node.count_lt_of_mem_namedChildren (List.mem_of_head? hfirst)
      exact ⟨a, List.mem_of_getLast? ha, hlt.le.trans (Node.count_unwrap_le a)⟩
    · cases hfirst
  unfold constructorParts at h
  split at h
  · simp at h
  · split at h
    · exact hhead e h
    · exact hhead e h
    · exact hhead e h
    · exact hentries e h
    · exact hentries e h
    · exact hentries e h
    · exact hoption e h
    · exact hoption e h
    · simp at h

theorem count_le_of_mem_methodParts
    {name : String}
    {args : List Node}
    {e : Node}
    (h : e ∈ methodParts name args) :
    ∃ a ∈ args, e.count ≤ a.count := by
  unfold methodParts at h
  split at h
  · next a rest => exact ⟨a, List.mem_cons_self .., (count_lt_of_mem_entryValues h).le⟩
  · next a rest => exact ⟨a, List.mem_cons_self .., by rw [List.mem_singleton.1 h]⟩
  · simp at h

theorem count_lt_of_calleeOf
    {file : SourceFile}
    {call receiver : Node}
    {name : String}
    (h : calleeOf file call = .method (some receiver) name) :
    receiver.count < call.count := by
  unfold calleeOf at h
  cases hfunction : call.child? .function with
  | none => simp [hfunction] at h
  | some function =>
    simp only [hfunction, Option.map_some] at h
    split at h
    · split at h
      · cases h
      · obtain ⟨hbase, -⟩ := Callee.method.inj h
        obtain ⟨o, ho, rfl⟩ := Option.map_eq_some_iff.1 hbase
        calc o.unwrap.count
            ≤ o.count := Node.count_unwrap_le o
          _ < function.unwrap.count := Node.count_lt_of_child? ho
          _ ≤ function.count := Node.count_unwrap_le function
          _ < call.count := Node.count_lt_of_child? hfunction
    · cases h

/-- What a call reads has fewer nodes than the call. -/
theorem count_lt_of_mem_callParts
    {object : Bool}
    {file : SourceFile}
    {call : Node}
    {n : Option Node}
    (h : n ∈ callParts object file call) :
    (n.map Node.count).getD 0 < call.count := by
  have harg : ∀ e : Node, (∃ a ∈ call.callArguments, e.count ≤ a.count) → e.count < call.count := by
    rintro e ⟨a, ha, he⟩
    exact Nat.lt_of_le_of_lt he (count_lt_of_mem_callArguments ha)
  unfold callParts at h
  split at h
  · obtain ⟨e, he, rfl⟩ := List.mem_map.1 h
    exact harg e (count_le_of_mem_constructorParts he)
  · next receiver name hcallee =>
    rcases List.mem_cons.1 h with rfl | h
    · cases n with
      | none => exact Node.count_pos call
      | some receiver => exact count_lt_of_calleeOf hcallee
    · split at h
      · obtain ⟨e, he, rfl⟩ := List.mem_map.1 h
        exact harg e (count_le_of_mem_methodParts he)
      · simp at h
  · simp at h

namespace Subject

variable {scope : Scope} {x y : Subject}

/-- A part resolves one more name, or it has fewer nodes in the same file. -/
theorem weight_lt_of_mem_partsWhen
    (h : y ∈ x.partsWhen scope true) :
    Prod.Lex (· < ·) (· < ·) (y.weight scope) (x.weight scope) := by
  unfold partsWhen at h
  cases hx : x.node.map Node.unwrap with
  | none => simp [hx] at h
  | some e =>
    simp only [hx] at h
    split at h
    · exact .left _ _ (card_keysLeft_lt_of_mem_hop h)
    · exact .left _ _ (card_keysLeft_lt_of_mem_hop h)
    · obtain ⟨n, hn, rfl⟩ := List.mem_map.1 h
      obtain ⟨whole, hwhole, rfl⟩ := Option.map_eq_some_iff.1 hx
      refine .right _ ?_
      calc (n.map Node.count).getD 0
          < whole.unwrap.count := count_lt_of_mem_callParts hn
        _ ≤ whole.count := Node.count_unwrap_le whole
        _ = x.size := by simp [size, hwhole]
    · simp at h

/-- What holds of an expression when it holds of all its parts holds of every expression. -/
theorem induction_parts
    (scope : Scope)
    {P : Subject → Prop}
    (h : ∀ x, (∀ y ∈ x.partsWhen scope true, P y) → P x)
    (x : Subject) :
    P x := by
  have hwf : WellFounded (InvImage (Prod.Lex (· < ·) (· < ·)) (weight scope)) :=
    InvImage.wf _ (WellFounded.prod_lex Nat.lt_wfRel.wf Nat.lt_wfRel.wf)
  refine hwf.induction x fun x ih => h x fun y hy => ih y ?_
  exact weight_lt_of_mem_partsWhen hy

end Subject

end Termination

section Freely

variable {scope : Scope}

/-- With enough levels, more of them change nothing. -/
def Settles
    (scope : Scope)
    (x : Subject)
    (levels : Nat) :
    Prop :=
  ∀ more, levels ≤ more → x.readBy (readUpTo scope more) = x.readBy (readUpTo scope levels)

theorem Settles.mono
    {x : Subject}
    {levels more : Nat}
    (h : Settles scope x levels)
    (hle : levels ≤ more) :
    Settles scope x more :=
  fun most hmost => (h most (hle.trans hmost)).trans (h more hle).symm

theorem exists_settles_all
    {xs : List Subject}
    (h : ∀ x ∈ xs, ∃ levels, Settles scope x levels) :
    ∃ levels, ∀ x ∈ xs, Settles scope x levels := by
  induction xs with
  | nil => exact ⟨0, by simp⟩
  | cons x rest ih =>
    rw [List.forall_mem_cons] at h
    obtain ⟨m, hm⟩ := h.1
    obtain ⟨n, hn⟩ := ih h.2
    refine ⟨max m n, List.forall_mem_cons.2 ⟨hm.mono (le_max_left m n), fun y hy => ?_⟩⟩
    exact (hn y hy).mono (le_max_right m n)

/-- Some number of levels is enough for an expression. -/
theorem exists_settles
    (scope : Scope)
    (x : Subject) :
    ∃ levels, Settles scope x levels := by
  induction x using Subject.induction_parts scope with
  | h x ih =>
    obtain ⟨levels, hparts⟩ := exists_settles_all ih
    refine ⟨levels + 1, fun more hmore => ?_⟩
    obtain ⟨more, rfl⟩ := Nat.exists_eq_add_of_lt hmore
    rw [readUpTo_succ, readUpTo_succ]
    refine step_congr fun y hy => ?_
    exact hparts y (Subject.mem_partsWhen_true hy.mem) _ (by omega)

/-- The schema of an expression that is read without a bound on nesting: the one that all sufficiently
many levels give. -/
noncomputable def readFreely (scope : Scope) : Reading :=
  fun e file open_ =>
    readUpTo scope (Classical.choose (exists_settles scope ⟨e, file, open_⟩)) e file open_

theorem readBy_readFreely
    {x : Subject}
    {levels : Nat}
    (h : Settles scope x levels) :
    x.readBy (readFreely scope) = x.readBy (readUpTo scope levels) := by
  have hchosen := Classical.choose_spec (exists_settles scope x)
  rcases Nat.le_total levels (Classical.choose (exists_settles scope x)) with hle | hle
  · exact h _ hle
  · exact (hchosen _ hle).symm

/-- Reading without a bound keeps the rules at every level. -/
theorem readFreely_eq_step (scope : Scope) : readFreely scope = step scope (readFreely scope) := by
  funext e file open_
  let x : Subject := ⟨e, file, open_⟩
  obtain ⟨n, hx⟩ := exists_settles scope x
  obtain ⟨m, hparts⟩ := exists_settles_all fun y (_ : y ∈ x.partsWhen scope true) => exists_settles scope y
  have hle : n ≤ max n m + 1 := by omega
  calc x.readBy (readFreely scope)
      = x.readBy (readUpTo scope (max n m + 1)) := readBy_readFreely (hx.mono hle)
    _ = x.readBy (step scope (readUpTo scope (max n m))) := by rw [readUpTo_succ]
    _ = x.readBy (step scope (readFreely scope)) := by
      refine step_congr fun y hy => (readBy_readFreely ?_).symm
      exact (hparts y (Subject.mem_partsWhen_true hy.mem)).mono (le_max_right n m)

/-- Only one reading keeps the rules at every level. -/
theorem eq_of_eq_step
    {read read' : Reading}
    (h : read = step scope read)
    (h' : read' = step scope read') :
    read = read' := by
  suffices hsame : ∀ x : Subject, x.readBy read = x.readBy read' by
    funext e file open_
    exact hsame ⟨e, file, open_⟩
  intro x
  induction x using Subject.induction_parts scope with
  | h x ih =>
    rw [h, h']
    exact step_congr fun y hy => ih y (Subject.mem_partsWhen_true hy.mem)

theorem eq_step_iff
    {read : Reading} :
    read = step scope read ↔ read = readFreely scope := by
  constructor
  · exact fun h => eq_of_eq_step h (readFreely_eq_step scope)
  · rintro rfl
    exact readFreely_eq_step scope

end Freely

end RouteAtlas.Schema
