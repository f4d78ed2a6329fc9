import Mathlib
import RouteAtlas.Proofs.ExampleDepth

/-!
# One set of texts for all fields

Objects inside of objects of the same text are left empty. The texts of the objects around need not be
handed down for that: they can stand in one set, which an object that is written out adds its text to
and takes it from at its end, however that end is reached. Every part then finds the set as the part
before it did, so the example is the one for which the texts are handed down, and what a field gives
has nothing to do with the fields beside it.
-/

namespace RouteAtlas

/-- An object that was written out, with the objects that were written out for its fields. -/
inductive Expansion where
  | node (text : String) (inner : List Expansion)

namespace Expansion

/-- The texts along a path from an outermost object into the objects inside. -/
inductive IsPath : List Expansion → List String → Prop
  | nil {es : List Expansion} :
      IsPath es []
  | cons {es inner : List Expansion} {t : String} {path : List String}
      (h : .node t inner ∈ es) (hinner : IsPath inner path) :
      IsPath es (t :: path)

/-- Whether no path has a text twice, or one of the given texts. -/
def ApartFrom
    (texts : Finset String)
    (es : List Expansion) :
    Prop :=
  ∀ path, IsPath es path → path.Nodup ∧ ∀ t ∈ path, t ∉ texts

section Paths

variable {texts : Finset String}

theorem apartFrom_nil : ApartFrom texts [] := by
  rintro _ (_ | ⟨h, -⟩)
  · simp
  · cases h

theorem ApartFrom.append
    {es es' : List Expansion}
    (h : ApartFrom texts es)
    (h' : ApartFrom texts es') :
    ApartFrom texts (es ++ es') := by
  rintro _ (_ | ⟨hmem, hinner⟩)
  · simp
  · rcases List.mem_append.1 hmem with hmem | hmem
    · exact h _ (.cons hmem hinner)
    · exact h' _ (.cons hmem hinner)

theorem ApartFrom.node
    {t : String}
    {inner : List Expansion}
    (ht : t ∉ texts)
    (h : ApartFrom (insert t texts) inner) :
    ApartFrom texts [.node t inner] := by
  rintro _ (_ | ⟨hmem, hinner⟩)
  · simp
  · obtain ⟨rfl, rfl⟩ := node.inj (List.mem_singleton.1 hmem)
    obtain ⟨hnodup, hnew⟩ := h _ hinner
    simp only [Finset.mem_insert, not_or] at hnew
    refine ⟨List.nodup_cons.2 ⟨fun hmem => (hnew _ hmem).1 rfl, hnodup⟩, ?_⟩
    rw [List.forall_mem_cons]
    exact ⟨ht, fun t' ht' => (hnew t' ht').2⟩

end Paths

end Expansion

namespace Shape

open Expansion (ApartFrom IsPath)

/-- The texts of the objects that are being written out, and all objects that were written out so far
inside of the innermost one. -/
structure Visits where
  texts : Finset String
  expansions : List Expansion

/-- Writing that may fail, with one set of texts for all of its parts. What was done to the set stays
done when it fails. -/
abbrev Sharing (α : Type) : Type :=
  ExceptT Fault (StateM Visits) α

section Sharing

variable {α β : Type}

/-- The texts of the objects that are being written out. -/
def visitedTexts : Sharing (Finset String) :=
  return (← get).texts

/-- Writing out an object: its text is in the set for as long as that takes, and is taken from it at the
end and also when the writing fails. -/
def expanding
    (t : String)
    (body : Sharing α) :
    Sharing α :=
  ExceptT.mk fun before =>
    let (answer, after) := body.run ⟨insert t before.texts, []⟩
    (answer, ⟨after.texts.erase t, before.expansions ++ [.node t after.expansions]⟩)

/-- The examples of shapes, one after the other. -/
def examplesSharing (example? : Shape → Sharing (Option Value)) : List Shape → Sharing (List Value)
  | [] => pure []
  | s :: rest => do
    let v ← example? s
    let vs ← examplesSharing example? rest
    return v.toList ++ vs

/-- The entries of fields, one after the other. -/
def entriesSharing
    (example? : Field → Sharing (Option Value)) :
    List (String × Value) → List Field → Sharing (List (String × Value))
  | entries, [] => pure entries
  | entries, f :: rest =>
    if f.isWritten then do
      let v ← example? f
      entriesSharing example? (v.elim entries fun v => putEntry f.name v entries) rest
    else entriesSharing example? entries rest

/-- The example of a shape, written out to so many more levels, with the set of texts shared by all of
its parts. -/
def exampleSharing
    (fieldsOf : Shape → Except Fault (List Field))
    (typeOf : Field → Except Fault Shape) :
    Nat → Shape → Sharing (Option Value)
  | 0, _ => pure (some (.map []))
  | n + 1, s =>
    match s.layer with
    | .leaf v => pure v
    | .list items => do
      return some (.list (← examplesSharing (exampleSharing fieldsOf typeOf n) items))
    | .choice m => exampleSharing fieldsOf typeOf n m
    | .object t => do
      if t ∈ (← visitedTexts) then pure (some (.map []))
      else expanding t do
        let fs ← fieldsOf s
        let entries ← entriesSharing (fun f => do exampleSharing fieldsOf typeOf n (← typeOf f)) [] fs
        return some (.map entries)

/-- Whether some writing has an answer inside of objects with given texts: it has it whatever was
written out before, it leaves the texts as they are, and it never writes out an object inside of one of
the same text. -/
def Gives
    (texts : Finset String)
    (x : Sharing α)
    (answer : Except Fault α) :
    Prop :=
  ∀ before, ∃ new,
    x.run ⟨texts, before⟩ = (answer, ⟨texts, before ++ new⟩) ∧ ApartFrom texts new

variable {texts : Finset String}

theorem gives_lift (answer : Except Fault α) : Gives texts (liftM answer : Sharing α) answer :=
  fun before => ⟨[], by rw [List.append_nil]; rfl, Expansion.apartFrom_nil⟩

theorem gives_pure (a : α) : Gives texts (pure a : Sharing α) (.ok a) :=
  gives_lift (.ok a)

/-- A failure passes over what would come next, and the set stays as the first part left it. -/
theorem run_bind
    (x : Sharing α)
    (f : α → Sharing β)
    (before : Visits) :
    (x >>= f).run before =
      match x.run before with
      | (.error e, after) => (.error e, after)
      | (.ok a, after) => (f a).run after := by
  change (x.run >>= ExceptT.bindCont f).run before = _
  rw [StateT.run_bind]
  change ExceptT.bindCont f (x.run before).1 (x.run before).2 = _
  rcases x.run before with ⟨_ | _, _⟩ <;> rfl

theorem Gives.bind
    {x : Sharing α}
    {answer : Except Fault α}
    {f : α → Sharing β}
    {g : α → Except Fault β}
    (h : Gives texts x answer)
    (hnext : ∀ a, Gives texts (f a) (g a)) :
    Gives texts (x >>= f) (answer >>= g) := by
  intro before
  obtain ⟨new, hrun, hnew⟩ := h before
  rw [run_bind, hrun]
  cases answer with
  | error e => exact ⟨new, rfl, hnew⟩
  | ok a =>
    obtain ⟨new', hrun', hnew'⟩ := hnext a (before ++ new)
    exact ⟨new ++ new', by rw [← List.append_assoc]; exact hrun', hnew.append hnew'⟩

theorem run_expanding
    (t : String)
    (body : Sharing α)
    (before : Visits) :
    (expanding t body).run before =
      match body.run ⟨insert t before.texts, []⟩ with
      | (answer, after) =>
        (answer, ⟨after.texts.erase t, before.expansions ++ [.node t after.expansions]⟩) :=
  rfl

theorem Gives.of_visitedTexts
    {f : Finset String → Sharing α}
    {answer : Except Fault α}
    (h : Gives texts (f texts) answer) :
    Gives texts (visitedTexts >>= f) answer :=
  h

/-- However the writing of an object ends, the set is the one that it began with. -/
theorem Gives.expanding
    {t : String}
    {body : Sharing α}
    {answer : Except Fault α}
    (ht : t ∉ texts)
    (h : Gives (insert t texts) body answer) :
    Gives texts (expanding t body) answer := by
  intro before
  obtain ⟨inner, hrun, hinner⟩ := h []
  refine ⟨[.node t inner], ?_, hinner.node ht⟩
  rw [run_expanding, hrun]
  simp only [Finset.erase_insert ht, List.nil_append]

theorem gives_examplesSharing
    {shared : Shape → Sharing (Option Value)}
    {example? : Shape → Except Fault (Option Value)}
    (h : ∀ s, Gives texts (shared s) (example? s))
    (ss : List Shape) :
    Gives texts (examplesSharing shared ss) (examplesOf example? ss) := by
  induction ss with
  | nil => exact gives_pure []
  | cons s rest ih => exact (h s).bind fun v => ih.bind fun vs => gives_pure _

theorem gives_entriesSharing
    {shared : Field → Sharing (Option Value)}
    {example? : Field → Except Fault (Option Value)}
    (h : ∀ f, Gives texts (shared f) (example? f))
    (entries : List (String × Value))
    (fs : List Field) :
    Gives texts (entriesSharing shared entries fs) (entriesOf example? entries fs) := by
  induction fs generalizing entries with
  | nil => exact gives_pure entries
  | cons f rest ih =>
    rw [entriesSharing]
    cases hf : f.isWritten with
    | false =>
      rw [entriesOf_cons_of_not_isWritten hf]
      exact ih entries
    | true =>
      rw [entriesOf_cons_of_isWritten hf]
      exact (h f).bind fun v => ih _

/-- Every part of an example finds the set as it was when the example was begun. -/
theorem gives_exampleSharing
    {fieldsOf : Shape → Except Fault (List Field)}
    {typeOf : Field → Except Fault Shape}
    (n : Nat)
    (around : List String)
    (s : Shape) :
    Gives around.toFinset (exampleSharing fieldsOf typeOf n s)
      (exampleUsing fieldsOf typeOf n around s) := by
  induction n generalizing around s with
  | zero => exact gives_pure _
  | succ n ih =>
    rw [exampleUsing_succ, exampleSharing]
    cases s.layer with
    | leaf v => exact gives_pure v
    | list items => exact (gives_examplesSharing (ih around) items).bind fun vs => gives_pure _
    | choice m => exact ih around m
    | object t =>
      refine Gives.of_visitedTexts ?_
      simp only [List.mem_toFinset, List.contains_iff_mem]
      by_cases ht : t ∈ around
      · rw [if_pos ht, if_pos ht]
        exact gives_pure _
      · rw [if_neg ht, if_neg ht]
        have hfields : ∀ f, Gives (t :: around).toFinset
            (do exampleSharing fieldsOf typeOf n (← typeOf f))
            (do exampleUsing fieldsOf typeOf n (t :: around) (← typeOf f)) :=
          fun f => (gives_lift (typeOf f)).bind fun m => ih (t :: around) m
        refine Gives.expanding (by rwa [List.mem_toFinset]) ?_
        rw [← List.toFinset_cons]
        exact (gives_lift (fieldsOf s)).bind fun fs =>
          (gives_entriesSharing hfields [] fs).bind fun entries => gives_pure _

end Sharing

section Siblings

variable {example? : Field → Except Fault (Option Value)}

/-- What a name stands for after one more field of that name. -/
def valueAfter
    (example? : Field → Except Fault (Option Value))
    (found : Option Value)
    (f : Field) :
    Option Value :=
  match f.isWritten, example? f with
  | true, .ok (some v) => some v
  | _, _ => found

/-- What an example has under a name is told by the fields of that name alone. -/
theorem entryOf?_of_entriesOf
    {entries es : List (String × Value)}
    {fs : List Field}
    (h : entriesOf example? entries fs = .ok es)
    (x : String) :
    entryOf? x es =
      (fs.filter (·.name == x)).foldl (valueAfter example?) (entryOf? x entries) := by
  induction fs generalizing entries with
  | nil =>
    cases h
    rfl
  | cons f rest ih =>
    cases hf : f.isWritten with
    | false =>
      rw [entriesOf_cons_of_not_isWritten hf] at h
      rw [ih h, List.filter_cons]
      split
      · rw [List.foldl_cons, valueAfter, hf]
      · rfl
    | true =>
      rw [entriesOf_cons_of_isWritten hf] at h
      obtain ⟨v, hv, h⟩ := exists_of_bind_eq_ok h
      rw [ih h, List.filter_cons]
      cases v with
      | none =>
        split
        · rw [List.foldl_cons, valueAfter, hf, hv]
          rfl
        · rfl
      | some v =>
        rw [Option.elim, entryOf?_putEntry]
        by_cases hx : f.name = x
        · rw [if_pos hx, if_pos (by simpa using hx), List.foldl_cons, valueAfter, hf, hv]
        · rw [if_neg hx, if_neg (by simpa using hx)]

theorem exists_entriesOf_of_subset
    {fs fs' : List Field}
    {es : List (String × Value)}
    (h : entriesOf example? [] fs = .ok es)
    (hsub : fs' ⊆ fs) :
    ∃ es', entriesOf example? [] fs' = .ok es' ∧
      ∀ x, fs'.filter (·.name == x) = fs.filter (·.name == x) → entryOf? x es' = entryOf? x es := by
  have hforced := exists_entriesOf_iff.1 ⟨es, h⟩
  obtain ⟨es', h'⟩ := exists_entriesOf_iff.2 fun f hf => hforced f (hsub hf)
  refine ⟨es', h', fun x hx => ?_⟩
  rw [entryOf?_of_entriesOf h, entryOf?_of_entriesOf h', hx]

variable {fieldsOf : Shape → Except Fault (List Field)}
variable {typeOf : Field → Except Fault Shape}

/-- An object with some of the fields of another one of its text, in any order, has for each name what
the other one has for it if the fields of that name are the same. -/
theorem exists_exampleUsing_of_subset
    {n : Nat}
    {around : List String}
    {t : String}
    {name name' : Option String}
    {fields fields' : Fields}
    {fs fs' : List Field}
    (hfs : fieldsOf (object t name fields) = .ok fs)
    (hfs' : fieldsOf (object t name' fields') = .ok fs')
    (hsub : fs' ⊆ fs)
    {es : List (String × Value)}
    (h : exampleUsing fieldsOf typeOf n around (object t name fields) = .ok (some (.map es))) :
    ∃ es', exampleUsing fieldsOf typeOf n around (object t name' fields') = .ok (some (.map es')) ∧
      ∀ x, fs'.filter (·.name == x) = fs.filter (·.name == x) → entryOf? x es' = entryOf? x es := by
  cases n with
  | zero => exact ⟨es, h, fun _ _ => rfl⟩
  | succ n =>
    have hlayer : (object t name' fields').layer = (object t name fields).layer := rfl
    rw [exampleUsing_succ] at h ⊢
    rw [hlayer, hfs']
    by_cases hword : (t == "true" || t == "false") = true
    · have hleaf : (object t name fields).layer = .leaf (some (.bool (t == "true"))) := by
        rw [layer, text, if_pos hword]
      simp [hleaf] at h
    have hobject : (object t name fields).layer = .object t := by
      rw [layer, text, if_neg hword]
    simp only [hobject, hfs] at h ⊢
    split at h
    · exact ⟨es, by rw [if_pos ‹_›]; exact h, fun _ _ => rfl⟩
    · obtain ⟨_, hread, h⟩ := exists_of_bind_eq_ok h
      obtain rfl := Except.ok.inj hread
      obtain ⟨entries, hentries, h⟩ := exists_of_bind_eq_ok h
      cases h
      obtain ⟨es', hes', hsame⟩ := exists_entriesOf_of_subset hentries hsub
      refine ⟨es', ?_, hsame⟩
      rw [if_neg ‹_›]
      exact congrArg (· >>= fun entries => pure (some (Value.map entries))) hes'

end Siblings

section Results

variable (fieldsOf : Shape → Except Fault (List Field))
variable (typeOf : Field → Except Fault Shape)

/-- At any depth and inside of objects with any texts, an example that shares one set of texts is the one
for which the texts are handed down. The set is left as it was found, also by a failure, and no text is
written out twice on the way into an object. Fields that are taken away or put into another order change
nothing of what the others give. The text that an object is known by stays the same in that. -/
theorem exampleSharing_leaves_texts
    (maxDepth depth : Int)
    (around : List String)
    (before : List Expansion) :
    (∀ s, ∃ new,
      (exampleSharing fieldsOf typeOf (maxDepth + 1 - depth).toNat s).run ⟨around.toFinset, before⟩ =
        (exampleUsing fieldsOf typeOf (maxDepth + 1 - depth).toNat around s,
          ⟨around.toFinset, before ++ new⟩) ∧
      ∀ path, IsPath new path → path.Nodup ∧ ∀ t ∈ path, t ∉ around) ∧
    (∀ t name name' fields fields' fs fs' es,
      fieldsOf (object t name fields) = .ok fs →
      fieldsOf (object t name' fields') = .ok fs' →
      fs' ⊆ fs →
      ((exampleSharing fieldsOf typeOf (maxDepth + 1 - depth).toNat (object t name fields)).run
        ⟨around.toFinset, before⟩).1 = .ok (some (.map es)) →
      ∃ es',
        ((exampleSharing fieldsOf typeOf (maxDepth + 1 - depth).toNat (object t name' fields')).run
          ⟨around.toFinset, before⟩).1 = .ok (some (.map es')) ∧
        ∀ x, fs'.filter (·.name == x) = fs.filter (·.name == x) → entryOf? x es' = entryOf? x es) ∧
    ∀ scope s,
      ((exampleSharing (fieldList scope) (Field.shape scope) (maxDepth + 1).toNat s).run ⟨∅, []⟩).1 =
        s.example? scope maxDepth := by
  have hanswer : ∀ s,
      ((exampleSharing fieldsOf typeOf (maxDepth + 1 - depth).toNat s).run
        ⟨around.toFinset, before⟩).1 =
        exampleUsing fieldsOf typeOf (maxDepth + 1 - depth).toNat around s := by
    intro s
    obtain ⟨new, hrun, -⟩ := gives_exampleSharing (maxDepth + 1 - depth).toNat around s before
    rw [hrun]
  refine ⟨fun s => ?_, ?_, fun scope s => ?_⟩
  · obtain ⟨new, hrun, hnew⟩ := gives_exampleSharing (maxDepth + 1 - depth).toNat around s before
    exact ⟨new, hrun, by simpa only [Expansion.ApartFrom, List.mem_toFinset] using hnew⟩
  · intro t name name' fields fields' fs fs' es hfs hfs' hsub h
    rw [hanswer] at h ⊢
    exact exists_exampleUsing_of_subset hfs hfs' hsub h
  · obtain ⟨new, hrun, -⟩ := gives_exampleSharing (maxDepth + 1).toNat [] s []
    exact congrArg Prod.fst hrun

end Results

section Trees

/-- The fields of a tree, a name and two lists of branches. -/
def treeFields : List Field :=
  [⟨"name", false, false, none⟩, ⟨"left", false, false, none⟩, ⟨"right", false, false, none⟩]

/-- Some of the fields of a tree, in another order. -/
def prunedFields : List Field :=
  [⟨"right", false, false, none⟩, ⟨"name", false, false, none⟩]

/-- The fields of trees, of pruned trees, and of branches, which have a tree and a name. -/
def fieldsOfTree : Shape → Except Fault (List Field)
  | object "Tree" none _ => .ok treeFields
  | object "Tree" (some _) _ => .ok prunedFields
  | object "Branch" _ _ => .ok [⟨"tree", false, false, none⟩, ⟨"name", false, false, none⟩]
  | _ => .error .unexpectedType

def typeInTree (f : Field) : Except Fault Shape :=
  match f.name with
  | "name" => .ok (plain .string "string")
  | "tree" => .ok (object "Tree" none .absent)
  | _ => .ok (array "Branch[]" (object "Branch" none .absent))

/-- The example of a tree. The branches of both lists are written out, and the trees inside of them are
left empty. -/
def treeEntries : List (String × Value) :=
  [("name", .str ""),
    ("left", .list [.map [("tree", .map []), ("name", .str "")]]),
    ("right", .list [.map [("tree", .map []), ("name", .str "")]])]

theorem exampleSharing_leaves_texts_pruned :
    fieldsOfTree (object "Tree" none .absent) = .ok treeFields ∧
      fieldsOfTree (object "Tree" (some "Pruned") .absent) = .ok prunedFields ∧
      prunedFields ⊆ treeFields ∧
      ((exampleSharing fieldsOfTree typeInTree (3 + 1 - 0 : Int).toNat (object "Tree" none .absent)).run
        ⟨["Forest"].toFinset, []⟩).1 = .ok (some (.map treeEntries)) ∧
      ∃ es',
        ((exampleSharing fieldsOfTree typeInTree (3 + 1 - 0 : Int).toNat
          (object "Tree" (some "Pruned") .absent)).run ⟨["Forest"].toFinset, []⟩).1 =
          .ok (some (.map es')) ∧
        ∀ x, prunedFields.filter (·.name == x) = treeFields.filter (·.name == x) →
          entryOf? x es' = entryOf? x treeEntries := by
  have hsub : prunedFields ⊆ treeFields := by simp [prunedFields, treeFields]
  exact ⟨rfl, rfl, hsub, rfl, (exampleSharing_leaves_texts fieldsOfTree typeInTree 3 0 ["Forest"] []).2.1
    "Tree" none (some "Pruned") .absent .absent _ _ _ rfl rfl hsub rfl⟩

end Trees

end Shape

end RouteAtlas
