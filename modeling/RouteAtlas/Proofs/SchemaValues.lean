import Mathlib
import RouteAtlas.Proofs.Entries
import RouteAtlas.Proofs.PrintedValues
import RouteAtlas.Proofs.SchemaChains
import RouteAtlas.Schema.Interpret

/-!
# The values of schemas

Whatever a source file holds, the values that are read from it are sound, and so are the defaults, the
options and the examples of the schemas that its expressions stand for. This is why the example of a
schema may be written as a body and read again.
-/

namespace RouteAtlas

open Binary64

section Soundness

theorem Value.areSound_iff {items : List Value} :
    Value.AreSound items ↔ ∀ v ∈ items, v.IsSound := by
  induction items with
  | nil => simp [Value.AreSound]
  | cons v rest ih => simp [Value.AreSound, ih]

theorem Value.entriesAreSound_iff {entries : List (String × Value)} :
    Value.EntriesAreSound entries ↔ ∀ e ∈ entries, e.2.IsSound := by
  induction entries with
  | nil => simp [Value.EntriesAreSound]
  | cons e rest ih => simp [Value.EntriesAreSound, ih]

/-- A floating-point number as reading gives it. -/
def Binary64.IsSound : Binary64 → Prop
  | .finite _ m e => IsRounded m e
  | _ => True

theorem Value.isSound_float {x : Binary64} : (Value.float x).IsSound ↔ x.IsSound := by
  cases x <;> simp [Value.IsSound, Binary64.IsSound]

theorem Binary64.isSound_ofDecimal
    (negative : Bool)
    (d : Nat)
    (s : Int) :
    (ofDecimal negative d s).IsSound := by
  cases h : ofDecimal negative d s with
  | finite negative' m e => exact isRounded_of_ofDecimal h
  | infinite _ => trivial
  | notANumber => trivial

theorem Numeral.isSound_of_readFloat?
    {s : String}
    {x : Binary64}
    (h : readFloat? s = some x) :
    x.IsSound := by
  unfold readFloat? at h
  split at h
  · cases h
  · dsimp only at h
    split at h
    · next y hnamed =>
      obtain rfl := Option.some.inj h
      unfold readNamed? at hnamed
      dsimp only at hnamed
      split at hnamed
      · obtain rfl := Option.some.inj hnamed
        trivial
      · split at hnamed
        · obtain rfl := Option.some.inj hnamed
          trivial
        · cases hnamed
    · obtain ⟨d, -, rfl⟩ := Option.map_eq_some_iff.1 h
      exact isSound_ofDecimal _ _ _

end Soundness

namespace Syntax

section Literals

theorem isSound_of_numberValue?
    {text : String}
    {v : Value}
    (h : numberValue? text = some v) :
    v.IsSound := by
  unfold numberValue? at h
  dsimp only at h
  split at h
  · obtain rfl := Option.some.inj h
    trivial
  · split at h
    · obtain ⟨i, -, rfl⟩ := Option.map_eq_some_iff.1 h
      trivial
    · obtain ⟨x, hx, rfl⟩ := Option.map_eq_some_iff.1 h
      exact Value.isSound_float.2 (Numeral.isSound_of_readFloat? hx)

theorem isSound_negated
    {v : Value}
    (h : v.IsSound) :
    (negated v).IsSound := by
  unfold negated
  split
  · trivial
  · next x =>
    rw [Value.isSound_float] at h ⊢
    cases x <;> exact h
  · exact h

namespace Node

theorem isSound_of_literalValue?
    {n : Node}
    {v : Value}
    (h : n.literalValue? = some v) :
    v.IsSound := by
  unfold literalValue? at h
  dsimp only at h
  split at h
  · obtain rfl := Option.some.inj h
    trivial
  · split at h
    · exact isSound_of_numberValue? h
    · obtain rfl := Option.some.inj h
      trivial
    · obtain rfl := Option.some.inj h
      trivial
    · obtain rfl := Option.some.inj h
      trivial
    · obtain rfl := Option.some.inj h
      trivial
    · split at h
      · split at h
        · obtain ⟨w, hw, rfl⟩ := Option.map_eq_some_iff.1 h
          exact isSound_negated (isSound_of_numberValue? hw)
        · cases h
      · cases h
    · cases h

theorem forall_of_mapM_eq_some
    {α β : Type}
    {P : β → Prop}
    {f : α → Option β}
    (h : ∀ a b, f a = some b → P b)
    {as : List α}
    {bs : List β}
    (hbs : as.mapM f = some bs) :
    ∀ b ∈ bs, P b := by
  induction as generalizing bs with
  | nil =>
    obtain rfl : bs = [] := by simpa using hbs.symm
    simp
  | cons a rest ih =>
    rw [List.mapM_cons] at hbs
    obtain ⟨b, hb, hbs⟩ := Option.bind_eq_some_iff.1 hbs
    obtain ⟨more, hmore, hbs⟩ := Option.bind_eq_some_iff.1 hbs
    obtain rfl := Option.some.inj hbs
    exact List.forall_mem_cons.2 ⟨h a b hb, ih hmore⟩

theorem isSound_of_staticUpTo
    {depth : Nat}
    {n : Node}
    {v : Value}
    (h : staticUpTo depth n = some v) :
    v.IsSound := by
  induction depth generalizing n v with
  | zero => simp [staticUpTo] at h
  | succ depth ih =>
    rw [staticUpTo] at h
    split at h
    · obtain ⟨items, hitems, rfl⟩ := Option.map_eq_some_iff.1 h
      exact Value.areSound_iff.2 (forall_of_mapM_eq_some (fun _ _ => ih) hitems)
    · obtain ⟨entries, hentries, rfl⟩ := Option.map_eq_some_iff.1 h
      refine ⟨nodup_keys_ofPairs entries, Value.entriesAreSound_iff.2 ?_⟩
      refine forall_mem_ofPairs (forall_of_mapM_eq_some (fun p e he => ?_) hentries)
      obtain ⟨w, hw, rfl⟩ := Option.map_eq_some_iff.1 he
      exact ih hw
    · exact isSound_of_literalValue? h

/-- A static value is sound. -/
theorem isSound_of_staticValue?
    {n : Node}
    {v : Value}
    (h : n.staticValue? = some v) :
    v.IsSound :=
  isSound_of_staticUpTo h

end Node

end Literals

end Syntax

namespace Schema

section Schemas

mutual

/-- A schema that has sound values only, and under no key two schemas. -/
def IsSound : Schema → Prop
  | ⟨_, _, _, default, literal, options, children, items, _⟩ =>
    (∀ v ∈ default, v.IsSound) ∧ literal.IsSound ∧ (∀ v ∈ options, v.IsSound) ∧
      ItemsAreSound items ∧ ChildrenAreSound children

/-- Whether the schema of the items of a list is sound. -/
def ItemsAreSound : Option Schema → Prop
  | none => True
  | some s => IsSound s

/-- Whether the schemas of the entries of a mapping are sound, and no key comes twice. -/
def ChildrenAreSound : Option (List (String × Schema)) → Prop
  | none => True
  | some children => (children.map Prod.fst).Nodup ∧ EntriesAreSound children

/-- Whether the schemas of all entries are sound. -/
def EntriesAreSound : List (String × Schema) → Prop
  | [] => True
  | (_, s) :: rest => IsSound s ∧ EntriesAreSound rest

end

theorem isSound_iff {s : Schema} :
    s.IsSound ↔ (∀ v ∈ s.default, v.IsSound) ∧ s.literal.IsSound ∧ (∀ v ∈ s.options, v.IsSound) ∧
      ItemsAreSound s.items ∧ ChildrenAreSound s.children := by
  cases s
  rw [IsSound]

theorem entriesAreSound_iff {entries : List (String × Schema)} :
    EntriesAreSound entries ↔ ∀ e ∈ entries, e.2.IsSound := by
  induction entries with
  | nil => simp [EntriesAreSound]
  | cons e rest ih => simp [EntriesAreSound, ih]

theorem isSound_ofKind (kind : SchemaKind) : (ofKind kind).IsSound := by
  simp [isSound_iff, ofKind, ItemsAreSound, ChildrenAreSound, Value.IsSound]

theorem isSound_unknown (reason : String) : (unknown reason).IsSound := by
  simp [isSound_iff, unknown, ofKind, ItemsAreSound, ChildrenAreSound, Value.IsSound]

theorem isSound_arrayOf
    {items : Option Schema}
    (h : ItemsAreSound items) :
    (arrayOf items).IsSound := by
  simpa [isSound_iff, arrayOf, ofKind, ChildrenAreSound, Value.IsSound] using h

theorem isSound_objectOf
    {children : List (String × Schema)}
    (hkeys : (children.map Prod.fst).Nodup)
    (h : ∀ c ∈ children, c.2.IsSound) :
    (objectOf children).IsSound := by
  simpa [isSound_iff, objectOf, ofKind, ItemsAreSound, ChildrenAreSound, Value.IsSound, hkeys,
    entriesAreSound_iff] using h

theorem isSound_enumOf
    {options : List Value}
    (h : ∀ v ∈ options, v.IsSound) :
    (enumOf options).IsSound := by
  simpa [isSound_iff, enumOf, ofKind, ItemsAreSound, ChildrenAreSound, Value.IsSound] using h

theorem isSound_literalOf
    {v : Value}
    (h : v.IsSound) :
    (literalOf v).IsSound := by
  simpa [isSound_iff, literalOf, ofKind, ItemsAreSound, ChildrenAreSound, Value.IsSound] using h

/-- Examples of entries have keys among those of the entries, in their order. -/
theorem keys_exampleEntries_sublist (entries : List (String × Schema)) :
    ((exampleEntries entries).map Prod.fst).Sublist (entries.map Prod.fst) := by
  induction entries with
  | nil => simp [exampleEntries]
  | cons e rest ih =>
    obtain ⟨k, s⟩ := e
    rw [exampleEntries]
    split
    · exact ih.cons_cons k
    · exact ih.cons k

theorem isSound_exampleWith
    {s : Schema}
    {item : Option Value}
    {entries : List (String × Value)}
    {v : Value}
    (hs : s.IsSound)
    (hitem : ∀ w ∈ item, w.IsSound)
    (hentries : (Value.map entries).IsSound)
    (h : exampleWith s item entries = some v) :
    v.IsSound := by
  obtain ⟨hdefault, hliteral, hoptions, -, -⟩ := isSound_iff.1 hs
  unfold exampleWith at h
  split at h
  · next w hw =>
    obtain rfl := Option.some.inj h
    exact hdefault w hw
  · split at h
    · obtain rfl := Option.some.inj h
      trivial
    · split at h
      · cases h
      · split at h <;> obtain rfl := Option.some.inj h
        · trivial
        · trivial
        · trivial
        · exact Value.areSound_iff.2 fun w hw => hitem w (Option.mem_toList.1 hw)
        · exact hentries
        · cases hs : s.options with
          | nil => trivial
          | cons w rest => exact hoptions w (hs ▸ List.mem_cons_self)
        · exact hliteral
        · trivial

mutual

/-- The example of a sound schema is sound. -/
theorem isSound_of_example? (s : Schema) :
    s.IsSound → ∀ v, s.example? = some v → v.IsSound := by
  intro hs v h
  obtain ⟨kind, optional, nullable, default, literal, options, children, items, reason⟩ := s
  rw [example?] at h
  obtain ⟨-, -, -, hitems, hchildren⟩ := isSound_iff.1 hs
  refine isSound_exampleWith hs ?_ (isSound_exampleOfChildren children hchildren) h
  exact isSound_of_exampleOfItems items hitems

theorem isSound_of_exampleOfItems (items : Option Schema) :
    ItemsAreSound items → ∀ v, exampleOfItems items = some v → v.IsSound := by
  intro hs v h
  cases items with
  | none => simp [exampleOfItems] at h
  | some s =>
    rw [exampleOfItems] at h
    exact isSound_of_example? s hs v h

theorem isSound_exampleOfChildren (children : Option (List (String × Schema))) :
    ChildrenAreSound children → (Value.map (exampleOfChildren children)).IsSound := by
  intro hs
  cases children with
  | none => exact ⟨List.nodup_nil, trivial⟩
  | some children =>
    rw [exampleOfChildren]
    exact ⟨hs.1.sublist (keys_exampleEntries_sublist children),
      entriesAreSound_exampleEntries children hs.2⟩

theorem entriesAreSound_exampleEntries (entries : List (String × Schema)) :
    EntriesAreSound entries → Value.EntriesAreSound (exampleEntries entries) := by
  intro hs
  cases entries with
  | nil => trivial
  | cons e rest =>
    obtain ⟨k, s⟩ := e
    obtain ⟨hfirst, hrest⟩ := hs
    have hmore := entriesAreSound_exampleEntries rest hrest
    rw [exampleEntries]
    split
    · next v hv => exact ⟨isSound_of_example? s hfirst v hv, hmore⟩
    · exact hmore

end

end Schemas

section Computations

variable {α β : Type}

/-- Whether a computation gives nothing else than what has a property. -/
def Gives
    (P : α → Prop)
    (e : Except Fault α) :
    Prop :=
  ∀ a, e = .ok a → P a

theorem gives_ok
    {P : α → Prop}
    {a : α}
    (h : P a) :
    Gives P (.ok a) := by
  rintro b hb
  exact Except.ok.inj hb ▸ h

theorem Gives.bind
    {P : α → Prop}
    {Q : β → Prop}
    {e : Except Fault α}
    {f : α → Except Fault β}
    (h : Gives P e)
    (hf : ∀ a, P a → Gives Q (f a)) :
    Gives Q (e >>= f) := by
  cases e with
  | error fault => nofun
  | ok a => exact hf a (h a rfl)

theorem gives_any (e : Except Fault α) : Gives (fun _ => True) e :=
  fun _ _ => trivial

theorem gives_mapM
    {P : β → Prop}
    {f : α → Except Fault β}
    (h : ∀ a, Gives P (f a))
    (as : List α) :
    Gives (fun bs => ∀ b ∈ bs, P b) (as.mapM f) := by
  induction as with
  | nil => exact gives_ok (by simp)
  | cons a rest ih =>
    rw [List.mapM_cons]
    exact (h a).bind fun b hb => ih.bind fun bs hbs => gives_ok (List.forall_mem_cons.2 ⟨hb, hbs⟩)

end Computations

section Chains

open Syntax Project

variable {read : Reading} {scope : Scope} {file : SourceFile} {open_ : List (Files.Path × String)}

/-- Entries of which every schema is sound and no key comes twice. -/
def AreEntries (children : List (String × Schema)) : Prop :=
  (children.map Prod.fst).Nodup ∧ ∀ c ∈ children, c.2.IsSound

theorem IsSound.areEntries
    {s : Schema}
    (h : s.IsSound) :
    AreEntries (s.children.getD []) := by
  obtain ⟨-, -, -, -, hchildren⟩ := isSound_iff.1 h
  cases hc : s.children with
  | none => exact ⟨List.nodup_nil, by simp⟩
  | some children =>
    rw [hc] at hchildren
    exact ⟨hchildren.1, entriesAreSound_iff.1 hchildren.2⟩

theorem IsSound.withChildren
    {s : Schema}
    (h : s.IsSound)
    {children : List (String × Schema)}
    (hchildren : AreEntries children) :
    IsSound { s with children := some children } := by
  obtain ⟨hdefault, hliteral, hoptions, hitems, -⟩ := isSound_iff.1 h
  exact isSound_iff.2 ⟨hdefault, hliteral, hoptions, hitems, hchildren.1,
    entriesAreSound_iff.2 hchildren.2⟩

/-- What a schema accepts besides does not matter. -/
theorem IsSound.withOptional
    {s : Schema}
    (h : s.IsSound)
    (optional nullable : Bool) :
    IsSound { s with optional := optional, nullable := nullable } := by
  rw [isSound_iff] at h ⊢
  exact h

theorem AreEntries.putAll
    {children more : List (String × Schema)}
    (h : AreEntries children)
    (hmore : ∀ c ∈ more, c.2.IsSound) :
    AreEntries (more.foldl (fun acc c => putEntry c.1 c.2 acc) children) := by
  induction more generalizing children with
  | nil => exact h
  | cons c rest ih =>
    rw [List.forall_mem_cons] at hmore
    exact ih ⟨nodup_keys_putEntry c.1 c.2 h.1, forall_mem_putEntry hmore.1 h.2⟩ hmore.2

theorem isSound_modified
    {s : Schema}
    (h : s.IsSound)
    (method : String)
    (args : List Node) :
    (modified s method args).IsSound := by
  unfold modified
  split
  · exact h.withOptional true s.nullable
  · exact h.withOptional s.optional true
  · exact h.withOptional true true
  · split
    · next v hv =>
      obtain ⟨n, -, hn⟩ := Option.bind_eq_some_iff.1 hv
      obtain ⟨-, hrest⟩ := isSound_iff.1 h
      refine isSound_iff.2 ⟨?_, hrest⟩
      rintro w hw
      exact Option.some.inj hw ▸ Node.isSound_of_staticValue? hn
    · exact h

theorem isSound_listedOptions (arg : Option Node) : ∀ v ∈ listedOptions arg, v.IsSound := by
  unfold listedOptions
  split
  · next items hitems =>
    obtain ⟨n, -, hn⟩ := Option.bind_eq_some_iff.1 hitems
    exact fun v hv =>
      Value.areSound_iff.1 (Node.isSound_of_staticValue? hn) v (List.mem_of_mem_filter hv)
  · simp

theorem isSound_memberValues
    (members : List Node)
    (next : Int) :
    ∀ v ∈ memberValues next members, v.IsSound := by
  induction members generalizing next with
  | nil => simp [memberValues]
  | cons m rest ih =>
    unfold memberValues
    split
    · split
      · exact ih next
      · next v hv =>
        obtain ⟨n, -, hn⟩ := Option.bind_eq_some_iff.1 hv
        exact List.forall_mem_cons.2 ⟨Node.isSound_of_literalValue? hn, ih _⟩
    · exact List.forall_mem_cons.2 ⟨trivial, ih _⟩
    · exact List.forall_mem_cons.2 ⟨trivial, ih _⟩
    · exact ih next

theorem gives_enumerationValues (arg : Option Node) :
    Gives (fun vs => ∀ v ∈ vs, v.IsSound) (enumerationValues scope file arg) := by
  unfold enumerationValues
  split
  · exact gives_ok (by simp)
  · split
    · refine (gives_any _).bind fun found _ => ?_
      split
      · exact gives_ok (by simp)
      · split
        · exact gives_ok (isSound_memberValues _ 0)
        · exact gives_ok (by simp)
    · exact gives_ok (by simp)

/-- Whether nothing else than sound schemas is read. -/
def Reading.IsSound (read : Reading) : Prop :=
  ∀ e file open_, Gives Schema.IsSound (read e file open_)

section Steps

variable (h : read.IsSound)
include h

theorem gives_shape (arg : Option Node) : Gives AreEntries (shape read file open_ arg) := by
  unfold shape
  have hentries := gives_mapM (P := fun c : String × Schema => c.2.IsSound)
    (fun p : Node.Property => (h (some p.value) file open_).bind fun s hs =>
      gives_ok (a := (p.name, s)) hs) ((arg.map Node.properties).getD [])
  exact hentries.bind fun cs hcs => gives_ok ⟨nodup_keys_ofPairs cs, forall_mem_ofPairs hcs⟩

theorem gives_constructed
    (name : String)
    (args : List Node) :
    Gives IsSound (constructed read scope file open_ name args) := by
  unfold constructed
  split
  · exact gives_ok (isSound_ofKind _)
  · split
    · split
      · exact gives_ok (isSound_arrayOf trivial)
      · exact (h _ _ _).bind fun s hs => gives_ok (isSound_arrayOf hs)
    · exact (gives_shape h _).bind fun cs hcs => gives_ok (isSound_objectOf hcs.1 hcs.2)
    · exact (gives_shape h _).bind fun cs hcs => gives_ok (isSound_objectOf hcs.1 hcs.2)
    · exact (gives_shape h _).bind fun cs hcs => gives_ok (isSound_objectOf hcs.1 hcs.2)
    · exact gives_ok (isSound_enumOf (isSound_listedOptions _))
    · exact (gives_enumerationValues _).bind fun vs hvs => gives_ok (isSound_enumOf hvs)
    · refine gives_ok (isSound_literalOf ?_)
      cases hv : args.head?.bind Node.literalValue? with
      | none => trivial
      | some v =>
        obtain ⟨n, -, hn⟩ := Option.bind_eq_some_iff.1 hv
        exact Node.isSound_of_literalValue? hn
    · split
      · split
        · exact h _ _ _
        · exact gives_ok (isSound_unknown _)
      · exact gives_ok (isSound_unknown _)
    · split
      · split
        · exact h _ _ _
        · exact gives_ok (isSound_unknown _)
      · exact gives_ok (isSound_unknown _)
    · exact gives_ok (isSound_objectOf List.nodup_nil (by simp))
    · exact gives_ok (isSound_unknown _)
    · split
      · exact (h _ _ _).bind fun s hs => gives_ok (hs.withOptional true s.nullable)
      · exact (h _ _ _).bind fun s hs => gives_ok (hs.withOptional s.optional true)
      · exact gives_ok (isSound_unknown _)

theorem gives_reshaped
    {s : Schema}
    (hs : s.IsSound)
    (method : String)
    (args : List Node) :
    Gives IsSound (reshaped read file open_ s method args) := by
  have hchildren := hs.areEntries
  have hkept (p : String × Schema → Bool) : AreEntries ((s.children.getD []).filter p) :=
    ⟨hchildren.1.sublist (List.filter_sublist.map _),
      fun c hc => hchildren.2 c (List.mem_of_mem_filter hc)⟩
  have hmade (optional : Bool) :
      AreEntries ((s.children.getD []).map fun c => (c.1, { c.2 with optional := optional })) := by
    refine ⟨by rw [List.map_map]; exact hchildren.1, List.forall_mem_map.2 fun c hc => ?_⟩
    exact (hchildren.2 c hc).withOptional optional c.2.nullable
  unfold reshaped
  dsimp only
  split
  · exact gives_ok (hs.withChildren (hmade true))
  · exact gives_ok (hs.withChildren (hmade false))
  · exact (gives_shape h _).bind fun cs hcs => gives_ok (hs.withChildren (hchildren.putAll hcs.2))
  · exact (h _ _ _).bind fun other hother =>
      gives_ok (hs.withChildren (hchildren.putAll hother.areEntries.2))
  · exact gives_ok (hs.withChildren (hkept _))
  · exact gives_ok (hs.withChildren (hkept _))
  · exact gives_ok hs

theorem gives_applied
    {s : Schema}
    (hs : s.IsSound)
    (method : String)
    (args : List Node) :
    Gives IsSound (applied read file open_ s method args) := by
  unfold applied
  split
  · exact gives_ok (isSound_modified hs method args)
  · split
    · exact gives_ok (isSound_arrayOf hs)
    · split
      · exact gives_reshaped h hs method args
      · exact gives_ok hs

theorem gives_named (name : String) : Gives IsSound (named read scope file open_ name) := by
  unfold named
  dsimp only
  split
  · exact gives_ok (isSound_unknown _)
  · refine (gives_any _).bind fun found _ => ?_
    split
    · exact gives_ok (isSound_unknown _)
    · exact h _ _ _

theorem gives_called (call : Node) : Gives IsSound (called read scope file open_ call) := by
  unfold called
  dsimp only
  split
  · exact gives_ok (isSound_unknown _)
  · split
    · split
      · exact gives_constructed h _ _
      · exact (h _ _ _).bind fun s hs => gives_applied h hs _ _
    · exact gives_ok (isSound_unknown _)

end Steps

/-- Nothing else than sound schemas is read, however deep expressions are nested. -/
theorem isSound_readUpTo
    (scope : Scope)
    (depth : Nat) :
    (readUpTo scope depth).IsSound := by
  induction depth with
  | zero =>
    intro e file open_
    unfold readUpTo
    split <;> exact gives_ok (isSound_unknown _)
  | succ depth ih =>
    intro e file open_
    unfold readUpTo
    split
    · exact gives_ok (isSound_unknown _)
    · split
      · exact gives_named ih _
      · exact gives_named ih _
      · exact gives_called ih _
      · exact gives_ok (isSound_unknown _)
      · exact gives_ok (isSound_unknown _)

end Chains

section Requests

open Syntax Project

theorem canQuery_of_writable
    {entries : List (String × Value)}
    (h : Json.entriesAreWritable entries = true) :
    Route.canQuery entries = true := by
  induction entries with
  | nil => rfl
  | cons e rest ih =>
    rw [Json.entriesAreWritable, Bool.and_eq_true] at h
    have hrest := ih h.2
    rw [Route.canQuery] at hrest ⊢
    rw [List.all_cons, hrest, h.1, Bool.or_true, Bool.and_true]

/-- The fields of an example and the entries of a body become query parameters in the same way. -/
theorem queryOfFields_eq_queryOfEntries (entries : List (String × Value)) :
    queryOfFields entries = Route.queryOfEntries entries := by
  induction entries with
  | nil => rfl
  | cons e rest ih =>
    obtain ⟨k, v⟩ := e
    rw [Route.queryOfEntries] at ih ⊢
    cases v <;> simp [queryOfFields, Route.queryText?, ih]

/-- A body is read as the value that it was made of. -/
theorem parse_of_body
    {v : Value}
    {body : String}
    (hsound : v.IsSound)
    (h : Json.body v = .ok body) :
    Json.isWritable v = true ∧ Json.parse body = .ok v := by
  unfold Json.body at h
  split at h
  · next hwritable =>
    obtain rfl := Except.ok.inj h
    exact ⟨hwritable, Json.parse_print (some 2) hsound hwritable⟩
  · cases h

/-- The query that is made of an example is the query that its body stands for. -/
theorem queryOf_eq_of_bodyOf
    {v : Option Value}
    {body : String}
    (hsound : ∀ w ∈ v, w.IsSound)
    (h : bodyOf v = .ok body) :
    queryOf v = .ok (Route.queryOfBody (some body)) := by
  have hempty : Route.queryOfBody (some "\x7b\x7d") = [] := by decide
  unfold bodyOf at h
  split at h
  · next x xs =>
    obtain ⟨-, hparse⟩ := parse_of_body (hsound _ rfl) h
    simp [queryOf, Route.queryOfBody, hparse]
  · next e es =>
    obtain ⟨hwritable, hparse⟩ := parse_of_body (hsound _ rfl) h
    rw [Json.isWritable] at hwritable
    simp [queryOf, Route.queryOfBody, hparse, canQuery_of_writable hwritable,
      queryOfFields_eq_queryOfEntries]
  · next hlist hmap =>
    obtain rfl := Except.ok.inj h
    rw [hempty]
    unfold queryOf
    split
    · next entries =>
      cases entries with
      | nil => rfl
      | cons e es => exact absurd rfl (hmap e es)
    · rfl

/-- An expression that gives a body gives the query that this body stands for. -/
theorem queryOfExpression_eq_of_body
    {scope : Scope}
    {file : SourceFile}
    {e : Option Node}
    {body : String}
    (h : bodyOfExpression scope file e = .ok body) :
    queryOfExpression scope file e = .ok (Route.queryOfBody (some body)) := by
  have hreads := isSound_readUpTo scope maxNesting e file []
  rw [bodyOfExpression] at h
  rw [queryOfExpression]
  unfold ofExpression at *
  cases hs : readUpTo scope maxNesting e file [] with
  | error fault =>
    rw [hs] at h
    cases h
  | ok s =>
    rw [hs] at h
    exact queryOf_eq_of_bodyOf (isSound_of_example? s (hreads s hs)) h

/-- The expression `z.object({ size: z.number().default(1.50), name: z.string() })`. -/
def sizedObject : Node :=
  methodCall none (leading .identifier (some .object) "z" []) "object" [
    leading .object none "" [
      leading .pair none "" [
        leading .propertyIdentifier (some .key) "size" [],
        methodCall (some .value) numberCall "default" [leading .number none "1.50" []]],
      leading .pair none "" [
        leading .propertyIdentifier (some .key) "name" [],
        methodCall (some .value) (leading .identifier (some .object) "z" []) "string" []]]]

/-- The body that the expression gives. -/
def sizedBody : String :=
  "\x7b\n  \"size\": 1.5,\n  \"name\": \"\"\n\x7d"

theorem queryOfExpression_sizedObject :
    bodyOfExpression ⟨none⟩ bareFile (some sizedObject) = .ok sizedBody ∧
      queryOfExpression ⟨none⟩ bareFile (some sizedObject) =
        .ok (Route.queryOfBody (some sizedBody)) := by
  have hbody : bodyOfExpression ⟨none⟩ bareFile (some sizedObject) = .ok sizedBody := by decide +kernel
  exact ⟨hbody, queryOfExpression_eq_of_body hbody⟩

end Requests

end Schema

end RouteAtlas
