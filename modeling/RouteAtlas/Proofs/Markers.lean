import Mathlib
import RouteAtlas.Proofs.Entries
import RouteAtlas.Schema.Basic
import RouteAtlas.Syntax.Static

/-!
# Markers among values

Two markers may stand where a value is expected: one for what is left out, and one for an expression that is
not literal. Nothing but a check keeps them out of lists and mappings, and a text can be printed only where
none of them is met. Reading an expression as a literal makes these checks: what it gives is the marker itself
or a value without any marker in it.
-/

namespace RouteAtlas

section Computations

variable {α β γ δ : Type}

/-- Whether a computation gives what another one gives, changed by a function, or fails as that one does. -/
def Mirrors
    (k : α → β)
    (x : Except Fault α)
    (y : Except Fault β) :
    Prop :=
  y = x.map k

theorem mirrors_ok
    {k : α → β}
    {a : α}
    {b : β}
    (h : b = k a) :
    Mirrors k (.ok a) (.ok b) :=
  congrArg Except.ok h

theorem Mirrors.congr_right
    {k : α → β}
    {x : Except Fault α}
    {y y' : Except Fault β}
    (h : Mirrors k x y)
    (hy : y' = y) :
    Mirrors k x y' :=
  hy.trans h

theorem Mirrors.bind
    {k : α → β}
    {l : γ → δ}
    {x : Except Fault α}
    {y : Except Fault β}
    {f : α → Except Fault γ}
    {g : β → Except Fault δ}
    (h : Mirrors k x y)
    (hnext : ∀ a, Mirrors l (f a) (g (k a))) :
    Mirrors l (x >>= f) (y >>= g) := by
  subst h
  cases x with
  | error e => rfl
  | ok a => exact hnext a

/-- What is computed alike on both sides may be followed by computations that are not. -/
theorem mirrors_bind_left
    {l : γ → δ}
    (x : Except Fault α)
    {f : α → Except Fault γ}
    {g : α → Except Fault δ}
    (hnext : ∀ a, Mirrors l (f a) (g a)) :
    Mirrors l (x >>= f) (x >>= g) := by
  cases x with
  | error e => rfl
  | ok a => exact hnext a

theorem mirrors_mapM
    {k : β → γ}
    {f : α → Except Fault β}
    {g : α → Except Fault γ}
    (h : ∀ a, Mirrors k (f a) (g a))
    (as : List α) :
    Mirrors (List.map k) (as.mapM f) (as.mapM g) := by
  induction as with
  | nil => exact mirrors_ok rfl
  | cons a rest ih =>
    rw [List.mapM_cons, List.mapM_cons]
    exact (h a).bind fun b => ih.bind fun bs => mirrors_ok rfl

end Computations

/-- A value, with markers wherever a value may stand. -/
inductive Marked where
  | absent
  | notLiteral
  | scalar (v : Scalar)
  | list (items : List Marked)
  | map (entries : List (String × Marked))

namespace Marked

section Values

mutual

/-- A value as it is, without markers. -/
def ofValue : Value → Marked
  | .null => scalar ⟨.null, rfl⟩
  | .bool b => scalar ⟨.bool b, rfl⟩
  | .int i => scalar ⟨.int i, rfl⟩
  | .float x => scalar ⟨.float x, rfl⟩
  | .str s => scalar ⟨.str s, rfl⟩
  | .list items => list (ofItems items)
  | .map entries => map (ofEntries entries)

/-- The items of a list as they are. -/
def ofItems : List Value → List Marked
  | [] => []
  | v :: rest => ofValue v :: ofItems rest

/-- The entries of a mapping as they are. -/
def ofEntries : List (String × Value) → List (String × Marked)
  | [] => []
  | (k, v) :: rest => (k, ofValue v) :: ofEntries rest

end

/-- A value, or the marker for what is left out. -/
def orAbsent (v : Option Value) : Marked :=
  v.elim absent ofValue

/-- A value, or the marker for what is not literal. -/
def orNotLiteral (v : Option Value) : Marked :=
  v.elim notLiteral ofValue

/-- Whether this is the marker for what is left out. -/
def isAbsent : Marked → Bool
  | absent => true
  | _ => false

/-- Whether this is the marker for what is not literal. -/
def isNotLiteral : Marked → Bool
  | notLiteral => true
  | _ => false

/-- Whether this is a marker itself. -/
def IsMarker (m : Marked) : Prop :=
  m = absent ∨ m = notLiteral

/-- The items of a list and the values of a mapping. -/
inductive IsPart : Marked → Marked → Prop
  | item
      {m : Marked}
      {items : List Marked}
      (h : m ∈ items) :
      IsPart m (list items)
  | entry
      {e : String × Marked}
      {entries : List (String × Marked)}
      (h : e ∈ entries) :
      IsPart e.2 (map entries)

/-- What stands somewhere below the top. -/
def IsBelow : Marked → Marked → Prop :=
  Relation.TransGen IsPart

variable {m : Marked} {v : Value} {items : List Value} {entries : List (String × Value)}

theorem ofItems_eq (items : List Value) : ofItems items = items.map ofValue := by
  induction items with
  | nil => rfl
  | cons v rest ih => rw [ofItems, ih, List.map_cons]

theorem ofEntries_eq (entries : List (String × Value)) :
    ofEntries entries = entries.map fun e => (e.1, ofValue e.2) := by
  induction entries with
  | nil => rfl
  | cons e rest ih => rw [ofEntries, ih, List.map_cons]

@[simp]
theorem ofValue_list (items : List Value) : ofValue (.list items) = list (items.map ofValue) := by
  rw [ofValue, ofItems_eq]

@[simp]
theorem ofValue_map (entries : List (String × Value)) :
    ofValue (.map entries) = map (entries.map fun e => (e.1, ofValue e.2)) := by
  rw [ofValue, ofEntries_eq]

theorem ofValue_scalar (v : Scalar) : ofValue v = scalar v := by
  obtain ⟨v, hv⟩ := v
  cases v with
  | list items => cases hv
  | map entries => cases hv
  | _ => rfl

theorem not_isMarker_ofValue (v : Value) : ¬ IsMarker (ofValue v) := by
  cases v <;> simp [IsMarker, ofValue]

@[simp]
theorem isAbsent_ofValue (v : Value) : (ofValue v).isAbsent = false := by
  cases v <;> rfl

@[simp]
theorem isNotLiteral_ofValue (v : Value) : (ofValue v).isNotLiteral = false := by
  cases v <;> rfl

@[simp]
theorem orAbsent_none : orAbsent none = absent :=
  rfl

@[simp]
theorem orAbsent_some (v : Value) : orAbsent (some v) = ofValue v :=
  rfl

@[simp]
theorem isAbsent_absent : absent.isAbsent = true :=
  rfl

@[simp]
theorem isNotLiteral_orNotLiteral (v : Option Value) : (orNotLiteral v).isNotLiteral = v.isNone := by
  cases v with
  | none => rfl
  | some v => exact isNotLiteral_ofValue v

theorem exists_ofValue_of_isPart (h : IsPart m (ofValue v)) : ∃ w, m = ofValue w := by
  cases v with
  | list items =>
    rw [ofValue_list] at h
    obtain ⟨hm⟩ := h
    obtain ⟨w, -, rfl⟩ := List.mem_map.1 hm
    exact ⟨w, rfl⟩
  | map entries =>
    rw [ofValue_map] at h
    obtain - | ⟨hm⟩ := h
    obtain ⟨e, -, rfl⟩ := List.mem_map.1 hm
    exact ⟨e.2, rfl⟩
  | _ => cases h

/-- All that stands in a value is a value. -/
theorem exists_ofValue_of_isBelow (h : IsBelow m (ofValue v)) : ∃ w, m = ofValue w := by
  induction h using Relation.TransGen.head_induction_on with
  | single hpart => exact exists_ofValue_of_isPart hpart
  | head hpart _ ih =>
    obtain ⟨w, rfl⟩ := ih
    exact exists_ofValue_of_isPart hpart

/-- No marker stands below the top, and the top is not the one for what is not literal. -/
structure IsClean (m : Marked) : Prop where
  below : ∀ part, IsBelow part m → ¬ IsMarker part
  top : m ≠ notLiteral

theorem isClean_orAbsent (v : Option Value) : (orAbsent v).IsClean where
  below part h := by
    cases v with
    | none =>
      obtain ⟨-, -, ⟨⟩⟩ := Relation.TransGen.tail'_iff.1 h
    | some v =>
      obtain ⟨w, rfl⟩ := exists_ofValue_of_isBelow h
      exact not_isMarker_ofValue w
  top := by
    cases v with
    | none => exact nofun
    | some v => exact fun h => not_isMarker_ofValue v (.inr h)

section Dropping

variable {α : Type}

/-- Without the markers for what is left out, the items are the values that are there, in their order. -/
theorem filter_map_orAbsent
    (f : α → Option Value)
    (as : List α) :
    ((as.map fun a => orAbsent (f a)).filter fun m => !m.isAbsent) = (as.filterMap f).map ofValue := by
  induction as with
  | nil => rfl
  | cons a rest ih => cases h : f a <;> simp [h, ih]

/-- Without the markers for what is left out, the entries are those of the values that are there, in their
order. -/
theorem filter_map_entry_orAbsent
    (key : α → String)
    (f : α → Option Value)
    (as : List α) :
    ((as.map fun a => (key a, orAbsent (f a))).filter fun e => !e.2.isAbsent) =
      (as.filterMap fun a => (f a).map fun v => (key a, v)).map fun e => (e.1, ofValue e.2) := by
  induction as with
  | nil => rfl
  | cons a rest ih => cases h : f a <;> simp [h, ih]

end Dropping

end Values

section Bodies

mutual

/-- The value itself, unless a marker is met. -/
def value? : Marked → Option Value
  | absent => none
  | notLiteral => none
  | scalar v => some v
  | list items => (values? items).map .list
  | map entries => (entries? entries).map .map

/-- The items of a list, unless a marker is met. -/
def values? : List Marked → Option (List Value)
  | [] => some []
  | m :: rest => m.value?.bind fun v => (values? rest).map (v :: ·)

/-- The entries of a mapping, unless a marker is met. -/
def entries? : List (String × Marked) → Option (List (String × Value))
  | [] => some []
  | (k, m) :: rest => m.value?.bind fun v => (entries? rest).map ((k, v) :: ·)

end

/-- The body that a value is printed as; a body without content is an empty mapping. There is none where
printing meets a marker. -/
def body? (m : Marked) : Option (Except Fault String) :=
  match m with
  | list (_ :: _) | map (_ :: _) => m.value?.map Json.body
  | _ => some (.ok "\x7b\x7d")

mutual

theorem value?_ofValue : ∀ v : Value, (ofValue v).value? = some v
  | .null | .bool _ | .int _ | .float _ | .str _ => rfl
  | .list items => by rw [ofValue, value?, values?_ofItems items, Option.map_some]
  | .map entries => by rw [ofValue, value?, entries?_ofEntries entries, Option.map_some]

theorem values?_ofItems : ∀ items : List Value, values? (ofItems items) = some items
  | [] => rfl
  | v :: rest => by
    rw [ofItems, values?, value?_ofValue v, values?_ofItems rest, Option.bind_some, Option.map_some]

theorem entries?_ofEntries : ∀ entries : List (String × Value), entries? (ofEntries entries) = some entries
  | [] => rfl
  | (k, v) :: rest => by
    rw [ofEntries, entries?, value?_ofValue v, entries?_ofEntries rest, Option.bind_some, Option.map_some]

end

/-- Printing a value as a body meets no marker. -/
theorem body?_orAbsent (v : Option Value) : (orAbsent v).body? = some (Schema.bodyOf v) := by
  rcases v with _ | v
  · rfl
  have hvalue := value?_ofValue v
  rw [orAbsent, Option.elim_some]
  rcases v with _ | _ | _ | _ | _ | (_ | ⟨w, rest⟩) | (_ | ⟨⟨k, w⟩, rest⟩)
  case list.cons => exact congrArg (Option.map Json.body) hvalue
  case map.cons => exact congrArg (Option.map Json.body) hvalue
  all_goals rfl

end Bodies

section Literals

/-- Items as a list, unless one of them is not literal. -/
def listed (items : List Marked) : Marked :=
  if items.any isNotLiteral then notLiteral else list items

/-- Entries as a mapping, unless one of their values is not literal. -/
def keyed (entries : List (String × Marked)) : Marked :=
  if entries.any fun e => e.2.isNotLiteral then notLiteral else map (ofPairs entries)

section Lists

variable {α β γ : Type} {f : α → Option β} {as : List α} {bs : List β}

theorem isNone_mapM
    (f : α → Option β)
    (as : List α) :
    (as.mapM f).isNone = as.any fun a => (f a).isNone := by
  induction as with
  | nil => rfl
  | cons a rest ih =>
    rw [List.any_cons, ← ih, List.mapM_cons]
    cases f a with
    | none => rfl
    | some b => cases rest.mapM f <;> rfl

theorem map_elim_of_mapM_eq_some
    (missing : α → γ)
    (g : β → γ)
    (h : as.mapM f = some bs) :
    (as.map fun a => (f a).elim (missing a) g) = bs.map g := by
  induction as generalizing bs with
  | nil =>
    obtain rfl := Option.some.inj h
    rfl
  | cons a rest ih =>
    rw [List.mapM_cons] at h
    obtain ⟨b, hb, h⟩ := Option.bind_eq_some_iff.1 h
    obtain ⟨more, hmore, h⟩ := Option.bind_eq_some_iff.1 h
    obtain rfl := Option.some.inj h
    rw [List.map_cons, List.map_cons, ih hmore, hb, Option.elim_some]

end Lists

theorem listed_map
    {α : Type}
    (f : α → Option Value)
    (as : List α) :
    listed (as.map fun a => orNotLiteral (f a)) = orNotLiteral ((as.mapM f).map .list) := by
  have hany : (as.map fun a => orNotLiteral (f a)).any isNotLiteral = (as.mapM f).isNone := by
    simp [isNone_mapM, List.any_map, Function.comp_def]
  cases hvalues : as.mapM f with
  | none =>
    rw [listed, hany, hvalues]
    rfl
  | some vs =>
    rw [listed, hany, hvalues, Option.map_some, orNotLiteral, Option.elim_some, ofValue_list]
    exact congrArg list (map_elim_of_mapM_eq_some (fun _ => notLiteral) ofValue hvalues)

theorem keyed_map
    {α : Type}
    (key : α → String)
    (f : α → Option Value)
    (as : List α) :
    keyed (as.map fun a => (key a, orNotLiteral (f a))) =
      orNotLiteral ((as.mapM fun a => (f a).map fun v => (key a, v)).map fun es => .map (ofPairs es)) := by
  have hany : ((as.map fun a => (key a, orNotLiteral (f a))).any fun e => e.2.isNotLiteral) =
      (as.mapM fun a => (f a).map fun v => (key a, v)).isNone := by
    simp [isNone_mapM, List.any_map, Function.comp_def]
  have hentry : ∀ a, (key a, orNotLiteral (f a)) =
      ((f a).map fun v => (key a, v)).elim (key a, notLiteral) fun e => (e.1, ofValue e.2) := by
    intro a
    cases f a <;> rfl
  cases hentries : as.mapM fun a => (f a).map fun v => (key a, v) with
  | none =>
    rw [keyed, hany, hentries]
    rfl
  | some es =>
    rw [keyed, hany, hentries, Option.map_some, orNotLiteral, Option.elim_some, ofValue_map, ← ofPairs_map]
    simp only [hentry]
    exact congrArg (fun l => map (ofPairs l)) (map_elim_of_mapM_eq_some _ _ hentries)

end Literals

end Marked

namespace Syntax.Node

section Expressions

/-- The value of a literal, or the marker. -/
def markedLiteral (n : Node) : Marked :=
  .orNotLiteral n.literalValue?

/-- The value of an expression that is made of literals, or the marker. The first argument bounds its
nesting. -/
def markedUpTo : Nat → Node → Marked
  | 0, _ => .notLiteral
  | depth + 1, n =>
    let n := n.unwrap
    match n.kind with
    | .array => .listed (n.namedChildren.map (markedUpTo depth))
    | .object => .keyed (n.properties.map fun p => (p.name, markedUpTo depth p.value))
    | _ => n.markedLiteral

/-- The value of an expression that is made of literals, or the marker. -/
def markedValue (n : Node) : Marked :=
  markedUpTo (n.count + 1) n

theorem markedUpTo_eq
    (depth : Nat)
    (n : Node) :
    markedUpTo depth n = .orNotLiteral (staticUpTo depth n) := by
  induction depth generalizing n with
  | zero => rfl
  | succ depth ih =>
    rw [markedUpTo, staticUpTo]
    generalize n.unwrap.kind = kind
    cases kind with
    | array =>
      dsimp only
      rw [← Marked.listed_map]
      exact congrArg Marked.listed (List.map_congr_left fun c _ => ih c)
    | object =>
      dsimp only
      rw [← Marked.keyed_map]
      simp only [ih]
    | _ => rfl

/-- An expression gives its static value, without any marker in it, or the marker itself. -/
theorem markedValue_eq (n : Node) : n.markedValue = .orNotLiteral n.staticValue? :=
  markedUpTo_eq _ n

end Expressions

end Syntax.Node

end RouteAtlas
