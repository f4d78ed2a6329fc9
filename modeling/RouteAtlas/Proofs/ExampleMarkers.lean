import Mathlib
import RouteAtlas.Proofs.ExampleDepth
import RouteAtlas.Proofs.SchemaMarkers

/-!
# Examples with markers

A type without a value to speak of has the marker for what is left out as its example. Where types stand in
lists and in objects, the marker is checked for and what it stands for is dropped: lists keep the other items
and objects the other keys, in their order. So no marker stands below the top of an example, neither of a type
nor of a schema, and printing a body never meets one.
-/

namespace RouteAtlas

open Project (Scope)

namespace Shape

section Rendering

/-- The entries that fields give to an example. Methods and names for internal use give none, nor do fields
whose example is left out. -/
def markedEntriesOf
    (markedOf : Field → Except Fault Marked) :
    List (String × Marked) → List Field → Except Fault (List (String × Marked))
  | entries, [] => .ok entries
  | entries, f :: rest =>
    if f.isMethod || Text.startsWith f.name "__" then markedEntriesOf markedOf entries rest
    else do
      let m ← markedOf f
      markedEntriesOf markedOf (if m.isAbsent then entries else putEntry f.name m entries) rest

/-- The marker or the example of a shape inside of objects with given texts, written out to so many more
levels. -/
def markedUsing
    (fieldsOf : Shape → Except Fault (List Field))
    (typeOf : Field → Except Fault Shape) :
    Nat → List String → Shape → Except Fault Marked
  | 0, _, _ => .ok (.map [])
  | n + 1, around, s =>
    match s.layer with
    | .leaf v => .ok (.orAbsent v)
    | .list items => do
      let ms ← items.mapM (markedUsing fieldsOf typeOf n around)
      return .list (ms.filter fun m => !m.isAbsent)
    | .choice m => markedUsing fieldsOf typeOf n around m
    | .object t =>
      if around.contains t then .ok (.map [])
      else do
        let fs ← fieldsOf s
        let entries ← markedEntriesOf
          (fun f => do markedUsing fieldsOf typeOf n (t :: around) (← typeOf f)) [] fs
        return .map entries

/-- The marker or the example of a shape, written out to a given depth. -/
def markedExample
    (scope : Scope)
    (maxDepth : Int)
    (s : Shape) :
    Except Fault Marked :=
  markedUsing (fieldList scope) (Field.shape scope) (maxDepth + 1).toNat [] s

end Rendering

section Loops

variable {example? : Shape → Except Fault (Option Value)} {exampleOf? : Field → Except Fault (Option Value)}

/-- The examples of shapes are those that are there, in the order of the shapes. -/
theorem examplesOf_eq (ss : List Shape) :
    examplesOf example? ss = (ss.mapM example?).map List.reduceOption := by
  induction ss with
  | nil => rfl
  | cons s rest ih =>
    rw [examplesOf, ih, List.mapM_cons]
    rcases example? s with e | v
    · rfl
    · rcases rest.mapM example? with e | vs
      · rfl
      · cases v <;> rfl

/-- The entries of examples that are there. -/
def present (examples : List (String × Option Value)) : List (String × Value) :=
  examples.filterMap fun e => e.2.map fun v => (e.1, v)

/-- The entries of fields are those of the examples that are there, in the order of the fields. -/
theorem entriesOf_eq
    (entries : List (String × Value))
    (fs : List Field) :
    entriesOf exampleOf? entries fs =
      ((fs.filter Field.isWritten).mapM fun f => (exampleOf? f).map fun v => (f.name, v)).map fun es =>
        (present es).foldl (fun acc e => putEntry e.1 e.2 acc) entries := by
  induction fs generalizing entries with
  | nil => rfl
  | cons f rest ih =>
    cases hf : f.isWritten with
    | false => rw [entriesOf_cons_of_not_isWritten hf, ih, List.filter_cons_of_neg (by simp [hf])]
    | true =>
      rw [entriesOf_cons_of_isWritten hf, List.filter_cons_of_pos hf, List.mapM_cons]
      rcases exampleOf? f with e | v
      · rfl
      · refine (ih _).trans ?_
        rcases (rest.filter Field.isWritten).mapM fun f => (exampleOf? f).map fun v => (f.name, v) with e | es
        · rfl
        · cases v <;> rfl

end Loops

section Agreement

variable {fieldsOf : Shape → Except Fault (List Field)} {typeOf : Field → Except Fault Shape}

theorem mirrors_entriesOf
    {exampleOf? : Field → Except Fault (Option Value)}
    {markedOf : Field → Except Fault Marked}
    (h : ∀ f, Mirrors .orAbsent (exampleOf? f) (markedOf f))
    (entries : List (String × Value))
    (fs : List Field) :
    Mirrors (List.map fun e => (e.1, .ofValue e.2)) (entriesOf exampleOf? entries fs)
      (markedEntriesOf markedOf (entries.map fun e => (e.1, .ofValue e.2)) fs) := by
  induction fs generalizing entries with
  | nil => exact mirrors_ok rfl
  | cons f rest ih =>
    rw [entriesOf, markedEntriesOf]
    split
    · exact ih entries
    · refine (h f).bind fun v => ?_
      cases v with
      | none => exact ih entries
      | some v =>
        rw [Marked.orAbsent_some, Marked.isAbsent_ofValue, if_neg Bool.false_ne_true, putEntry_map]
        exact ih (putEntry f.name v entries)

theorem mirrors_exampleUsing
    (n : Nat)
    (around : List String)
    (s : Shape) :
    Mirrors .orAbsent (exampleUsing fieldsOf typeOf n around s) (markedUsing fieldsOf typeOf n around s) := by
  induction n generalizing around s with
  | zero => exact mirrors_ok rfl
  | succ n ih =>
    rw [exampleUsing_succ, markedUsing]
    cases s.layer with
    | leaf v => exact mirrors_ok rfl
    | list items =>
      have hitems := mirrors_mapM (fun m => ih around m) items
      dsimp only
      rw [examplesOf_eq, hitems]
      rcases items.mapM (exampleUsing fieldsOf typeOf n around) with e | vs
      · rfl
      · refine mirrors_ok ?_
        rw [Marked.orAbsent_some, Marked.ofValue_list]
        exact congrArg Marked.list (Marked.filter_map_orAbsent id vs)
    | choice m => exact ih around m
    | object t =>
      dsimp only
      split
      · exact mirrors_ok rfl
      · refine mirrors_bind_left _ fun fs => ?_
        have hfield : ∀ f, Mirrors Marked.orAbsent
            (do exampleUsing fieldsOf typeOf n (t :: around) (← typeOf f))
            (do markedUsing fieldsOf typeOf n (t :: around) (← typeOf f)) :=
          fun f => mirrors_bind_left _ fun s => ih (t :: around) s
        exact (mirrors_entriesOf hfield [] fs).bind fun es => mirrors_ok (Marked.ofValue_map es).symm

/-- What is rendered for a shape is its example, or the marker for what is left out. -/
theorem markedExample_eq
    (scope : Scope)
    (maxDepth : Int)
    (s : Shape) :
    markedExample scope maxDepth s = (example? scope maxDepth s).map .orAbsent :=
  mirrors_exampleUsing (maxDepth + 1).toNat [] s

/-- The example of a shape can be printed, unless it is left out. -/
theorem isClean_of_markedExample
    {scope : Scope}
    {maxDepth : Int}
    {s : Shape}
    {m : Marked}
    (h : markedExample scope maxDepth s = .ok m) :
    m.IsClean ∧ (m = .absent ∨ ∃ v, m.value? = some v) := by
  rw [markedExample_eq] at h
  obtain ⟨v, -, rfl⟩ := exists_of_map_eq_ok h
  refine ⟨Marked.isClean_orAbsent v, ?_⟩
  cases v with
  | none => exact .inl rfl
  | some v => exact .inr ⟨v, Marked.value?_ofValue v⟩

end Agreement

section Literals

/-- The value of a literal type is the value of a literal, not the marker. -/
theorem exists_markedLiteral_of_ofLiteral
    {n : Syntax.Node}
    {t : String}
    {v : Scalar}
    (h : ofLiteral n = literal t v) :
    ∃ inner ∈ n.namedChildren, inner.markedLiteral = .scalar v := by
  unfold ofLiteral at h
  split at h
  · cases h
  · next inner rest hchildren =>
    refine ⟨inner, hchildren ▸ List.mem_cons_self, ?_⟩
    split at h <;> try cases h
    split at h
    · next w hw =>
      obtain ⟨-, rfl⟩ := Shape.literal.inj h
      exact (congrArg Marked.orNotLiteral hw).trans
        (Marked.ofValue_scalar ⟨w, Syntax.Node.isScalar_of_literalValue? hw⟩)
    · cases h

end Literals

section Dropping

variable {scope : Scope} {n : Nat} {around : List String} {s : Shape}

/-- A list has the examples of its items that are there, in their order. -/
theorem exampleWithin_of_list
    {items : List Shape}
    (h : s.layer = .list items) :
    exampleWithin scope (n + 1) around s =
      (items.mapM (exampleWithin scope n around)).map fun vs => some (.list vs.reduceOption) := by
  rw [exampleWithin_succ, h]
  dsimp only
  rw [examplesOf_eq]
  cases items.mapM (exampleWithin scope n around) <;> rfl

/-- An object has the examples of its fields that are there, in their order. -/
theorem exampleWithin_of_object
    {text : String}
    (h : s.layer = .object text)
    (haround : text ∉ around) :
    exampleWithin scope (n + 1) around s = do
      let fs ← fieldList scope s
      let es ← (fs.filter Field.isWritten).mapM fun f => do
        return (f.name, ← exampleWithin scope n (text :: around) (← f.shape scope))
      return some (.map (ofPairs (present es))) := by
  rw [exampleWithin_succ, h]
  dsimp only
  rw [if_neg (by simpa using haround)]
  refine congrArg (fieldList scope s >>= ·) (funext fun fs => ?_)
  have hentry : (fun f : Field =>
      (do exampleWithin scope n (text :: around) (← f.shape scope)).map fun v => (f.name, v)) =
      fun f => do return (f.name, ← exampleWithin scope n (text :: around) (← f.shape scope)) := by
    funext f
    rcases f.shape scope with e | t
    · rfl
    · cases exampleWithin scope n (text :: around) t <;> rfl
  rw [entriesOf_eq, hentry]
  rcases (fs.filter Field.isWritten).mapM _ with e | es <;> rfl

end Dropping

end Shape

section Results

/-- What is rendered for an expression or for a type is the example, or the marker for what is left out, and no
marker stands below its top: every body can be printed. Lists keep the items and objects the keys whose
examples are there, in their order. -/
theorem isClean_rendered (scope : Scope) :
    (∀ file e,
      (MarkedSchema.ofExpression scope file e).map MarkedSchema.render =
          (Schema.ofExpression scope file e).map (fun s => .orAbsent s.example?) ∧
        ∀ s, MarkedSchema.ofExpression scope file e = .ok s →
          s.render.IsClean ∧ s.render.body? = some (Schema.bodyOfExpression scope file e)) ∧
      (∀ maxDepth t,
        Shape.markedExample scope maxDepth t = (Shape.example? scope maxDepth t).map .orAbsent ∧
          ∀ m, Shape.markedExample scope maxDepth t = .ok m →
            m.IsClean ∧ (m = .absent ∨ ∃ v, m.value? = some v)) ∧
      (∀ n t v, Shape.ofLiteral n = .literal t v →
        ∃ inner ∈ n.namedChildren, inner.markedLiteral = .scalar v) ∧
      (∀ s : Schema, s.default = none → s.nullable = false → s.optional = false →
        (s.kind = .array → s.example? = some (.list (s.items.toList.filterMap Schema.example?))) ∧
          (s.kind = .object → s.example? =
            some (.map ((s.children.getD []).filterMap fun c => c.2.example?.map fun v => (c.1, v))))) ∧
      ∀ n around t,
        (∀ items, t.layer = .list items →
          Shape.exampleWithin scope (n + 1) around t =
            (items.mapM (Shape.exampleWithin scope n around)).map fun vs => some (.list vs.reduceOption)) ∧
          ∀ text, t.layer = .object text → text ∉ around →
            Shape.exampleWithin scope (n + 1) around t = do
              let fs ← Shape.fieldList scope t
              let es ← (fs.filter Field.isWritten).mapM fun f => do
                return (f.name, ← Shape.exampleWithin scope n (text :: around) (← f.shape scope))
              return some (.map (ofPairs (Shape.present es))) := by
  refine ⟨fun file e => ⟨MarkedSchema.map_render_ofExpression scope file e, fun s hs => ?_⟩,
    fun maxDepth t => ⟨Shape.markedExample_eq scope maxDepth t, fun m hm => ?_⟩,
    fun n t v h => Shape.exists_markedLiteral_of_ofLiteral h,
    fun s hdefault hnullable hoptional => ⟨fun harray => ?_, fun hobject => ?_⟩,
    fun n around t => ⟨fun items hitems => ?_, fun text htext haround => ?_⟩⟩
  · exact MarkedSchema.body?_render hs
  · exact Shape.isClean_of_markedExample hm
  · rw [Schema.example?_eq, hdefault]
    rcases hitems : s.items with _ | item
    · simp [hnullable, hoptional, Schema.placeholder, harray, hitems]
    · cases hitem : item.example? <;> simp [hnullable, hoptional, Schema.placeholder, harray, hitems, hitem]
  · rw [Schema.example?_eq, hdefault]
    simp [hnullable, hoptional, Schema.placeholder, hobject]
  · exact Shape.exampleWithin_of_list hitems
  · exact Shape.exampleWithin_of_object htext haround

end Results

end RouteAtlas
