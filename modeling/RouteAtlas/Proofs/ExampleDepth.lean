import Mathlib
import RouteAtlas.Proofs.RouterSettings
import RouteAtlas.Proofs.Unfoldings

/-!
# Limited examples

The types of fields may go on for ever, each field leading to a type that was not seen before. What
ends an example then is the number of levels alone: with every list, choice and object there is one
level less, no matter which types come and which texts they are written by. So there is an example
exactly when the objects that are written out can be read, and it has at most one list or object
inside of another for each level, and one more.
-/

namespace RouteAtlas

namespace Value

section Nesting

mutual

/-- How many lists and mappings stand inside of one another in a value. -/
def nesting : Value → Nat
  | list items => nestingOfItems items + 1
  | map entries => nestingOfEntries entries + 1
  | _ => 0

/-- The nesting of the items of a list. -/
def nestingOfItems : List Value → Nat
  | [] => 0
  | v :: rest => max v.nesting (nestingOfItems rest)

/-- The nesting of the values of a mapping. -/
def nestingOfEntries : List (String × Value) → Nat
  | [] => 0
  | (_, v) :: rest => max v.nesting (nestingOfEntries rest)

end

theorem nestingOfItems_le_iff
    {items : List Value}
    {n : Nat} :
    nestingOfItems items ≤ n ↔ ∀ v ∈ items, v.nesting ≤ n := by
  induction items with
  | nil => simp [nestingOfItems]
  | cons v rest ih => rw [nestingOfItems, max_le_iff, ih, List.forall_mem_cons]

theorem nestingOfEntries_le_iff
    {entries : List (String × Value)}
    {n : Nat} :
    nestingOfEntries entries ≤ n ↔ ∀ e ∈ entries, e.2.nesting ≤ n := by
  induction entries with
  | nil => simp [nestingOfEntries]
  | cons e rest ih => rw [nestingOfEntries, max_le_iff, ih, List.forall_mem_cons]

theorem nesting_of_isScalar
    {v : Value}
    (h : v.isScalar) :
    v.nesting = 0 := by
  cases v with
  | list items => cases h
  | map entries => cases h
  | _ => rfl

end Nesting

end Value

namespace Shape

section Parts

variable {example? : Shape → Except Fault (Option Value)}

theorem exists_examplesOf_iff
    {ss : List Shape} :
    (∃ vs, examplesOf example? ss = .ok vs) ↔ ∀ s ∈ ss, ∃ v, example? s = .ok v := by
  induction ss with
  | nil => simp [examplesOf]
  | cons s rest ih =>
    rw [List.forall_mem_cons, ← ih, examplesOf]
    constructor
    · rintro ⟨vs, h⟩
      obtain ⟨v, hv, h⟩ := exists_of_bind_eq_ok h
      obtain ⟨vs', hrest, -⟩ := exists_of_bind_eq_ok h
      exact ⟨⟨v, hv⟩, vs', hrest⟩
    · rintro ⟨hv, hrest⟩
      exact exists_bind_eq_ok hv fun v => exists_bind_eq_ok hrest fun vs => ⟨_, rfl⟩

theorem exists_of_mem_examplesOf
    {ss : List Shape}
    {vs : List Value}
    (h : examplesOf example? ss = .ok vs)
    {v : Value}
    (hv : v ∈ vs) :
    ∃ s ∈ ss, example? s = .ok (some v) := by
  induction ss generalizing vs with
  | nil =>
    obtain rfl : [] = vs := by simpa [examplesOf] using h
    cases hv
  | cons s rest ih =>
    rw [examplesOf] at h
    obtain ⟨first, hfirst, h⟩ := exists_of_bind_eq_ok h
    obtain ⟨more, hmore, h⟩ := exists_of_bind_eq_ok h
    cases h
    rcases List.mem_append.1 hv with hv | hv
    · rw [Option.mem_toList] at hv
      exact ⟨s, List.mem_cons_self .., hv ▸ hfirst⟩
    · obtain ⟨s', hs', h⟩ := ih hmore hv
      exact ⟨s', List.mem_cons_of_mem s hs', h⟩

variable {example? : Field → Except Fault (Option Value)}

theorem entriesOf_cons_of_not_isWritten
    {f : Field}
    (hf : f.isWritten = false)
    (entries : List (String × Value))
    (rest : List Field) :
    entriesOf example? entries (f :: rest) = entriesOf example? entries rest := by
  rw [Field.isWritten, Bool.not_eq_false'] at hf
  rw [entriesOf, if_pos hf]

theorem entriesOf_cons_of_isWritten
    {f : Field}
    (hf : f.isWritten)
    (entries : List (String × Value))
    (rest : List Field) :
    entriesOf example? entries (f :: rest) =
      (example? f >>= fun v =>
        entriesOf example? (v.elim entries fun v => putEntry f.name v entries) rest) := by
  rw [Field.isWritten, Bool.not_eq_true'] at hf
  rw [entriesOf, if_neg (by simp [hf])]
  congr 1
  funext v
  cases v <;> rfl

theorem exists_entriesOf_iff
    {entries : List (String × Value)}
    {fs : List Field} :
    (∃ es, entriesOf example? entries fs = .ok es) ↔
      ∀ f ∈ fs, f.isWritten → ∃ v, example? f = .ok v := by
  induction fs generalizing entries with
  | nil => simp [entriesOf]
  | cons f rest ih =>
    rw [List.forall_mem_cons]
    cases hf : f.isWritten with
    | false =>
      rw [entriesOf_cons_of_not_isWritten hf, ih]
      simp
    | true =>
      rw [entriesOf_cons_of_isWritten hf]
      constructor
      · rintro ⟨es, h⟩
        obtain ⟨v, hv, h⟩ := exists_of_bind_eq_ok h
        exact ⟨fun _ => ⟨v, hv⟩, ih.1 ⟨es, h⟩⟩
      · rintro ⟨hv, hrest⟩
        exact exists_bind_eq_ok (hv rfl) fun v => ih.2 hrest

/-- What holds of all examples of fields holds of all entries that they give. -/
theorem forall_mem_entriesOf
    {P : Value → Prop}
    {entries es : List (String × Value)}
    {fs : List Field}
    (h : entriesOf example? entries fs = .ok es)
    (hfields : ∀ f ∈ fs, ∀ v, example? f = .ok (some v) → P v)
    (hentries : ∀ e ∈ entries, P e.2) :
    ∀ e ∈ es, P e.2 := by
  induction fs generalizing entries with
  | nil =>
    cases h
    exact hentries
  | cons f rest ih =>
    rw [List.forall_mem_cons] at hfields
    cases hf : f.isWritten with
    | false =>
      rw [entriesOf_cons_of_not_isWritten hf] at h
      exact ih h hfields.2 hentries
    | true =>
      rw [entriesOf_cons_of_isWritten hf] at h
      obtain ⟨v, hv, h⟩ := exists_of_bind_eq_ok h
      cases v with
      | none => exact ih h hfields.2 hentries
      | some v =>
        exact ih h hfields.2
          (forall_mem_putEntry (P := fun e => P e.2) (hfields.1 v hv) hentries)

theorem nesting_le_of_mem_ofPlatform (name : String) :
    ∀ v ∈ (ofPlatform name).1, v.nesting ≤ 1 := by
  unfold ofPlatform
  split
  · simp [Value.nesting]
  · split
    · simp [Value.nesting, Value.nestingOfItems]
    · split <;> simp [Value.nesting, Value.nestingOfEntries]

/-- A value that is given as it stands is no deeper than an empty list or mapping. -/
theorem nesting_le_of_layer_leaf
    {s : Shape}
    {e : Option Value}
    (h : s.layer = .leaf e) :
    ∀ v ∈ e, v.nesting ≤ 1 := by
  unfold layer at h
  split at h
  · next v =>
    obtain rfl := Layer.leaf.inj h
    simp [Value.nesting_of_isScalar v.2]
  · obtain rfl := Layer.leaf.inj h
    simp [Value.nesting]
  · split at h
    · obtain rfl := Layer.leaf.inj h
      simp [Value.nesting]
    · split at h
      case h_11 =>
        split at h
        · cases h
        · obtain rfl := Layer.leaf.inj h
          simp
      case h_12 =>
        split at h <;>
        · obtain rfl := Layer.leaf.inj h
          simp [Value.nesting]
      case h_14 name _ _ _ =>
        obtain rfl := Layer.leaf.inj h
        exact nesting_le_of_mem_ofPlatform name
      all_goals cases h
      all_goals simp [Value.nesting, Value.nestingOfEntries]

end Parts

section Levels

variable (fieldsOf : Shape → Except Fault (List Field))
variable (typeOf : Field → Except Fault Shape)

/-- The fields of an object can be read, and so can the types of those that are part of an example. -/
def Forces (o : Shape) : Prop :=
  ∃ fs, fieldsOf o = .ok fs ∧ ∀ f ∈ fs, f.isWritten → ∃ m, typeOf f = .ok m

/-- Whether an object is written out for the example of a shape, inside of objects with given texts and
to so many more levels. -/
def WritesOut : Nat → List String → Shape → Shape → Prop
  | 0, _, _, _ => False
  | n + 1, around, s, o =>
    match s.layer with
    | .leaf _ => False
    | .list items => ∃ m ∈ items, WritesOut n around m o
    | .choice m => WritesOut n around m o
    | .object t =>
      t ∉ around ∧ (o = s ∨ ∃ fs, fieldsOf s = .ok fs ∧ ∃ f ∈ fs, f.isWritten ∧
        ∃ m, typeOf f = .ok m ∧ WritesOut n (t :: around) m o)

variable {fieldsOf typeOf}

/-- There is an example exactly when every object that is written out for it can be read. -/
theorem exists_exampleUsing_iff
    {n : Nat}
    {around : List String}
    {s : Shape} :
    (∃ e, exampleUsing fieldsOf typeOf n around s = .ok e) ↔
      ∀ o, WritesOut fieldsOf typeOf n around s o → Forces fieldsOf typeOf o := by
  induction n generalizing around s with
  | zero => exact iff_of_true ⟨_, rfl⟩ nofun
  | succ n ih =>
    rw [exampleUsing_succ]
    cases hs : s.layer with
    | leaf e => simp [WritesOut, hs]
    | list items =>
      simp only [WritesOut, hs]
      constructor
      · rintro ⟨e, h⟩ o ⟨m, hm, ho⟩
        obtain ⟨vs, hvs, -⟩ := exists_of_bind_eq_ok h
        exact ih.1 (exists_examplesOf_iff.1 ⟨vs, hvs⟩ m hm) o ho
      · intro h
        have hitems : ∃ vs, examplesOf (exampleUsing fieldsOf typeOf n around) items = .ok vs :=
          exists_examplesOf_iff.2 fun m hm => ih.2 fun o ho => h o ⟨m, hm, ho⟩
        exact exists_bind_eq_ok hitems fun vs => ⟨_, rfl⟩
    | choice m =>
      simp only [WritesOut, hs]
      exact ih
    | object t =>
      simp only [WritesOut, hs, List.contains_iff_mem]
      by_cases ht : t ∈ around
      · simp [ht]
      rw [if_neg ht]
      constructor
      · rintro ⟨e, h⟩ o ⟨-, ho⟩
        obtain ⟨fs, hfs, h⟩ := exists_of_bind_eq_ok h
        obtain ⟨entries, hentries, -⟩ := exists_of_bind_eq_ok h
        have hwritten := exists_entriesOf_iff.1 ⟨entries, hentries⟩
        rcases ho with rfl | ⟨fs', hfs', f, hf, hw, m, hm, ho⟩
        · refine ⟨fs, hfs, fun f hf hw => ?_⟩
          obtain ⟨v, hv⟩ := hwritten f hf hw
          obtain ⟨m, hm, -⟩ := exists_of_bind_eq_ok hv
          exact ⟨m, hm⟩
        · obtain rfl : fs = fs' := Except.ok.inj (hfs.symm.trans hfs')
          obtain ⟨v, hv⟩ := hwritten f hf hw
          rw [hm] at hv
          exact ih.1 ⟨v, hv⟩ o ho
      · intro h
        obtain ⟨fs, hfs, htypes⟩ := h s ⟨ht, .inl rfl⟩
        have hentries : ∃ es, entriesOf
            (fun f => do exampleUsing fieldsOf typeOf n (t :: around) (← typeOf f)) [] fs = .ok es := by
          refine exists_entriesOf_iff.2 fun f hf hw => ?_
          obtain ⟨m, hm⟩ := htypes f hf hw
          rw [hm]
          exact ih.2 fun o ho => h o ⟨ht, .inr ⟨fs, hfs, f, hf, hw, m, hm, ho⟩⟩
        obtain ⟨es, hes⟩ := hentries
        refine ⟨some (.map es), ?_⟩
        rw [hfs]
        exact congrArg (· >>= fun entries => pure (some (Value.map entries))) hes

/-- An example has at most one list or mapping inside of another for each level, and one more. -/
theorem nesting_le_of_exampleUsing
    {n : Nat}
    {around : List String}
    {s : Shape}
    {e : Option Value}
    (h : exampleUsing fieldsOf typeOf n around s = .ok e) :
    ∀ v ∈ e, v.nesting ≤ n + 1 := by
  induction n generalizing around s e with
  | zero =>
    obtain rfl := Except.ok.inj h
    simp [Value.nesting, Value.nestingOfEntries]
  | succ n ih =>
    rw [exampleUsing_succ] at h
    cases hs : s.layer with
    | leaf e' =>
      simp only [hs, Except.ok.injEq] at h
      subst h
      exact fun v hv => (nesting_le_of_layer_leaf hs v hv).trans (by omega)
    | list items =>
      simp only [hs] at h
      obtain ⟨vs, hvs, h⟩ := exists_of_bind_eq_ok h
      cases h
      have hitems : ∀ v ∈ vs, v.nesting ≤ n + 1 := by
        intro v hv
        obtain ⟨m, -, hm⟩ := exists_of_mem_examplesOf hvs hv
        exact ih hm v rfl
      simpa [Value.nesting] using Value.nestingOfItems_le_iff.2 hitems
    | choice m =>
      simp only [hs] at h
      exact fun v hv => (ih h v hv).trans (Nat.le_succ _)
    | object t =>
      simp only [hs] at h
      split at h
      · obtain rfl := Except.ok.inj h
        simp [Value.nesting, Value.nestingOfEntries]
      · obtain ⟨fs, -, h⟩ := exists_of_bind_eq_ok h
        obtain ⟨entries, hentries, h⟩ := exists_of_bind_eq_ok h
        cases h
        have hfields : ∀ e ∈ entries, e.2.nesting ≤ n + 1 := by
          refine forall_mem_entriesOf (P := fun v => v.nesting ≤ n + 1) hentries ?_ (by simp)
          intro f _ v hv
          obtain ⟨m, -, hm⟩ := exists_of_bind_eq_ok hv
          exact ih hm v rfl
        simpa [Value.nesting] using Value.nestingOfEntries_le_iff.2 hfields

end Levels

section Endless

/-- A text for each number. -/
def stepName (k : Nat) : String :=
  String.ofList (List.replicate (k + 1) 'x')

/-- The objects of an endless sequence, each written by a text of its own. -/
def step (k : Nat) : Shape :=
  object (stepName k) none .absent

/-- The one field of an object of the sequence, which is called as the next object is. -/
def stepFields (s : Shape) : Except Fault (List Field) :=
  .ok [⟨s.text ++ "x", false, false, none⟩]

/-- The type of the field, the next object. -/
def stepType (f : Field) : Except Fault Shape :=
  .ok (object f.name none .absent)

theorem stepName_append (k : Nat) : stepName k ++ "x" = stepName (k + 1) := by
  rw [stepName, stepName, List.replicate_succ' (n := k + 1), String.ofList_append]

theorem stepName_inj
    {j k : Nat}
    (h : stepName j = stepName k) :
    j = k := by
  have hlength := congrArg (fun t => t.toList.length) h
  simpa [stepName] using hlength

theorem layer_step (k : Nat) : (step k).layer = .object (stepName k) := by
  have hword {t : String} (h : t.toList.head? ≠ some 'x') : stepName k ≠ t := by
    rintro rfl
    simp [stepName, List.replicate_succ] at h
  have htrue : stepName k ≠ "true" := hword (by decide)
  have hfalse : stepName k ≠ "false" := hword (by decide)
  simp [step, layer, text, htrue, hfalse]

theorem isWritten_stepName
    (k : Nat)
    (type : Option UnreadType) :
    (Field.mk (stepName k) false false type).isWritten := by
  simp [Field.isWritten, stepName, Text.startsWith, Text.afterStart?, List.replicate_succ]

/-- The example of an object of the sequence is as deep as any example may be, for every depth. -/
theorem nesting_step
    (n k : Nat)
    {around : List String}
    (h : ∀ j, stepName j ∈ around → j < k) :
    ∃ v, exampleUsing stepFields stepType n around (step k) = .ok (some v) ∧
      v.nesting = n + 1 := by
  induction n generalizing k around with
  | zero => exact ⟨_, rfl, by simp [Value.nesting, Value.nestingOfEntries]⟩
  | succ n ih =>
    have hnew : stepName k ∉ around := fun hk => (h k hk).false
    have hlater : ∀ j, stepName j ∈ stepName k :: around → j < k + 1 := by
      intro j hj
      rcases List.mem_cons.1 hj with hj | hj
      · exact stepName_inj hj ▸ Nat.lt_succ_self _
      · exact Nat.lt_succ_of_lt (h j hj)
    obtain ⟨v, hv, hnesting⟩ := ih (k + 1) hlater
    have hfields : stepFields (step k) = .ok [⟨stepName (k + 1), false, false, none⟩] := by
      rw [← stepName_append]
      rfl
    have hentry : entriesOf
        (fun f => do exampleUsing stepFields stepType n (stepName k :: around) (← stepType f)) []
        [⟨stepName (k + 1), false, false, none⟩] = .ok [(stepName (k + 1), v)] := by
      rw [entriesOf_cons_of_isWritten (isWritten_stepName _ _)]
      exact congrArg (· >>= _) hv
    refine ⟨.map [(stepName (k + 1), v)], ?_, by simp [Value.nesting, Value.nestingOfEntries, hnesting]⟩
    rw [exampleUsing_succ, layer_step]
    simp only [List.contains_iff_mem, hnew, if_false, hfields]
    exact congrArg (· >>= fun entries => pure (some (Value.map entries))) hentry

theorem forces_step (o : Shape) : Forces stepFields stepType o :=
  ⟨_, rfl, fun _ _ _ => ⟨_, rfl⟩⟩

end Endless

section Results

variable {fieldsOf : Shape → Except Fault (List Field)}
variable {typeOf : Field → Except Fault Shape}

/-- No matter where the types of fields lead to, there is an example of a type at any depth and inside of
any texts if the objects that are written out can be read, and the lists and objects in it are nested to no
more than the depth that is left, with one for the type itself and one where the example breaks off. -/
theorem exists_exampleUsing_nesting_le
    {maxDepth depth : Int}
    {visited : List String}
    {s : Shape}
    (h : ∀ o, WritesOut fieldsOf typeOf (maxDepth + 1 - depth).toNat visited s o →
      Forces fieldsOf typeOf o) :
    ∃ e, exampleUsing fieldsOf typeOf (maxDepth + 1 - depth).toNat visited s = .ok e ∧
      ∀ v ∈ e, (v.nesting : Int) ≤ max 1 (maxDepth - depth + 2) := by
  obtain ⟨e, he⟩ := exists_exampleUsing_iff.2 h
  refine ⟨e, he, fun v hv => ?_⟩
  have hnesting := nesting_le_of_exampleUsing he v hv
  omega

theorem exists_exampleUsing_nesting_le_step :
    (∀ o, WritesOut stepFields stepType (3 + 1 - 1 : Int).toNat ["x"] (step 1) o →
      Forces stepFields stepType o) ∧
      ∃ e, exampleUsing stepFields stepType (3 + 1 - 1 : Int).toNat ["x"] (step 1) = .ok e ∧
        ∀ v ∈ e, (v.nesting : Int) ≤ max 1 (3 - 1 + 2) :=
  ⟨fun o _ => forces_step o, exists_exampleUsing_nesting_le fun o _ => forces_step o⟩

end Results

end Shape

end RouteAtlas
