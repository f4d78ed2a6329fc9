import Mathlib
import RouteAtlas.Proofs.GlobSegments
import RouteAtlas.Route.Segment

/-!
# Dynamic segments of a path

Each component of a path is either static or denotes one dynamic segment. Which one is told by its brackets,
double ones with three points before single ones with three points, and these before plain ones: a text in the
first is also one in the last, with more of it taken for the name.

The name in brackets has no slash, and a written parameter starts with a colon where a dynamic component starts
with a bracket. So a path keeps its components when its segments are written as parameters, static ones stay as
they are, and there is nothing left to be written when this is done again.
-/

namespace RouteAtlas

namespace Text

section Starts

theorem afterStart?_eq_some_iff
    {start cs rest : List Char} :
    afterStart? start cs = some rest ↔ cs = start ++ rest := by
  induction start generalizing cs with
  | nil => simp [afterStart?]
  | cons c start ih =>
    cases cs with
    | nil => simp [afterStart?]
    | cons d cs =>
      rw [afterStart?]
      by_cases hcd : c = d
      · simp [hcd, ih]
      · simp [hcd, Ne.symm hcd]

end Starts

end Text

namespace Route

namespace DynamicSegment

section Brackets

/-- A component that is a name in brackets: one or more characters without a line break. One line break may
follow the brackets. -/
def Encloses
    (left right name component : List Char) :
    Prop :=
  name ≠ [] ∧ '\n' ∉ name ∧
    (component = left ++ name ++ right ∨ component = left ++ name ++ right ++ ['\n'])

/-- The dynamic segment that a component denotes, by the first brackets that it is a name in. -/
inductive Denotes (component : List Char) : DynamicSegment → Prop
  | optionalCatchAll
      {name : List Char}
      (h : Encloses "[[...".toList "]]".toList name component) :
      Denotes component ⟨String.ofList name, true, true⟩
  | catchAll
      {name : List Char}
      (hdouble : ∀ name', ¬Encloses "[[...".toList "]]".toList name' component)
      (h : Encloses "[...".toList "]".toList name component) :
      Denotes component ⟨String.ofList name, true, false⟩
  | plain
      {name : List Char}
      (hdouble : ∀ name', ¬Encloses "[[...".toList "]]".toList name' component)
      (hsingle : ∀ name', ¬Encloses "[...".toList "]".toList name' component)
      (h : Encloses "[".toList "]".toList name component) :
      Denotes component ⟨String.ofList name, false, false⟩

variable {left right name component : List Char}

/-- A text that is read from its end stands before a bracket. -/
theorem insideOf_eq_some_iff
    (body : List Char) :
    (match Text.afterStart? right.reverse body with
      | none => none
      | some inside => if inside.isEmpty || inside.contains '\n' then none else some inside.reverse) =
        some name ↔
      name ≠ [] ∧ '\n' ∉ name ∧ body = right.reverse ++ name.reverse := by
  cases hinside : Text.afterStart? right.reverse body with
  | none =>
    have hbody : body ≠ right.reverse ++ name.reverse := by
      rintro rfl
      rw [Text.afterStart?_eq_some_iff.2 rfl] at hinside
      cases hinside
    simp [hbody]
  | some inside =>
    obtain rfl := Text.afterStart?_eq_some_iff.1 hinside
    rw [List.append_cancel_left_eq]
    dsimp only
    constructor
    · intro h
      by_cases hcond : (inside.isEmpty || inside.contains '\n') = true
      · rw [if_pos hcond] at h
        cases h
      · rw [if_neg hcond] at h
        obtain rfl := Option.some.inj h
        simpa using hcond
    · rintro ⟨hname, hbreak, rfl⟩
      simp [hname, hbreak]

/-- What stands between two brackets is found, a line break after the second one being passed over. -/
theorem between?_eq_some_iff
    (hright : right.reverse.head? = some ']') :
    between? left right component = some name ↔ Encloses left right name component := by
  obtain ⟨more, hmore⟩ := List.head?_eq_some_iff.1 hright
  unfold between? Encloses
  cases hrest : Text.afterStart? left component with
  | none =>
    have hleft : ∀ rest, component ≠ left ++ rest := by
      rintro rest rfl
      rw [Text.afterStart?_eq_some_iff.2 rfl] at hrest
      cases hrest
    simp [hleft]
  | some rest =>
    obtain rfl := Text.afterStart?_eq_some_iff.1 hrest
    simp only [List.append_assoc, List.append_cancel_left_eq]
    refine (insideOf_eq_some_iff _).trans (and_congr_right fun _ => and_congr_right fun _ => ?_)
    have hreverse : ∀ cs : List Char, rest = cs ↔ rest.reverse = cs.reverse := by simp
    simp only [hreverse, List.reverse_append, hmore]
    cases hlast : rest.reverse with
    | nil => simp
    | cons c before =>
      by_cases hc : c = '\n'
      · subst hc
        simp
      · simp [hc]

theorem between?_eq_none_iff
    (hright : right.reverse.head? = some ']') :
    between? left right component = none ↔ ∀ name, ¬Encloses left right name component := by
  simp only [Option.eq_none_iff_forall_ne_some, ne_eq, between?_eq_some_iff hright]

theorem ofComponent?_eq_some_iff
    {s : DynamicSegment} :
    ofComponent? component = some s ↔ Denotes component s := by
  have honly : ∀ {left right name name'}, right.reverse.head? = some ']' →
      between? left right component = some name → Encloses left right name' component → name = name' :=
    fun hright h h' => Option.some.inj (h.symm.trans ((between?_eq_some_iff hright).2 h'))
  unfold ofComponent?
  split
  · next name hdouble =>
    rw [Option.some.injEq]
    constructor
    · rintro rfl
      exact .optionalCatchAll ((between?_eq_some_iff rfl).1 hdouble)
    · rintro (h | ⟨hno, -⟩ | ⟨hno, -, -⟩)
      · rw [honly rfl hdouble h]
      · exact absurd ((between?_eq_some_iff rfl).1 hdouble) (hno name)
      · exact absurd ((between?_eq_some_iff rfl).1 hdouble) (hno name)
  · next hdouble =>
    rw [between?_eq_none_iff rfl] at hdouble
    split
    · next name hsingle =>
      rw [Option.some.injEq]
      constructor
      · rintro rfl
        exact .catchAll hdouble ((between?_eq_some_iff rfl).1 hsingle)
      · rintro (h | ⟨-, h⟩ | ⟨-, hno, -⟩)
        · exact absurd h (hdouble _)
        · rw [honly rfl hsingle h]
        · exact absurd ((between?_eq_some_iff rfl).1 hsingle) (hno name)
    · next hsingle =>
      rw [between?_eq_none_iff rfl] at hsingle
      rw [Option.map_eq_some_iff]
      constructor
      · rintro ⟨name, h, rfl⟩
        exact .plain hdouble hsingle ((between?_eq_some_iff rfl).1 h)
      · rintro (h | ⟨-, h⟩ | ⟨-, -, h⟩)
        · exact absurd h (hdouble _)
        · exact absurd h (hsingle _)
        · exact ⟨_, (between?_eq_some_iff rfl).2 h, rfl⟩

end Brackets

section Parameters

variable {component : List Char} {s : DynamicSegment}

theorem toParam_toList (s : DynamicSegment) :
    s.toParam.toList =
      ':' :: s.name.toList ++ (if s.isOptional then ['*', '?'] else if s.isCatchAll then ['*'] else []) := by
  unfold toParam
  split
  · simp
  · split <;> simp

/-- The name of a segment is a stretch of its component. -/
theorem Denotes.mem_of_mem_name
    (h : Denotes component s)
    {c : Char}
    (hc : c ∈ s.name.toList) :
    c ∈ component := by
  obtain ⟨-, -, hcomponent | hcomponent⟩ | ⟨-, -, -, hcomponent | hcomponent⟩ |
      ⟨-, -, -, -, hcomponent | hcomponent⟩ := h <;>
  · rw [String.toList_ofList] at hc
    simp [hcomponent, hc]

theorem slash_not_mem_toParam
    (h : Denotes component s)
    (hslash : '/' ∉ component) :
    '/' ∉ s.toParam.toList := by
  have hname : '/' ∉ s.name.toList := fun hmem => hslash (h.mem_of_mem_name hmem)
  rw [toParam_toList]
  split
  · simp [hname]
  · split <;> simp [hname]

/-- A component that denotes a segment starts with a bracket. -/
theorem Denotes.head?_eq (h : Denotes component s) : component.head? = some '[' := by
  obtain ⟨-, -, rfl | rfl⟩ | ⟨-, -, -, rfl | rfl⟩ | ⟨-, -, -, -, rfl | rfl⟩ := h <;> rfl

theorem ofComponent?_toParam (s : DynamicSegment) : ofComponent? s.toParam.toList = none := by
  rw [Option.eq_none_iff_forall_ne_some]
  intro s' hs'
  have hhead := (ofComponent?_eq_some_iff.1 hs').head?_eq
  rw [toParam_toList] at hhead
  simp at hhead

end Parameters

end DynamicSegment

section Components

open DynamicSegment

/-- A component as it stands in a route pattern. -/
def written (component : List Char) : String :=
  match ofComponent? component with
  | some segment => segment.toParam
  | none => String.ofList component

variable {component : List Char}

theorem written_of_static
    (h : ofComponent? component = none) :
    written component = String.ofList component := by
  simp [written, h]

theorem written_of_dynamic
    {s : DynamicSegment}
    (h : ofComponent? component = some s) :
    written component = s.toParam := by
  simp [written, h]

theorem written_written (component : List Char) : written (written component).toList = written component := by
  cases h : ofComponent? component with
  | none => rw [written_of_static h, String.toList_ofList, written_of_static h]
  | some s => rw [written_of_dynamic h, written_of_static (ofComponent?_toParam s), String.ofList_toList]

theorem slash_not_mem_written
    (h : '/' ∉ component) :
    '/' ∉ (written component).toList := by
  cases hs : ofComponent? component with
  | none => simpa [written_of_static hs] using h
  | some s =>
    rw [written_of_dynamic hs]
    exact slash_not_mem_toParam (ofComponent?_eq_some_iff.1 hs) h

theorem withParams_eq (path : String) :
    withParams path = Text.joinWith "/" ((Text.splitOn '/' path.toList).map written) := rfl

/-- The components of a path with its segments written as parameters. -/
theorem split_withParams (path : String) :
    Text.split '/' (withParams path) = (Text.splitOn '/' path.toList).map written := by
  have hslash : ∀ p ∈ (Text.splitOn '/' path.toList).map written, '/' ∉ p.toList := by
    intro p hp
    obtain ⟨component, hcomponent, rfl⟩ := List.mem_map.1 hp
    exact slash_not_mem_written (Text.not_mem_of_mem_splitOn hcomponent)
  rw [withParams_eq]
  cases hparts : (Text.splitOn '/' path.toList).map written with
  | nil => exact absurd (List.map_eq_nil_iff.1 hparts) (Text.splitOn_ne_nil _)
  | cons first more =>
    rw [hparts] at hslash
    exact Text.split_joinWith hslash

theorem withParams_withParams (path : String) : withParams (withParams path) = withParams path := by
  have hparts : (Text.splitOn '/' (withParams path).toList).map written =
      (Text.splitOn '/' path.toList).map written := by
    have hsplit : Text.splitOn '/' (withParams path).toList =
        ((Text.splitOn '/' path.toList).map written).map String.toList := by
      rw [← split_withParams, Text.split, List.map_map]
      simp [Function.comp_def]
    rw [hsplit, List.map_map, List.map_map]
    exact List.map_congr_left fun component _ => written_written component
  rw [withParams_eq (withParams path), hparts, ← withParams_eq]

end Components

section Agreement

open DynamicSegment

/-- The components of a path, each with what it is written as. -/
def components (path : String) : List (String × String) :=
  (Text.split '/' path).zip (Text.split '/' (withParams path))

theorem components_eq (path : String) :
    components path = (Text.splitOn '/' path.toList).map fun c => (String.ofList c, written c) := by
  rw [components, split_withParams, Text.split, List.zip_map']

/-- Writing the segments of a path as parameters changes nothing more when it is done twice, keeps the
components of the path apart, and leaves the static ones as they are; in place of the others stand, in order,
the parameters of the segments that are found in the path. Which segment a component denotes is told by its
brackets. -/
theorem withParams_agrees (path : String) :
    withParams (withParams path) = withParams path ∧
      (Text.split '/' (withParams path)).length = (Text.split '/' path).length ∧
      (∀ c ∈ components path, ofComponent? c.1.toList = none → c.2 = c.1) ∧
      ((components path).filter fun c => (ofComponent? c.1.toList).isSome).map Prod.snd =
        (dynamicSegments path).map toParam ∧
      ∀ component s, ofComponent? component = some s ↔ Denotes component s := by
  refine ⟨withParams_withParams path, ?_, ?_, ?_, fun component s => ofComponent?_eq_some_iff⟩
  · rw [split_withParams, Text.split, List.length_map, List.length_map]
  · intro c hc hstatic
    rw [components_eq] at hc
    obtain ⟨component, -, rfl⟩ := List.mem_map.1 hc
    rw [String.toList_ofList] at hstatic
    exact written_of_static hstatic
  · rw [components_eq, dynamicSegments]
    generalize Text.splitOn '/' path.toList = parts
    induction parts with
    | nil => rfl
    | cons component rest ih =>
      cases hs : ofComponent? component with
      | none => simpa [hs] using ih
      | some s => simpa [hs, written_of_dynamic hs] using ih

example :
    ["/users/[id]", "/docs/[...slug]", "/shop/[[...filters]]", "/[[id]]/[...]/[]"].map withParams =
      ["/users/:id", "/docs/:slug*", "/shop/:filters*?", "/:[id]/:.../[]"] := by
  cbv

end Agreement

end Route

end RouteAtlas
