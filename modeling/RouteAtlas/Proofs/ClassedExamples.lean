import Mathlib
import RouteAtlas.Proofs.Unfoldings

/-!
# Classes of data and examples

A shape has a class of data and an example. The class of a choice is that of all its members, and its
example is that of the first one, so the two agree as long as the example is written out down to the member
that the choices in the end fall on. Every choice takes one level of what is written out. Where the levels
do not suffice, the example is an empty mapping, whatever the class.
-/

namespace RouteAtlas

open Syntax
open Project (Scope)

namespace DataClass

/-- Whether an example is of a class of data: a text, a number or a truth value, a list, or a mapping. -/
def admits : DataClass → Option Value → Bool
  | primitive, some (.str _) | primitive, some (.int _) | primitive, some (.float _)
  | primitive, some (.bool _) => true
  | array, some (.list _) => true
  | object, some (.map _) => true
  | unknown, _ => true
  | _, _ => false

end DataClass

namespace Shape

section Choices

mutual

/-- The number of choices inside of one another that an example passes through. -/
def choices : Shape → Nat
  | union t members => if t == "true" || t == "false" then 0 else choicesAmong members
  | _ => 0

/-- One choice and those of the member that it falls on. -/
def choicesAmong : List Shape → Nat
  | [] => 0
  | s :: rest => if s.isNullish then choicesAmong rest else choices s + 1

end

mutual

/-- The shape that the choices of a shape fall on in the end. -/
def settled : Shape → Shape
  | union t members =>
    if t == "true" || t == "false" then union t members
    else (settledAmong members).getD (union t members)
  | s => s

/-- The shape that the choices of the first shape with a value fall on in the end. -/
def settledAmong : List Shape → Option Shape
  | [] => none
  | s :: rest => if s.isNullish then settledAmong rest else some (settled s)

end

/-- Whether an example that is no choice misses the class of its shape: null as a literal, and a list or a
mapping that is written by the word of a truth value. -/
def isMiswritten : Shape → Bool
  | literal _ ⟨.null, _⟩ => true
  | literal _ _ | truth _ _ => false
  | s => (s.text == "true" || s.text == "false") && s.dataClass != .primitive

variable {s m : Shape} {members : List Shape}

theorem choicesAmong_eq (members : List Shape) :
    choicesAmong members = ((members.find? fun m => !m.isNullish).map fun m => m.choices + 1).getD 0 := by
  induction members with
  | nil => rfl
  | cons s rest ih =>
    rw [choicesAmong, List.find?_cons]
    cases s.isNullish with
    | true => simpa using ih
    | false => rfl

theorem settledAmong_eq (members : List Shape) :
    settledAmong members = (members.find? fun m => !m.isNullish).map settled := by
  induction members with
  | nil => rfl
  | cons s rest ih =>
    rw [settledAmong, List.find?_cons]
    cases s.isNullish with
    | true => simpa using ih
    | false => rfl

/-- A shape whose outermost layer is a choice is a choice that falls on this member. -/
theorem exists_union_of_layer_choice (h : s.layer = .choice m) :
    ∃ t members, s = union t members ∧ (t == "true" || t == "false") = false ∧
      (members.find? fun m => !m.isNullish) = some m := by
  cases s with
  | literal t v | truth t b => cases h
  | union t members =>
    cases ht : (t == "true" || t == "false") with
    | true => simp [layer, text, ht] at h
    | false =>
      refine ⟨t, members, rfl, ht, ?_⟩
      cases hm : members.find? fun m => !m.isNullish with
      | none => simp [layer, text, ht, hm] at h
      | some m' => simpa [layer, text, ht, hm] using h
  | plain k t =>
    simp only [layer] at h
    split at h
    · cases h
    · cases k <;> cases h
  | enumeration t members =>
    simp only [layer] at h
    split at h
    · cases h
    · cases members <;> cases h
  | array t element | tuple t members | enumMember t name v | builtin t name | object t name fields =>
    simp only [layer] at h
    split at h <;> cases h

theorem choices_of_layer_choice (h : s.layer = .choice m) : s.choices = m.choices + 1 := by
  obtain ⟨t, members, rfl, ht, hm⟩ := exists_union_of_layer_choice h
  rw [choices, ht, if_neg Bool.false_ne_true, choicesAmong_eq, hm]
  rfl

theorem settled_of_layer_choice (h : s.layer = .choice m) : s.settled = m.settled := by
  obtain ⟨t, members, rfl, ht, hm⟩ := exists_union_of_layer_choice h
  rw [settled, ht, if_neg Bool.false_ne_true, settledAmong_eq, hm]
  rfl

/-- A shape that is no choice is settled. -/
theorem settled_of_layer_ne
    (h : ∀ m, s.layer ≠ .choice m) :
    s.choices = 0 ∧ s.settled = s := by
  cases s with
  | union t members =>
    cases ht : (t == "true" || t == "false") with
    | true => simp [choices, settled, ht]
    | false =>
      have hnone : (members.find? fun m => !m.isNullish) = none := by
        cases hm : members.find? fun m => !m.isNullish with
        | none => rfl
        | some m => exact absurd (by simp [layer, text, ht, hm]) (h m)
      simp [choices, settled, ht, choicesAmong_eq, settledAmong_eq, hnone]
  | _ => exact ⟨by simp [choices], by simp [settled]⟩

/-- What holds of settled shapes and of every choice that falls on a shape of which it holds, holds of every
shape. -/
@[elab_as_elim]
theorem choice_induction
    {motive : Shape → Prop}
    (settled : ∀ s, (∀ m, s.layer ≠ .choice m) → motive s)
    (choice : ∀ s m, s.layer = .choice m → motive m → motive s)
    (s : Shape) :
    motive s := by
  generalize hn : s.choices = n
  induction n generalizing s with
  | zero =>
    refine settled s fun m hm => ?_
    rw [choices_of_layer_choice hm] at hn
    cases hn
  | succ n ih =>
    by_cases hlayer : ∃ m, s.layer = .choice m
    · obtain ⟨m, hm⟩ := hlayer
      rw [choices_of_layer_choice hm] at hn
      exact choice s m hm (ih m (Nat.succ.inj hn))
    · exact settled s (not_exists.1 hlayer)

end Choices

section Classes

variable {s m : Shape}

/-- The class on which shapes agree is that of the first one that has a value. -/
theorem dataClass_of_agreed
    {members : List Shape}
    {c : DataClass}
    (hc : agreed members = some (some c))
    (hm : (members.find? fun m => !m.isNullish) = some m) :
    m.dataClass = c := by
  induction members generalizing m with
  | nil => cases hm
  | cons s rest ih =>
    rw [agreed] at hc
    rw [List.find?_cons] at hm
    cases hs : s.isNullish with
    | true =>
      rw [hs, if_pos rfl] at hc
      rw [hs] at hm
      exact ih hc hm
    | false =>
      rw [hs, if_neg Bool.false_ne_true] at hc
      rw [hs] at hm
      obtain rfl := Option.some.inj hm
      split at hc
      · exact Option.some.inj (Option.some.inj hc)
      · split at hc
        · next heq =>
          rw [heq] at hc
          exact Option.some.inj (Option.some.inj hc)
        · cases Option.some.inj hc

theorem agreed_of_find?_eq_none
    {members : List Shape}
    (h : (members.find? fun m => !m.isNullish) = none) :
    agreed members = none := by
  induction members with
  | nil => rfl
  | cons s rest ih =>
    rw [List.find?_eq_none, List.forall_mem_cons] at h
    have hs : s.isNullish = true := by simpa using h.1
    rw [agreed, if_pos hs]
    exact ih (List.find?_eq_none.2 h.2)

theorem dataClass_of_layer_choice
    (h : s.layer = .choice m)
    (hclass : s.dataClass ≠ .unknown) :
    m.dataClass = s.dataClass := by
  obtain ⟨t, members, rfl, -, hm⟩ := exists_union_of_layer_choice h
  rw [dataClass] at hclass ⊢
  split at hclass
  · next c hc => exact dataClass_of_agreed hc hm
  · exact absurd rfl hclass

/-- A class on which all members of all choices agree is that of the shape that they fall on. -/
theorem dataClass_settled
    (hclass : s.dataClass ≠ .unknown) :
    s.settled.dataClass = s.dataClass := by
  induction s using choice_induction with
  | settled s hlayer => rw [(settled_of_layer_ne hlayer).2]
  | choice s m hm ih =>
    have hsame := dataClass_of_layer_choice hm hclass
    rw [settled_of_layer_choice hm, ih (hsame ▸ hclass), hsame]

theorem layer_settled (s m : Shape) : s.settled.layer ≠ .choice m := by
  induction s using choice_induction with
  | settled s hlayer =>
    rw [(settled_of_layer_ne hlayer).2]
    exact hlayer m
  | choice s m' hm ih =>
    rw [settled_of_layer_choice hm]
    exact ih

theorem admits_bool
    {c : DataClass}
    (hclass : c ≠ .unknown)
    (b : Bool) :
    c.admits (some (.bool b)) = (c == .primitive) := by
  cases c with
  | unknown => exact absurd rfl hclass
  | primitive | array | object => rfl

theorem admits_ofPlatform (name : String) :
    (ofPlatform name).2.admits (ofPlatform name).1 := by
  unfold ofPlatform
  split
  · rfl
  · split
    · rfl
    · split <;> rfl

theorem admits_scalar
    (t : String)
    (v : Scalar) :
    DataClass.primitive.admits (some v.1) = !(literal t v).isMiswritten := by
  obtain ⟨v, hv⟩ := v
  cases v with
  | list items | map entries => cases hv
  | null | bool b | int i | float x | str u => rfl

/-- A shape that is no literal and is written by the word of a truth value has that as its example. -/
theorem layer_of_word
    (hliteral : ∀ t v, s ≠ literal t v)
    (hword : (s.text == "true" || s.text == "false") = true)
    (hclass : s.dataClass ≠ .unknown) :
    ∃ v, s.layer = .leaf v ∧ s.dataClass.admits v = !s.isMiswritten := by
  cases s with
  | literal t v => exact absurd rfl (hliteral t v)
  | truth t b => exact ⟨_, rfl, rfl⟩
  | _ =>
    simp only [text] at hword
    refine ⟨_, by simp only [layer, text, hword]; rfl, ?_⟩
    rw [admits_bool hclass]
    simp [isMiswritten, text, hword, bne]

/-- The outermost layer of a shape of a class that is no choice: a value, which is of the class unless the
shape is miswritten, or else a list or an object, as the class says. -/
theorem layer_cases
    (hlayer : ∀ m, s.layer ≠ .choice m)
    (hclass : s.dataClass ≠ .unknown) :
    (∃ v, s.layer = .leaf v ∧ s.dataClass.admits v = !s.isMiswritten) ∨
      (∃ items, s.layer = .list items ∧ s.dataClass = .array ∧ s.isMiswritten = false) ∨
      ∃ t, s.layer = .object t ∧ s.dataClass = .object ∧ s.isMiswritten = false := by
  cases hword : (s.text == "true" || s.text == "false") with
  | true =>
    cases s with
    | literal t v => exact .inl ⟨_, rfl, admits_scalar t v⟩
    | _ => exact .inl (layer_of_word nofun hword hclass)
  | false =>
    cases s with
    | literal t v => exact .inl ⟨_, rfl, admits_scalar t v⟩
    | truth t b => exact .inl ⟨_, rfl, rfl⟩
    | plain k t =>
      simp only [text] at hword
      cases k <;>
        first
        | exact absurd rfl hclass
        | exact .inl ⟨_, by simp only [layer, text, hword]; rfl, by simp [isMiswritten, text, hword]; rfl⟩
    | array t element =>
      exact .inr (.inl ⟨_, by simp only [layer, hword]; rfl, rfl, by simp [isMiswritten, hword]⟩)
    | tuple t members =>
      exact .inr (.inl ⟨_, by simp only [layer, hword]; rfl, rfl, by simp [isMiswritten, hword]⟩)
    | object t name fields =>
      exact .inr (.inr ⟨_, by simp only [layer, hword]; rfl, rfl, by simp [isMiswritten, hword]⟩)
    | enumeration t members =>
      simp only [text] at hword
      cases members <;>
        exact .inl ⟨_, by simp only [layer, text, hword]; rfl, by simp [isMiswritten, text, hword]; rfl⟩
    | enumMember t name v =>
      exact .inl ⟨_, by simp only [layer, hword]; rfl, by simp [isMiswritten, hword]; rfl⟩
    | builtin t name =>
      refine .inl ⟨_, by simp only [layer, hword]; rfl, ?_⟩
      simpa [isMiswritten, hword, dataClass] using admits_ofPlatform name
    | union t members =>
      simp only [text] at hword
      -- A choice of which no member has a value would be of no class.
      cases hm : members.find? fun m => !m.isNullish with
      | some m => exact absurd (by simp [layer, text, hword, hm]) (hlayer m)
      | none => exact absurd (by rw [dataClass, agreed_of_find?_eq_none hm]) hclass

end Classes

section Examples

variable {s : Shape}

/-- An example is written out to the shape that its choices fall on, each of which takes one level, or it is
empty. -/
theorem exampleWithin_eq_settled
    (scope : Scope)
    (n : Nat)
    (around : List String)
    (s : Shape) :
    exampleWithin scope n around s =
      if s.choices < n then exampleWithin scope (n - s.choices) around s.settled
      else .ok (some (.map [])) := by
  induction s using choice_induction generalizing n with
  | settled s hlayer =>
    obtain ⟨hchoices, hsettled⟩ := settled_of_layer_ne hlayer
    rw [hchoices, hsettled, Nat.sub_zero]
    cases n with
    | zero => rfl
    | succ n => rw [if_pos (Nat.succ_pos n)]
  | choice s m hm ih =>
    rw [choices_of_layer_choice hm, settled_of_layer_choice hm]
    cases n with
    | zero => rfl
    | succ n =>
      rw [exampleWithin_succ, hm]
      simp only [ih n, Nat.add_lt_add_iff_right, Nat.add_sub_add_right]

/-- Whatever is written of a list is a list. -/
theorem admits_of_list
    {r : Except Fault (List Value)}
    {v : Option Value}
    (h : (do return some (.list (← r))) = Except.ok v) :
    DataClass.array.admits v := by
  cases r with
  | error e => cases h
  | ok vs =>
    obtain rfl := Except.ok.inj h
    rfl

/-- Whatever is written of an object is a mapping. -/
theorem admits_of_object
    {written : Prop}
    [Decidable written]
    {fields : Except Fault (List Field)}
    {entries : List Field → Except Fault (List (String × Value))}
    {v : Option Value}
    (h : (if written then .ok (some (.map []))
      else do
        let fs ← fields
        let es ← entries fs
        return some (.map es)) = Except.ok v) :
    DataClass.object.admits v := by
  split at h
  · obtain rfl := Except.ok.inj h
    rfl
  · cases hf : fields with
    | error e =>
      rw [hf] at h
      cases h
    | ok fs =>
      cases he : entries fs with
      | error e => simp [hf, he, bind, Except.bind] at h
      | ok es =>
        simp only [hf, he, bind, Except.bind, pure, Except.pure, Except.ok.injEq] at h
        subst h
        rfl

/-- The example of a shape that is no choice is of its class if it can be written and the shape is not
miswritten. What is of the class of the single values can always be written. -/
theorem admits_example_iff
    (scope : Scope)
    (n : Nat)
    (around : List String)
    (hlayer : ∀ m, s.layer ≠ .choice m)
    (hclass : s.dataClass ≠ .unknown) :
    (∃ v, exampleWithin scope (n + 1) around s = .ok v ∧ s.dataClass.admits v) ↔
      (s.dataClass ≠ .primitive → ∃ v, exampleWithin scope (n + 1) around s = .ok v) ∧
        ¬ s.isMiswritten := by
  rw [exampleWithin_succ]
  obtain ⟨v, hv, hadmits⟩ | ⟨items, hitems, hc, hmis⟩ | ⟨t, ht, hc, hmis⟩ := layer_cases hlayer hclass
  · simp [hv, hadmits]
  · simp only [hitems, hc, hmis]
    constructor
    · rintro ⟨v, hv, -⟩
      exact ⟨fun _ => ⟨v, hv⟩, Bool.false_ne_true⟩
    · rintro ⟨hwritten, -⟩
      obtain ⟨v, hv⟩ := hwritten nofun
      exact ⟨v, hv, admits_of_list hv⟩
  · simp only [ht, hc, hmis]
    constructor
    · rintro ⟨v, hv, -⟩
      exact ⟨fun _ => ⟨v, hv⟩, Bool.false_ne_true⟩
    · rintro ⟨hwritten, -⟩
      obtain ⟨v, hv⟩ := hwritten nofun
      exact ⟨v, hv, admits_of_object hv⟩

/-- A class and an example agree if and only if the example can be written, which is never in question for
single values, and either it is written out to what its choices fall on, which is not miswritten, or the
class is that of the empty mapping that it ends with. -/
theorem admits_example?_iff
    (scope : Scope)
    (maxDepth : Int)
    (hclass : s.dataClass ≠ .unknown) :
    (∃ v, s.example? scope maxDepth = .ok v ∧ s.dataClass.admits v) ↔
      (s.dataClass ≠ .primitive → ∃ v, s.example? scope maxDepth = .ok v) ∧
        (s.choices ≤ maxDepth → ¬ s.settled.isMiswritten) ∧
        (maxDepth < s.choices → s.dataClass = .object) := by
  rw [example?, exampleWithin_eq_settled]
  by_cases hdepth : s.choices ≤ maxDepth
  · have hlevels : s.choices < (maxDepth + 1).toNat := by omega
    obtain ⟨n, hn⟩ : ∃ n, (maxDepth + 1).toNat - s.choices = n + 1 :=
      Nat.exists_eq_succ_of_ne_zero (Nat.sub_ne_zero_of_lt hlevels)
    have hsame := dataClass_settled hclass
    rw [if_pos hlevels, hn, ← hsame, admits_example_iff scope n [] (layer_settled s) (hsame ▸ hclass)]
    simp [hdepth]
  · have hlevels : ¬ s.choices < (maxDepth + 1).toNat := by omega
    rw [if_neg hlevels]
    cases hc : s.dataClass <;> simp [DataClass.admits, hdepth, Int.not_le.1 hdepth, hc] at hclass ⊢

example :
    (array "true" anything).dataClass = .array ∧
      (array "true" anything).example? ⟨none⟩ 3 = .ok (some (.bool true)) :=
  ⟨rfl, rfl⟩

end Examples

section Results

/-- What an annotation of words, literals and choices between them reads as. -/
def written? : Nat → Node → Option Shape
  | 0, _ => none
  | n + 1, written =>
    match written.kind with
    | .typeAscription | .parenthesizedType => written.parts.head?.bind (written? n)
    | .predefinedType => some ((ofWord? written.text).getD (plain .unknown written.text))
    | .literalType => some (ofLiteral written)
    | .unionType => do
      return choice (singleSpaced written.text)
        (← (operandsAmong .unionType written.children).mapM (written? n))
    | _ => none

theorem ofNode_parenthesizedType
    {scope : Scope}
    {file : SourceFile}
    {n inner : Node}
    (hkind : n.kind = .parenthesizedType)
    (hinner : n.parts.head? = some inner) :
    ofNode scope [] file [] n = ofNode scope [] file [] inner := by
  rw [ofNode, hkind]
  simp only
  split
  · next hparts => simp [hparts] at hinner
  · next hparts =>
    rw [hparts, List.head?_cons] at hinner
    rw [Option.some.inj hinner]

theorem ofNodes_of_mapM
    {scope : Scope}
    {file : SourceFile}
    {read? : Node → Option Shape}
    {ns : List Node}
    {ss : List Shape}
    (h : ∀ n s, read? n = some s → ofNode scope [] file [] n = .ok s)
    (hns : ns.mapM read? = some ss) :
    ofNodes scope [] file [] ns = .ok ss := by
  induction ns generalizing ss with
  | nil =>
    obtain rfl : [] = ss := by simpa using hns
    rw [ofNodes]
  | cons n rest ih =>
    simp only [List.mapM_cons, Option.bind_eq_bind, Option.bind_eq_some_iff, Option.pure_def,
      Option.some.injEq] at hns
    obtain ⟨s, hs, ss', hrest, rfl⟩ := hns
    rw [ofNodes, h n s hs, ih hrest]
    rfl

theorem ofNode_of_written?
    {n : Nat}
    {written : Node}
    {s : Shape}
    (scope : Scope)
    (file : SourceFile)
    (h : written? n written = some s) :
    ofNode scope [] file [] written = .ok s := by
  induction n generalizing written s with
  | zero => cases h
  | succ n ih =>
    rw [written?] at h
    split at h
    · next hkind =>
      obtain ⟨inner, hinner, h⟩ := Option.bind_eq_some_iff.1 h
      rw [ofNode_typeAscription hkind hinner]
      exact ih h
    · next hkind =>
      obtain ⟨inner, hinner, h⟩ := Option.bind_eq_some_iff.1 h
      rw [ofNode_parenthesizedType hkind hinner]
      exact ih h
    · next hkind =>
      rw [ofNode, hkind, Option.some.inj h]
    · next hkind =>
      rw [ofNode, hkind, Option.some.inj h]
    · next hkind =>
      simp only [Option.bind_eq_bind, Option.bind_eq_some_iff, Option.pure_def,
        Option.some.injEq] at h
      obtain ⟨ss, hss, rfl⟩ := h
      rw [ofNode, hkind]
      simp only
      rw [ofNodes_of_mapM (fun n s => ih) hss]
      rfl
    · cases h

/-- The annotation of a variable of a file. -/
def writtenType?
    (file : SourceFile)
    (name : String) :
    Option Node :=
  (file.findVariable? name).bind Variable.annotation

theorem exists_ofNode_writtenType
    (scope : Scope)
    (file : SourceFile)
    (name : String)
    (n : Nat)
    (p : Shape → Bool)
    (h : ((writtenType? file name).bind (written? n)).any p = true) :
    ∃ a s, writtenType? file name = some a ∧ ofNode scope [] file [] a = .ok s ∧ p s = true := by
  obtain ⟨s, hs, hp⟩ := (Option.any_eq_true _ _).1 h
  obtain ⟨a, ha, hs⟩ := Option.bind_eq_some_iff.1 hs
  exact ⟨a, s, ha, ofNode_of_written? scope file hs, hp⟩

/-- A variable whose type is a choice with a choice as its first member. -/
def twice : SourceFile :=
  .ofText ⟨true, ["twice.ts"]⟩ "const x: (string | number) | null = null;"

theorem admits_example?_twice :
    ∃ a s, writtenType? twice "x" = some a ∧ ofNode ⟨none⟩ [] twice [] a = .ok s ∧
      s.dataClass = .primitive ∧
      ∃ v, s.example? ⟨none⟩ 3 = .ok v ∧ s.dataClass.admits v := by
  obtain ⟨a, s, ha, hs, hfacts⟩ := exists_ofNode_writtenType ⟨none⟩ twice "x" 6
    (fun s => s.dataClass == .primitive && s.choices == 2 && !s.settled.isMiswritten)
    (by decide +kernel)
  simp only [Bool.and_eq_true, beq_iff_eq, Bool.not_eq_true'] at hfacts
  obtain ⟨⟨hclass, hchoices⟩, hmis⟩ := hfacts
  refine ⟨a, s, ha, hs, hclass, (admits_example?_iff ⟨none⟩ 3 (by simp [hclass])).2 ⟨?_, ?_, ?_⟩⟩
  · exact fun hne => absurd hclass hne
  · simp [hmis]
  · omega

/-- A variable whose type is a choice with a choice as its first member, four times over. -/
def nested : SourceFile :=
  .ofText ⟨true, ["nested.ts"]⟩
    "const x: (((string | number) | boolean) | 'x') | 'y' = null;"

/-- The example of a type may be an empty mapping although all its values are single ones. -/
theorem not_admits_example?_nested :
    ∃ a s, writtenType? nested "x" = some a ∧ ofNode ⟨none⟩ [] nested [] a = .ok s ∧
      s.dataClass = .primitive ∧ s.example? ⟨none⟩ 3 = .ok (some (.map [])) ∧
      s.dataClass.admits (some (.map [])) = false := by
  obtain ⟨a, s, ha, hs, hfacts⟩ := exists_ofNode_writtenType ⟨none⟩ nested "x" 10
    (fun s => s.dataClass == .primitive && s.choices == 4) (by decide +kernel)
  simp only [Bool.and_eq_true, beq_iff_eq] at hfacts
  obtain ⟨hclass, hchoices⟩ := hfacts
  refine ⟨a, s, ha, hs, hclass, ?_, by rw [hclass]; rfl⟩
  rw [example?, exampleWithin_eq_settled, hchoices]
  rfl

end Results

end Shape

end RouteAtlas
