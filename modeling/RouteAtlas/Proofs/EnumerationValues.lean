import Mathlib
import RouteAtlas.Schema.Interpret
import RouteAtlas.Shape.Basic

/-!
# Values of enumerations

The members of an enumeration are read twice. A type keeps every member, with null for a value that is not
known. A schema collects values only. Both count on from the last number for a member that is a name alone,
but a schema keeps its number when the members in between have other values or values that are not literal.

So the two agree exactly if a name alone never follows a member with another value than a whole number, and
no member is assigned null.
-/

namespace RouteAtlas

open Syntax Project

namespace Enumeration

section Members

/-- The members of an enumeration. -/
def members (declaration : Node) : List Node :=
  ((declaration.child? .body).map Node.namedChildren).getD []

/-- Whether a member is written with a value. -/
def isAssigned (m : Node) : Bool :=
  m.kind == .enumAssignment

/-- Whether a member is a name alone. -/
def isNameAlone (m : Node) : Bool :=
  m.kind == .propertyIdentifier || m.kind == .string

/-- The literal that a member is assigned. -/
def assigned? (m : Node) : Option Value :=
  (m.child? .value).bind Node.literalValue?

/-- Whether a value is known. -/
def isKnown : Value → Bool
  | .null => false
  | .bool _ | .int _ | .float _ | .str _ | .list _ | .map _ => true

/-- The known values among members, given the number of the next name alone. -/
def knownAmong
    (next : Option Int)
    (ms : List Node) :
    List Value :=
  ((enumMembersAmong next ms).map Prod.snd).filter isKnown

/-- The known values of the members of an enumeration, in order. -/
def knownValues (declaration : Node) : List Value :=
  ((enumMembers declaration).map Prod.snd).filter isKnown

/-- The number of the next name alone after a member. -/
def numberAfter
    (next : Option Int)
    (m : Node) :
    Option Int :=
  if isAssigned m then
    match assigned? m with
    | some (.int i) => some (i + 1)
    | _ => none
  else if isNameAlone m then next.map (· + 1)
  else next

/-- Whether a member is assigned a whole number. -/
def assignsWhole (m : Node) : Bool :=
  match assigned? m with
  | some (.int _) => true
  | _ => false

/-- Whether every name alone continues a whole number: the last member before it that is assigned a value,
if there is one, is assigned a whole number. -/
def CountsOn (ms : List Node) : Prop :=
  ∀ i < ms.length, ∀ m ∈ ms[i]?, isNameAlone m →
    ((ms.take i).filter isAssigned).getLast?.all assignsWhole

/-- Whether no member is assigned null or undefined. -/
def HasNoNull (ms : List Node) : Prop :=
  ∀ m ∈ ms, isAssigned m → (assigned? m).all isKnown

instance (ms : List Node) : Decidable (CountsOn ms) :=
  inferInstanceAs (Decidable (∀ i < ms.length, ∀ m ∈ ms[i]?, _))

instance (ms : List Node) : Decidable (HasNoNull ms) :=
  inferInstanceAs (Decidable (∀ m ∈ ms, _))

variable {m : Node} {next : Option Int} {i : Int} {ms rest : List Node}

theorem knownValues_eq (declaration : Node) :
    knownValues declaration = knownAmong (some 0) (members declaration) := by
  unfold knownValues enumMembers members knownAmong
  cases declaration.child? .body with
  | none => rfl
  | some body => rfl

theorem not_isNameAlone_of_isAssigned (h : isAssigned m) : isNameAlone m = false := by
  rw [isAssigned, beq_iff_eq] at h
  simp [isNameAlone, h]

end Members

section Steps

variable {m : Node} {next : Option Int} {i : Int} {rest : List Node}

theorem knownAmong_of_literal
    {v : Value}
    (hm : isAssigned m)
    (hv : assigned? m = some v) :
    knownAmong next (m :: rest) =
      if isKnown v then v :: knownAmong (numberAfter next m) rest
      else knownAmong (numberAfter next m) rest := by
  have hkind : m.kind = .enumAssignment := by simpa [isAssigned] using hm
  rw [numberAfter, if_pos hm, hv]
  unfold assigned? at hv
  simp only [knownAmong, enumMembersAmong, hkind, hv]
  cases v <;> simp only [List.map_cons, List.filter_cons]

theorem knownAmong_of_no_literal
    (hm : isAssigned m)
    (hv : assigned? m = none) :
    knownAmong next (m :: rest) = knownAmong (numberAfter next m) rest := by
  have hkind : m.kind = .enumAssignment := by simpa [isAssigned] using hm
  rw [numberAfter, if_pos hm, hv]
  unfold assigned? at hv
  simp [knownAmong, enumMembersAmong, hkind, hv, isKnown]

theorem knownAmong_of_isNameAlone (hm : isNameAlone m) :
    knownAmong next (m :: rest) =
      (next.map Value.int).toList ++ knownAmong (numberAfter next m) rest := by
  have hassigned : isAssigned m = false := by
    by_contra h
    simp [not_isNameAlone_of_isAssigned (Bool.of_not_eq_false h)] at hm
  rw [numberAfter, hassigned, if_neg (by simp), if_pos hm]
  have hkind : m.kind = .propertyIdentifier ∨ m.kind = .string := by simpa [isNameAlone] using hm
  rcases hkind with hkind | hkind
  · cases next <;> simp [knownAmong, enumMembersAmong, hkind, isKnown, List.filter_cons]
  · cases next <;> simp [knownAmong, enumMembersAmong, hkind, isKnown, List.filter_cons]

theorem memberValues_of_literal
    {v : Value}
    (hm : isAssigned m)
    (hv : assigned? m = some v)
    (i : Int)
    (rest : List Node) :
    ∃ j, Schema.memberValues i (m :: rest) = v :: Schema.memberValues j rest ∧
      ∀ k, v = .int k → j = k + 1 := by
  have hkind : m.kind = .enumAssignment := by simpa [isAssigned] using hm
  unfold assigned? at hv
  refine ⟨_, by simp only [Schema.memberValues, hkind, hv]; rfl, ?_⟩
  rintro k rfl
  rfl

theorem memberValues_of_no_literal
    (hm : isAssigned m)
    (hv : assigned? m = none) :
    Schema.memberValues i (m :: rest) = Schema.memberValues i rest := by
  have hkind : m.kind = .enumAssignment := by simpa [isAssigned] using hm
  unfold assigned? at hv
  simp only [Schema.memberValues, hkind, hv]

theorem memberValues_of_isNameAlone (hm : isNameAlone m) :
    Schema.memberValues i (m :: rest) = .int i :: Schema.memberValues (i + 1) rest := by
  have hkind : m.kind = .propertyIdentifier ∨ m.kind = .string := by simpa [isNameAlone] using hm
  rcases hkind with hkind | hkind <;> simp only [Schema.memberValues, hkind]

/-- Both readers pass over what is neither assigned a value nor a name alone. -/
theorem passed_over
    (hassigned : isAssigned m = false)
    (hname : isNameAlone m = false)
    (hm : m.kind ≠ .identifier)
    (next : Option Int)
    (i : Int)
    (rest : List Node) :
    knownAmong next (m :: rest) = knownAmong next rest ∧
      Schema.memberValues i (m :: rest) = Schema.memberValues i rest := by
  simp only [isAssigned, beq_eq_false_iff_ne] at hassigned
  simp only [isNameAlone, Bool.or_eq_false_iff, beq_eq_false_iff_ne] at hname
  constructor
  · rw [knownAmong, enumMembersAmong.eq_def]
    cases hkind : m.kind <;> simp_all [knownAmong]
  · rw [Schema.memberValues.eq_def]
    cases hkind : m.kind <;> simp_all

end Steps

section Counting

variable {m : Node} {next : Option Int} {i : Int} {ms rest : List Node}

/-- A fact about all places in a list is one about its head and one about all places in its tail. -/
theorem forall_place_cons
    {P : List Node → Node → Prop}
    {first : Node} :
    (∀ i < (first :: rest).length, ∀ m ∈ (first :: rest)[i]?, P ((first :: rest).take i) m) ↔
      P [] first ∧ ∀ i < rest.length, ∀ m ∈ rest[i]?, P (first :: rest.take i) m := by
  rw [List.length_cons, Nat.forall_lt_succ_left]
  simp

/-- After some members the next number is known if and only if the last one that is assigned a value is
assigned a whole number. -/
theorem isSome_foldl_numberAfter
    (i : Int)
    (before : List Node) :
    (before.foldl numberAfter (some i)).isSome =
      (before.filter isAssigned).getLast?.all assignsWhole := by
  induction before using List.reverseRecOn with
  | nil => rfl
  | append_singleton before m ih =>
    rw [List.foldl_append, List.foldl_cons, List.foldl_nil, List.filter_append]
    by_cases hm : isAssigned m
    · rw [numberAfter, if_pos hm, List.filter_cons_of_pos hm, List.filter_nil,
        List.getLast?_append_cons, List.getLast?_singleton, Option.all_some, assignsWhole]
      split <;> rfl
    · rw [numberAfter, if_neg hm, List.filter_cons_of_neg hm, List.filter_nil, List.append_nil, ← ih]
      split
      · rw [Option.isSome_map]
      · rfl

/-- A schema collects no fewer values than there are known ones. -/
theorem length_knownAmong_le
    (hms : ∀ m ∈ ms, m.kind ≠ .identifier)
    (next : Option Int)
    (i : Int) :
    (knownAmong next ms).length ≤ (Schema.memberValues i ms).length := by
  induction ms generalizing next i with
  | nil => exact Nat.le_refl _
  | cons m rest ih =>
    obtain ⟨hm, hrest⟩ := List.forall_mem_cons.1 hms
    cases hassigned : isAssigned m with
    | true =>
      cases hv : assigned? m with
      | none =>
        rw [knownAmong_of_no_literal hassigned hv, memberValues_of_no_literal hassigned hv]
        exact ih hrest _ _
      | some v =>
        obtain ⟨j, hj, -⟩ := memberValues_of_literal hassigned hv i rest
        rw [knownAmong_of_literal hassigned hv, hj, List.length_cons]
        split
        · exact Nat.succ_le_succ (ih hrest _ _)
        · exact Nat.le_succ_of_le (ih hrest _ _)
    | false =>
      cases hname : isNameAlone m with
      | true =>
        rw [knownAmong_of_isNameAlone hname, memberValues_of_isNameAlone hname, List.length_append,
          List.length_cons, Nat.add_comm]
        exact Nat.add_le_add (ih hrest _ _) (by cases next <;> simp)
      | false =>
        obtain ⟨hknown, hvalues⟩ := passed_over hassigned hname hm next i rest
        rw [hknown, hvalues]
        exact ih hrest _ _

/-- As long as a known next number is the one that a schema counts on with, the two readers agree on some
members exactly if none of them is assigned null and the number is known at every name alone. -/
theorem knownAmong_eq_memberValues_iff
    (hms : ∀ m ∈ ms, m.kind ≠ .identifier)
    (hnext : ∀ j, next = some j → j = i) :
    knownAmong next ms = Schema.memberValues i ms ↔
      HasNoNull ms ∧ ∀ i < ms.length, ∀ m ∈ ms[i]?, isNameAlone m →
        ((ms.take i).foldl numberAfter next).isSome := by
  induction ms generalizing next i with
  | nil => simp [knownAmong, enumMembersAmong, Schema.memberValues, HasNoNull]
  | cons m rest ih =>
    obtain ⟨hm, hrest⟩ := List.forall_mem_cons.1 hms
    have hshorter := length_knownAmong_le hrest
    rw [HasNoNull, List.forall_mem_cons, forall_place_cons
      (P := fun before m => isNameAlone m → (before.foldl numberAfter next).isSome), List.foldl_nil]
    simp only [List.foldl_cons]
    cases hassigned : isAssigned m with
    | true =>
      have hname := not_isNameAlone_of_isAssigned hassigned
      cases hv : assigned? m with
      | none =>
        have hafter : numberAfter next m = none := by simp [numberAfter, hassigned, hv]
        rw [knownAmong_of_no_literal hassigned hv, memberValues_of_no_literal hassigned hv,
          ih hrest (by simp [hafter])]
        simp [HasNoNull, hname]
      | some v =>
        obtain ⟨j, hj, hint⟩ := memberValues_of_literal hassigned hv i rest
        have hafter : ∀ k, numberAfter next m = some k → k = j := by
          intro k hk
          rw [numberAfter, if_pos hassigned, hv] at hk
          split at hk
          · next i' hi' =>
            rw [hint i' (Option.some.inj hi')]
            exact (Option.some.inj hk).symm
          · cases hk
        rw [knownAmong_of_literal hassigned hv, hj]
        cases hknown : isKnown v with
        | true =>
          rw [if_pos rfl, List.cons.injEq, ih hrest hafter]
          simp [HasNoNull, hname, hknown]
        | false =>
          -- a null is collected, and is no known value: there is one value too many
          have hne : knownAmong (numberAfter next m) rest ≠ v :: Schema.memberValues j rest := by
            intro heq
            have hlength := hshorter (numberAfter next m) j
            rw [heq, List.length_cons] at hlength
            omega
          simp [hne, hknown]
    | false =>
      cases hname : isNameAlone m with
      | true =>
        rw [knownAmong_of_isNameAlone hname, memberValues_of_isNameAlone hname]
        have hafter : numberAfter next m = next.map (· + 1) := by simp [numberAfter, hassigned, hname]
        cases next with
        | none =>
          -- a name alone without a known number is counted all the same
          have hne : knownAmong (numberAfter none m) rest ≠ .int i :: Schema.memberValues (i + 1) rest := by
            intro heq
            have hlength := hshorter (numberAfter none m) (i + 1)
            rw [heq, List.length_cons] at hlength
            omega
          simp [hne]
        | some k =>
          obtain rfl := hnext k rfl
          have hstep : ∀ j, numberAfter (some k) m = some j → j = k + 1 := by
            intro j hj
            rw [hafter] at hj
            exact (Option.some.inj hj).symm
          simp only [Option.map_some, Option.toList_some, List.singleton_append, List.cons.injEq,
            true_and]
          rw [ih hrest hstep]
          simp [HasNoNull]
      | false =>
        obtain ⟨hknown, hvalues⟩ := passed_over hassigned hname hm next i rest
        have hafter : numberAfter next m = next := by simp [numberAfter, hassigned, hname]
        rw [hknown, hvalues, ih hrest hnext, hafter]
        simp [HasNoNull]

end Counting

section Agreement

/-- The values that a schema collects are those of the members of the enumeration that it names. -/
theorem enumerationValues_eq
    {scope : Scope}
    {file : SourceFile}
    {e : Node}
    {found : Found}
    (hname : e.unwrap.kind = .identifier)
    (hfound : scope.type e.unwrap.text file = .ok (.ok found))
    (hkind : found.node.kind = .enumDeclaration) :
    Schema.enumerationValues scope file (some e) =
      .ok (Schema.memberValues 0 (members found.node)) := by
  simp only [Schema.enumerationValues, Option.map_some, hname, beq_self_eq_true, if_true, hfound,
    bind, Except.bind, hkind]
  rfl

/-- A schema collects the known values of an enumeration exactly if no member is assigned null or undefined,
and no name alone follows a member whose value is anything else than a whole number. The members are those
that the grammar makes, where a name alone is no identifier. -/
theorem enumerationValues_eq_knownValues_iff
    {scope : Scope}
    {file : SourceFile}
    {e : Node}
    {found : Found}
    (hname : e.unwrap.kind = .identifier)
    (hfound : scope.type e.unwrap.text file = .ok (.ok found))
    (hkind : found.node.kind = .enumDeclaration)
    (hmembers : ∀ m ∈ members found.node, m.kind ≠ .identifier) :
    Schema.enumerationValues scope file (some e) = .ok (knownValues found.node) ↔
      HasNoNull (members found.node) ∧ CountsOn (members found.node) := by
  have hstart : ∀ j, some (0 : Int) = some j → j = 0 := fun j hj => (Option.some.inj hj).symm
  rw [enumerationValues_eq hname hfound hkind, Except.ok.injEq, eq_comm, knownValues_eq,
    knownAmong_eq_memberValues_iff hmembers hstart]
  simp only [isSome_foldl_numberAfter, CountsOn]

/-- The argument of the call that a variable of a file holds. -/
def argument?
    (file : SourceFile)
    (name : String) :
    Option Node :=
  ((file.findVariable? name).bind Variable.value).bind fun call => call.callArguments.head?

/-- The declaration of an enumeration of a file that an expression names. -/
def named?
    (file : SourceFile)
    (e : Node) :
    Option Node :=
  if e.unwrap.kind = .identifier then
    (file.findType? e.unwrap.text).filter fun d => d.kind = .enumDeclaration
  else none

theorem type_of_named?
    {file : SourceFile}
    {e d : Node}
    (h : named? file e = some d) :
    e.unwrap.kind = .identifier ∧
      Scope.type ⟨none⟩ e.unwrap.text file = .ok (.ok ⟨d, file, false⟩) ∧
      d.kind = .enumDeclaration := by
  unfold named? at h
  split at h
  · next hname =>
    obtain ⟨hd, hkind⟩ := Option.filter_eq_some_iff.1 h
    exact ⟨hname, by simp [Scope.type, Scope.lookup, hd], of_decide_eq_true hkind⟩
  · cases h

/-- A file with an enumeration whose members count on from whole numbers, and the schema of it. -/
def levels : SourceFile :=
  SourceFile.ofText ⟨true, ["s", "file.ts"]⟩
    ("enum Level \x7b Low, Middle = 5, High, Top = \"top\" \x7d\n" ++
      "const level = z.nativeEnum(Level);\n")

theorem enumerationValues_levels :
    ∃ e d, argument? levels "level" = some e ∧
      e.unwrap.kind = .identifier ∧
      Scope.type ⟨none⟩ e.unwrap.text levels = .ok (.ok ⟨d, levels, false⟩) ∧
      d.kind = .enumDeclaration ∧
      (∀ m ∈ members d, m.kind ≠ .identifier) ∧
      HasNoNull (members d) ∧ CountsOn (members d) ∧ (members d).length = 4 ∧
      Schema.enumerationValues ⟨none⟩ levels (some e) = .ok (knownValues d) := by
  have hchecked : (argument? levels "level").any fun e => (named? levels e).any fun d =>
      decide ((∀ m ∈ members d, m.kind ≠ .identifier) ∧ HasNoNull (members d) ∧
        CountsOn (members d) ∧ (members d).length = 4) := by
    decide +kernel
  obtain ⟨e, he, hchecked⟩ := (Option.any_eq_true _ _).1 hchecked
  obtain ⟨d, hd, hchecked⟩ := (Option.any_eq_true _ _).1 hchecked
  obtain ⟨hmembers, hnull, hcounts, hlength⟩ := of_decide_eq_true hchecked
  obtain ⟨hname, hfound, hkind⟩ := type_of_named? hd
  exact ⟨e, d, he, hname, hfound, hkind, hmembers, hnull, hcounts, hlength,
    (enumerationValues_eq_knownValues_iff hname hfound hkind hmembers).2 ⟨hnull, hcounts⟩⟩

/-- A file with an enumeration in which a name alone follows a value that is not literal. -/
def shifted : SourceFile :=
  SourceFile.ofText ⟨true, ["s", "file.ts"]⟩
    "enum Level \x7b Low = 1 << 2, High \x7d\nconst level = z.nativeEnum(Level);\n"

/-- Whether some values are the number zero alone. -/
def isZeroAlone : List Value → Bool
  | [.int i] => i == 0
  | _ => false

theorem eq_of_isZeroAlone
    {vs : List Value}
    (h : isZeroAlone vs) :
    vs = [.int 0] := by
  unfold isZeroAlone at h
  split at h
  · rw [beq_iff_eq.1 h]
  · cases h

/-- The number that a schema gives to the name alone is no known value of the enumeration. -/
theorem enumerationValues_ne_knownValues_shifted :
    ∃ e d, argument? shifted "level" = some e ∧
      Scope.type ⟨none⟩ e.unwrap.text shifted = .ok (.ok ⟨d, shifted, false⟩) ∧
      d.kind = .enumDeclaration ∧
      Schema.enumerationValues ⟨none⟩ shifted (some e) = .ok [.int 0] ∧ knownValues d = [] := by
  have hchecked : (argument? shifted "level").any fun e => (named? shifted e).any fun d =>
      isZeroAlone (Schema.memberValues 0 (members d)) && (knownValues d).isEmpty := by
    decide +kernel
  obtain ⟨e, he, hchecked⟩ := (Option.any_eq_true _ _).1 hchecked
  obtain ⟨d, hd, hchecked⟩ := (Option.any_eq_true _ _).1 hchecked
  obtain ⟨hzero, hknown⟩ := Bool.and_eq_true_iff.1 hchecked
  obtain ⟨hname, hfound, hkind⟩ := type_of_named? hd
  refine ⟨e, d, he, hfound, hkind, ?_, List.isEmpty_iff.1 hknown⟩
  rw [enumerationValues_eq hname hfound hkind, eq_of_isZeroAlone hzero]

end Agreement

end Enumeration

end RouteAtlas
