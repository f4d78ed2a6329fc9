import Mathlib
import RouteAtlas.Syntax.SourceFile

/-!
# Names in patterns

A pattern that takes an object or an array apart binds the identifiers that stand in it as targets: elements,
shorthands, the values of renamed properties, and the targets of rest elements. Identifiers that are property
keys, or stand in a default value, are bound by nothing.

The names that are read off a pattern are those of the targets outside of rest elements and, among them, those
of defaults in arrays and renamed properties that are a single identifier. So they are the bound ones if the
rest elements bind nothing and no such default stands outside of them. And only then, unless a default is itself
bound by the pattern.
-/

namespace RouteAtlas.Syntax

namespace Pattern

section Mentions

/-- An identifier in a pattern: whether the pattern binds it, or it is all of a default value, and whether it
stands in a rest element. -/
structure Mention where
  name : String
  isBound : Bool
  inRest : Bool

namespace Mention

/-- An identifier that the pattern binds. -/
def target (n : Node) : Mention :=
  ⟨n.text, true, false⟩

/-- An identifier that stands in a rest element too. -/
def belowRest (m : Mention) : Mention :=
  { m with inRest := true }

/-- An identifier that is bound outside of rest elements, or is a default value in one. -/
def IsPlain (m : Mention) : Prop :=
  m.isBound = !m.inRest

end Mention

/-- The names that a pattern binds, in source order. -/
def bound (ms : List Mention) : List String :=
  (ms.filter Mention.isBound).map Mention.name

/-- The names outside of rest elements, in source order. -/
def outside (ms : List Mention) : List String :=
  (ms.filter fun m => !m.inRest).map Mention.name

/-- Kinds of nodes that stand in patterns only. -/
def isPatternKind : Kind → Bool
  | .objectPattern | .arrayPattern | .assignmentPattern | .objectAssignmentPattern | .pairPattern
  | .restPattern | .shorthandPropertyIdentifierPattern => true
  | _ => false

/-- The identifier that is all of a default value. -/
def bareDefault (d : Node) : List Mention :=
  if d.kind = .identifier then [⟨d.text, false, false⟩] else []

/-- What stands at a place of a pattern: something to be bound, the same with or without a default, or any
part of an object or array that is taken apart. -/
inductive Place where
  | target
  | value
  | part

/-- The identifiers that are mentioned at a place of a pattern, in source order. -/
inductive Mentions : Place → Node → List Mention → Prop
  | identifier
      {n : Node}
      (hkind : n.kind = .identifier) :
      Mentions .target n [.target n]
  | destructuring
      {n : Node}
      {parts : List (Node × List Mention)}
      (hkind : n.kind = .objectPattern ∨ n.kind = .arrayPattern)
      (hparts : n.parts = parts.map Prod.fst)
      (h : ∀ p ∈ parts, Mentions .part p.1 p.2) :
      Mentions .target n (parts.flatMap Prod.snd)
  | withoutDefault
      {n : Node}
      {ms : List Mention}
      (h : Mentions .target n ms) :
      Mentions .value n ms
  | withDefault
      {n left default : Node}
      {ms : List Mention}
      (hkind : n.kind = .assignmentPattern)
      (hparts : n.parts = [left, default])
      (hdefault : isPatternKind default.kind = false)
      (h : Mentions .target left ms) :
      Mentions .value n (ms ++ bareDefault default)
  | element
      {n : Node}
      {ms : List Mention}
      (h : Mentions .value n ms) :
      Mentions .part n ms
  | shorthand
      {n : Node}
      (hkind : n.kind = .shorthandPropertyIdentifierPattern) :
      Mentions .part n [.target n]
  | shorthandWithDefault
      {n left : Node}
      (hkind : n.kind = .objectAssignmentPattern)
      (hleft : n.child? .left = some left)
      (hname : left.kind = .shorthandPropertyIdentifierPattern) :
      Mentions .part n [.target left]
  | renamed
      {n value : Node}
      {ms : List Mention}
      (hkind : n.kind = .pairPattern)
      (hvalue : n.child? .value = some value)
      (h : Mentions .value value ms) :
      Mentions .part n ms
  | rest
      {n target : Node}
      {ms : List Mention}
      (hkind : n.kind = .restPattern)
      (hparts : n.parts = [target])
      (h : Mentions .target target ms) :
      Mentions .part n (ms.map Mention.belowRest)

end Mentions

section Lists

variable {ms ms' : List Mention}

theorem outside_append (ms ms' : List Mention) : outside (ms ++ ms') = outside ms ++ outside ms' := by
  simp [outside]

theorem outside_flatMap (parts : List (Node × List Mention)) :
    outside (parts.flatMap Prod.snd) = parts.flatMap fun p => outside p.2 := by
  induction parts with
  | nil => rfl
  | cons p rest ih => rw [List.flatMap_cons, List.flatMap_cons, outside_append, ih]

theorem outside_map_belowRest (ms : List Mention) : outside (ms.map Mention.belowRest) = [] := by
  simp [outside, Mention.belowRest]

theorem outside_eq_bound
    (h : ∀ m ∈ ms, m.IsPlain) :
    outside ms = bound ms := by
  unfold outside bound
  congr 1
  exact List.filter_congr fun m hm => (h m hm).symm

/-- If no default is bound, only plain identifiers leave the names as they are. -/
theorem forall_isPlain_of_outside_eq_bound
    (hdefault : ∀ m ∈ ms, m.isBound = false → m.inRest = false → m.name ∉ bound ms)
    (h : outside ms = bound ms) :
    ∀ m ∈ ms, m.IsPlain := by
  -- no default stands outside of rest elements, since its name would be among the bound ones
  have hbound : ∀ m ∈ ms, m.inRest = false → m.isBound = true := by
    intro m hm hrest
    by_contra hnot
    have hname : m.name ∈ outside ms :=
      List.mem_map_of_mem (List.mem_filter.2 ⟨hm, by simp [hrest]⟩)
    exact hdefault m hm (by simpa using hnot) hrest (h ▸ hname)
  have hsublist : (ms.filter fun m => !m.inRest).Sublist (ms.filter Mention.isBound) := by
    have hagain : (ms.filter fun m => !m.inRest) =
        (ms.filter Mention.isBound).filter fun m => !m.inRest := by
      rw [List.filter_filter]
      refine List.filter_congr fun m hm => ?_
      cases hrest : m.inRest with
      | true => simp
      | false => simp [hbound m hm hrest]
    rw [hagain]
    exact List.filter_sublist
  have hlength : (ms.filter fun m => !m.inRest).length = (ms.filter Mention.isBound).length := by
    simpa [outside, bound] using congrArg List.length h
  have hsame := hsublist.eq_of_length hlength
  intro m hm
  cases hrest : m.inRest with
  | false => simp [Mention.IsPlain, hrest, hbound m hm hrest]
  | true =>
    have hnot : m ∉ ms.filter Mention.isBound := by
      rw [← hsame]
      simp [hrest]
    simpa [Mention.IsPlain, hrest, hm] using hnot

end Lists

section Reading

/-- The names that are read off a part of a pattern. -/
def partNames
    (depth : Nat)
    (c : Node) :
    List String :=
  match c.kind with
  | .identifier | .shorthandPropertyIdentifierPattern => [c.text]
  | .pairPattern => ((c.child? .value).map (Node.boundNames depth)).getD []
  | .objectAssignmentPattern => ((c.child? .left).map (Node.boundNames depth)).getD []
  | .objectPattern | .arrayPattern | .assignmentPattern => Node.boundNames depth c
  | _ => []

variable {n : Node} {depth : Nat}

theorem boundNames_of_name
    (h : n.kind = .identifier ∨ n.kind = .shorthandPropertyIdentifierPattern) :
    Node.boundNames (depth + 1) n = [n.text] := by
  rcases h with h | h <;> simp [Node.boundNames, h]

/-- Comments in a pattern give no names. -/
theorem flatMap_partNames_namedChildren (n : Node) (depth : Nat) :
    n.namedChildren.flatMap (partNames depth) = n.parts.flatMap (partNames depth) := by
  unfold Node.parts
  induction n.namedChildren with
  | nil => rfl
  | cons c rest ih =>
    by_cases hcomment : c.kind = .comment
    · have hnone : partNames depth c = [] := by simp [partNames, hcomment]
      rw [List.flatMap_cons, hnone, List.nil_append, ih,
        List.filter_cons_of_neg (by simp [Node.isComment, hcomment])]
    · rw [List.flatMap_cons, ih, List.filter_cons_of_pos (by simp [Node.isComment, hcomment]),
        List.flatMap_cons]

theorem boundNames_of_parts
    (h : n.kind = .objectPattern ∨ n.kind = .arrayPattern ∨ n.kind = .assignmentPattern) :
    Node.boundNames (depth + 1) n = n.parts.flatMap (partNames depth) := by
  rw [← flatMap_partNames_namedChildren]
  rcases h with h | h | h <;> (simp only [Node.boundNames, h]; rfl)

theorem partNames_of_parts
    (h : n.kind = .objectPattern ∨ n.kind = .arrayPattern ∨ n.kind = .assignmentPattern) :
    partNames depth n = Node.boundNames depth n := by
  rcases h with h | h | h <;> simp [partNames, h]

theorem partNames_default
    {d : Node}
    (h : isPatternKind d.kind = false)
    (depth : Nat) :
    partNames depth d = outside (bareDefault d) := by
  unfold bareDefault
  by_cases hname : d.kind = .identifier
  · simp [partNames, outside, hname]
  · rw [if_neg hname]
    unfold partNames
    split <;> simp_all [isPatternKind, outside]

/-- What is a target, or a value with or without a default, gives the names of a part on its own. -/
theorem Mentions.boundNames_eq
    {ms : List Mention}
    (h : Mentions .value n ms)
    (hdepth : 0 < depth) :
    Node.boundNames depth n = partNames depth n := by
  obtain ⟨depth, rfl⟩ := Nat.exists_eq_succ_of_ne_zero hdepth.ne'
  cases h with
  | withoutDefault h =>
    cases h with
    | identifier hkind =>
      rw [boundNames_of_name (.inl hkind)]
      simp [partNames, hkind]
    | destructuring hkind => exact (partNames_of_parts (hkind.imp_right .inl)).symm
  | withDefault hkind => exact (partNames_of_parts (.inr (.inr hkind))).symm

theorem count_le_of_mem_parts
    {c : Node}
    (hc : c ∈ n.parts)
    (hdepth : n.count ≤ depth + 1) :
    c.count ≤ depth := by
  have hlt := Node.count_lt_of_mem (Node.mem_children_of_mem_parts hc)
  omega

/-- The names that are read off a place of a pattern are those outside of rest elements. -/
theorem Mentions.partNames_eq
    {place : Place}
    {ms : List Mention}
    (h : Mentions place n ms)
    (hdepth : n.count ≤ depth) :
    partNames depth n = outside ms := by
  induction h generalizing depth with
  | identifier hkind => simp [partNames, hkind, outside, Mention.target]
  | @destructuring n parts hkind hparts _ ih =>
    obtain ⟨depth, rfl⟩ := Nat.exists_eq_succ_of_ne_zero (n.count_pos.trans_le hdepth).ne'
    have hkind := hkind.imp_right (.inl : _ → n.kind = .arrayPattern ∨ n.kind = .assignmentPattern)
    rw [partNames_of_parts hkind, boundNames_of_parts hkind, hparts, List.flatMap_map, outside_flatMap]
    refine List.flatMap_congr fun p hp => ih p hp ?_
    exact count_le_of_mem_parts (hparts ▸ List.mem_map_of_mem hp) hdepth
  | withoutDefault _ ih => exact ih hdepth
  | @withDefault n left default ms hkind hparts hdefault _ ih =>
    obtain ⟨depth, rfl⟩ := Nat.exists_eq_succ_of_ne_zero (n.count_pos.trans_le hdepth).ne'
    have hleft := ih (count_le_of_mem_parts (by simp [hparts]) hdepth)
    rw [partNames_of_parts (.inr (.inr hkind)), boundNames_of_parts (.inr (.inr hkind)), hparts,
      outside_append, ← hleft, ← partNames_default hdefault depth]
    simp
  | element _ ih => exact ih hdepth
  | shorthand hkind => simp [partNames, hkind, outside, Mention.target]
  | @shorthandWithDefault n left hkind hleft hname =>
    obtain ⟨depth, rfl⟩ := Nat.exists_eq_succ_of_ne_zero (n.count_pos.trans_le hdepth).ne'
    simp [partNames, hkind, hleft, boundNames_of_name (.inr hname), outside, Mention.target]
  | @renamed n value ms hkind hvalue h ih =>
    have hcount := Node.count_lt_of_child? hvalue
    have hnames := h.boundNames_eq (n.count_pos.trans_le hdepth)
    have hread : partNames depth n = Node.boundNames depth value := by simp [partNames, hkind, hvalue]
    rw [hread, hnames, ih (by omega)]
  | rest hkind _ _ _ =>
    rw [outside_map_belowRest]
    simp [partNames, hkind]

end Reading

section Checking

/-- The identifiers of a target with a default, given those of targets. -/
def withDefault?
    (read : Node → Option (List Mention))
    (n : Node) :
    Option (List Mention) :=
  match n.parts with
  | [left, default] =>
    if isPatternKind default.kind then none else (read left).map (· ++ bareDefault default)
  | _ => none

/-- Looks for the identifiers that are mentioned at a place. The first argument bounds the nesting. -/
def mentions? : Nat → Place → Node → Option (List Mention)
  | 0, _, _ => none
  | depth + 1, place, n =>
    match n.kind, place with
    | .identifier, _ => some [.target n]
    | .objectPattern, _ | .arrayPattern, _ => (n.parts.mapM (mentions? depth .part)).map List.flatten
    | .assignmentPattern, .value | .assignmentPattern, .part => withDefault? (mentions? depth .target) n
    | .shorthandPropertyIdentifierPattern, .part => some [.target n]
    | .objectAssignmentPattern, .part =>
      (n.child? .left).bind fun left =>
        if left.kind = .shorthandPropertyIdentifierPattern then some [.target left] else none
    | .pairPattern, .part => (n.child? .value).bind (mentions? depth .value)
    | .restPattern, .part =>
      match n.parts with
      | [target] => (mentions? depth .target target).map fun ms => ms.map Mention.belowRest
      | _ => none
    | _, _ => none

variable {n : Node} {ms : List Mention}

/-- What may stand as a target may stand at every place. -/
theorem Mentions.of_target
    (h : Mentions .target n ms)
    (place : Place) :
    Mentions place n ms := by
  cases place with
  | target => exact h
  | value => exact .withoutDefault h
  | part => exact .element (.withoutDefault h)

/-- Parts that all have their identifiers, paired with them. -/
theorem exists_pairs_of_mapM
    {f : Node → Option (List Mention)}
    {ns : List Node}
    {mss : List (List Mention)}
    (h : ns.mapM f = some mss) :
    ∃ parts : List (Node × List Mention),
      ns = parts.map Prod.fst ∧ mss.flatten = parts.flatMap Prod.snd ∧ ∀ p ∈ parts, f p.1 = some p.2 := by
  induction ns generalizing mss with
  | nil =>
    obtain rfl : [] = mss := by simpa using h
    exact ⟨[], rfl, rfl, by simp⟩
  | cons n rest ih =>
    rw [List.mapM_cons] at h
    obtain ⟨ms, hms, h⟩ := Option.bind_eq_some_iff.1 h
    obtain ⟨more, hmore, h⟩ := Option.bind_eq_some_iff.1 h
    obtain rfl : ms :: more = mss := by simpa using h
    obtain ⟨parts, rfl, hflatten, hparts⟩ := ih hmore
    exact ⟨(n, ms) :: parts, rfl, by simp [hflatten], List.forall_mem_cons.2 ⟨hms, hparts⟩⟩

theorem mentions_of_withDefault?
    {read : Node → Option (List Mention)}
    (hread : ∀ {n ms}, read n = some ms → Mentions .target n ms)
    (hkind : n.kind = .assignmentPattern)
    (h : withDefault? read n = some ms) :
    Mentions .value n ms := by
  unfold withDefault? at h
  split at h
  · next left default hparts =>
    split at h
    · cases h
    · next hexpression =>
      obtain ⟨ms, hleft, rfl⟩ := Option.map_eq_some_iff.1 h
      exact .withDefault hkind hparts (by simpa using hexpression) (hread hleft)
  · cases h

theorem mentions_of_mentions?
    {depth : Nat}
    {place : Place}
    (h : mentions? depth place n = some ms) :
    Mentions place n ms := by
  induction depth generalizing place n ms with
  | zero => cases h
  | succ depth ih =>
    have hdestructuring : n.kind = .objectPattern ∨ n.kind = .arrayPattern →
        (n.parts.mapM (mentions? depth .part)).map List.flatten = some ms → Mentions place n ms := by
      intro hkind hms
      obtain ⟨mss, hmss, rfl⟩ := Option.map_eq_some_iff.1 hms
      obtain ⟨parts, hnodes, hflatten, hparts⟩ := exists_pairs_of_mapM hmss
      rw [hflatten]
      exact (Mentions.destructuring hkind hnodes fun p hp => ih (hparts p hp)).of_target place
    unfold mentions? at h
    split at h
    · next hkind =>
      obtain rfl := Option.some.inj h
      exact (Mentions.identifier hkind).of_target _
    · next hkind => exact hdestructuring (.inl hkind) h
    · next hkind => exact hdestructuring (.inr hkind) h
    · next hkind => exact mentions_of_withDefault? ih hkind h
    · next hkind => exact .element (mentions_of_withDefault? ih hkind h)
    · next hkind =>
      obtain rfl := Option.some.inj h
      exact .shorthand hkind
    · next hkind =>
      obtain ⟨left, hleft, h⟩ := Option.bind_eq_some_iff.1 h
      split at h
      · next hname =>
        obtain rfl := Option.some.inj h
        exact .shorthandWithDefault hkind hleft hname
      · cases h
    · next hkind =>
      obtain ⟨value, hvalue, h⟩ := Option.bind_eq_some_iff.1 h
      exact .renamed hkind hvalue (ih h)
    · next hkind =>
      split at h
      · next target hparts =>
        obtain ⟨ms, hms, rfl⟩ := Option.map_eq_some_iff.1 h
        exact .rest hkind hparts (ih hms)
      · cases h
    · cases h

end Checking

section Results

variable {n : Node} {ms : List Mention}

/-- The names that are read off a pattern are those outside of rest elements: of the identifiers that it binds
and of defaults that are a single identifier, each in source order, and no others. So they are the names that
the pattern binds if rest elements bind nothing and no such default stands outside of them; and if no such
default is bound by the pattern, they are so only then. -/
theorem patternNames_of_mentions (h : Mentions .target n ms) :
    n.patternNames = outside ms ∧
      ((∀ m ∈ ms, m.IsPlain) → n.patternNames = bound ms) ∧
      ((∀ m ∈ ms, m.isBound = false → m.inRest = false → m.name ∉ bound ms) →
        n.patternNames = bound ms → ∀ m ∈ ms, m.IsPlain) := by
  have hnames : n.patternNames = outside ms := by
    rw [Node.patternNames, (Mentions.withoutDefault h).boundNames_eq n.count_pos, h.partNames_eq le_rfl]
  rw [hnames]
  exact ⟨rfl, outside_eq_bound, forall_isPlain_of_outside_eq_bound⟩

/-- The pattern that the first variable of a file is bound by. -/
def firstPattern? (f : SourceFile) : Option Node :=
  (f.boundVariables.head?.map Variable.node).bind fun declarator => declarator.child? .name

/-- A pattern in a file, read by the rules of patterns. -/
theorem exists_mentions
    {f : SourceFile}
    (p : Node → List Mention → Bool)
    (h : ((firstPattern? f).any fun n => (mentions? 9 .target n).any (p n)) = true) :
    ∃ n ms, firstPattern? f = some n ∧ Mentions .target n ms ∧ p n ms = true := by
  obtain ⟨n, hn, h⟩ := (Option.any_eq_true _ _).1 h
  obtain ⟨ms, hms, h⟩ := (Option.any_eq_true _ _).1 h
  exact ⟨n, ms, hn, mentions_of_mentions? hms, h⟩

/-- A pattern with a renamed array, an object in it, and defaults that are no identifiers. -/
def nestedPattern : SourceFile :=
  .ofText ⟨true, ["nested.ts"]⟩ "const { GET, b: [c = 1, { d }], e = f } = g;"

theorem patternNames_of_mentions_nested :
    ∃ n ms, firstPattern? nestedPattern = some n ∧ Mentions .target n ms ∧
      (∀ m ∈ ms, m.IsPlain) ∧ n.patternNames = ["GET", "c", "d", "e"] := by
  obtain ⟨n, ms, hn, hms, hfacts⟩ := exists_mentions (f := nestedPattern)
    (fun _ ms => (ms.all fun m => m.isBound == !m.inRest) && bound ms == ["GET", "c", "d", "e"])
    (by decide +kernel)
  simp only [Bool.and_eq_true, List.all_eq_true, beq_iff_eq] at hfacts
  refine ⟨n, ms, hn, hms, hfacts.1, ?_⟩
  rw [(patternNames_of_mentions hms).2.1 hfacts.1, hfacts.2]

/-- A pattern with a default that is an identifier and with a rest element. -/
def listingPattern : SourceFile :=
  .ofText ⟨true, ["listing.ts"]⟩ "const [a = b, ...c] = x;\n"

/-- The default is read off in place of the name that the rest element binds. -/
theorem patternNames_ne_bound_listing :
    ∃ n ms, firstPattern? listingPattern = some n ∧ Mentions .target n ms ∧
      bound ms = ["a", "c"] ∧ n.patternNames = ["a", "b"] := by
  obtain ⟨n, ms, hn, hms, hfacts⟩ := exists_mentions (f := listingPattern)
    (fun n ms => bound ms == ["a", "c"] && n.patternNames == ["a", "b"]) (by decide +kernel)
  simp only [Bool.and_eq_true, beq_iff_eq] at hfacts
  exact ⟨n, ms, hn, hms, hfacts⟩

end Results

end Pattern

end RouteAtlas.Syntax
