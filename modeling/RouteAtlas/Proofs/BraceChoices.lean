import Mathlib
import RouteAtlas.Glob
import RouteAtlas.Proofs.DirectoryGlobs

/-!
# Choices in braces

A glob is rewritten from the left: the first group that holds no brace gives way to each of its alternatives,
and so on until no group is left. Every choice takes one opening brace away, so this ends for every text. In a
well nested text the groups form a tree, and the first group to give way is the leftmost of the innermost ones.
Rewriting it keeps what can be chosen from the tree, one alternative for every group: inside a group, a comma
parts the alternatives, and outside all groups it stands for itself.
-/

namespace RouteAtlas

namespace Glob

section Groups

/-- A text without braces. -/
def IsBraceless (cs : List Char) : Prop :=
  '\x7b' ∉ cs ∧ '\x7d' ∉ cs

/-- Some group of the text holds no brace. -/
def HoldsGroup (cs : List Char) : Prop :=
  ∃ before inside after, cs = before ++ '\x7b' :: (inside ++ '\x7d' :: after) ∧ IsBraceless inside

variable {c : Char} {cs before inside after choice : List Char} {cut : Cut}

theorem isBraceless_nil : IsBraceless [] :=
  ⟨List.not_mem_nil, List.not_mem_nil⟩

theorem isBraceless_cons_iff : IsBraceless (c :: cs) ↔ (c ≠ '\x7b' ∧ c ≠ '\x7d') ∧ IsBraceless cs := by
  simp only [IsBraceless, List.mem_cons, not_or, ne_comm]
  tauto

theorem IsBraceless.not_holdsGroup (h : IsBraceless cs) : ¬ HoldsGroup cs := by
  rintro ⟨before, inside, after, rfl, -⟩
  exact h.1 (by simp)

theorem holdsGroup_cons_iff :
    HoldsGroup (c :: cs) ↔
      (c = '\x7b' ∧ ∃ inside after, cs = inside ++ '\x7d' :: after ∧ IsBraceless inside) ∨ HoldsGroup cs := by
  constructor
  · rintro ⟨before, inside, after, heq, hinside⟩
    cases before with
    | nil =>
      obtain ⟨rfl, rfl⟩ := List.cons.inj heq
      exact .inl ⟨rfl, inside, after, rfl, hinside⟩
    | cons d before =>
      obtain ⟨rfl, rfl⟩ := List.cons.inj heq
      exact .inr ⟨before, inside, after, rfl, hinside⟩
  · rintro (⟨rfl, inside, after, rfl, hinside⟩ | ⟨before, inside, after, rfl, hinside⟩)
    · exact ⟨[], inside, after, rfl, hinside⟩
    · exact ⟨c :: before, inside, after, rfl, hinside⟩

/-- The inside of a group ends at the first brace, which closes it. -/
theorem closing?_eq_some_iff :
    closing? cs = some (inside, after) ↔ cs = inside ++ '\x7d' :: after ∧ IsBraceless inside := by
  induction cs generalizing inside with
  | nil => simp [closing?]
  | cons c rest ih =>
    cases inside with
    | nil =>
      by_cases hclose : c = '\x7d'
      · simp [closing?, hclose, isBraceless_nil]
      · by_cases hopen : c = '\x7b' <;> simp [closing?, hclose, hopen]
    | cons d inside =>
      have hrest := @ih inside
      rw [List.cons_append, List.cons.injEq, isBraceless_cons_iff]
      by_cases hbrace : c = '\x7d' ∨ c = '\x7b'
      · have hnone : closing? (c :: rest) ≠ some (d :: inside, after) := by
          rcases hbrace with rfl | rfl <;> simp [closing?]
        grind
      · rw [not_or] at hbrace
        simp only [closing?, hbrace.1, hbrace.2, if_false, Option.map_eq_some_iff, Prod.mk.injEq]
        grind

theorem of_firstGroup?_eq_some (h : firstGroup? cs = some cut) :
    cs = cut.before ++ '\x7b' :: (cut.inside ++ '\x7d' :: cut.after) ∧ IsBraceless cut.inside := by
  induction cs generalizing cut with
  | nil => simp [firstGroup?] at h
  | cons c rest ih =>
    have hlater : (firstGroup? rest).map (fun cut => Cut.mk (c :: cut.before) cut.inside cut.after) = some cut →
        c :: rest = cut.before ++ '\x7b' :: (cut.inside ++ '\x7d' :: cut.after) ∧ IsBraceless cut.inside := by
      intro hmap
      obtain ⟨later, hfirst, rfl⟩ := Option.map_eq_some_iff.1 hmap
      exact (ih hfirst).imp_left (congrArg (c :: ·))
    simp only [firstGroup?] at h
    split_ifs at h with hopen
    · split at h
      · next inside after hclosing =>
        obtain rfl := Option.some.inj h
        obtain ⟨rfl, hinside⟩ := closing?_eq_some_iff.1 hclosing
        exact ⟨by rw [hopen]; rfl, hinside⟩
      · exact hlater h
    · exact hlater h

theorem firstGroup?_eq_none_iff : firstGroup? cs = none ↔ ¬ HoldsGroup cs := by
  induction cs with
  | nil => simpa [firstGroup?] using isBraceless_nil.not_holdsGroup
  | cons c rest ih =>
    rw [holdsGroup_cons_iff, not_or, ← ih]
    simp only [firstGroup?, ← closing?_eq_some_iff]
    by_cases hopen : c = '\x7b'
    · cases hclosing : closing? rest with
      | none => simp [hopen]
      | some r =>
        obtain ⟨inside, after⟩ := r
        simp [hopen]
    · simp [hopen]

/-- Whether a text closes so many groups that are open before it and every group that it opens, and no other. -/
def closes : ℕ → List Char → Bool
  | depth, [] => depth = 0
  | depth, c :: rest =>
    if c = '\x7b' then closes (depth + 1) rest
    else if c = '\x7d' then
      match depth with
      | 0 => false
      | depth + 1 => closes depth rest
    else closes depth rest

theorem closes_cons_open
    (depth : ℕ)
    (cs : List Char) :
    closes depth ('\x7b' :: cs) = closes (depth + 1) cs := by
  cases depth <;> rfl

theorem closes_cons_close
    (depth : ℕ)
    (cs : List Char) :
    closes (depth + 1) ('\x7d' :: cs) = closes depth cs :=
  rfl

theorem closes_cons_of_ne
    (hopen : c ≠ '\x7b')
    (hclose : c ≠ '\x7d')
    (depth : ℕ)
    (cs : List Char) :
    closes depth (c :: cs) = closes depth cs := by
  cases depth <;> rw [closes, if_neg hopen, if_neg hclose]

/-- Every group of the text is closed, and no brace closes anything else. -/
def WellNested (cs : List Char) : Prop :=
  closes 0 cs

end Groups

section Choices

variable {cs next choice r : List Char} {cut : Cut}

/-- One choice for the first group of a text. -/
def Chooses (cs next : List Char) : Prop :=
  ∃ cut, firstGroup? cs = some cut ∧
    ∃ choice ∈ Text.splitOn ',' cut.inside, next = cut.before ++ choice ++ cut.after

/-- A choice takes one opening brace away. -/
theorem count_choice
    (hcut : firstGroup? cs = some cut)
    (hchoice : choice ∈ Text.splitOn ',' cut.inside) :
    cs.count '\x7b' = (cut.before ++ choice ++ cut.after).count '\x7b' + 1 := by
  obtain ⟨rfl, hinside⟩ := of_firstGroup?_eq_some hcut
  have hin : cut.inside.count '\x7b' = 0 := List.count_eq_zero.2 hinside.1
  have hpart : choice.count '\x7b' = 0 :=
    List.count_eq_zero.2 fun hopen => hinside.1 (Text.mem_of_mem_splitOn hchoice hopen)
  simp only [List.count_append, List.count_cons_self, List.count_cons_of_ne (by decide : '\x7d' ≠ '\x7b'), hin,
    hpart]
  omega

/-- No endless run of choices starts at any text. -/
theorem wellFounded_chooses : WellFounded fun next cs => Chooses cs next := by
  refine Subrelation.wf ?_ (measure fun cs : List Char => cs.count '\x7b').wf
  rintro next cs ⟨cut, hcut, choice, hchoice, rfl⟩
  have hcount := count_choice hcut hchoice
  change List.count _ _ < List.count _ _
  omega

/-- Steps beyond the number of opening braces change nothing. -/
theorem expandGroups_congr
    {n m : ℕ}
    (hn : cs.count '\x7b' ≤ n)
    (hm : cs.count '\x7b' ≤ m) :
    expandGroups n cs = expandGroups m cs := by
  induction n generalizing m cs with
  | zero =>
    have hnone : firstGroup? cs = none := by
      refine Option.eq_none_iff_forall_ne_some.2 fun cut hcut => ?_
      have hcount := count_choice hcut (List.head_mem (Text.splitOn_ne_nil cut.inside))
      omega
    cases m with
    | zero => rfl
    | succ m => simp only [expandGroups, hnone]
  | succ n ih =>
    cases hcut : firstGroup? cs with
    | none => cases m <;> simp only [expandGroups, hcut]
    | some cut =>
      have hcount := count_choice hcut (List.head_mem (Text.splitOn_ne_nil cut.inside))
      obtain ⟨m, rfl⟩ : ∃ k, m = k + 1 := ⟨m - 1, by omega⟩
      simp only [expandGroups, hcut]
      refine List.flatMap_congr fun choice hchoice => ih ?_ ?_
      all_goals
        have hchosen := count_choice hcut hchoice
        omega

/-- The choices of a text are those of all texts that one choice for its first group gives. -/
theorem expandChars_eq (cs : List Char) :
    expandChars cs =
      match firstGroup? cs with
      | none => [cs]
      | some cut =>
        (Text.splitOn ',' cut.inside).flatMap fun choice =>
          expandChars (cut.before ++ choice ++ cut.after) := by
  rw [expandChars, expandGroups_congr le_rfl (Nat.le_succ _)]
  cases hcut : firstGroup? cs with
  | none => simp only [expandGroups, hcut]
  | some cut =>
    simp only [expandGroups, hcut]
    refine List.flatMap_congr fun choice hchoice => expandGroups_congr ?_ le_rfl
    have hcount := count_choice hcut hchoice
    omega

theorem not_holdsGroup_of_mem_expandChars (h : r ∈ expandChars cs) : ¬ HoldsGroup r := by
  induction cs using wellFounded_chooses.induction with
  | _ cs ih =>
    rw [expandChars_eq] at h
    cases hcut : firstGroup? cs with
    | none =>
      simp only [hcut, List.mem_singleton] at h
      exact h ▸ firstGroup?_eq_none_iff.1 hcut
    | some cut =>
      simp only [hcut, List.mem_flatMap] at h
      obtain ⟨choice, hchoice, hr⟩ := h
      exact ih _ ⟨cut, hcut, choice, hchoice, rfl⟩ hr

end Choices

section Trees

/-- A character that is neither a comma nor a brace. -/
abbrev Sign : Type :=
  {c : Char // c ≠ ',' ∧ c ≠ '\x7b' ∧ c ≠ '\x7d'}

/-- A well nested text, read as signs, commas and groups one after the other. -/
inductive Nested where
  | nil
  | sign (c : Sign) (rest : Nested)
  | comma (rest : Nested)
  | group (inside rest : Nested)

namespace Nested

/-- The text as it is written. -/
def text : Nested → List Char
  | nil => []
  | sign c rest => c.1 :: rest.text
  | comma rest => ',' :: rest.text
  | group inside rest => '\x7b' :: (inside.text ++ '\x7d' :: rest.text)

/-- Two texts, one after the other. -/
def append : Nested → Nested → Nested
  | nil, more => more
  | sign c rest, more => sign c (rest.append more)
  | comma rest, more => comma (rest.append more)
  | group inside rest, more => group inside (rest.append more)

/-- What stands before the first comma outside the groups. -/
def first : Nested → Nested
  | nil => nil
  | sign c rest => sign c rest.first
  | comma _ => nil
  | group inside rest => group inside rest.first

/-- The pieces that follow the first comma outside the groups, between each such comma and the next. -/
def others : Nested → List Nested
  | nil => []
  | sign _ rest => rest.others
  | comma rest => rest.first :: rest.others
  | group _ rest => rest.others

/-- The alternatives that the commas part, where the text stands in a group. -/
def alternatives (t : Nested) : List Nested :=
  t.first :: t.others

/-- A text is got by choosing one alternative for every group; other commas stand for themselves. -/
inductive Chosen : Nested → List Char → Prop
  | nil :
      Chosen nil []
  | sign
      (c : Sign)
      {rest : Nested}
      {r : List Char}
      (hrest : Chosen rest r) :
      Chosen (sign c rest) (c.1 :: r)
  | comma
      {rest : Nested}
      {r : List Char}
      (hrest : Chosen rest r) :
      Chosen (comma rest) (',' :: r)
  | group
      {inside alternative rest : Nested}
      {chosen r : List Char}
      (halternative : alternative ∈ inside.alternatives)
      (hchosen : Chosen alternative chosen)
      (hrest : Chosen rest r) :
      Chosen (group inside rest) (chosen ++ r)

/-- The texts that one choice for the first group without a brace in it gives, if there is a group. -/
def choose? : Nested → Option (List Nested)
  | nil => none
  | sign c rest => rest.choose?.map (List.map (sign c))
  | comma rest => rest.choose?.map (List.map comma)
  | group inside rest =>
    match inside.choose? with
    | none => some (inside.alternatives.map (·.append rest))
    | some choices => some (choices.map (group · rest))

variable {s t u inside rest : Nested} {choices : List Nested} {c : Sign} {r : List Char}

@[simp]
theorem text_append (s t : Nested) : (s.append t).text = s.text ++ t.text := by
  induction s with
  | nil => rfl
  | sign c rest ih => rw [append, text, text, ih, List.cons_append]
  | comma rest ih => rw [append, text, text, ih, List.cons_append]
  | group inside rest _ ih => rw [append, text, text, ih, List.cons_append, List.append_assoc, List.cons_append]

section Chosen

theorem chosen_nil_iff : Chosen nil r ↔ r = [] := by
  constructor
  · rintro ⟨⟩
    rfl
  · rintro rfl
    exact .nil

theorem chosen_sign_iff : Chosen (sign c rest) r ↔ ∃ r', r = c.1 :: r' ∧ Chosen rest r' := by
  constructor
  · rintro ⟨⟩
    exact ⟨_, rfl, ‹_›⟩
  · rintro ⟨r', rfl, h⟩
    exact .sign c h

theorem chosen_comma_iff : Chosen (comma rest) r ↔ ∃ r', r = ',' :: r' ∧ Chosen rest r' := by
  constructor
  · rintro ⟨⟩
    exact ⟨_, rfl, ‹_›⟩
  · rintro ⟨r', rfl, h⟩
    exact .comma h

theorem chosen_group_iff :
    Chosen (group inside rest) r ↔
      ∃ chosen r', r = chosen ++ r' ∧ (∃ t ∈ inside.alternatives, Chosen t chosen) ∧ Chosen rest r' := by
  constructor
  · rintro ⟨⟩
    exact ⟨_, _, rfl, ⟨_, ‹_›, ‹_›⟩, ‹_›⟩
  · rintro ⟨chosen, r', rfl, ⟨t, ht, hchosen⟩, hrest⟩
    exact .group ht hchosen hrest

theorem chosen_append_iff : Chosen (s.append t) r ↔ ∃ r₁ r₂, r = r₁ ++ r₂ ∧ Chosen s r₁ ∧ Chosen t r₂ := by
  induction s generalizing r with
  | nil => simp [append, chosen_nil_iff]
  | sign c rest ih =>
    simp only [append, chosen_sign_iff, ih]
    grind
  | comma rest ih =>
    simp only [append, chosen_comma_iff, ih]
    grind
  | group inside rest _ ih =>
    simp only [append, chosen_group_iff, ih]
    grind

end Chosen

section Pieces

theorem others_first (t : Nested) : t.first.others = [] := by
  induction t with
  | nil => rfl
  | sign c rest ih => exact ih
  | comma rest ih => rfl
  | group inside rest _ ih => exact ih

/-- An alternative holds no comma outside its groups. -/
theorem others_of_mem_alternatives (h : s ∈ t.alternatives) : s.others = [] := by
  rcases List.mem_cons.1 h with rfl | h
  · exact others_first t
  · induction t with
    | nil => simp [others] at h
    | sign c rest ih => exact ih (List.mem_cons_of_mem _ h) h
    | comma rest ih =>
      rcases List.mem_cons.1 h with rfl | h
      · exact others_first rest
      · exact ih (List.mem_cons_of_mem _ h) h
    | group inside rest _ ih => exact ih (List.mem_cons_of_mem _ h) h

theorem first_append (h : s.others = []) : (s.append t).first = s.append t.first := by
  induction s with
  | nil => rfl
  | sign c rest ih => rw [append, first, ih h, append]
  | comma rest ih => simp [others] at h
  | group inside rest _ ih => rw [append, first, ih h, append]

theorem others_append (h : s.others = []) : (s.append t).others = t.others := by
  induction s with
  | nil => rfl
  | sign c rest ih => exact ih h
  | comma rest ih => simp [others] at h
  | group inside rest _ ih => exact ih h

end Pieces

section Steps

/-- What can be chosen from a text can be chosen from one of the others: from the whole, from what stands
before its first comma and from the other pieces between commas. -/
structure Covers (t : Nested) (choices : List Nested) : Prop where
  nonempty : choices ≠ []
  whole : ∀ r, Chosen t r ↔ ∃ u ∈ choices, Chosen u r
  first : ∀ r, Chosen t.first r ↔ ∃ u ∈ choices, Chosen u.first r
  others : ∀ r, (∃ s ∈ t.others, Chosen s r) ↔ ∃ u ∈ choices, ∃ s ∈ u.others, Chosen s r

theorem Covers.alternatives
    (h : Covers t choices)
    (r : List Char) :
    (∃ s ∈ t.alternatives, Chosen s r) ↔ ∃ u ∈ choices, ∃ s ∈ u.alternatives, Chosen s r := by
  simp only [Nested.alternatives, List.exists_mem_cons_iff, h.first r, h.others r]
  grind

theorem Covers.sign
    (h : Covers t choices)
    (c : Sign) :
    Covers (sign c t) (choices.map (sign c)) where
  nonempty := by simpa using h.nonempty
  whole r := by
    simp only [List.mem_map, exists_exists_and_eq_and, chosen_sign_iff, h.whole]
    grind
  first r := by
    simp only [List.mem_map, exists_exists_and_eq_and, Nested.first, chosen_sign_iff, h.first]
    grind
  others r := by
    simp only [List.mem_map, exists_exists_and_eq_and, Nested.others, h.others]

theorem Covers.comma (h : Covers t choices) : Covers (comma t) (choices.map comma) where
  nonempty := by simpa using h.nonempty
  whole r := by
    simp only [List.mem_map, exists_exists_and_eq_and, chosen_comma_iff, h.whole]
    grind
  first r := by
    have := List.exists_mem_of_ne_nil _ h.nonempty
    simp only [List.mem_map, exists_exists_and_eq_and, Nested.first]
    grind
  others r := by
    simp only [List.mem_map, exists_exists_and_eq_and, Nested.others]
    exact h.alternatives r

/-- A choice inside a group is a choice for its alternatives. -/
theorem Covers.group
    (h : Covers t choices)
    (rest : Nested) :
    Covers (group t rest) (choices.map (group · rest)) where
  nonempty := by simpa using h.nonempty
  whole r := by
    simp only [List.mem_map, exists_exists_and_eq_and, chosen_group_iff, h.alternatives]
    grind
  first r := by
    simp only [List.mem_map, exists_exists_and_eq_and, Nested.first, chosen_group_iff, h.alternatives]
    grind
  others r := by
    have := List.exists_mem_of_ne_nil _ h.nonempty
    simp only [List.mem_map, exists_exists_and_eq_and, Nested.others]
    grind

/-- A group can give way to each of its alternatives: they hold no comma that would part anything else. -/
theorem covers_alternatives (t rest : Nested) :
    Covers (group t rest) (t.alternatives.map (·.append rest)) where
  nonempty := by simp [alternatives]
  whole r := by
    simp only [List.mem_map, exists_exists_and_eq_and, chosen_group_iff, chosen_append_iff]
    grind
  first r := by
    have hfirst : ∀ s ∈ t.alternatives, (s.append rest).first = s.append rest.first :=
      fun s hs => first_append (others_of_mem_alternatives hs)
    simp only [List.mem_map, exists_exists_and_eq_and, Nested.first, chosen_group_iff]
    have := @chosen_append_iff
    grind
  others r := by
    -- This is where an alternative that held a comma would part what follows the group.
    have hothers : ∀ s ∈ t.alternatives, (s.append rest).others = rest.others :=
      fun s hs => others_append (others_of_mem_alternatives hs)
    have hmem : t.first ∈ t.alternatives := List.mem_cons_self
    simp only [List.mem_map, exists_exists_and_eq_and, Nested.others]
    grind

theorem covers_of_choose?_eq_some (h : t.choose? = some choices) : Covers t choices := by
  induction t generalizing choices with
  | nil => simp [choose?] at h
  | sign c rest ih =>
    obtain ⟨later, hlater, rfl⟩ := Option.map_eq_some_iff.1 h
    exact (ih hlater).sign c
  | comma rest ih =>
    obtain ⟨later, hlater, rfl⟩ := Option.map_eq_some_iff.1 h
    exact (ih hlater).comma
  | group inside rest ih _ =>
    cases hinside : inside.choose? with
    | none =>
      simp only [choose?, hinside, Option.some.injEq] at h
      exact h ▸ covers_alternatives inside rest
    | some later =>
      simp only [choose?, hinside, Option.some.injEq] at h
      exact h ▸ (ih hinside).group rest

end Steps

section Rewriting

theorem isBraceless_text (h : t.choose? = none) : IsBraceless t.text := by
  induction t with
  | nil => exact isBraceless_nil
  | sign c rest ih => exact isBraceless_cons_iff.2 ⟨c.2.2, ih (Option.map_eq_none_iff.1 h)⟩
  | comma rest ih => exact isBraceless_cons_iff.2 ⟨by decide, ih (Option.map_eq_none_iff.1 h)⟩
  | group inside rest _ _ =>
    simp only [choose?] at h
    split at h <;> simp at h

theorem chosen_iff_eq_text (h : t.choose? = none) : Chosen t r ↔ r = t.text := by
  induction t generalizing r with
  | nil => exact chosen_nil_iff
  | sign c rest ih => simp [chosen_sign_iff, ih (Option.map_eq_none_iff.1 h), text]
  | comma rest ih => simp [chosen_comma_iff, ih (Option.map_eq_none_iff.1 h), text]
  | group inside rest _ _ =>
    simp only [choose?] at h
    split at h <;> simp at h

/-- Without groups, the alternatives are the pieces between the commas. -/
theorem map_text_alternatives (h : t.choose? = none) :
    t.alternatives.map text = Text.splitOn ',' t.text := by
  induction t with
  | nil => rfl
  | sign c rest ih =>
    rw [text, Text.splitOn, if_neg c.2.1, ← ih (Option.map_eq_none_iff.1 h)]
    rfl
  | comma rest ih =>
    rw [text, Text.splitOn, if_pos rfl, ← ih (Option.map_eq_none_iff.1 h)]
    rfl
  | group inside rest _ _ =>
    simp only [choose?] at h
    split at h <;> simp at h

theorem closing?_text_append
    (h : t.choose? = some choices)
    (more : List Char) :
    closing? (t.text ++ more) = none := by
  induction t generalizing choices with
  | nil => simp [choose?] at h
  | sign c rest ih =>
    obtain ⟨later, hlater, -⟩ := Option.map_eq_some_iff.1 h
    rw [text, List.cons_append, closing?, if_neg c.2.2.2, if_neg c.2.2.1, ih hlater, Option.map_none]
  | comma rest ih =>
    obtain ⟨later, hlater, -⟩ := Option.map_eq_some_iff.1 h
    rw [text, List.cons_append, closing?, if_neg (by decide), if_neg (by decide), ih hlater, Option.map_none]
  | group inside rest _ _ => rw [text, List.cons_append, closing?, if_neg (by decide), if_pos rfl]

/-- The first group of the text as it is written, and the choices for it. -/
structure Rewrites (t : Nested) (choices : List Nested) (cut : Cut) : Prop where
  first : ∀ more, firstGroup? (t.text ++ more) = some ⟨cut.before, cut.inside, cut.after ++ more⟩
  texts : choices.map text = (Text.splitOn ',' cut.inside).map fun choice => cut.before ++ choice ++ cut.after

/-- A character that opens no group stays before the first group. -/
theorem Rewrites.cons
    {cut : Cut}
    (h : Rewrites t choices cut)
    {d : Char}
    (hopen : d ≠ '\x7b')
    {f : Nested → Nested}
    (hf : ∀ u, (f u).text = d :: u.text) :
    Rewrites (f t) (choices.map f) ⟨d :: cut.before, cut.inside, cut.after⟩ where
  first more := by
    rw [hf, List.cons_append, firstGroup?, if_neg hopen, h.first]
    rfl
  texts := by
    have htexts : (choices.map f).map text = (choices.map text).map (d :: ·) := by simp [hf]
    rw [htexts, h.texts, List.map_map]
    rfl

/-- The first group of the text as it is written gives way to the same alternatives. -/
theorem exists_rewrites (h : t.choose? = some choices) : ∃ cut, Rewrites t choices cut := by
  induction t generalizing choices with
  | nil => simp [choose?] at h
  | sign c rest ih =>
    obtain ⟨later, hlater, rfl⟩ := Option.map_eq_some_iff.1 h
    obtain ⟨cut, hcut⟩ := ih hlater
    exact ⟨_, hcut.cons c.2.2.1 fun _ => rfl⟩
  | comma rest ih =>
    obtain ⟨later, hlater, rfl⟩ := Option.map_eq_some_iff.1 h
    obtain ⟨cut, hcut⟩ := ih hlater
    exact ⟨_, hcut.cons (by decide) fun _ => rfl⟩
  | group inside rest ih _ =>
    cases hinside : inside.choose? with
    | none =>
      simp only [choose?, hinside, Option.some.injEq] at h
      refine ⟨⟨[], inside.text, rest.text⟩, fun more => ?_, ?_⟩
      · have hclosing : closing? (inside.text ++ '\x7d' :: (rest.text ++ more)) =
            some (inside.text, rest.text ++ more) :=
          closing?_eq_some_iff.2 ⟨rfl, isBraceless_text hinside⟩
        simp [text, firstGroup?, hclosing]
      · rw [← map_text_alternatives hinside, ← h, List.map_map, List.map_map]
        simp
    | some later =>
      simp only [choose?, hinside, Option.some.injEq] at h
      obtain ⟨cut, hcut⟩ := ih hinside
      refine ⟨⟨'\x7b' :: cut.before, cut.inside, cut.after ++ '\x7d' :: rest.text⟩, fun more => ?_, ?_⟩
      · simp [text, firstGroup?, closing?_text_append hinside, hcut.first]
      · have htexts : choices.map text =
            (later.map text).map fun cs => '\x7b' :: (cs ++ '\x7d' :: rest.text) := by
          simp [← h, text]
        rw [htexts, hcut.texts, List.map_map]
        simp

/-- The results for a well nested text are what can be chosen from it. -/
theorem mem_expandChars_text_iff (t : Nested) (r : List Char) : r ∈ expandChars t.text ↔ Chosen t r := by
  -- Induction on the runs of choices, for all trees at once: a choice leads to the texts of other trees.
  generalize hcs : t.text = cs
  induction cs using wellFounded_chooses.induction generalizing t with
  | _ cs ih =>
    subst hcs
    rw [expandChars_eq]
    cases hchoices : t.choose? with
    | none =>
      have hfirst : firstGroup? t.text = none :=
        firstGroup?_eq_none_iff.2 (isBraceless_text hchoices).not_holdsGroup
      simp only [hfirst, List.mem_singleton, chosen_iff_eq_text hchoices]
    | some choices =>
      obtain ⟨cut, hcut⟩ := exists_rewrites hchoices
      have hfirst : firstGroup? t.text = some cut := by simpa using hcut.first []
      have hnext : ∀ u ∈ choices, r ∈ expandChars u.text ↔ Chosen u r := by
        intro u hu
        obtain ⟨choice, hchoice, htext⟩ := List.mem_map.1 (hcut.texts ▸ List.mem_map_of_mem hu)
        exact ih u.text ⟨cut, hfirst, choice, hchoice, htext.symm⟩ u rfl
      calc
        _ ↔ ∃ cs ∈ choices.map text, r ∈ expandChars cs := by simp [hfirst, hcut.texts]
        _ ↔ ∃ u ∈ choices, r ∈ expandChars u.text := by simp
        _ ↔ ∃ u ∈ choices, Chosen u r := exists_congr fun u => and_congr_right (hnext u)
        _ ↔ Chosen t r := ((covers_of_choose?_eq_some hchoices).whole r).symm

end Rewriting

section Nesting

/-- Well nested text leaves as many groups open as there were before. -/
theorem closes_text_append
    (t : Nested)
    (depth : ℕ)
    (more : List Char) :
    closes depth (t.text ++ more) = closes depth more := by
  induction t generalizing depth more with
  | nil => rfl
  | sign c rest ih => rw [text, List.cons_append, closes_cons_of_ne c.2.2.1 c.2.2.2, ih]
  | comma rest ih => rw [text, List.cons_append, closes_cons_of_ne (by decide) (by decide), ih]
  | group inside rest ihInside ihRest =>
    rw [text, List.cons_append, closes_cons_open, List.append_assoc, ihInside, List.cons_append,
      closes_cons_close, ihRest]

/-- A text closes so many open groups if they are parted by braces that close them. -/
theorem closes_iff {depth : ℕ} {cs : List Char} :
    closes depth cs ↔
      ∃ (t : Nested) (ts : List Nested),
        ts.length = depth ∧ cs = t.text ++ ts.flatMap fun u => '\x7d' :: u.text := by
  constructor
  · intro h
    induction cs generalizing depth with
    | nil => exact ⟨nil, [], by simpa [closes, eq_comm] using h, rfl⟩
    | cons c rest ih =>
      by_cases hopen : c = '\x7b'
      · subst hopen
        rw [closes_cons_open] at h
        -- The first two pieces are the inside of the group that opens here and what follows it.
        obtain ⟨inside, ts, hlength, rfl⟩ := ih h
        obtain ⟨t, ts, rfl⟩ := List.exists_cons_of_length_eq_add_one hlength
        exact ⟨group inside t, ts, by simpa using hlength, by simp [text]⟩
      by_cases hclose : c = '\x7d'
      · subst hclose
        cases depth with
        | zero => simp [closes] at h
        | succ depth =>
          rw [closes_cons_close] at h
          obtain ⟨t, ts, hlength, rfl⟩ := ih h
          exact ⟨nil, t :: ts, by simp [hlength], by simp [text]⟩
      · rw [closes_cons_of_ne hopen hclose] at h
        obtain ⟨t, ts, hlength, rfl⟩ := ih h
        by_cases hcomma : c = ','
        · exact ⟨comma t, ts, hlength, by simp [text, hcomma]⟩
        · exact ⟨sign ⟨c, hcomma, hopen, hclose⟩ t, ts, hlength, by simp [text]⟩
  · rintro ⟨t, ts, rfl, rfl⟩
    induction ts generalizing t with
    | nil =>
      rw [List.flatMap_nil, closes_text_append]
      rfl
    | cons u ts ih =>
      rw [closes_text_append, List.flatMap_cons, List.length_cons, List.cons_append, closes_cons_close]
      exact ih u

theorem wellNested_iff_exists_text {cs : List Char} : WellNested cs ↔ ∃ t : Nested, t.text = cs := by
  simp only [WellNested, closes_iff, List.length_eq_zero_iff, exists_eq_left, List.flatMap_nil, List.append_nil]
  exact exists_congr fun t => eq_comm

end Nesting

end Nested

end Trees

section Expansion

/-- Choosing ends for every glob, and no result holds a group. The results for a well nested glob are what is
chosen from it. -/
theorem expandBraces_spec :
    (WellFounded fun next cs => Chooses cs next)
      ∧ (∀ cs, expandChars cs =
        match firstGroup? cs with
        | none => [cs]
        | some cut =>
          (Text.splitOn ',' cut.inside).flatMap fun choice =>
            expandChars (cut.before ++ choice ++ cut.after))
      ∧ ∀ pattern : String,
        (∀ r ∈ expandBraces pattern, ¬ HoldsGroup r.toList)
          ∧ (WellNested pattern.toList ↔ ∃ t : Nested, t.text = pattern.toList)
          ∧ ∀ t : Nested, t.text = pattern.toList →
            ∀ r, r ∈ expandBraces pattern ↔ t.Chosen r.toList := by
  refine ⟨wellFounded_chooses, expandChars_eq, fun pattern => ⟨fun r hr => ?_,
    Nested.wellNested_iff_exists_text, fun t ht r => ?_⟩⟩
  · obtain ⟨cs, hcs, rfl⟩ := List.mem_map.1 hr
    rw [String.toList_ofList]
    exact not_holdsGroup_of_mem_expandChars hcs
  · rw [← Nested.mem_expandChars_text_iff, ht, expandBraces, List.mem_map]
    constructor
    · rintro ⟨cs, hcs, rfl⟩
      rwa [String.toList_ofList]
    · intro hr
      exact ⟨_, hr, String.ofList_toList⟩

example : expandBraces "\x7ba,x\x7bb,\x7dy\x7d,z" = ["a,z", "xby,z", "a,z", "xy,z"] := by
  decide

end Expansion

end Glob

end RouteAtlas
