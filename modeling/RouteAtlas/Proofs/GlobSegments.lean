import Mathlib
import RouteAtlas.Glob
import RouteAtlas.Proofs.PlainPaths

/-!
# Segments of globs

A glob is matched character by character, but it can be read by its segments, the pieces between slashes:
each stands for one component of the path, and `**` for any number of them, at the end for one at least.
A path is accepted exactly if its components can be told apart that way.
-/

namespace RouteAtlas

namespace Text

section Induction

/-- A text is one piece without a separator, or such a piece before a separator and another text. -/
@[elab_as_elim]
theorem splitOn_induction
    (sep : Char)
    {motive : List Char → Prop}
    (last : ∀ piece, sep ∉ piece → motive piece)
    (next : ∀ piece rest, sep ∉ piece → motive rest → motive (piece ++ sep :: rest))
    (cs : List Char) :
    motive cs := by
  generalize hlength : cs.length = n
  induction n using Nat.strong_induction_on generalizing cs with
  | h n ih =>
    by_cases hsep : sep ∈ cs
    · obtain ⟨piece, rest, rfl, hpiece⟩ := List.eq_append_cons_of_mem hsep
      refine next piece rest hpiece (ih rest.length ?_ rest rfl)
      rw [← hlength, List.length_append, List.length_cons]
      omega
    · exact last cs hsep

variable {sep : Char}

theorem splitOn_ne_nil (cs : List Char) : splitOn sep cs ≠ [] := by
  induction cs using splitOn_induction sep with
  | last piece hpiece => simp [splitOn_eq_singleton hpiece]
  | next piece rest hpiece _ => simp [splitOn_append_cons hpiece]

/-- A text can be told from its pieces. -/
theorem eq_of_splitOn_eq_cons
    {cs piece : List Char}
    {pieces : List (List Char)}
    (h : splitOn sep cs = piece :: pieces) :
    cs = piece ∧ pieces = [] ∨ ∃ rest, cs = piece ++ sep :: rest ∧ pieces = splitOn sep rest := by
  induction cs using splitOn_induction sep with
  | last piece' hpiece =>
    rw [splitOn_eq_singleton hpiece] at h
    obtain ⟨rfl, rfl⟩ := List.cons.inj h
    exact .inl ⟨rfl, rfl⟩
  | next piece' rest hpiece _ =>
    rw [splitOn_append_cons hpiece] at h
    obtain ⟨rfl, rfl⟩ := List.cons.inj h
    exact .inr ⟨rest, rfl, rfl⟩

end Induction

end Text

namespace Glob

section Alignment

/-- A component that a segment stands for: each star in it stands for any run of characters, each question
mark for one, and every other character for itself. -/
inductive Fits : List Char → List Char → Prop
  | nil :
      Fits [] []
  | star
      (run : List Char)
      {segment rest : List Char}
      (h : Fits segment rest) :
      Fits ('*' :: segment) (run ++ rest)
  | one
      (c : Char)
      {segment rest : List Char}
      (h : Fits segment rest) :
      Fits ('?' :: segment) (c :: rest)
  | exactly
      {c : Char}
      (hstar : c ≠ '*')
      (hone : c ≠ '?')
      {segment rest : List Char}
      (h : Fits segment rest) :
      Fits (c :: segment) (c :: rest)

/-- The segment that stands for any number of components. -/
def anyNumber : List Char :=
  ['*', '*']

/-- Components that segments stand for. -/
inductive Aligned : List (List Char) → List (List Char) → Prop
  | nil :
      Aligned [] []
  | anyAtEnd
      {components : List (List Char)}
      (h : components ≠ []) :
      Aligned [anyNumber] components
  | anyBefore
      (directories : List (List Char))
      {segments components : List (List Char)}
      (hmore : segments ≠ [])
      (h : Aligned segments components) :
      Aligned (anyNumber :: segments) (directories ++ components)
  | one
      {segment component : List Char}
      (hone : segment ≠ anyNumber)
      (hfits : Fits segment component)
      {segments components : List (List Char)}
      (h : Aligned segments components) :
      Aligned (segment :: segments) (component :: components)

variable {segment component cs : List Char} {segments components : List (List Char)}

theorem fits_cons_iff
    {c : Char}
    (hstar : c ≠ '*')
    (hone : c ≠ '?') :
    Fits (c :: segment) cs ↔ ∃ rest, cs = c :: rest ∧ Fits segment rest := by
  constructor
  · intro h
    cases h with
    | star run h => exact absurd rfl hstar
    | one d h => exact absurd rfl hone
    | exactly _ _ h => exact ⟨_, rfl, h⟩
  · rintro ⟨rest, rfl, h⟩
    exact .exactly hstar hone h

theorem fits_star_iff : Fits ('*' :: segment) cs ↔ ∃ run rest, cs = run ++ rest ∧ Fits segment rest := by
  constructor
  · intro h
    cases h with
    | star run h => exact ⟨run, _, rfl, h⟩
    | exactly hstar => exact absurd rfl hstar
  · rintro ⟨run, rest, rfl, h⟩
    exact .star run h

theorem fits_one_iff : Fits ('?' :: segment) cs ↔ ∃ c rest, cs = c :: rest ∧ Fits segment rest := by
  constructor
  · intro h
    cases h with
    | one c h => exact ⟨c, _, rfl, h⟩
    | exactly _ hone => exact absurd rfl hone
  · rintro ⟨c, rest, rfl, h⟩
    exact .one c h

theorem Aligned.ne_nil
    (h : Aligned segments components)
    (hsegments : segments ≠ []) :
    components ≠ [] := by
  induction h with
  | nil => exact absurd rfl hsegments
  | anyAtEnd h => exact h
  | anyBefore directories hmore h ih => simp [ih hmore]
  | one => simp

theorem aligned_singleton_iff
    (hsegment : segment ≠ anyNumber) :
    Aligned [segment] components ↔ ∃ component, components = [component] ∧ Fits segment component := by
  constructor
  · intro h
    cases h with
    | anyAtEnd => exact absurd rfl hsegment
    | anyBefore => exact absurd rfl hsegment
    | one hone hfits h =>
      cases h
      exact ⟨_, rfl, hfits⟩
  · rintro ⟨component, rfl, hfits⟩
    exact .one hsegment hfits .nil

theorem aligned_cons_iff
    (hsegment : segment ≠ anyNumber) :
    Aligned (segment :: segments) components ↔ ∃ component rest, components = component :: rest ∧
      Fits segment component ∧ Aligned segments rest := by
  constructor
  · intro h
    cases h with
    | anyAtEnd => exact absurd rfl hsegment
    | anyBefore => exact absurd rfl hsegment
    | one hone hfits h => exact ⟨_, _, rfl, hfits, h⟩
  · rintro ⟨component, rest, rfl, hfits, h⟩
    exact .one hsegment hfits h

theorem aligned_anyNumber_iff : Aligned [anyNumber] components ↔ components ≠ [] := by
  constructor
  · intro h
    exact h.ne_nil (by simp)
  · exact .anyAtEnd

theorem aligned_anyNumber_cons_iff
    (hsegments : segments ≠ []) :
    Aligned (anyNumber :: segments) components ↔
      ∃ directories rest, components = directories ++ rest ∧ Aligned segments rest := by
  constructor
  · intro h
    cases h with
    | anyAtEnd => exact absurd rfl hsegments
    | anyBefore directories _ h => exact ⟨directories, _, rfl, h⟩
    | one hone => exact absurd rfl hone
  · rintro ⟨directories, rest, rfl, h⟩
    exact .anyBefore directories hsegments h

end Alignment

section Steps

/-- The step of a character in a segment that is not `**`. -/
def stepOf (c : Char) : Step :=
  if c = '*' then .piece else if c = '?' then .one else .exactly c

variable {cs segment rest : List Char} {more : List Step} {allowed : Char → Bool}
  {next : List Char → Bool}

theorem steps_cons
    {c : Char}
    (h : c = '*' → rest.head? ≠ some '*') :
    steps (c :: rest) = stepOf c :: steps rest := by
  rw [steps.eq_def]
  split
  · next hcs => cases hcs
  · next hcs =>
    obtain ⟨rfl, rfl⟩ := List.cons.inj hcs
    exact absurd rfl (h rfl)
  · next hcs =>
    obtain ⟨rfl, rfl⟩ := List.cons.inj hcs
    exact absurd rfl (h rfl)
  · next hcs =>
    obtain ⟨rfl, rfl⟩ := List.cons.inj hcs
    rfl
  · next hcs =>
    obtain ⟨rfl, rfl⟩ := List.cons.inj hcs
    rfl
  · next hstar hone hcs =>
    obtain ⟨rfl, rfl⟩ := List.cons.inj hcs
    rw [stepOf, if_neg hstar, if_neg hone]

/-- The steps of a segment without two stars side by side. -/
theorem steps_append
    (hsegment : ¬ anyNumber <:+: segment)
    (hrest : rest.head? ≠ some '*') :
    steps (segment ++ rest) = segment.map stepOf ++ steps rest := by
  induction segment with
  | nil => rfl
  | cons c segment ih =>
    rw [List.cons_append, steps_cons, ih, List.map_cons, List.cons_append]
    · exact fun h => hsegment (h.trans (List.suffix_cons c segment).isInfix)
    · rintro rfl hhead
      cases segment with
      | nil => exact hrest hhead
      | cons d segment =>
        obtain rfl : d = '*' := by simpa using hhead
        exact hsegment ⟨[], segment, rfl⟩

theorem afterRun_iff :
    afterRun allowed next cs = true ↔
      ∃ run rest, cs = run ++ rest ∧ (∀ c ∈ run, allowed c = true) ∧ next rest = true := by
  induction cs with
  | nil => simp [afterRun]
  | cons c cs ih =>
    rw [afterRun, Bool.or_eq_true, Bool.and_eq_true, ih]
    constructor
    · rintro (h | ⟨hc, run, rest, rfl, hrun, h⟩)
      · exact ⟨[], c :: cs, rfl, by simp, h⟩
      · exact ⟨c :: run, rest, rfl, List.forall_mem_cons.2 ⟨hc, hrun⟩, h⟩
    · rintro ⟨run, rest, hcs, hrun, h⟩
      cases run with
      | nil =>
        rw [hcs]
        exact .inl h
      | cons d run =>
        obtain ⟨rfl, rfl⟩ := List.cons.inj hcs
        rw [List.forall_mem_cons] at hrun
        exact .inr ⟨hrun.1, run, rest, rfl, hrun.2, h⟩

/-- Directories, each with the slash after it. -/
def written (directories : List (List Char)) : List Char :=
  directories.flatMap fun name => name ++ ['/']

theorem afterDirectories_entered_iff :
    afterDirectories next true cs = true ↔
      ∃ name rest, '/' ∉ name ∧ cs = name ++ '/' :: rest ∧ afterDirectories next false rest = true := by
  induction cs with
  | nil => simp [afterDirectories]
  | cons c cs ih =>
    rw [afterDirectories]
    by_cases hc : c = '/'
    · rw [hc]
      constructor
      · exact fun h => ⟨[], cs, by simp, rfl, h⟩
      · rintro ⟨name, rest, hname, hcs, h⟩
        obtain ⟨rfl, rfl⟩ : [] = name ∧ cs = rest := Text.append_sep_inj_of_before (by simp) hname hcs
        exact h
    · rw [show (c != '/') = true by simpa using hc, ih]
      constructor
      · rintro ⟨name, rest, hname, rfl, h⟩
        exact ⟨c :: name, rest, by simp [hname, Ne.symm hc], rfl, h⟩
      · rintro ⟨name, rest, hname, hcs, h⟩
        cases name with
        | nil => exact absurd (List.cons.inj hcs).1 hc
        | cons d name =>
          obtain ⟨rfl, rfl⟩ := List.cons.inj hcs
          exact ⟨name, rest, fun hmem => hname (List.mem_cons_of_mem _ hmem), rfl, h⟩

/-- No directory is passed, or one and then others. -/
theorem afterDirectories_iff_or :
    afterDirectories next false cs = true ↔ next cs = true ∨
      ∃ name rest, name ≠ [] ∧ '/' ∉ name ∧ cs = name ++ '/' :: rest ∧
        afterDirectories next false rest = true := by
  cases cs with
  | nil => simp [afterDirectories]
  | cons c cs =>
    rw [afterDirectories, Bool.or_eq_true, Bool.and_eq_true, afterDirectories_entered_iff, bne_iff_ne]
    refine or_congr_right ?_
    constructor
    · rintro ⟨hc, name, rest, hname, rfl, h⟩
      exact ⟨c :: name, rest, by simp, by simp [hname, Ne.symm hc], rfl, h⟩
    · rintro ⟨name, rest, hfilled, hname, hcs, h⟩
      cases name with
      | nil => exact absurd rfl hfilled
      | cons d name =>
        obtain ⟨rfl, rfl⟩ := List.cons.inj hcs
        rw [List.mem_cons, not_or] at hname
        exact ⟨Ne.symm hname.1, name, rest, hname.2, rfl, h⟩

/-- Some number of whole directories is passed. -/
theorem afterDirectories_iff :
    afterDirectories next false cs = true ↔
      ∃ directories rest, (∀ name ∈ directories, name ≠ [] ∧ '/' ∉ name) ∧
        cs = written directories ++ rest ∧ next rest = true := by
  constructor
  · intro h
    induction cs using Text.splitOn_induction '/' with
    | last piece hpiece =>
      rcases afterDirectories_iff_or.1 h with h | ⟨name, rest, -, -, rfl, -⟩
      · exact ⟨[], piece, by simp, rfl, h⟩
      · simp at hpiece
    | next piece rest hpiece ih =>
      rcases afterDirectories_iff_or.1 h with h | ⟨name, rest', hfilled, hname, hcs, h⟩
      · exact ⟨[], piece ++ '/' :: rest, by simp, rfl, h⟩
      · obtain ⟨rfl, rfl⟩ := Text.append_sep_inj_of_before hpiece hname hcs
        obtain ⟨directories, left, hdirectories, rfl, hleft⟩ := ih h
        refine ⟨piece :: directories, left, List.forall_mem_cons.2 ⟨⟨hfilled, hname⟩, hdirectories⟩, ?_, hleft⟩
        simp [written]
  · rintro ⟨directories, rest, hdirectories, rfl, h⟩
    induction directories with
    | nil => exact afterDirectories_iff_or.2 (.inl h)
    | cons name directories ih =>
      rw [List.forall_mem_cons] at hdirectories
      refine afterDirectories_iff_or.2 (.inr ⟨name, written directories ++ rest, hdirectories.1.1,
        hdirectories.1.2, ?_, ih hdirectories.2⟩)
      simp [written]

/-- What a segment stands for when more is to come. -/
theorem accepts_append_iff
    (hsegment : '/' ∉ segment) :
    accepts (segment.map stepOf ++ more) cs = true ↔
      ∃ component rest, cs = component ++ rest ∧ '/' ∉ component ∧ Fits segment component ∧
        accepts more rest = true := by
  induction segment generalizing cs with
  | nil =>
    constructor
    · exact fun h => ⟨[], cs, rfl, by simp, .nil, h⟩
    · rintro ⟨component, rest, rfl, -, ⟨⟩, h⟩
      exact h
  | cons c segment ih =>
    rw [List.mem_cons, not_or] at hsegment
    have ih {cs : List Char} := @ih cs hsegment.2
    rw [List.map_cons, List.cons_append, stepOf]
    by_cases hstar : c = '*'
    · rw [if_pos hstar, hstar, accepts, afterRun_iff]
      simp only [ih, fits_star_iff, bne_iff_ne]
      constructor
      · rintro ⟨run, _, rfl, hrun, component, rest, rfl, hcomponent, hfits, h⟩
        refine ⟨run ++ component, rest, by simp, ?_, ⟨run, component, rfl, hfits⟩, h⟩
        rw [List.mem_append, not_or]
        exact ⟨fun hmem => hrun _ hmem rfl, hcomponent⟩
      · rintro ⟨_, rest, rfl, hcomponent, ⟨run, component, rfl, hfits⟩, h⟩
        rw [List.mem_append, not_or] at hcomponent
        exact ⟨run, component ++ rest, by simp, fun d hd hslash => hcomponent.1 (hslash ▸ hd), component, rest,
          rfl, hcomponent.2, hfits, h⟩
    · rw [if_neg hstar]
      by_cases hone : c = '?'
      · rw [if_pos hone, hone]
        simp only [fits_one_iff]
        constructor
        · intro h
          cases cs with
          | nil => cases h
          | cons d cs =>
            rw [accepts, Bool.and_eq_true, bne_iff_ne] at h
            obtain ⟨component, rest, rfl, hcomponent, hfits, hmore⟩ := ih.1 h.2
            refine ⟨d :: component, rest, rfl, ?_, ⟨d, component, rfl, hfits⟩, hmore⟩
            simp [hcomponent, Ne.symm h.1]
        · rintro ⟨_, rest, rfl, hcomponent, ⟨d, component, rfl, hfits⟩, h⟩
          rw [List.mem_cons, not_or] at hcomponent
          rw [List.cons_append, accepts, Bool.and_eq_true, bne_iff_ne]
          exact ⟨Ne.symm hcomponent.1, ih.2 ⟨component, rest, rfl, hcomponent.2, hfits, h⟩⟩
      · rw [if_neg hone]
        simp only [fits_cons_iff hstar hone]
        constructor
        · intro h
          cases cs with
          | nil => cases h
          | cons d cs =>
            rw [accepts, Bool.and_eq_true, decide_eq_true_iff] at h
            obtain ⟨component, rest, rfl, hcomponent, hfits, hmore⟩ := ih.1 h.2
            refine ⟨d :: component, rest, rfl, ?_, ⟨component, by rw [h.1], hfits⟩, hmore⟩
            rw [h.1, List.mem_cons, not_or]
            exact ⟨hsegment.1, hcomponent⟩
        · rintro ⟨_, rest, rfl, hcomponent, ⟨component, rfl, hfits⟩, h⟩
          rw [List.mem_cons, not_or] at hcomponent
          rw [List.cons_append, accepts, Bool.and_eq_true, decide_eq_true_iff]
          exact ⟨rfl, ih.2 ⟨component, rest, rfl, hcomponent.2, hfits, h⟩⟩

/-- What a segment before a slash stands for: the component before the first slash. -/
theorem accepts_steps_slash_iff
    (hslash : '/' ∉ segment)
    (hsegment : ¬ anyNumber <:+: segment) :
    accepts (steps (segment ++ '/' :: rest)) cs = true ↔
      ∃ component left, cs = component ++ '/' :: left ∧ '/' ∉ component ∧ Fits segment component ∧
        accepts (steps rest) left = true := by
  have hsteps : steps (segment ++ '/' :: rest) = segment.map stepOf ++ .exactly '/' :: steps rest :=
    steps_append hsegment (by simp)
  rw [hsteps, accepts_append_iff hslash]
  constructor
  · rintro ⟨component, left, rfl, hcomponent, hfits, h⟩
    cases left with
    | nil => cases h
    | cons c left =>
      rw [accepts, Bool.and_eq_true, decide_eq_true_iff] at h
      exact ⟨component, left, by rw [h.1], hcomponent, hfits, h.2⟩
  · rintro ⟨component, left, rfl, hcomponent, hfits, h⟩
    refine ⟨component, '/' :: left, rfl, hcomponent, hfits, ?_⟩
    rw [accepts, Bool.and_eq_true, decide_eq_true_iff]
    exact ⟨rfl, h⟩

end Steps

section Segments

/-- The text without the point of the directory at its start, where it stands before a slash. -/
def withoutPoint : List Char → List Char
  | '.' :: '/' :: rest => rest
  | cs => cs

/-- The segments of a glob: the pieces between slashes of both kinds, an optional leading `./` aside. -/
def segmentsOf (pattern : String) : List (List Char) :=
  Text.splitOn '/' (withoutPoint (forwardSlashes pattern.toList))

/-- The components of a path: the pieces between slashes of both kinds. -/
def componentsOf (path : String) : List (List Char) :=
  Text.splitOn '/' (forwardSlashes path.toList)

/-- A segment that is `**` or has no two stars side by side. -/
def IsSegment (segment : List Char) : Prop :=
  segment = anyNumber ∨ ¬ anyNumber <:+: segment

instance : DecidablePred IsSegment :=
  fun segment => inferInstanceAs (Decidable (segment = anyNumber ∨ ¬ anyNumber <:+: segment))

variable {pattern cs segment : List Char}

theorem stepsOf_eq (pattern : List Char) :
    stepsOf pattern = steps (withoutPoint (forwardSlashes pattern)) := by
  unfold stepsOf
  split
  · next rest hcs => rw [hcs, withoutPoint]
  · next hcs =>
    rw [withoutPoint]
    exact hcs

theorem accepts_nil_iff
    (hline : '\n' ∉ cs) :
    accepts [] cs = true ↔ cs = [] := by
  rw [accepts, Bool.or_eq_true, decide_eq_true_iff, decide_eq_true_iff, or_iff_left_iff_imp]
  rintro rfl
  exact absurd (List.mem_singleton_self _) hline

/-- The components of a path with whole directories at its start. -/
theorem splitOn_written
    {directories : List (List Char)}
    (hdirectories : ∀ name ∈ directories, name ≠ [] ∧ '/' ∉ name)
    (rest : List Char) :
    Text.splitOn '/' (written directories ++ rest) = directories ++ Text.splitOn '/' rest := by
  induction directories with
  | nil => rfl
  | cons name directories ih =>
    rw [List.forall_mem_cons] at hdirectories
    have hwritten : written (name :: directories) ++ rest = name ++ '/' :: (written directories ++ rest) := by
      simp [written]
    rw [hwritten, Text.splitOn_append_cons hdirectories.1.2, ih hdirectories.2, List.cons_append]

/-- The path whose components begin with some directories. -/
theorem exists_eq_written_append
    {directories rest : List (List Char)}
    (h : Text.splitOn '/' cs = directories ++ rest)
    (hrest : rest ≠ []) :
    ∃ left, cs = written directories ++ left ∧ Text.splitOn '/' left = rest := by
  induction directories generalizing cs with
  | nil => exact ⟨cs, rfl, h⟩
  | cons name directories ih =>
    rcases Text.eq_of_splitOn_eq_cons h with ⟨-, hnil⟩ | ⟨left, rfl, hpieces⟩
    · exact absurd (List.append_eq_nil_iff.1 hnil).2 hrest
    · obtain ⟨left', rfl, hleft⟩ := ih hpieces.symm
      exact ⟨left', by simp [written], hleft⟩

/-- The components at the start of a path without empty ones are directories. -/
theorem directories_of_splitOn_eq_append
    {directories rest : List (List Char)}
    (hfilled : ∀ component ∈ Text.splitOn '/' cs, component ≠ [])
    (h : Text.splitOn '/' cs = directories ++ rest) :
    ∀ name ∈ directories, name ≠ [] ∧ '/' ∉ name := by
  intro name hname
  have hpiece : name ∈ Text.splitOn '/' cs := by
    rw [h]
    exact List.mem_append_left _ hname
  exact ⟨hfilled name hpiece, Text.not_mem_of_mem_splitOn hpiece⟩

/-- The steps of a glob describe a path if the components of this can be aligned with the segments. The
induction is on the segments of the glob. -/
theorem accepts_steps_iff
    (hpattern : ∀ segment ∈ Text.splitOn '/' pattern, IsSegment segment)
    (hline : '\n' ∉ cs)
    (hfilled : ∀ component ∈ Text.splitOn '/' cs, component ≠ []) :
    accepts (steps pattern) cs = true ↔
      Aligned (Text.splitOn '/' pattern) (Text.splitOn '/' cs) := by
  induction pattern using Text.splitOn_induction '/' generalizing cs with
  | last segment hslash =>
    rw [Text.splitOn_eq_singleton hslash, List.forall_mem_singleton] at hpattern
    rw [Text.splitOn_eq_singleton hslash]
    by_cases hany : segment = anyNumber
    · rw [hany, aligned_anyNumber_iff]
      refine iff_of_true ?_ (Text.splitOn_ne_nil cs)
      refine afterRun_iff.2 ⟨cs, [], by simp, fun c hc => ?_, rfl⟩
      rw [bne_iff_ne]
      exact fun hnewline => hline (hnewline ▸ hc)
    · have hsteps : steps (segment ++ []) = segment.map stepOf ++ steps [] :=
        steps_append (hpattern.resolve_left hany) (by simp)
      rw [List.append_nil] at hsteps
      rw [hsteps, accepts_append_iff hslash, aligned_singleton_iff hany]
      constructor
      · rintro ⟨component, rest, rfl, hcomponent, hfits, h⟩
        rw [List.mem_append, not_or] at hline
        obtain rfl := (accepts_nil_iff hline.2).1 h
        rw [List.append_nil, Text.splitOn_eq_singleton hcomponent]
        exact ⟨component, rfl, hfits⟩
      · rintro ⟨component, hpieces, hfits⟩
        have hcomponent : '/' ∉ component :=
          Text.not_mem_of_mem_splitOn (hpieces ▸ List.mem_singleton_self component)
        rcases Text.eq_of_splitOn_eq_cons hpieces with ⟨rfl, -⟩ | ⟨rest, -, hnil⟩
        · exact ⟨cs, [], by simp, hcomponent, hfits, rfl⟩
        · exact absurd hnil.symm (Text.splitOn_ne_nil rest)
  | next segment rest hslash ih =>
    rw [Text.splitOn_append_cons hslash, List.forall_mem_cons] at hpattern
    rw [Text.splitOn_append_cons hslash]
    have ih {cs : List Char} := @ih cs hpattern.2
    by_cases hany : segment = anyNumber
    · have hsteps : steps (segment ++ '/' :: rest) = .directories :: steps rest := by rw [hany]; rfl
      rw [hsteps, hany, accepts, afterDirectories_iff, aligned_anyNumber_cons_iff (Text.splitOn_ne_nil rest)]
      constructor
      · rintro ⟨directories, left, hdirectories, rfl, h⟩
        rw [splitOn_written hdirectories, List.forall_mem_append] at hfilled
        rw [List.mem_append, not_or] at hline
        rw [splitOn_written hdirectories]
        exact ⟨directories, _, rfl, (ih hline.2 hfilled.2).1 h⟩
      · rintro ⟨directories, components, hpieces, h⟩
        have hdirectories := directories_of_splitOn_eq_append hfilled hpieces
        obtain ⟨left, rfl, rfl⟩ := exists_eq_written_append hpieces (h.ne_nil (Text.splitOn_ne_nil rest))
        rw [hpieces, List.forall_mem_append] at hfilled
        rw [List.mem_append, not_or] at hline
        exact ⟨directories, left, hdirectories, rfl, (ih hline.2 hfilled.2).2 h⟩
    · rw [accepts_steps_slash_iff hslash (hpattern.1.resolve_left hany), aligned_cons_iff hany]
      constructor
      · rintro ⟨component, left, rfl, hcomponent, hfits, h⟩
        rw [Text.splitOn_append_cons hcomponent, List.forall_mem_cons] at hfilled
        rw [List.mem_append, List.mem_cons, not_or, not_or] at hline
        rw [Text.splitOn_append_cons hcomponent]
        exact ⟨component, _, rfl, hfits, (ih hline.2.2 hfilled.2).1 h⟩
      · rintro ⟨component, components, hpieces, hfits, h⟩
        have hcomponent : '/' ∉ component :=
          Text.not_mem_of_mem_splitOn (hpieces ▸ List.mem_cons_self ..)
        rcases Text.eq_of_splitOn_eq_cons hpieces with ⟨-, rfl⟩ | ⟨left, rfl, rfl⟩
        · exact absurd rfl (h.ne_nil (Text.splitOn_ne_nil rest))
        · rw [hpieces, List.forall_mem_cons] at hfilled
          rw [List.mem_append, List.mem_cons, not_or, not_or] at hline
          exact ⟨component, left, rfl, hcomponent, hfits, (ih hline.2.2 hfilled.2).2 h⟩

theorem newline_mem_forwardSlashes
    (h : '\n' ∈ forwardSlashes cs) :
    '\n' ∈ cs := by
  obtain ⟨c, hc, hnewline⟩ := List.mem_map.1 h
  split at hnewline
  · cases hnewline
  · exact hnewline ▸ hc

theorem expandChars_of_not_mem
    (h : '\x7b' ∉ cs) :
    expandChars cs = [cs] := by
  rw [expandChars, List.count_eq_zero.2 h, expandGroups]

/-- A glob without braces accepts a path exactly if the components of the path can be aligned with the
segments of the glob. -/
theorem accepts_ofPatterns_iff_aligned
    {pattern path : String}
    (hbraces : '\x7b' ∉ pattern.toList)
    (hsegments : ∀ segment ∈ segmentsOf pattern, IsSegment segment)
    (hline : '\n' ∉ path.toList)
    (hcomponents : ∀ component ∈ componentsOf path, component ≠ []) :
    (Matcher.ofPatterns [pattern]).accepts path = true ↔
      Aligned (segmentsOf pattern) (componentsOf path) := by
  have hexpanded : (Matcher.ofPatterns [pattern]).accepts path =
      accepts (stepsOf pattern.toList) (forwardSlashes path.toList) := by
    simp [Matcher.accepts, Matcher.ofPatterns, expandChars_of_not_mem hbraces]
  rw [hexpanded, stepsOf_eq]
  exact accepts_steps_iff hsegments (fun h => hline (newline_mem_forwardSlashes h)) hcomponents

/-- Any number of components may be none. -/
theorem aligned_withoutDirectories :
    ('\x7b' ∉ "./src/**/*.t?".toList ∧ (∀ segment ∈ segmentsOf "./src/**/*.t?", IsSegment segment) ∧
      '\n' ∉ "src\\a.ts".toList ∧ ∀ component ∈ componentsOf "src\\a.ts", component ≠ []) ∧
      (Matcher.ofPatterns ["./src/**/*.t?"]).accepts "src\\a.ts" = true ∧
      Aligned (segmentsOf "./src/**/*.t?") (componentsOf "src\\a.ts") := by
  have haccepts : (Matcher.ofPatterns ["./src/**/*.t?"]).accepts "src\\a.ts" = true := by decide
  have hbraces : '\x7b' ∉ "./src/**/*.t?".toList := by decide
  have hsegments : ∀ segment ∈ segmentsOf "./src/**/*.t?", IsSegment segment := by decide
  have hline : '\n' ∉ "src\\a.ts".toList := by decide
  have hcomponents : ∀ component ∈ componentsOf "src\\a.ts", component ≠ [] := by decide
  exact ⟨⟨hbraces, hsegments, hline, hcomponents⟩, haccepts,
    (accepts_ofPatterns_iff_aligned hbraces hsegments hline hcomponents).1 haccepts⟩

end Segments

end Glob

end RouteAtlas
