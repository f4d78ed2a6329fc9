import Mathlib
import RouteAtlas.Project.Config
import RouteAtlas.Proofs.GlobSegments

/-!
# Directories among globs

A glob without wildcards names a directory if its last component has no suffix, and is meant to stand for
all that lies below. But only what is written without a point in its last component is taken for a
directory: the directory itself and one with a name such as `.config` are not. A directory stands for what
lies below it if the text of the glob is plain, that is, if no component is empty or a point alone.
-/

namespace RouteAtlas

namespace Text

section Pieces

variable {sep : Char} {cs more piece : List Char}

theorem splitOn_append
    (cs more : List Char) :
    splitOn sep (cs ++ sep :: more) = splitOn sep cs ++ splitOn sep more := by
  induction cs using splitOn_induction sep with
  | last piece hpiece => rw [splitOn_append_cons hpiece, splitOn_eq_singleton hpiece, List.singleton_append]
  | next piece rest hpiece ih =>
    rw [List.append_assoc, List.cons_append, splitOn_append_cons hpiece, splitOn_append_cons hpiece, ih,
      List.cons_append]

theorem mem_of_mem_splitOn
    (hpiece : piece ∈ splitOn sep cs)
    {c : Char}
    (hc : c ∈ piece) :
    c ∈ cs := by
  induction cs using splitOn_induction sep with
  | last piece' hsep =>
    rw [splitOn_eq_singleton hsep, List.mem_singleton] at hpiece
    exact hpiece ▸ hc
  | next piece' rest hsep ih =>
    rw [splitOn_append_cons hsep] at hpiece
    rcases List.mem_cons.1 hpiece with rfl | hpiece
    · exact List.mem_append_left _ hc
    · exact List.mem_append_right _ (List.mem_cons_of_mem _ (ih hpiece))

end Pieces

end Text

namespace Glob

section Names

/-- A glob without wildcards and braces. -/
def IsLiteral (entry : String) : Prop :=
  ∀ c ∈ entry.toList, c ≠ '*' ∧ c ≠ '?' ∧ c ≠ '\x7b' ∧ c ≠ '\x7d'

instance : DecidablePred IsLiteral :=
  fun entry => List.decidableBAll (fun c => c ≠ '*' ∧ c ≠ '?' ∧ c ≠ '\x7b' ∧ c ≠ '\x7d') entry.toList

/-- A component that is a name: neither empty nor the point of the directory itself. -/
def IsName (component : List Char) : Prop :=
  component ≠ [] ∧ component ≠ ['.']

instance : DecidablePred IsName :=
  fun component => inferInstanceAs (Decidable (component ≠ [] ∧ component ≠ ['.']))

/-- The names on the way to the directory that a glob without wildcards names. -/
def namesOf (entry : String) : List (List Char) :=
  (componentsOf entry).filter IsName

/-- A glob that starts at the root of all paths. -/
def IsRooted (entry : String) : Prop :=
  (forwardSlashes entry.toList).head? = some '/'

/-- The suffix of the last name. -/
def suffixOf (entry : String) : String :=
  (Files.Path.cutName (String.ofList ((namesOf entry).getLastD []))).2

/-- A relative path lies strictly below the directory that a glob without wildcards names. -/
def LiesBelow (entry path : String) : Prop :=
  ¬ IsRooted entry ∧ ∃ rest, rest ≠ [] ∧ componentsOf path = namesOf entry ++ rest

/-- A glob without the slashes at its end. -/
def trimmed (entry : String) : List Char :=
  Text.dropLastWhile (· = '/') entry.toList

/-- The last component of a glob, as it is looked at to tell a directory. -/
def lastOf (entry : String) : List Char :=
  (Text.splitOn '/' (trimmed entry)).getLastD []

/-- The components that a glob is matched by, without the slashes at its end. -/
def matchedBy (entry : String) : List (List Char) :=
  Text.splitOn '/' (withoutPoint (forwardSlashes (trimmed entry)))

/-- A glob that stands for all that lies below the directory that it names. -/
structure IsPlainDirectory (entry : String) : Prop where
  pointless : '.' ∉ lastOf entry
  named : ∀ component ∈ matchedBy entry, IsName component

variable {entry : String} {cs : List Char}

theorem filter_splitOn_withoutPoint (cs : List Char) :
    (Text.splitOn '/' (withoutPoint cs)).filter IsName = (Text.splitOn '/' cs).filter IsName := by
  unfold withoutPoint
  split
  · next rest =>
    have hpoint : Text.splitOn '/' ('.' :: '/' :: rest) = ['.'] :: Text.splitOn '/' rest :=
      Text.splitOn_append_cons (by decide : '/' ∉ ['.']) rest
    rw [hpoint, List.filter_cons_of_neg (by decide)]
  · rfl

/-- Slashes at the end add no name. -/
theorem filter_splitOn_append_of_slashes
    {slashes : List Char}
    (h : ∀ c ∈ slashes, c = '/') :
    (Text.splitOn '/' (cs ++ slashes)).filter IsName = (Text.splitOn '/' cs).filter IsName := by
  cases slashes with
  | nil => rw [List.append_nil]
  | cons c slashes =>
    rw [List.forall_mem_cons] at h
    obtain ⟨rfl, h⟩ := h
    have hempty : (Text.splitOn '/' slashes).filter IsName = [] := by
      rw [List.filter_eq_nil_iff]
      intro piece hpiece hname
      obtain ⟨c, hc⟩ := List.exists_mem_of_ne_nil _ (of_decide_eq_true hname).1
      have hslash := h c (Text.mem_of_mem_splitOn hpiece hc)
      exact Text.not_mem_of_mem_splitOn hpiece (hslash ▸ hc)
    rw [Text.splitOn_append, List.filter_append, hempty, List.append_nil]

theorem exists_eq_trimmed_append (entry : String) :
    ∃ slashes, entry.toList = trimmed entry ++ slashes ∧ ∀ c ∈ slashes, c = '/' := by
  refine ⟨entry.toList.rtakeWhile (· = '/'), List.rdropWhile_append_rtakeWhile.symm, fun c hc => ?_⟩
  simpa using List.mem_rtakeWhile_imp hc

theorem forwardSlashes_append (cs more : List Char) :
    forwardSlashes (cs ++ more) = forwardSlashes cs ++ forwardSlashes more :=
  List.map_append ..

theorem forwardSlashes_eq_self
    (h : '\\' ∉ cs) :
    forwardSlashes cs = cs := by
  unfold forwardSlashes
  conv_rhs => rw [← List.map_id cs]
  refine List.map_congr_left fun c hc => if_neg ?_
  exact fun hslash => h (hslash ▸ hc)

/-- The names of a glob are among the components that it is matched by. -/
theorem namesOf_eq (entry : String) : namesOf entry = (matchedBy entry).filter IsName := by
  obtain ⟨slashes, hentry, hslashes⟩ := exists_eq_trimmed_append entry
  have hkept : forwardSlashes slashes = slashes :=
    forwardSlashes_eq_self fun hmem => absurd (hslashes _ hmem) (by decide)
  have hforward : forwardSlashes entry.toList = forwardSlashes (trimmed entry) ++ slashes := by
    rw [hentry, forwardSlashes_append, hkept]
  rw [namesOf, componentsOf, hforward, filter_splitOn_append_of_slashes hslashes, matchedBy,
    filter_splitOn_withoutPoint]

theorem withoutPoint_eq_self
    (h : ∀ rest, cs ≠ '.' :: '/' :: rest) :
    withoutPoint cs = cs := by
  rw [withoutPoint]
  exact h

/-- A glob that starts at the root is matched by a text that does, if it is more than slashes. -/
theorem exists_eq_slash_cons_of_isRooted
    (h : IsRooted entry)
    (htrimmed : trimmed entry ≠ []) :
    ∃ rest, withoutPoint (forwardSlashes (trimmed entry)) = '/' :: rest := by
  obtain ⟨slashes, hentry, -⟩ := exists_eq_trimmed_append entry
  rw [IsRooted, hentry, forwardSlashes_append] at h
  cases hforward : forwardSlashes (trimmed entry) with
  | nil => exact absurd (List.map_eq_nil_iff.1 hforward) htrimmed
  | cons c cs =>
    obtain rfl : c = '/' := by simpa [hforward] using h
    exact ⟨cs, withoutPoint_eq_self (by simp)⟩

/-- A glob that starts at the root is matched by an empty component first. -/
theorem exists_matchedBy_of_isRooted
    (h : IsRooted entry) :
    ∃ components, matchedBy entry = [] :: components := by
  by_cases htrimmed : trimmed entry = []
  · exact ⟨[], by rw [matchedBy, htrimmed]; rfl⟩
  · obtain ⟨rest, hrest⟩ := exists_eq_slash_cons_of_isRooted h htrimmed
    exact ⟨_, by rw [matchedBy, hrest, Text.splitOn, if_pos rfl]⟩

/-- A name holds no slash and no backslash. -/
theorem not_mem_of_mem_namesOf
    {name : List Char}
    (h : name ∈ namesOf entry) :
    name ≠ [] ∧ '/' ∉ name ∧ '\\' ∉ name := by
  obtain ⟨hpiece, hname⟩ := List.mem_filter.1 h
  refine ⟨(of_decide_eq_true hname).1, Text.not_mem_of_mem_splitOn hpiece, fun hmem => ?_⟩
  obtain ⟨c, -, hc⟩ := List.mem_map.1 (Text.mem_of_mem_splitOn hpiece hmem)
  split at hc
  · cases hc
  · next hne => exact hne hc

end Names

section Below

variable {entry path : String} {cs text segment : List Char}

theorem fits_iff_eq
    (h : ∀ c ∈ segment, c ≠ '*' ∧ c ≠ '?') :
    Fits segment cs ↔ cs = segment := by
  induction segment generalizing cs with
  | nil =>
    constructor
    · rintro ⟨⟩
      rfl
    · rintro rfl
      exact .nil
  | cons c segment ih =>
    rw [List.forall_mem_cons] at h
    rw [fits_cons_iff h.1.1 h.1.2]
    simp only [ih h.2]
    constructor
    · rintro ⟨rest, rfl, rfl⟩
      rfl
    · rintro rfl
      exact ⟨segment, rfl, rfl⟩

theorem anyNumber_not_isInfix
    (h : ∀ c ∈ segment, c ≠ '*' ∧ c ≠ '?') :
    ¬ anyNumber <:+: segment := by
  intro hinfix
  have hstar : '*' ∈ segment := hinfix.subset (List.mem_cons_self ..)
  exact (h _ hstar).1 rfl

/-- A text without wildcards stands for itself, a line break at the end aside. -/
theorem accepts_steps_literal_iff
    (h : ∀ c ∈ text, c ≠ '*' ∧ c ≠ '?') :
    accepts (steps text) cs = true ↔ cs = text ∨ cs = text ++ ['\n'] := by
  induction text generalizing cs with
  | nil => simp [steps, accepts]
  | cons c text ih =>
    rw [List.forall_mem_cons] at h
    rw [steps_cons (fun hstar => absurd hstar h.1.1), stepOf, if_neg h.1.1, if_neg h.1.2]
    cases cs with
    | nil => simp [accepts]
    | cons d cs =>
      rw [accepts, Bool.and_eq_true, decide_eq_true_iff, ih h.2]
      simp [and_or_left]

/-- Any number of directories and then one name describe every path with filled components. -/
theorem accepts_anyBelow
    (hfilled : ∀ component ∈ Text.splitOn '/' cs, component ≠ []) :
    accepts (steps ['*', '*', '/', '*']) cs = true := by
  have hlast : Text.splitOn '/' cs = _ := (List.dropLast_append_getLast (Text.splitOn_ne_nil cs)).symm
  generalize (Text.splitOn '/' cs).dropLast = directories at hlast
  have hdirectories := directories_of_splitOn_eq_append hfilled hlast
  obtain ⟨left, rfl, hleft⟩ := exists_eq_written_append hlast (by simp)
  have hslash : '/' ∉ left := by
    rcases Text.eq_of_splitOn_eq_cons hleft with ⟨hlast, -⟩ | ⟨rest, -, hnil⟩
    · rw [hlast]
      exact Text.not_mem_of_mem_splitOn (hleft ▸ List.mem_singleton_self _)
    · exact absurd hnil.symm (Text.splitOn_ne_nil rest)
  refine afterDirectories_iff.2 ⟨directories, left, hdirectories, rfl, ?_⟩
  refine afterRun_iff.2 ⟨left, [], by simp, fun c hc => ?_, rfl⟩
  rw [bne_iff_ne]
  exact fun hc' => hslash (hc' ▸ hc)

/-- A text without wildcards and what stands for all below it describe the paths that start with the
components of the text and go on. -/
theorem accepts_steps_below_iff
    (h : ∀ c ∈ text, c ≠ '*' ∧ c ≠ '?')
    (hfilled : ∀ component ∈ Text.splitOn '/' cs, component ≠ []) :
    accepts (steps (text ++ ['/', '*', '*', '/', '*'])) cs = true ↔
      ∃ rest, rest ≠ [] ∧ Text.splitOn '/' cs = Text.splitOn '/' text ++ rest := by
  induction text using Text.splitOn_induction '/' generalizing cs with
  | last segment hslash =>
    rw [accepts_steps_slash_iff hslash (anyNumber_not_isInfix h), Text.splitOn_eq_singleton hslash]
    simp only [fits_iff_eq h]
    constructor
    · rintro ⟨_, left, rfl, -, rfl, -⟩
      exact ⟨_, Text.splitOn_ne_nil left, Text.splitOn_append_cons hslash left⟩
    · rintro ⟨rest, hrest, hpieces⟩
      rcases Text.eq_of_splitOn_eq_cons hpieces with ⟨-, hnil⟩ | ⟨left, rfl, rfl⟩
      · exact absurd hnil hrest
      · rw [hpieces, List.singleton_append, List.forall_mem_cons] at hfilled
        exact ⟨segment, left, rfl, hslash, rfl, accepts_anyBelow hfilled.2⟩
  | next segment text hslash ih =>
    rw [List.forall_mem_append, List.forall_mem_cons] at h
    rw [List.append_assoc, List.cons_append, accepts_steps_slash_iff hslash (anyNumber_not_isInfix h.1),
      Text.splitOn_append_cons hslash]
    simp only [fits_iff_eq h.1, List.cons_append]
    constructor
    · rintro ⟨_, left, rfl, -, rfl, hleft⟩
      rw [Text.splitOn_append_cons hslash, List.forall_mem_cons] at hfilled
      obtain ⟨rest, hrest, hpieces⟩ := (ih h.2.2 hfilled.2).1 hleft
      exact ⟨rest, hrest, by rw [Text.splitOn_append_cons hslash, hpieces]⟩
    · rintro ⟨rest, hrest, hpieces⟩
      rcases Text.eq_of_splitOn_eq_cons hpieces with ⟨-, hnil⟩ | ⟨left, rfl, hleft⟩
      · exact absurd (List.append_eq_nil_iff.1 hnil).2 hrest
      · rw [hpieces, List.forall_mem_cons, hleft] at hfilled
        exact ⟨segment, left, rfl, hslash, rfl, (ih h.2.2 hfilled.2).2 ⟨rest, hrest, hleft.symm⟩⟩

end Below

section Entries

variable {entry path : String} {cs : List Char}

theorem IsLiteral.of_mem_trimmed
    (h : IsLiteral entry)
    {c : Char}
    (hc : c ∈ trimmed entry) :
    c ≠ '*' ∧ c ≠ '?' ∧ c ≠ '\x7b' ∧ c ≠ '\x7d' := by
  obtain ⟨slashes, hentry, -⟩ := exists_eq_trimmed_append entry
  exact h c (hentry ▸ List.mem_append_left _ hc)

theorem mem_trimmed_of_mem_lastOf
    {c : Char}
    (hc : c ∈ lastOf entry) :
    c ∈ trimmed entry := by
  have hlast : lastOf entry ∈ Text.splitOn '/' (trimmed entry) := by
    rw [lastOf, List.getLastD_eq_getLast?, List.getLast?_eq_some_getLast (Text.splitOn_ne_nil _)]
    exact List.getLast_mem _
  exact Text.mem_of_mem_splitOn hlast hc

/-- Whether a glob without wildcards is taken for a directory is told by the points in its last component. -/
theorem toList_asDirectory
    (h : IsLiteral entry) :
    (asDirectory entry).toList =
      if '.' ∈ lastOf entry then trimmed entry else trimmed entry ++ ['/', '*', '*', '/', '*'] := by
  have hany : ((lastOf entry).any fun c => c = '*' || c = '?' || c = '.') = decide ('.' ∈ lastOf entry) := by
    rw [Bool.eq_iff_iff, List.any_eq_true, decide_eq_true_iff]
    constructor
    · rintro ⟨c, hc, hspecial⟩
      obtain ⟨hstar, hone, -⟩ := h.of_mem_trimmed (mem_trimmed_of_mem_lastOf hc)
      have hpoint : c = '.' := by simpa [hstar, hone] using hspecial
      exact hpoint ▸ hc
    · exact fun hpoint => ⟨'.', hpoint, rfl⟩
  have hunfolded : asDirectory entry = if (lastOf entry).any fun c => c = '*' || c = '?' || c = '.' then
      String.ofList (trimmed entry) else String.ofList (trimmed entry) ++ "/**/*" := rfl
  rw [hunfolded, hany]
  by_cases hpoint : '.' ∈ lastOf entry
  · simp [hpoint]
  · simp [hpoint]

theorem accepts_asDirectory
    (h : IsLiteral entry) :
    (Matcher.ofPatterns [asDirectory entry]).accepts path =
      accepts (stepsOf (asDirectory entry).toList) (forwardSlashes path.toList) := by
  have hbraces : '\x7b' ∉ (asDirectory entry).toList := by
    rw [toList_asDirectory h]
    split
    · exact fun hmem => (h.of_mem_trimmed hmem).2.2.1 rfl
    · rw [List.mem_append, not_or]
      exact ⟨fun hmem => (h.of_mem_trimmed hmem).2.2.1 rfl, by decide⟩
  simp [Matcher.accepts, Matcher.ofPatterns, expandChars_of_not_mem hbraces]

theorem ne_of_mem_withoutPoint
    (h : IsLiteral entry) :
    ∀ c ∈ withoutPoint (forwardSlashes (trimmed entry)), c ≠ '*' ∧ c ≠ '?' := by
  have hforward : ∀ c ∈ forwardSlashes (trimmed entry), c ≠ '*' ∧ c ≠ '?' := by
    intro c hc
    obtain ⟨d, hd, rfl⟩ := List.mem_map.1 hc
    split
    · exact ⟨by decide, by decide⟩
    · exact ⟨(h.of_mem_trimmed hd).1, (h.of_mem_trimmed hd).2.1⟩
  intro c hc
  unfold withoutPoint at hc
  split at hc
  · next hcs =>
    refine hforward c ?_
    rw [hcs]
    exact List.mem_cons_of_mem _ (List.mem_cons_of_mem _ hc)
  · exact hforward c hc

theorem withoutPoint_append
    (h : cs ≠ ['.'])
    (more : List Char) :
    withoutPoint (cs ++ '/' :: more) = withoutPoint cs ++ '/' :: more := by
  by_cases hcs : ∃ rest, cs = '.' :: '/' :: rest
  · obtain ⟨rest, rfl⟩ := hcs
    rfl
  · rw [not_exists] at hcs
    rw [withoutPoint_eq_self hcs, withoutPoint_eq_self]
    intro rest hrest
    cases cs with
    | nil => simp at hrest
    | cons c cs =>
      cases cs with
      | nil => exact h (by rw [(List.cons.inj hrest).1])
      | cons d cs =>
        obtain ⟨hc, hrest⟩ := List.cons.inj hrest
        exact hcs cs (by rw [hc, (List.cons.inj hrest).1])

/-- A glob that is not taken for a directory stands for its own text, a line break at the end aside. -/
theorem accepts_asDirectory_of_mem
    (h : IsLiteral entry)
    (hpoint : '.' ∈ lastOf entry) :
    (Matcher.ofPatterns [asDirectory entry]).accepts path = true ↔
      forwardSlashes path.toList = withoutPoint (forwardSlashes (trimmed entry)) ∨
        forwardSlashes path.toList = withoutPoint (forwardSlashes (trimmed entry)) ++ ['\n'] := by
  rw [accepts_asDirectory h, toList_asDirectory h, if_pos hpoint, stepsOf_eq,
    accepts_steps_literal_iff (ne_of_mem_withoutPoint h)]

/-- A glob that is taken for a directory stands for what lies below the components that it is matched by. -/
theorem accepts_asDirectory_of_not_mem
    (h : IsLiteral entry)
    (hpoint : '.' ∉ lastOf entry)
    (hfilled : ∀ component ∈ componentsOf path, component ≠ []) :
    (Matcher.ofPatterns [asDirectory entry]).accepts path = true ↔
      ∃ rest, rest ≠ [] ∧ componentsOf path = matchedBy entry ++ rest := by
  have hne : forwardSlashes (trimmed entry) ≠ ['.'] := by
    intro hforward
    obtain ⟨c, htrimmed, hc⟩ := List.map_eq_singleton_iff.1 hforward
    obtain rfl : c = '.' := by
      split at hc
      · cases hc
      · exact hc
    refine hpoint ?_
    rw [lastOf, htrimmed]
    decide
  have hkept : forwardSlashes ['/', '*', '*', '/', '*'] = ['/', '*', '*', '/', '*'] := rfl
  rw [accepts_asDirectory h, toList_asDirectory h, if_neg hpoint, stepsOf_eq, forwardSlashes_append, hkept,
    withoutPoint_append hne, accepts_steps_below_iff (ne_of_mem_withoutPoint h) hfilled]
  rfl

/-- There are paths of any length right below a directory. -/
theorem exists_path_below
    (entry : String)
    (n : Nat) :
    ∃ (path : String) (name : List Char), '\\' ∉ path.toList ∧ n < path.toList.length ∧ name ≠ [] ∧
      componentsOf path = namesOf entry ++ [name] := by
  have hback : '\\' ∉ written (namesOf entry) ++ List.replicate (n + 1) 'a' := by
    rw [List.mem_append, not_or]
    refine ⟨fun hmem => ?_, by simp⟩
    obtain ⟨name, hname, hmem⟩ := List.mem_flatMap.1 hmem
    rcases List.mem_append.1 hmem with hmem | hmem
    · exact (not_mem_of_mem_namesOf hname).2.2 hmem
    · exact absurd hmem (by decide)
  have hnames : ∀ name ∈ namesOf entry, name ≠ [] ∧ '/' ∉ name := by
    intro name hname
    exact ⟨(not_mem_of_mem_namesOf hname).1, (not_mem_of_mem_namesOf hname).2.1⟩
  refine ⟨String.ofList (written (namesOf entry) ++ List.replicate (n + 1) 'a'),
    List.replicate (n + 1) 'a', ?_, ?_, by simp, ?_⟩
  · rwa [String.toList_ofList]
  · rw [String.toList_ofList, List.length_append, List.length_replicate]
    omega
  · rw [componentsOf, String.toList_ofList, forwardSlashes_eq_self hback, splitOn_written hnames,
      Text.splitOn_eq_singleton (by simp)]

/-- Not all that lies below a directory is found by a glob that is not plain. -/
theorem exists_liesBelow_of_not_isPlainDirectory
    (h : IsLiteral entry)
    (hrooted : ¬ IsRooted entry)
    (hplain : ¬ IsPlainDirectory entry) :
    ∃ path : String, '\\' ∉ path.toList ∧ (∀ component ∈ componentsOf path, component ≠ []) ∧
      LiesBelow entry path ∧ (Matcher.ofPatterns [asDirectory entry]).accepts path = false := by
  obtain ⟨path, name, hback, hlength, hname, hcomponents⟩ :=
    exists_path_below entry ((withoutPoint (forwardSlashes (trimmed entry))).length + 1)
  have hfilled : ∀ component ∈ componentsOf path, component ≠ [] := by
    rw [hcomponents, List.forall_mem_append, List.forall_mem_singleton]
    exact ⟨fun other hother => (not_mem_of_mem_namesOf hother).1, hname⟩
  refine ⟨path, hback, hfilled, ⟨hrooted, [name], by simp, hcomponents⟩, ?_⟩
  rw [← Bool.not_eq_true]
  intro haccepts
  by_cases hpoint : '.' ∈ lastOf entry
  · -- the path is longer than the text of the glob
    rw [accepts_asDirectory_of_mem h hpoint, forwardSlashes_eq_self hback] at haccepts
    rcases haccepts with htext | htext
    · rw [htext] at hlength
      omega
    · rw [htext, List.length_append, List.length_singleton] at hlength
      omega
  · -- the path has no more components than the glob has names
    rw [accepts_asDirectory_of_not_mem h hpoint hfilled, hcomponents] at haccepts
    obtain ⟨rest, hrest, hpieces⟩ := haccepts
    have hlengths := congrArg List.length hpieces
    have hrest := List.length_pos_iff.2 hrest
    rw [List.length_append, List.length_append, List.length_singleton] at hlengths
    have hkept : (matchedBy entry).length ≤ ((matchedBy entry).filter IsName).length := by
      rw [← namesOf_eq]
      omega
    refine hplain ⟨hpoint, fun component hcomponent => ?_⟩
    rw [← List.filter_sublist.eq_of_length_le hkept] at hcomponent
    exact of_decide_eq_true (List.mem_filter.1 hcomponent).2

/-- A glob that starts at the root accepts no relative path. -/
theorem not_accepts_of_isRooted
    (h : IsLiteral entry)
    (hrooted : IsRooted entry)
    (hfilled : ∀ component ∈ componentsOf path, component ≠ []) :
    (Matcher.ofPatterns [asDirectory entry]).accepts path = false := by
  rw [← Bool.not_eq_true]
  intro haccepts
  by_cases hpoint : '.' ∈ lastOf entry
  · obtain ⟨rest, hrest⟩ := exists_eq_slash_cons_of_isRooted hrooted
      (List.ne_nil_of_mem (mem_trimmed_of_mem_lastOf hpoint))
    rw [accepts_asDirectory_of_mem h hpoint, hrest] at haccepts
    obtain ⟨more, hmore⟩ : ∃ more, forwardSlashes path.toList = '/' :: more := by
      rcases haccepts with haccepts | haccepts
      · exact ⟨_, haccepts⟩
      · exact ⟨_, haccepts⟩
    rw [componentsOf, hmore, Text.splitOn, if_pos rfl] at hfilled
    exact hfilled [] (List.mem_cons_self ..) rfl
  · obtain ⟨rest, -, hpieces⟩ := (accepts_asDirectory_of_not_mem h hpoint hfilled).1 haccepts
    obtain ⟨components, hmatched⟩ := exists_matchedBy_of_isRooted hrooted
    rw [hmatched] at hpieces
    rw [hpieces] at hfilled
    exact hfilled [] (List.mem_cons_self ..) rfl

end Entries

end Glob

namespace Project

section Including

/-- A configuration that is to include a directory includes what lies strictly below it, among the paths
without backslashes and empty components. -/
def Config.IncludesBelow
    (c : Config)
    (entry : String) :
    Prop :=
  ∃ globs, c.includeGlobs = .ok globs ∧ ∀ path : String, '\\' ∉ path.toList →
    (∀ component ∈ Glob.componentsOf path, component ≠ []) →
      ((Glob.Matcher.ofPatterns globs).accepts path = true ↔ Glob.LiesBelow entry path)

variable {c : Config} {entry : String}

/-- An entry without wildcards stands for what lies strictly below the directory that it names exactly if
it is plain. One that starts at the root stands for nothing, and no relative path lies below. -/
theorem includesBelow_iff
    (hc : c.include_ = .list [.str entry])
    (hentry : Glob.IsLiteral entry) :
    c.IncludesBelow entry ↔ Glob.IsRooted entry ∨ Glob.IsPlainDirectory entry := by
  have hglobs : c.includeGlobs = .ok [Glob.asDirectory entry] := by
    unfold Config.includeGlobs
    rw [hc]
    rfl
  unfold Config.IncludesBelow
  simp only [hglobs, Except.ok.injEq, exists_eq_left']
  constructor
  · intro h
    by_contra hnot
    rw [not_or] at hnot
    obtain ⟨path, hback, hfilled, hbelow, haccepts⟩ :=
      Glob.exists_liesBelow_of_not_isPlainDirectory hentry hnot.1 hnot.2
    rw [(h path hback hfilled).2 hbelow] at haccepts
    cases haccepts
  · rintro (hrooted | hplain) path - hfilled
    · rw [Glob.not_accepts_of_isRooted hentry hrooted hfilled]
      exact ⟨fun h => (nomatch h), fun h => absurd hrooted h.1⟩
    · have hnames : Glob.namesOf entry = Glob.matchedBy entry := by
        rw [Glob.namesOf_eq, List.filter_eq_self]
        exact fun component hcomponent => decide_eq_true (hplain.named component hcomponent)
      have hrooted : ¬ Glob.IsRooted entry := by
        intro hrooted
        obtain ⟨components, hmatched⟩ := Glob.exists_matchedBy_of_isRooted hrooted
        exact (hplain.named [] (hmatched ▸ List.mem_cons_self ..)).1 rfl
      rw [Glob.accepts_asDirectory_of_not_mem hentry hplain.pointless hfilled, Glob.LiesBelow, hnames]
      exact (and_iff_right hrooted).symm

/-- The settings of a project that is to include one entry. -/
def including (entry : String) : Config :=
  { Config.empty ⟨true, ["tsconfig.json"]⟩ with include_ := .list [.str entry] }

/-- A point and slashes around the name of a directory do not matter. -/
theorem includesBelow_sources :
    ((including "./src/lib/").include_ = .list [.str "./src/lib/"] ∧ Glob.IsLiteral "./src/lib/") ∧
      (including "./src/lib/").IncludesBelow "./src/lib/" := by
  have hentry : Glob.IsLiteral "./src/lib/" := by decide
  exact ⟨⟨rfl, hentry⟩, (includesBelow_iff rfl hentry).2 (.inr ⟨by decide, by decide⟩)⟩

/-- Nothing is included from the directory of the configuration if that is named by a point. -/
theorem not_includesBelow_point :
    ¬ ∀ (c : Config) (entry : String), c.include_ = .list [.str entry] → Glob.IsLiteral entry →
      Glob.suffixOf entry = "" → c.IncludesBelow entry := by
  intro h
  have hentry : Glob.IsLiteral "." := by decide
  obtain ⟨globs, hglobs, hbelow⟩ := h (including ".") "." rfl hentry (by decide)
  obtain rfl : ["."] = globs := Except.ok.inj hglobs
  have haccepts := (hbelow "a.ts" (by decide) (by decide)).2 ⟨by unfold Glob.IsRooted; decide, [_], by simp, rfl⟩
  revert haccepts
  decide

end Including

end Project

end RouteAtlas
