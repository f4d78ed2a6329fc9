import Mathlib
import RouteAtlas.Proofs.DynamicSegments
import RouteAtlas.Proofs.LetterCase
import RouteAtlas.Proofs.PathForms
import RouteAtlas.Router.Name

/-!
# Canonical names made twice

A name is made canonical by dropping its decoration and joining its words in camel case. What the words are
joined to holds no separator before a word or at its ends, and its first letter is put in lower case once and
for all. So of all that is done to a name only two things can still happen to a canonical one: a verb is
dropped from its start, where the joined words put it before a capital, and the word router is dropped from
its end. A name is made canonical for good exactly if neither is left.
-/

namespace RouteAtlas

namespace Router

section Separators

variable {c d : Char}

/-- What letter case does to separators and words within ASCII. -/
theorem ascii_spec :
    ∀ n < 128,
      (Text.foldCase (Char.ofNat n) = '.' → isSeparator (Char.ofNat n) = true) ∧
      (Text.foldCase (Char.ofNat n) = 'r' ∨ Text.foldCase (Char.ofNat n) = 't' →
        Text.isWord (Char.ofNat n) = true ∧ isSeparator (Char.ofNat n) = false) ∧
      (isSeparator (Char.ofNat n) = false →
        isSeparator (Char.ofNat n).toLower = false ∧ isSeparator (Char.ofNat n).toUpper = false) := by
  decide

theorem upperExpansions_spec : ∀ e ∈ Text.upperExpansions, ∀ n ∈ e.2, isSeparator (Char.ofNat n) = false := by
  decide

theorem ascii_of_foldCase
    (hd : d.toNat < 128)
    (hother : d ∉ ['i', 'k', 's'])
    (h : Text.foldCase c = d) :
    c.toNat < 128 := by
  by_contra hc
  rcases Text.foldCase_of_not_ascii (Nat.le_of_not_lt hc) with hfold | hfold
  · exact hother (h ▸ hfold)
  · rw [h] at hfold
    omega

theorem isSeparator_of_foldCase_point (h : Text.foldCase c = '.') : isSeparator c = true := by
  have hascii := ascii_of_foldCase (by decide) (by decide) h
  simpa [h] using (ascii_spec c.toNat hascii).1

/-- Letters that start one of the words router and trpc, whatever their case. -/
theorem isWord_of_foldCase
    (hd : d = 'r' ∨ d = 't')
    (h : Text.foldCase c = d) :
    Text.isWord c = true ∧ isSeparator c = false := by
  have hascii : c.toNat < 128 := by
    rcases hd with rfl | rfl <;> exact ascii_of_foldCase (by decide) (by decide) h
  simpa [h, hd] using (ascii_spec c.toNat hascii).2.1

theorem isSeparator_of_isUpper (hc : c.isUpper = true) : isSeparator c = false := by
  by_contra h
  simp only [isSeparator, Bool.not_eq_false, Bool.or_eq_true, decide_eq_true_eq] at h
  rcases h with (rfl | rfl) | rfl <;> exact absurd hc (by decide)

theorem isSeparator_eq_false_of_toNat (h : 95 < c.toNat ∨ 46 < c.toNat ∧ c.toNat < 95) :
    isSeparator c = false := by
  by_contra hsep
  simp only [isSeparator, Bool.not_eq_false, Bool.or_eq_true, decide_eq_true_eq] at hsep
  rcases hsep with (rfl | rfl) | rfl <;> exact absurd h (by decide)

theorem isSeparator_of_mem_lowerChar
    (hc : isSeparator c = false)
    (hd : d ∈ Text.lowerChar c) :
    isSeparator d = false := by
  by_cases hascii : c.toNat < 128
  · rw [Text.lowerChar_of_ascii hascii, List.mem_singleton] at hd
    have := (ascii_spec c.toNat hascii).2.2
    rw [Char.ofNat_toNat] at this
    exact hd ▸ (this hc).1
  · rcases Text.lowerChar_cases (Nat.le_of_not_lt hascii) with h | h | ⟨r, hr, e, h, he⟩
    · rw [h, List.mem_pair] at hd
      rcases hd with rfl | rfl <;> rfl
    · rw [h, List.mem_singleton] at hd
      rw [hd, hc]
    · rw [h, List.mem_singleton] at hd
      rw [hd]
      rcases Text.eq_or_of_image hr he with rfl | hbeyond
      · rfl
      · exact isSeparator_eq_false_of_toNat (.inl (by omega))

/-- The upper case of what is no separator holds no separator. -/
theorem isSeparator_of_mem_upperChar
    (hc : isSeparator c = false)
    (hd : d ∈ Text.upperChar c) :
    isSeparator d = false := by
  unfold Text.upperChar at hd
  split at hd
  · next hascii =>
    rw [List.mem_singleton] at hd
    have := (ascii_spec c.toNat hascii).2.2
    rw [Char.ofNat_toNat] at this
    exact hd ▸ (this hc).2
  · split at hd
    · next e hfind =>
      obtain ⟨n, hn, rfl⟩ := List.mem_map.1 hd
      exact upperExpansions_spec e (List.mem_of_find?_eq_some hfind) n hn
    · rw [List.mem_singleton] at hd
      rw [hd]
      cases hfind : Text.upperRuns.findSome? fun r => r.apply? c.toNat with
      | none => exact hc
      | some e =>
        obtain ⟨r, hr, he⟩ := List.exists_of_findSome?_eq_some hfind
        obtain ⟨-, -, hlow, hhigh⟩ := (Text.upperRuns_spec r hr).1.of_image he
        refine isSeparator_eq_false_of_toNat ?_
        show 95 < e.toNat ∨ 46 < e.toNat ∧ e.toNat < 95
        rcases (Text.upperRuns_spec r hr).2 with h | h <;> omega

end Separators

section Words

/-- A text in which separators stand only before what is no part of a word, and as they are left there. The
first argument is the run of separators that has just been read. -/
def Joined : List Char → List Char → Prop
  | run, [] => run = []
  | run, c :: rest =>
    if isSeparator c = true then Joined (run ++ [c]) rest
    else (run ≠ [] → Text.isWord c = false ∧ loneSeparators run = run) ∧ Joined [] rest

variable {c s : Char} {run cs front back : List Char}

theorem joined_cons_of_isSeparator (hs : isSeparator s = true) :
    Joined run (s :: cs) ↔ Joined (run ++ [s]) cs := by
  rw [Joined, if_pos hs]

theorem joined_cons_of_not (hc : isSeparator c = false) :
    Joined run (c :: cs) ↔
      (run ≠ [] → Text.isWord c = false ∧ loneSeparators run = run) ∧ Joined [] cs := by
  rw [Joined, if_neg (by simp [hc])]

theorem joined_separators_append (hback : ∀ s ∈ back, isSeparator s = true) :
    Joined run (back ++ cs) ↔ Joined (run ++ back) cs := by
  induction back generalizing run with
  | nil => simp
  | cons s back ih =>
    rw [List.forall_mem_cons] at hback
    rw [List.cons_append, joined_cons_of_isSeparator hback.1, ih hback.2, List.append_assoc,
      List.singleton_append]

theorem joined_append_of_forall (hfront : ∀ c ∈ front, isSeparator c = false) :
    Joined [] (front ++ back) ↔ Joined [] back := by
  induction front with
  | nil => rfl
  | cons c front ih =>
    rw [List.forall_mem_cons] at hfront
    rw [List.cons_append, joined_cons_of_not hfront.1, ih hfront.2]
    exact and_iff_right fun h => absurd rfl h

/-- A text that does not end with a separator has its words joined apart from what follows. -/
theorem joined_append
    (hfront : front ≠ [])
    (hlast : ∀ c, front.getLast? = some c → isSeparator c = false) :
    Joined run (front ++ back) ↔ Joined run front ∧ Joined [] back := by
  induction front generalizing run with
  | nil => exact absurd rfl hfront
  | cons c front ih =>
    cases front with
    | nil =>
      have hc := hlast c rfl
      rw [List.singleton_append, joined_cons_of_not hc, joined_cons_of_not hc]
      exact ⟨fun h => ⟨⟨h.1, rfl⟩, h.2⟩, fun h => ⟨h.1.1, h.2⟩⟩
    | cons d front =>
      have ih {run : List Char} :
          Joined run (d :: front ++ back) ↔ Joined run (d :: front) ∧ Joined [] back :=
        ih (by simp) hlast
      by_cases hc : isSeparator c = true
      · rw [List.cons_append, joined_cons_of_isSeparator hc, joined_cons_of_isSeparator hc, ih]
      · rw [Bool.not_eq_true] at hc
        rw [List.cons_append, joined_cons_of_not hc, joined_cons_of_not hc, ih, and_assoc]

theorem Joined.getLast?
    (h : Joined run cs)
    (hc : cs.getLast? = some c) :
    isSeparator c = false := by
  induction cs generalizing run with
  | nil => cases hc
  | cons d cs ih =>
    by_cases hd : isSeparator d = true
    · rw [joined_cons_of_isSeparator hd] at h
      cases cs with
      | nil => exact absurd h (by simp [Joined])
      | cons e cs => exact ih h hc
    · rw [Bool.not_eq_true] at hd
      rw [joined_cons_of_not hd] at h
      cases cs with
      | nil =>
        obtain rfl : d = c := by simpa using hc
        exact hd
      | cons e cs => exact ih h.2 hc

/-- No separator stands before a word. -/
theorem Joined.isWord_eq_false
    (hs : isSeparator s = true)
    (hc : isSeparator c = false)
    (h : Joined run (front ++ s :: c :: back)) :
    Text.isWord c = false := by
  induction front generalizing run with
  | nil =>
    rw [List.nil_append, joined_cons_of_isSeparator hs, joined_cons_of_not hc] at h
    exact (h.1 (by simp)).1
  | cons d front ih =>
    rw [List.cons_append] at h
    by_cases hd : isSeparator d = true
    · exact ih ((joined_cons_of_isSeparator hd).1 h)
    · rw [Bool.not_eq_true] at hd
      exact ih ((joined_cons_of_not hd).1 h).2

theorem camelCase_of_joined (h : Joined run cs) : camelCase run cs = run ++ cs := by
  induction cs generalizing run with
  | nil =>
    obtain rfl : run = [] := h
    rfl
  | cons c cs ih =>
    by_cases hc : isSeparator c = true
    · rw [camelCase, if_pos hc, ih ((joined_cons_of_isSeparator hc).1 h), List.append_assoc,
        List.singleton_append]
    · rw [Bool.not_eq_true] at hc
      obtain ⟨hrun, hrest⟩ := (joined_cons_of_not hc).1 h
      rw [camelCase, if_neg (by simp [hc]), ih hrest]
      split
      · next hempty => simpa using hempty
      · next hfilled =>
        obtain ⟨hword, hlone⟩ := hrun (by simpa using hfilled)
        rw [if_neg (by simp [hword]), hlone, List.nil_append]

theorem isSeparator_of_mem_loneSeparators
    (hrun : ∀ s ∈ run, isSeparator s = true)
    (hs : s ∈ loneSeparators run) :
    isSeparator s = true := by
  cases run with
  | nil => cases hs
  | cons c rest =>
    rw [loneSeparators] at hs
    split at hs
    · rcases List.mem_cons.1 hs with rfl | hs
      · rfl
      · have hrest := (List.takeWhile_sublist _).subset (List.mem_reverse.1 hs)
        exact hrun s (List.mem_cons_of_mem _ (List.mem_reverse.1 hrest))
    · exact hrun s hs

theorem loneSeparators_loneSeparators (run : List Char) :
    loneSeparators (loneSeparators run) = loneSeparators run := by
  cases run with
  | nil => rfl
  | cons c rest =>
    rw [loneSeparators]
    split
    · have hnone : ('_' ∈ (rest.reverse.takeWhile (· != '_')).reverse) = False := by
        refine eq_false fun hmem => ?_
        have := List.mem_takeWhile_imp (List.mem_reverse.1 hmem)
        simp at this
      rw [loneSeparators, if_neg (by simp only [List.contains_eq_mem, hnone]; simp)]
    · next h => rw [loneSeparators, if_neg h]

/-- Joining the words of a text that does not end with a separator joins them all. -/
theorem joined_camelCase
    (hrun : ∀ s ∈ run, isSeparator s = true)
    (hlast : ∀ c, (run ++ cs).getLast? = some c → isSeparator c = false) :
    Joined [] (camelCase run cs) := by
  induction cs generalizing run with
  | nil =>
    have hempty : run = [] := by
      by_contra hne
      have hmem := List.getLast_mem hne
      have := hlast _ (by rw [List.append_nil, List.getLast?_eq_some_getLast hne])
      rw [hrun _ hmem] at this
      cases this
    rw [hempty]
    rfl
  | cons c cs ih =>
    have hmore : ∀ d, ([] ++ cs).getLast? = some d → isSeparator d = false := by
      intro d hd
      refine hlast d ?_
      rw [List.getLast?_append_of_ne_nil _ (by simp)]
      cases cs with
      | nil => cases hd
      | cons e cs => exact hd
    rw [camelCase]
    split
    · next hc =>
      refine ih ?_ ?_
      · simpa [or_imp, forall_and] using ⟨hrun, hc⟩
      · simpa using hlast
    · next hc =>
      rw [Bool.not_eq_true] at hc
      have hrest := @ih [] (by simp) hmore
      split
      · exact (joined_cons_of_not hc).2 ⟨fun h => absurd rfl h, hrest⟩
      · split
        · exact (joined_append_of_forall fun d => isSeparator_of_mem_upperChar hc).2 hrest
        · next hword =>
          have hlone := fun s => isSeparator_of_mem_loneSeparators (s := s) hrun
          rw [joined_separators_append hlone, List.nil_append, joined_cons_of_not hc]
          exact ⟨fun _ => ⟨by simpa using hword, loneSeparators_loneSeparators run⟩, hrest⟩

end Words

section Decoration

/-- What is left of a name when a word at its end is dropped, in any letter case; a line break may stand after
the word and stays. -/
inductive Leaves (word : List Char) : List Char → List Char → Prop
  | atEnd
      {kept written : List Char}
      (h : sameLetters written word) :
      Leaves word (kept ++ written) kept
  | beforeBreak
      {kept written : List Char}
      (h : sameLetters written word) :
      Leaves word (kept ++ written ++ ['\n']) (kept ++ ['\n'])

/-- A name ends with a word in any letter case, a line break after it aside. -/
def EndsWith
    (word cs : List Char) :
    Prop :=
  ∃ kept, Leaves word cs kept

/-- A name starts with a verb in front of a capital letter. -/
def StartsWithMaker (cs : List Char) : Prop :=
  ∃ verb ∈ makerVerbs, ∃ c rest, cs = verb ++ c :: rest ∧ c.isUpper = true

variable {c : Char} {word cs kept rest written : List Char}

theorem sameLetters_iff
    {a b : List Char} :
    sameLetters a b = true ↔ a.map Text.foldCase = b.map Text.foldCase := by
  simp [sameLetters]

theorem length_eq_of_sameLetters (h : sameLetters written word = true) : written.length = word.length := by
  simpa using congrArg List.length (sameLetters_iff.1 h)

theorem isEnding_iff :
    (word.length ≤ cs.length && sameLetters (cs.drop (cs.length - word.length)) word) = true ↔
      ∃ kept written, cs = kept ++ written ∧ sameLetters written word = true := by
  rw [Bool.and_eq_true]
  constructor
  · rintro ⟨-, h⟩
    exact ⟨_, _, (List.take_append_drop _ cs).symm, h⟩
  · rintro ⟨kept, written, rfl, h⟩
    have hlength := length_eq_of_sameLetters h
    have hcut : (kept ++ written).length - word.length = kept.length := by
      rw [List.length_append]
      omega
    rw [hcut, List.drop_left]
    exact ⟨by simp [hlength], h⟩

theorem leaves_of_withoutEnding? (h : withoutEnding? word cs = some kept) : Leaves word cs kept := by
  have hcut {ds : List Char} (hsame : sameLetters (ds.drop (ds.length - word.length)) word = true) :
      Leaves word ds (ds.take (ds.length - word.length)) ∧
        Leaves word (ds ++ ['\n']) (ds.take (ds.length - word.length) ++ ['\n']) := by
    have hend := @Leaves.atEnd word (ds.take (ds.length - word.length)) _ hsame
    have hbreak := @Leaves.beforeBreak word (ds.take (ds.length - word.length)) _ hsame
    rw [List.take_append_drop] at hend hbreak
    exact ⟨hend, hbreak⟩
  unfold withoutEnding? at h
  dsimp only at h
  split at h
  · next hend =>
    obtain rfl := Option.some.inj h
    exact (hcut (Bool.and_eq_true_iff.1 hend).2).1
  · split at h
    · next body hreverse =>
      have hcs : body.reverse ++ ['\n'] = cs := by
        rw [← List.reverse_cons, ← hreverse, List.reverse_reverse]
      split at h
      · next hend =>
        obtain rfl := Option.some.inj h
        rw [← hcs]
        exact (hcut (Bool.and_eq_true_iff.1 hend).2).2
      · cases h
    · cases h

theorem not_endsWith_of_withoutEnding? (h : withoutEnding? word cs = none) : ¬EndsWith word cs := by
  rintro ⟨kept, hleaves⟩
  unfold withoutEnding? at h
  dsimp only at h
  split at h
  · cases h
  · next hend =>
    cases hleaves with
    | atEnd hsame => exact hend (isEnding_iff.2 ⟨_, _, rfl, hsame⟩)
    | beforeBreak hsame =>
      rw [List.reverse_append, List.reverse_singleton, List.singleton_append] at h
      simp only [List.reverse_reverse, if_pos (isEnding_iff.2 ⟨_, _, rfl, hsame⟩)] at h
      cases h

theorem Leaves.length_lt
    (h : Leaves word cs kept)
    (hword : word ≠ []) :
    kept.length < cs.length := by
  have hpos := List.length_pos_iff.2 hword
  cases h with
  | atEnd hsame =>
    rw [List.length_append, length_eq_of_sameLetters hsame]
    omega
  | beforeBreak hsame =>
    simp only [List.length_append, length_eq_of_sameLetters hsame]
    omega

/-- What is left of a name starts as the name does, unless it is a line break or nothing. -/
theorem Leaves.head?
    (h : Leaves word cs kept)
    (hc : kept.head? = some c) :
    cs.head? = some c ∨ c = '\n' := by
  cases h with
  | atEnd hsame => exact .inl (by rw [List.head?_append, hc]; rfl)
  | @beforeBreak kept written hsame =>
    cases kept with
    | nil => exact .inr (by simpa using hc.symm)
    | cons d kept => exact .inl hc

theorem withoutRouter_eq_or (cs : List Char) :
    (¬EndsWith "router".toList cs ∧ withoutRouter cs = cs) ∨ Leaves "router".toList cs (withoutRouter cs) := by
  unfold withoutRouter
  cases h : withoutEnding? "router".toList cs with
  | none => exact .inl ⟨not_endsWith_of_withoutEnding? h, rfl⟩
  | some kept => exact .inr (leaves_of_withoutEnding? h)

theorem withoutMaker_eq_or (cs : List Char) :
    (¬StartsWithMaker cs ∧ withoutMaker cs = cs) ∨
      ∃ verb ∈ makerVerbs, ∃ c rest,
        cs = verb ++ c :: rest ∧ c.isUpper = true ∧ withoutMaker cs = c :: rest := by
  unfold withoutMaker
  dsimp only
  generalize hfind : makerVerbs.findSome? _ = found
  cases found with
  | none =>
    refine .inl ⟨?_, rfl⟩
    rintro ⟨verb, hverb, c, rest, rfl, hc⟩
    have hnone := List.findSome?_eq_none_iff.1 hfind verb hverb
    simp [Text.afterStart?_eq_some_iff.2 rfl, hc] at hnone
  | some kept =>
    obtain ⟨verb, hverb, hkept⟩ := List.exists_of_findSome?_eq_some hfind
    split at hkept
    · next c rest hstart =>
      split at hkept
      · next hc =>
        obtain rfl := Option.some.inj hkept
        exact .inr ⟨verb, hverb, c, rest, Text.afterStart?_eq_some_iff.1 hstart, hc, rfl⟩
      · cases hkept
    · cases hkept

end Decoration

section Repetition

/-- The words of a text are joined, and it does not start with a separator. -/
structure IsJoined (cs : List Char) : Prop where
  joined : Joined [] cs
  head : ∀ c, cs.head? = some c → isSeparator c = false

variable {c : Char} {word cs kept rest : List Char}

theorem IsJoined.last
    (h : IsJoined cs)
    (hc : cs.getLast? = some c) :
    isSeparator c = false :=
  h.joined.getLast? hc

/-- A text whose words are joined keeps them when it is cut before a word. -/
theorem IsJoined.of_append
    (h : IsJoined (kept ++ c :: rest))
    (hc : Text.isWord c = true)
    (hsep : isSeparator c = false) :
    IsJoined kept ∧ ∀ d, kept.getLast? = some d → isSeparator d = false := by
  have hlast : ∀ d, kept.getLast? = some d → isSeparator d = false := by
    intro d hd
    by_contra hne
    obtain ⟨front, rfl⟩ := List.getLast?_eq_some_iff.1 hd
    have hjoined : Joined [] (front ++ d :: c :: rest) := by simpa using h.joined
    have hword := Joined.isWord_eq_false (by simpa using hne) hsep hjoined
    rw [hword] at hc
    cases hc
  refine ⟨⟨?_, ?_⟩, hlast⟩
  · rcases eq_or_ne kept [] with rfl | hne
    · rfl
    · exact ((joined_append hne hlast).1 h.joined).1
  · intro d hd
    exact h.head d (by rw [List.head?_append, hd]; rfl)

/-- A text whose words are joined keeps them when a word is dropped from its end. -/
theorem IsJoined.of_leaves
    (h : IsJoined cs)
    (hleaves : Leaves ('r' :: word) cs kept) :
    IsJoined kept := by
  have hstart {written : List Char} (hsame : sameLetters written ('r' :: word) = true) :
      ∃ c rest, written = c :: rest ∧ Text.isWord c = true ∧ isSeparator c = false := by
    rw [sameLetters_iff, List.map_cons, List.map_eq_cons_iff] at hsame
    obtain ⟨c, rest, rfl, hc, -⟩ := hsame
    exact ⟨c, rest, rfl, isWord_of_foldCase (.inl rfl) hc⟩
  cases hleaves with
  | atEnd hsame =>
    obtain ⟨c, rest, rfl, hword, hsep⟩ := hstart hsame
    exact (h.of_append hword hsep).1
  | @beforeBreak kept written hsame =>
    obtain ⟨c, rest, rfl, hword, hsep⟩ := hstart hsame
    rw [List.append_assoc] at h
    obtain ⟨hjoined, hlast⟩ := h.of_append hword hsep
    have hbreak : Joined [] ['\n'] := (joined_cons_of_not rfl).2 ⟨fun hne => absurd rfl hne, rfl⟩
    rcases eq_or_ne kept [] with rfl | hne
    · exact ⟨hbreak, by simpa using by rfl⟩
    · refine ⟨(joined_append hne hlast).2 ⟨hjoined.joined, hbreak⟩, fun d hd => hjoined.head d ?_⟩
      rwa [List.head?_append_of_ne_nil _ hne] at hd

/-- A text whose words are joined does not end with a point and a word. -/
theorem IsJoined.not_leaves_point
    (h : IsJoined cs)
    (hc : c = 'r' ∨ c = 't') :
    ¬Leaves ('.' :: c :: word) cs kept := by
  have hstart {written : List Char} (hsame : sameLetters written ('.' :: c :: word) = true) :
      ∃ s d rest, written = s :: d :: rest ∧ isSeparator s = true ∧ Text.isWord d = true ∧
        isSeparator d = false := by
    rw [sameLetters_iff, List.map_cons, List.map_cons, List.map_eq_cons_iff] at hsame
    obtain ⟨s, more, rfl, hs, hmore⟩ := hsame
    obtain ⟨d, rest, rfl, hd, -⟩ := List.map_eq_cons_iff.1 hmore
    have hfold : Text.foldCase c = c := by rcases hc with rfl | rfl <;> rfl
    exact ⟨s, d, rest, rfl, isSeparator_of_foldCase_point hs, isWord_of_foldCase hc (hd.trans hfold)⟩
  have hnone {s d : Char} {front back : List Char} (hjoined : Joined [] (front ++ s :: d :: back))
      (hs : isSeparator s = true) (hword : Text.isWord d = true) (hd : isSeparator d = false) : False := by
    rw [Joined.isWord_eq_false hs hd hjoined] at hword
    cases hword
  intro hleaves
  cases hleaves with
  | atEnd hsame =>
    obtain ⟨s, d, rest, rfl, hs, hword, hd⟩ := hstart hsame
    exact hnone h.joined hs hword hd
  | beforeBreak hsame =>
    obtain ⟨s, d, rest, rfl, hs, hword, hd⟩ := hstart hsame
    have hjoined := h.joined
    rw [List.append_assoc] at hjoined
    exact hnone hjoined hs hword hd

theorem IsJoined.withoutAccess_eq (h : IsJoined cs) : withoutAccess cs = cs := by
  unfold withoutAccess
  cases hrouter : withoutEnding? ".router".toList cs with
  | some kept => exact absurd (leaves_of_withoutEnding? hrouter) (h.not_leaves_point (.inl rfl))
  | none =>
    cases htrpc : withoutEnding? ".trpc".toList cs with
    | some kept => exact absurd (leaves_of_withoutEnding? htrpc) (h.not_leaves_point (.inr rfl))
    | none => rfl

theorem makerVerbs_spec : ∀ verb ∈ makerVerbs, verb ≠ [] ∧ ∀ c ∈ verb, isSeparator c = false := by
  simp [makerVerbs, isSeparator]

theorem isJoined_withoutMaker (h : IsJoined cs) : IsJoined (withoutMaker cs) := by
  rcases withoutMaker_eq_or cs with ⟨-, hsame⟩ | ⟨verb, hverb, c, rest, rfl, hc, hkept⟩
  · rwa [hsame]
  · rw [hkept]
    obtain ⟨hne, hsep⟩ := makerVerbs_spec verb hverb
    refine ⟨((joined_append hne fun d hd => hsep d (List.mem_of_getLast? hd)).1 h.joined).2, fun d hd => ?_⟩
    obtain rfl : c = d := by simpa using hd
    exact isSeparator_of_isUpper hc

theorem isJoined_withoutRouter (h : IsJoined cs) : IsJoined (withoutRouter cs) := by
  rcases withoutRouter_eq_or cs with ⟨-, hsame⟩ | hleaves
  · rwa [hsame]
  · exact h.of_leaves hleaves

/-- Of all that is done to a name, joined words leave only a verb and the word router to be dropped. -/
theorem IsJoined.canonicalChars_eq (h : IsJoined cs) :
    canonicalChars cs = lowerFirst (withoutRouter (withoutMaker cs)) := by
  have hkept := isJoined_withoutRouter (isJoined_withoutMaker h)
  have hends : Text.dropEnds isSeparator (withoutRouter (withoutMaker cs)) =
      withoutRouter (withoutMaker cs) := by
    rw [Text.dropEnds, Text.dropWhile_eq_self, Text.dropLastWhile_eq_self]
    · exact fun c hc => by simp [hkept.last hc]
    · exact fun c hc => by simp [hkept.head c hc]
  rw [canonicalChars, h.withoutAccess_eq, hends, camelCase_of_joined hkept.joined, List.nil_append]

/-- The first letter of a text is in lower case. -/
def StartsLow (cs : List Char) : Prop :=
  ∀ c, cs.head? = some c → Text.lowerChar c = [c]

theorem lowerFirst_of_startsLow (h : StartsLow cs) : lowerFirst cs = cs := by
  cases cs with
  | nil => rfl
  | cons c rest => rw [lowerFirst, h c rfl, List.singleton_append]

theorem startsLow_lowerFirst (cs : List Char) : StartsLow (lowerFirst cs) := by
  cases cs with
  | nil => exact fun c hc => by cases hc
  | cons c rest =>
    obtain ⟨d, ds, hd, hlow⟩ := Text.exists_lowerChar_eq_cons c
    intro e he
    rw [lowerFirst, hd] at he
    obtain rfl : d = e := by simpa using he
    exact hlow

theorem isJoined_lowerFirst (h : IsJoined cs) : IsJoined (lowerFirst cs) := by
  cases cs with
  | nil => exact h
  | cons c rest =>
    have hc := h.head c rfl
    have hlower := fun d => isSeparator_of_mem_lowerChar (d := d) hc
    refine ⟨(joined_append_of_forall hlower).2 ((joined_cons_of_not hc).1 h.joined).2, fun d hd => ?_⟩
    obtain ⟨e, es, he, -⟩ := Text.exists_lowerChar_eq_cons c
    rw [lowerFirst, he] at hd
    obtain rfl : e = d := by simpa using hd
    exact hlower e (by simp [he])

theorem isJoined_canonicalChars (cs : List Char) : IsJoined (canonicalChars cs) := by
  refine isJoined_lowerFirst ?_
  obtain ⟨-, hhead, hlast⟩ := (Text.dropEnds_eq_iff isSeparator _ _).1
    (rfl : Text.dropEnds isSeparator (withoutRouter (withoutMaker (withoutAccess cs))) = _)
  generalize Text.dropEnds isSeparator _ = core at hhead hlast
  refine ⟨joined_camelCase (by simp) fun c hc => by simpa using hlast c hc, fun c hc => ?_⟩
  cases core with
  | nil => cases hc
  | cons d rest =>
    have hd : isSeparator d = false := by simpa using hhead d rfl
    rw [camelCase, if_neg (by simp [hd]), if_pos (by rfl)] at hc
    obtain rfl : d = c := by simpa using hc
    exact hd

/-- What is left of a name without the word router keeps its length when its first letter is put in lower
case, if the lower case of the first letter of the name is one letter. -/
theorem length_lowerFirst_withoutRouter (h : ∀ c, cs.head? = some c → (Text.lowerChar c).length = 1) :
    (lowerFirst (withoutRouter cs)).length = (withoutRouter cs).length := by
  have hhead : ∀ c, (withoutRouter cs).head? = some c → (Text.lowerChar c).length = 1 := by
    intro c hc
    rcases withoutRouter_eq_or cs with ⟨-, hsame⟩ | hleaves
    · exact h c (hsame ▸ hc)
    · rcases hleaves.head? hc with hcs | rfl
      · exact h c hcs
      · rfl
  cases hkept : withoutRouter cs with
  | nil => rfl
  | cons c rest =>
    have hc := hhead c (by rw [hkept]; rfl)
    rw [lowerFirst, List.length_append, hc, List.length_cons, Nat.add_comm]

theorem length_withoutRouter_le (cs : List Char) : (withoutRouter cs).length ≤ cs.length := by
  rcases withoutRouter_eq_or cs with ⟨-, hsame⟩ | hleaves
  · rw [hsame]
  · exact (hleaves.length_lt (by simp)).le

theorem length_lowerChar_of_isUpper (hc : c.isUpper = true) : (Text.lowerChar c).length = 1 := by
  have hascii : c.toNat < 128 := by
    simp only [Char.isUpper, ge_iff_le, decide_eq_true_eq] at hc
    have hle : c.toNat ≤ 'Z'.toNat := UInt32.le_iff_toNat_le.1 hc.2
    exact Nat.lt_of_le_of_lt hle (by decide)
  rw [Text.lowerChar_of_ascii hascii, List.length_singleton]

/-- A name that is joined and starts low is its own canonical name exactly if neither a verb nor the word
router can be dropped from it. -/
theorem canonicalChars_eq_self_iff
    (hjoined : IsJoined cs)
    (hlow : StartsLow cs) :
    canonicalChars cs = cs ↔ ¬StartsWithMaker cs ∧ ¬EndsWith "router".toList cs := by
  rw [hjoined.canonicalChars_eq]
  rcases withoutMaker_eq_or cs with ⟨hmaker, hkept⟩ | ⟨verb, hverb, c, rest, hcs, hc, hkept⟩
  · rw [hkept]
    rcases withoutRouter_eq_or cs with ⟨hrouter, hsame⟩ | hleaves
    · rw [hsame, lowerFirst_of_startsLow hlow]
      exact iff_of_true rfl ⟨hmaker, hrouter⟩
    · refine iff_of_false (fun hsame => ?_) fun h => h.2 ⟨_, hleaves⟩
      have hlength := @length_lowerFirst_withoutRouter cs fun c hc => by rw [hlow c hc]; rfl
      have hshort := hleaves.length_lt (by simp)
      rw [hsame] at hlength
      omega
  · rw [hkept]
    refine iff_of_false (fun hsame => ?_) fun h => h.1 ⟨verb, hverb, c, rest, hcs, hc⟩
    have hlength := @length_lowerFirst_withoutRouter (c :: rest) fun d hd => by
      obtain rfl : c = d := by simpa using hd
      exact length_lowerChar_of_isUpper hc
    have hle := length_withoutRouter_le (c :: rest)
    have hpos := List.length_pos_iff.2 (makerVerbs_spec verb hverb).1
    have hlong : cs.length = verb.length + (c :: rest).length := by rw [hcs, List.length_append]
    rw [hsame] at hlength
    omega

/-- The canonical name of a canonical name is that name exactly if it neither starts with a verb in front of a
capital nor ends with the word router. -/
theorem canonicalName_canonicalName_iff (name : String) :
    canonicalName (canonicalName name) = canonicalName name ↔
      ¬StartsWithMaker (canonicalName name).toList ∧ ¬EndsWith "router".toList (canonicalName name).toList := by
  have hchars : (canonicalName name).toList = canonicalChars name.toList := String.toList_ofList
  rw [hchars, ← canonicalChars_eq_self_iff (isJoined_canonicalChars _) (startsLow_lowerFirst _),
    canonicalName, hchars, canonicalName, String.ofList_inj]

/-- A verb in front of a capital may be left when another verb has been dropped. -/
theorem not_canonicalName_canonicalName_twoVerbs :
    ¬ ∀ name, canonicalName (canonicalName name) = canonicalName name := by
  intro h
  exact absurd (h "createUseCaseRouter") (by decide)

end Repetition

end Router

end RouteAtlas
