import Mathlib
import RouteAtlas.Proofs.JsonChanges

/-!
# Dropping comments

Comments are dropped from left to right. A string is passed over as a whole, so that nothing inside it
counts as the beginning of a comment, and nothing inside a comment counts as the beginning of a string.
What stays of a gap is its white space outside comments, with the line feeds that end comments.
-/

namespace RouteAtlas.Json

section Bounds

theorem length_of_stringRest?
    {cs body more : List Char}
    (h : stringRest? cs = some (body, more)) :
    more.length < cs.length := by
  fun_induction stringRest? cs generalizing body with
  | case1 => cases h
  | case2 rest =>
    obtain ⟨-, rfl⟩ := Prod.mk.inj (Option.some.inj h)
    simp
  | case3 => cases h
  | case4 c rest ih =>
    obtain ⟨r, hr, hbody⟩ := Option.map_eq_some_iff.1 h
    obtain ⟨-, rfl⟩ := Prod.mk.inj hbody
    have hrest := ih hr
    simp
    omega
  | case5 c rest hquote hend hescape ih =>
    obtain ⟨r, hr, hbody⟩ := Option.map_eq_some_iff.1 h
    obtain ⟨-, rfl⟩ := Prod.mk.inj hbody
    have hrest := ih hr
    simp
    omega

theorem length_of_blockRest?
    {cs more : List Char}
    (h : blockRest? cs = some more) :
    more.length < cs.length := by
  fun_induction blockRest? cs with
  | case1 => cases h
  | case2 rest =>
    obtain rfl := Option.some.inj h
    simp
  | case3 c rest hend ih =>
    have hrest := ih h
    simp
    omega

/-- A bound that is no less than the length of a text does not matter. -/
theorem dropCommentsUpTo_of_length
    {n m : Nat}
    {cs : List Char}
    (hn : cs.length ≤ n)
    (hm : cs.length ≤ m) :
    dropCommentsUpTo n cs = dropCommentsUpTo m cs := by
  have hpos : ∀ {m k : Nat}, k + 1 ≤ m → ∃ m', m = m' + 1 ∧ k ≤ m' :=
    fun {m} _ hm => ⟨m - 1, by omega, by omega⟩
  fun_induction dropCommentsUpTo n cs generalizing m with
  | case1 cs =>
    obtain rfl := List.eq_nil_of_length_eq_zero (Nat.le_zero.1 hn)
    cases m <;> rfl
  | case2 n => cases m <;> rfl
  | case3 n rest body more hrest ih =>
    obtain ⟨m, rfl, hle⟩ := hpos hm
    have hmore := length_of_stringRest? hrest
    rw [List.length_cons] at hn
    simp only [dropCommentsUpTo, hrest]
    rw [ih (m := m) (by omega) (by omega)]
  | case4 n rest hrest ih =>
    obtain ⟨m, rfl, hle⟩ := hpos hm
    rw [List.length_cons] at hn
    simp only [dropCommentsUpTo, hrest]
    rw [ih (by omega) hle]
  | case5 n rest ih =>
    obtain ⟨m, rfl, hle⟩ := hpos hm
    have hline := List.length_dropWhile_le (· != '\n') rest
    simp only [List.length_cons] at hn hle
    simp only [dropCommentsUpTo]
    exact ih (by omega) (by omega)
  | case6 n rest more hrest ih =>
    obtain ⟨m, rfl, hle⟩ := hpos hm
    have hmore := length_of_blockRest? hrest
    simp only [List.length_cons] at hn hle
    simp only [dropCommentsUpTo, hrest]
    exact ih (by omega) (by omega)
  | case7 n rest hrest ih =>
    obtain ⟨m, rfl, hle⟩ := hpos hm
    rw [List.length_cons] at hn
    simp only [dropCommentsUpTo, hrest]
    rw [ih (by omega) hle]
  | case8 n c rest hquote hline hblock ih =>
    obtain ⟨m, rfl, hle⟩ := hpos hm
    rw [List.length_cons] at hn
    rw [dropCommentsUpTo, ih (by omega) hle]
    all_goals assumption

end Bounds

section Steps

theorem dropComments_cons
    {c : Char}
    (hc : c ∉ ['"', '/'])
    (cs : List Char) :
    dropComments (c :: cs) = c :: dropComments cs := by
  simp only [List.mem_cons, List.not_mem_nil, or_false, not_or] at hc
  rw [dropComments, List.length_cons, dropCommentsUpTo, dropComments]
  · exact hc.1
  · exact fun _ h => absurd h hc.2
  · exact fun _ h => absurd h hc.2

theorem dropComments_line (cs : List Char) :
    dropComments ('/' :: '/' :: cs) = dropComments (cs.dropWhile (· != '\n')) := by
  have hlength := List.length_dropWhile_le (· != '\n') cs
  rw [dropComments, List.length_cons, dropCommentsUpTo, dropComments]
  exact dropCommentsUpTo_of_length (by simp; omega) le_rfl

theorem dropComments_block
    {cs more : List Char}
    (h : blockRest? cs = some more) :
    dropComments ('/' :: '*' :: cs) = dropComments more := by
  have hlength := length_of_blockRest? h
  rw [dropComments, List.length_cons, dropCommentsUpTo, h, dropComments]
  exact dropCommentsUpTo_of_length (by simp; omega) le_rfl

theorem dropComments_string
    {cs body more : List Char}
    (h : stringRest? cs = some (body, more)) :
    dropComments ('"' :: cs) = '"' :: (body ++ dropComments more) := by
  have hlength := length_of_stringRest? h
  have hmore : dropCommentsUpTo cs.length more = dropComments more :=
    dropCommentsUpTo_of_length (by omega) le_rfl
  simp only [dropComments, List.length_cons, dropCommentsUpTo, h]
  rw [hmore, dropComments, List.cons_append]

/-- What is left of a text that is read from a place on, if its comments end. -/
def Place.Drops : Place → List Char → List Char → Prop
  | between, cs, out => dropComments cs = out
  | slash, cs, out => dropComments ('/' :: cs) = out
  | line, cs, out => dropComments (cs.dropWhile (· != '\n')) = out
  | block, cs, out => ∃ more, blockRest? cs = some more ∧ dropComments more = out
  | star, cs, out => ∃ more, blockRest? ('*' :: cs) = some more ∧ dropComments more = out

/-- Whether a character of a gap stays. -/
def Place.keeps : Place → Char → Bool
  | between, c => isSpace c
  | line, c => c == '\n'
  | _, _ => false

/-- What stays of white space and comments that are read from a place on. -/
def Place.kept : Place → List Char → List Char
  | _, [] => []
  | p, c :: cs =>
    let later := ((p.step? c).map fun q => q.kept cs).getD []
    if p.keeps c then c :: later else later

theorem blockRest?_cons
    {c : Char}
    {cs : List Char}
    (h : c = '*' → cs.head? ≠ some '/') :
    blockRest? (c :: cs) = blockRest? cs := by
  rw [blockRest?]
  rintro more rfl rfl
  exact h rfl rfl

/-- One character is dropped or stays. -/
theorem Place.Drops.step
    {p q : Place}
    {c : Char}
    {cs out : List Char}
    (h : q.Drops cs out)
    (hstep : p.step? c = some q)
    (hc : c ≠ '\r') :
    p.Drops (c :: cs) (if p.keeps c then c :: out else out) := by
  cases p with
  | between =>
    by_cases hslash : c = '/'
    · subst hslash
      obtain rfl : slash = q := by simpa [step?] using hstep
      exact h
    · by_cases hspace : isSpace c = true
      · obtain rfl : between = q := by simpa [step?, hslash, hspace] using hstep
        have hquote : c ≠ '"' := by
          rintro rfl
          cases hspace
        show dropComments (c :: cs) = if isSpace c = true then c :: out else out
        rw [dropComments_cons (by simp [hquote, hslash]), if_pos hspace]
        exact congrArg (List.cons c) h
      · simp [step?, hslash, hspace] at hstep
  | slash =>
    by_cases hslash : c = '/'
    · subst hslash
      obtain rfl : line = q := by simpa [step?] using hstep
      exact (dropComments_line cs).trans h
    · by_cases hstar : c = '*'
      · subst hstar
        obtain rfl : block = q := by simpa [step?] using hstep
        obtain ⟨more, hmore, hout⟩ := h
        exact (dropComments_block hmore).trans hout
      · simp [step?, hslash, hstar] at hstep
  | line =>
    by_cases hfeed : c = '\n'
    · subst hfeed
      obtain rfl : between = q := by simpa [step?] using hstep
      exact (dropComments_cons (by decide) cs).trans (congrArg (List.cons '\n') h)
    · obtain rfl : line = q := by simpa [step?, hfeed, hc] using hstep
      simpa [Drops, keeps, hfeed] using h
  | block =>
    by_cases hstar : c = '*'
    · subst hstar
      obtain rfl : star = q := by simpa [step?] using hstep
      exact h
    · obtain rfl : block = q := by simpa [step?, hstar] using hstep
      obtain ⟨more, hmore, hout⟩ := h
      exact ⟨more, (blockRest?_cons fun heq => absurd heq hstar).trans hmore, hout⟩
  | star =>
    by_cases hslash : c = '/'
    · subst hslash
      obtain rfl : between = q := by simpa [step?] using hstep
      exact ⟨cs, rfl, h⟩
    · have hnext : blockRest? ('*' :: c :: cs) = blockRest? (c :: cs) :=
        blockRest?_cons fun _ heq => hslash (Option.some.inj heq)
      by_cases hstar : c = '*'
      · subst hstar
        obtain rfl : star = q := by simpa [step?] using hstep
        obtain ⟨more, hmore, hout⟩ := h
        exact ⟨more, hnext.trans hmore, hout⟩
      · obtain rfl : block = q := by simpa [step?, hslash, hstar] using hstep
        obtain ⟨more, hmore, hout⟩ := h
        have hcons : blockRest? (c :: cs) = blockRest? cs := blockRest?_cons fun heq => absurd heq hstar
        exact ⟨more, hnext.trans (hcons.trans hmore), hout⟩

/-- White space and comments are dropped up to the white space that stays of them. -/
theorem Place.Drops.run
    {p q : Place}
    {cs rest out : List Char}
    (h : q.Drops rest out)
    (hrun : p.run? cs = some q)
    (hcs : '\r' ∉ cs) :
    p.Drops (cs ++ rest) (p.kept cs ++ out) := by
  induction cs generalizing p with
  | nil =>
    obtain rfl := Option.some.inj hrun
    exact h
  | cons c cs ih =>
    rw [List.mem_cons, not_or] at hcs
    obtain ⟨p', hstep, hrun⟩ := Option.bind_eq_some_iff.1 hrun
    have hlater := (ih hrun hcs.2).step hstep (Ne.symm hcs.1)
    have hkept : p.kept (c :: cs) ++ out =
        if p.keeps c then c :: (p'.kept cs ++ out) else p'.kept cs ++ out := by
      rw [kept, hstep]
      split <;> rfl
    rw [List.cons_append, hkept]
    exact hlater

/-- What stays of white space and comments is white space. -/
theorem Place.isSpace_kept
    (p : Place)
    (cs : List Char) :
    ∀ c ∈ p.kept cs, isSpace c = true := by
  induction cs generalizing p with
  | nil => simp [kept]
  | cons c cs ih =>
    have hlater : ∀ d ∈ ((p.step? c).map fun q => q.kept cs).getD [], isSpace d = true := by
      cases p.step? c with
      | none => simp
      | some q => simpa using ih q
    rw [kept]
    split
    · next hkeeps =>
      refine List.forall_mem_cons.2 ⟨?_, hlater⟩
      cases p with
      | between => exact hkeeps
      | line =>
        obtain rfl : c = '\n' := by simpa [keeps] using hkeeps
        decide
      | slash => cases hkeeps
      | block => cases hkeeps
      | star => cases hkeeps
    · exact hlater

theorem run?_of_isSpace
    {cs : List Char}
    (h : ∀ c ∈ cs, isSpace c = true) :
    Place.between.run? cs = some .between := by
  induction cs with
  | nil => rfl
  | cons c cs ih =>
    rw [List.forall_mem_cons] at h
    have hslash : c ≠ '/' := by
      rintro rfl
      exact absurd h.1 (by decide)
    simp [Place.run?, Place.step?, hslash, h.1, ih h.2]

/-- A gap without its comments. -/
def Gap.stripped (g : Gap) : Gap :=
  ⟨Place.between.kept g.chars, run?_of_isSpace (Place.isSpace_kept _ _)⟩

end Steps

section Strings

theorem stringRest?_plain
    {c : Char}
    (hquote : c ≠ '"')
    (hescape : c ≠ '\\')
    (cs : List Char) :
    stringRest? (c :: cs) = (stringRest? cs).map fun r => (c :: r.1, r.2) := by
  rw [stringRest?]
  · exact hquote
  · exact fun h _ => absurd h hescape
  · exact fun _ _ h => absurd h hescape

theorem stringRest?_digits
    (u : CodeUnit)
    (cs : List Char) :
    stringRest? (u.digits ++ cs) = (stringRest? cs).map fun r => (u.digits ++ r.1, r.2) := by
  have hdigits : ∀ ds : List Char, (∀ d ∈ ds, d ∉ ['\r', ',', '"', '\\']) →
      stringRest? (ds ++ cs) = (stringRest? cs).map fun r => (ds ++ r.1, r.2) := by
    intro ds hds
    induction ds with
    | nil => simp
    | cons d ds ih =>
      rw [List.forall_mem_cons] at hds
      simp only [List.mem_cons, List.not_mem_nil, or_false, not_or] at hds
      rw [List.cons_append, stringRest?_plain hds.1.2.2.1 hds.1.2.2.2, ih]
      · simp [Function.comp_def]
      · simpa using hds.2
  exact hdigits u.digits u.digit_ne

theorem stringRest?_piece
    (p : Piece)
    (cs : List Char) :
    stringRest? (p.text ++ cs) = (stringRest? cs).map fun r => (p.text ++ r.1, r.2) := by
  cases p with
  | plain c h => exact stringRest?_plain h.1 h.2.1 cs
  | escape letter c h => rfl
  | unit u h =>
    simp [Piece.text, stringRest?, stringRest?_digits, Function.comp_def]
  | pair high low h =>
    simp [Piece.text, stringRest?, stringRest?_digits, Function.comp_def]

/-- A string ends with its closing quote. -/
theorem stringRest?_spelled
    (s : List Piece)
    (rest : List Char) :
    stringRest? (spelled s ++ '"' :: rest) = some (spelled s ++ ['"'], rest) := by
  induction s with
  | nil => rfl
  | cons p s ih =>
    have htext : spelled (p :: s) = p.text ++ spelled s := rfl
    rw [htext, List.append_assoc, stringRest?_piece, ih]
    simp

/-- Dropping comments is a change of gaps, once line breaks are alike. -/
theorem carries_dropComments :
    Carries dropComments (.ofGaps Gap.stripped) fun p => '\r' ∉ p.spacing := by
  refine .ofGaps (P := fun cs => '\r' ∉ cs) ?_ ?_ ?_ ?_
  · simp [not_or]
  · exact fun c rest hc => dropComments_cons (fun hmem => hc (List.mem_cons_of_mem _ hmem)) rest
  · intro g rest hg _
    have hrest : Place.between.Drops rest (dropComments rest) := rfl
    exact hrest.run g.run_eq hg
  · intro s rest
    have htext : quoted s ++ rest = '"' :: (spelled s ++ '"' :: rest) := by simp [quoted]
    rw [htext, dropComments_string (stringRest?_spelled s rest)]
    simp [quoted]

end Strings

end RouteAtlas.Json
