import Mathlib
import RouteAtlas.Proofs.JsonRenderings

/-!
# Reading the tokens of JSON

Strings, numbers and words are read as they are written. What follows a number matters to its reader:
the number ends where none of its characters comes next. In a document a value is followed by white
space, a comment, a comma, a colon or a closing bracket, and the reader skips only white space.
-/

namespace RouteAtlas.Json

section Follow

/-- Whether a text may follow a value. -/
def Follows (cs : List Char) : Prop :=
  ∀ c ∈ cs.head?, isSpace c = true ∨ c ∈ [',', ':', '/', ']', '\x7d']

/-- Whether a value or a key may begin with a character. -/
def Opens (c : Char) : Prop :=
  Text.isBlank c = false ∧ c ∉ [',', ':', '/', ']', '\x7d']

theorem isBlank_of_isSpace
    {c : Char}
    (h : isSpace c = true) :
    Text.isBlank c = true := by
  simp only [isSpace, Bool.or_eq_true, beq_iff_eq] at h
  rcases h with ((rfl | rfl) | rfl) | rfl <;> decide

theorem Opens.isSpace_eq
    {c : Char}
    (h : Opens c) :
    isSpace c = false := by
  by_contra hspace
  rw [Bool.not_eq_false] at hspace
  have hblank := isBlank_of_isSpace hspace
  rw [h.1] at hblank
  cases hblank

theorem skipSpace_of_head
    {c : Char}
    (h : isSpace c = false)
    (cs : List Char) :
    skipSpace (c :: cs) = c :: cs := by
  simp [skipSpace, h]

theorem not_isSpace_slash : isSpace '/' = false := by
  decide

variable {cs : List Char}

theorem follows_of_run
    (h : (Place.between.run? cs).isSome)
    {rest : List Char}
    (hrest : Follows rest) :
    Follows (cs ++ rest) := by
  cases cs with
  | nil => exact hrest
  | cons c cs =>
    rintro d ⟨⟩
    by_cases hslash : c = '/'
    · exact .inr (by simp [hslash])
    · by_cases hspace : isSpace c = true
      · exact .inl hspace
      · simp [Place.run?, Place.step?, hslash, hspace] at h

/-- White space and comments are skipped if they are white space only; else a slash comes next. -/
theorem skipSpace_of_run
    (h : (Place.between.run? cs).isSome)
    (rest : List Char) :
    ((∀ c ∈ cs, isSpace c = true) → skipSpace (cs ++ rest) = skipSpace rest) ∧
      ((¬ ∀ c ∈ cs, isSpace c = true) → ∃ more, skipSpace (cs ++ rest) = '/' :: more) := by
  induction cs with
  | nil => simp
  | cons c cs ih =>
    by_cases hslash : c = '/'
    · subst hslash
      have hskip := skipSpace_of_head not_isSpace_slash (cs ++ rest)
      constructor
      · intro hall
        exact absurd (hall '/' (List.mem_cons_self ..)) (by decide)
      · exact fun _ => ⟨cs ++ rest, hskip⟩
    · by_cases hspace : isSpace c = true
      · simp only [Place.run?, Place.step?, hslash, hspace, if_true, if_false, Option.bind_some] at h
        have hskip : skipSpace (c :: cs ++ rest) = skipSpace (cs ++ rest) := by
          simp [skipSpace, hspace]
        rw [hskip, List.forall_mem_cons]
        simpa [hspace] using ih h
      · simp [Place.run?, Place.step?, hslash, hspace] at h

end Follow

section Strings

theorem CodeUnit.exists_digits (u : CodeUnit) : ∃ a b c d, u.digits = [a, b, c, d] := by
  obtain ⟨digits, number, hlength, hreads⟩ := u
  match digits, hlength with
  | [a, b, c, d], _ => exact ⟨a, b, c, d, rfl⟩

theorem unit?_digits
    (u : CodeUnit)
    (rest : List Char) :
    unit? (u.digits ++ rest) = some (u.number, rest) := by
  obtain ⟨a, b, c, d, hdigits⟩ := u.exists_digits
  have hreads := u.reads
  rw [hdigits] at hreads ⊢
  simp [unit?, hreads]

theorem readChars_piece
    (p : Piece)
    (n : Nat)
    (rest : List Char) :
    readChars (n + 1) (p.text ++ rest) = (readChars n rest).map fun r => (p.meaning :: r.1, r.2) := by
  cases p with
  | plain c h =>
    have hcontrol : ¬ c.toNat < 32 := by omega
    simp [Piece.text, Piece.meaning, readChars, h.1, h.2.1, hcontrol]
  | escape letter c h =>
    have hletter : letter ≠ 'u' := by
      rintro rfl
      cases h
    simp [Piece.text, Piece.meaning, readChars, hletter, h]
  | unit u h =>
    have hescape : unicodeEscape? (u.digits ++ rest) = some (charOf u.number, rest) := by
      simp [unicodeEscape?, unit?_digits, h.1]
    simp [Piece.text, Piece.meaning, readChars, hescape]
  | pair high low h =>
    have hescape : unicodeEscape? (high.digits ++ '\\' :: 'u' :: (low.digits ++ rest)) =
        some (charOf (0x10000 + (high.number - 0xD800) * 0x400 + (low.number - 0xDC00)), rest) := by
      simp [unicodeEscape?, unit?_digits, h.1, h.2]
    simp [Piece.text, Piece.meaning, readChars, hescape]

theorem readChars_spelled
    (s : List Piece)
    (rest : List Char)
    {n : Nat}
    (hn : s.length < n) :
    readChars n (spelled s ++ '"' :: rest) = some (s.map Piece.meaning, rest) := by
  induction s generalizing n with
  | nil =>
    obtain ⟨n, rfl⟩ := Nat.exists_eq_succ_of_ne_zero (Nat.ne_of_gt hn)
    simp [spelled, readChars]
  | cons p s ih =>
    obtain ⟨n, rfl⟩ := Nat.exists_eq_succ_of_ne_zero (Nat.ne_zero_of_lt hn)
    have htext : spelled (p :: s) ++ '"' :: rest = p.text ++ (spelled s ++ '"' :: rest) := by
      simp [spelled]
    rw [htext, readChars_piece, ih (by simpa using hn)]
    rfl

theorem length_le_spelled (s : List Piece) : s.length ≤ (spelled s).length := by
  induction s with
  | nil => simp
  | cons p s ih =>
    have hpiece : 1 ≤ p.text.length := by
      cases p <;> simp [Piece.text]
    have hlength : (spelled (p :: s)).length = p.text.length + (spelled s).length := by
      simp [spelled]
    rw [hlength, List.length_cons]
    omega

/-- A string is read as it is meant. -/
theorem readString_spelled
    (s : List Piece)
    (rest : List Char) :
    readString (spelled s ++ '"' :: rest) = .ok (meaning s, rest) := by
  have hlength : s.length < (spelled s ++ '"' :: rest).length + 1 := by
    have hspelled := length_le_spelled s
    rw [List.length_append]
    omega
  rw [readString, readChars_spelled s rest hlength]
  rfl

end Strings

section Numbers

/-- Whether a text does not begin with a digit. -/
def NoDigit (cs : List Char) : Prop :=
  ∀ c ∈ cs.head?, c.isDigit = false

theorem takeWhile_digits
    {ds rest : List Char}
    (hds : ∀ c ∈ ds, c.isDigit)
    (hrest : NoDigit rest) :
    (ds ++ rest).takeWhile Char.isDigit = ds ∧ (ds ++ rest).dropWhile Char.isDigit = rest := by
  have hstop : rest.takeWhile Char.isDigit = [] ∧ rest.dropWhile Char.isDigit = rest := by
    cases rest with
    | nil => simp
    | cons c rest =>
      have hc : c.isDigit = false := hrest c rfl
      simp [hc]
  rw [List.takeWhile_append_of_pos hds, List.dropWhile_append_of_pos hds, hstop.1, hstop.2,
    List.append_nil]
  exact ⟨rfl, rfl⟩

theorem Follows.not_number
    {cs : List Char}
    (h : Follows cs) :
    ∀ c ∈ cs.head?, c.isDigit = false ∧ c ≠ '.' ∧ c ≠ 'e' ∧ c ≠ 'E' := by
  intro c hc
  rcases h c hc with hspace | hmem
  · simp only [isSpace, Bool.or_eq_true, beq_iff_eq] at hspace
    rcases hspace with ((rfl | rfl) | rfl) | rfl <;> decide
  · fin_cases hmem <;> decide

theorem Exponent.digits_ne_nil (e : Exponent) : e.digits ≠ [] := by
  intro hnil
  have hreads := e.reads
  rw [hnil] at hreads
  cases hreads

theorem exponent?_text
    (e : Exponent)
    {rest : List Char}
    (hrest : Follows rest) :
    exponent? (e.text ++ rest) = some (e.value, rest) := by
  have hstop : NoDigit rest := fun c hc => (hrest.not_number c hc).1
  obtain ⟨htake, hdrop⟩ := takeWhile_digits e.isDigit hstop
  have hsign : Numeral.takeSign ((e.sign.map fun minus => if minus then '-' else '+').toList ++
      (e.digits ++ rest)) = (decide (e.sign = some true), e.digits ++ rest) := by
    cases hsign : e.sign with
    | none =>
      obtain ⟨d, ds, hdigits⟩ := List.exists_cons_of_ne_nil e.digits_ne_nil
      have hd : d.isDigit := e.isDigit d (by simp [hdigits])
      have hminus : d ≠ '-' := by rintro rfl; revert hd; decide
      have hplus : d ≠ '+' := by rintro rfl; revert hd; decide
      simp only [hdigits, Option.map_none, Option.toList_none, List.nil_append, List.cons_append,
        reduceCtorEq, decide_false]
      unfold Numeral.takeSign
      split
      · next heq => exact absurd (List.cons.inj heq).1 hminus
      · next heq => exact absurd (List.cons.inj heq).1 hplus
      · rfl
    | some minus => cases minus <;> rfl
  have htext : e.text ++ rest = e.letter ::
      ((e.sign.map fun minus => if minus then '-' else '+').toList ++ (e.digits ++ rest)) := by
    simp [Exponent.text]
  have hletter : (decide (e.letter = 'e') || decide (e.letter = 'E')) = true := by
    simpa using e.letter_eq
  rw [htext, exponent?, if_pos hletter, hsign]
  simp only [htake, hdrop, e.reads, Exponent.value, decide_eq_true_eq]

/-- Reads a number after its sign. -/
def readUnsigned
    (negative : Bool)
    (unsigned : List Char) :
    Except Fault (Value × List Char) :=
  let (whole, afterWhole) := wholePart unsigned
  if whole.isEmpty then .error .malformed
  else
    let (part, afterPart) := fraction afterWhole
    match exponent? afterPart, part.isEmpty with
    | none, true =>
      if Numeral.maxDigits < whole.length then .error .tooManyDigits
      else
        let n : Int := Numeral.ofDigits 10 (whole.map fun c => c.toNat - 48)
        .ok (.int (if negative then -n else n), afterWhole)
    | some (e, rest), _ =>
      .ok (.float (Numeral.Decimal.toBinary64 ⟨whole ++ part, part.length, e⟩ negative), rest)
    | none, false =>
      .ok (.float (Numeral.Decimal.toBinary64 ⟨whole ++ part, part.length, 0⟩ negative), afterPart)

theorem readNumber_of_head
    {cs : List Char}
    (h : cs.head? ≠ some '-') :
    readNumber cs = readUnsigned false cs := by
  unfold readNumber
  split
  next negative unsigned heq =>
  split at heq
  · exact absurd rfl h
  · cases heq
    rfl

theorem exponent?_of_follows
    {rest : List Char}
    (hrest : Follows rest) :
    exponent? rest = none := by
  cases rest with
  | nil => rfl
  | cons c rest =>
    obtain ⟨-, -, he, hE⟩ := hrest.not_number c rfl
    simp [exponent?, he, hE]

namespace Figure

variable (x : Figure) {rest : List Char}

theorem not_digit_exponent
    (hrest : Follows rest) :
    ∀ c ∈ ((x.exponent.map Exponent.text).getD [] ++ rest).head?, c.isDigit = false ∧ c ≠ '.' := by
  cases x.exponent with
  | none =>
    intro c hc
    obtain ⟨hdigit, hpoint, -, -⟩ := hrest.not_number c hc
    exact ⟨hdigit, hpoint⟩
  | some e =>
    rintro c ⟨⟩
    rcases e.letter_eq with h | h <;> rw [h] <;> decide

theorem fraction_tail
    (hrest : Follows rest) :
    fraction (x.tail ++ rest) = (x.part, (x.exponent.map Exponent.text).getD [] ++ rest) := by
  have hstop := x.not_digit_exponent hrest
  by_cases hpart : x.part = []
  · have htail : x.tail ++ rest = (x.exponent.map Exponent.text).getD [] ++ rest := by
      simp [tail, hpart]
    rw [htail, hpart]
    unfold fraction
    split
    · next heq =>
      rw [heq] at hstop
      exact absurd rfl (hstop '.' rfl).2
    · rfl
  · obtain ⟨htake, hdrop⟩ := takeWhile_digits x.isDigit_part fun c hc => (hstop c hc).1
    have htail : x.tail ++ rest =
        '.' :: (x.part ++ ((x.exponent.map Exponent.text).getD [] ++ rest)) := by
      simp [tail, hpart]
    rw [htail]
    simp [fraction, htake, hdrop, hpart]

theorem wholePart_text
    (hrest : Follows rest) :
    wholePart (x.whole ++ (x.tail ++ rest)) = (x.whole, x.tail ++ rest) := by
  have hstop : NoDigit (x.tail ++ rest) := by
    by_cases hpart : x.part = []
    · have htail : x.tail ++ rest = (x.exponent.map Exponent.text).getD [] ++ rest := by
        simp [tail, hpart]
      rw [htail]
      exact fun c hc => (x.not_digit_exponent hrest c hc).1
    · rintro c hc
      obtain rfl : '.' = c := by simpa [tail, hpart] using hc
      decide
  obtain ⟨htake, hdrop⟩ := takeWhile_digits x.isDigit_whole hstop
  by_cases hzero : x.whole.head? = some '0'
  · rw [x.whole_eq_zero hzero]
    rfl
  · unfold wholePart
    split
    · next heq =>
      obtain ⟨d, ds, hwhole⟩ := List.exists_cons_of_ne_nil x.whole_ne_nil
      rw [hwhole, List.cons_append] at heq
      rw [hwhole, (List.cons.inj heq).1] at hzero
      exact absurd rfl hzero
    · rw [htake, hdrop]

theorem exists_digit : ∃ d ds, x.whole = d :: ds ∧ d.isDigit := by
  obtain ⟨d, ds, hwhole⟩ := List.exists_cons_of_ne_nil x.whole_ne_nil
  exact ⟨d, ds, hwhole, x.isDigit_whole d (by simp [hwhole])⟩

/-- A number without its sign is read as it is written, if it does not have too many digits. -/
theorem readUnsigned_text
    (hrest : Follows rest) :
    (x.IsShort → readUnsigned x.negative (x.whole ++ (x.tail ++ rest)) = .ok (x.value, rest)) ∧
      (¬ x.IsShort → ∃ e, readUnsigned x.negative (x.whole ++ (x.tail ++ rest)) = .error e) := by
  have hwhole : x.whole.isEmpty = false := by simp [x.whole_ne_nil]
  unfold readUnsigned
  rw [x.wholePart_text hrest]
  dsimp only
  rw [hwhole, x.fraction_tail hrest]
  dsimp only
  unfold IsShort value
  cases hexponent : x.exponent with
  | some e =>
    simp [exponent?_text e hrest]
  | none =>
    simp only [Option.map_none, Option.getD_none, List.nil_append, exponent?_of_follows hrest]
    by_cases hpart : x.part = []
    · have htail : x.tail = [] := by simp [tail, hpart, hexponent]
      by_cases hlong : Numeral.maxDigits < x.whole.length
      · simp [hpart, hlong, Nat.not_le.2 hlong]
      · simp [hpart, hlong, Nat.not_lt.1 hlong, htail]
    · have hfilled : x.part.isEmpty = false := by simp [hpart]
      simp [hpart, hfilled]

theorem readNumber_text
    (hrest : Follows rest) :
    (x.IsShort → readNumber (x.text ++ rest) = .ok (x.value, rest)) ∧
      (¬ x.IsShort → ∃ e, readNumber (x.text ++ rest) = .error e) := by
  have hread : readNumber (x.text ++ rest) =
      readUnsigned x.negative (x.whole ++ (x.tail ++ rest)) := by
    unfold text
    cases x.negative with
    | true =>
      rw [if_pos rfl, List.cons_append, List.append_assoc]
      rfl
    | false =>
      obtain ⟨d, ds, hwhole, hd⟩ := x.exists_digit
      rw [if_neg Bool.false_ne_true, List.append_assoc]
      refine readNumber_of_head ?_
      rw [hwhole]
      rintro ⟨⟩
      revert hd
      decide
  rw [hread]
  exact x.readUnsigned_text hrest

theorem exists_head : ∃ c cs, x.text = c :: cs ∧ (c = '-' ∨ c.isDigit) := by
  obtain ⟨d, ds, hwhole, hd⟩ := x.exists_digit
  unfold text
  rw [hwhole]
  split
  · exact ⟨'-', _, rfl, .inl rfl⟩
  · exact ⟨d, _, rfl, .inr hd⟩

end Figure

end Numbers

section Words

theorem readWord?_of_digit
    {d : Char}
    (hd : d.isDigit)
    (cs : List Char) :
    readWord? (d :: cs) = none ∧ readWord? ('-' :: d :: cs) = none := by
  have hne : ∀ c ∈ ['n', 't', 'f', 'N', 'I', '-'], c ≠ d := by
    rintro c hc rfl
    fin_cases hc <;> exact absurd hd (by decide)
  simp only [List.forall_mem_cons, List.not_mem_nil, false_implies, implies_true, and_true] at hne
  obtain ⟨hn, ht, hf, hN, hI, hminus⟩ := hne
  constructor
  · simp [readWord?, words, Text.afterStart?, hn, ht, hf, hN, hI, hminus]
  · simp [readWord?, words, Text.afterStart?, hI]

theorem readWord?_figure
    (x : Figure)
    (rest : List Char) :
    readWord? (x.text ++ rest) = none := by
  obtain ⟨d, ds, hwhole, hd⟩ := x.exists_digit
  unfold Figure.text
  rw [hwhole]
  split
  · exact (readWord?_of_digit hd _).2
  · exact (readWord?_of_digit hd _).1

/-- No value begins with a character that ends or separates values. -/
theorem readValue_refuses
    {c : Char}
    (h : c ∈ [',', ':', '/', ']', '\x7d'])
    (n : Nat)
    (cs : List Char) :
    readValue n (c :: cs) = .error .malformed := by
  cases n with
  | zero => rfl
  | succ n => fin_cases h <;> rfl

end Words

section Heads

theorem opens_of_digit
    {c : Char}
    (h : c = '-' ∨ c.isDigit) :
    Opens c := by
  rcases h with rfl | h
  · exact ⟨by decide, by decide⟩
  · have hrange : 48 ≤ c.toNat ∧ c.toNat ≤ 57 := by
      simpa [Char.isDigit, UInt32.le_iff_toNat_le] using h
    constructor
    · have hblank : ¬ Text.isBlank c = true := by
        simp only [Text.isBlank, Bool.or_eq_true, Bool.and_eq_true, decide_eq_true_eq, beq_iff_eq]
        omega
      simpa using hblank
    · intro hmem
      fin_cases hmem <;> revert h <;> decide

theorem Doc.exists_head (d : Doc) : ∃ c cs, d.text = c :: cs ∧ Opens c := by
  cases d with
  | word w h =>
    simp only [words, List.mem_cons, List.not_mem_nil, or_false] at h
    rcases h with rfl | rfl | rfl | rfl | rfl | rfl <;> exact ⟨_, _, rfl, by decide, by decide⟩
  | number x =>
    obtain ⟨c, cs, htext, hc⟩ := x.exists_head
    exact ⟨c, cs, htext, opens_of_digit hc⟩
  | string s => exact ⟨'"', _, rfl, by decide, by decide⟩
  | empty b ending => cases b <;> exact ⟨_, _, rfl, by decide, by decide⟩
  | filled b before entries => cases b <;> exact ⟨_, _, rfl, by decide, by decide⟩

theorem Entries.exists_head
    {b : Bracket}
    (es : Entries b) :
    ∃ c cs, es.text = c :: cs ∧ Opens c := by
  have hlabel (label : Label b) (value : Doc) (more : List Char) :
      ∃ c cs, label.text ++ (value.text ++ more) = c :: cs ∧ Opens c := by
    cases label with
    | item =>
      obtain ⟨c, cs, htext, hc⟩ := value.exists_head
      exact ⟨c, cs ++ more, by rw [htext]; rfl, hc⟩
    | key name before after => exact ⟨'"', _, rfl, by decide, by decide⟩
  cases es with
  | last label value ending => exact hlabel label value _
  | more label value after before rest => exact hlabel label value _

end Heads

end RouteAtlas.Json
