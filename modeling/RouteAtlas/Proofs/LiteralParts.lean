import Mathlib
import RouteAtlas.Proofs.StringLiterals
import RouteAtlas.Syntax.Tree

/-!
# Parts of string literals

Between the quotes of a literal, escapes are parts of their own, and the signs between two escapes make one
fragment. Where an escape ends is told by its own characters and by the next one: a digit would continue the
escape for the null character, a line feed a carriage return. A fragment of a template ends where a
substitution would begin. Signs that stay apart rule all of this out, so both rules for the inside of a
literal divide it in the same manner: `Divides`.
-/

namespace RouteAtlas.Syntax

namespace Source

section Words

variable {s : Source} {i n : Nat} {w v : List Char} {c : Char} {p : Char → Bool}

theorem holds_cons :
    s.holds (c :: w) i = true ↔ i < s.size ∧ s.at_ i = c ∧ s.holds w (i + 1) = true := by
  simp [holds, and_assoc]

theorem holds_append :
    s.holds (w ++ v) i = true ↔ s.holds w i = true ∧ s.holds v (i + w.length) = true := by
  induction w generalizing i with
  | nil => simp [holds]
  | cons c rest ih =>
    have hlength : i + (c :: rest).length = i + 1 + rest.length := by
      rw [List.length_cons]
      omega
    rw [List.cons_append, holds_cons, holds_cons, ih, hlength]
    tauto

theorem le_size_of_holds
    (hw : w ≠ [])
    (h : s.holds w i = true) :
    i + w.length ≤ s.size := by
  induction w generalizing i with
  | nil => exact absurd rfl hw
  | cons c rest ih =>
    obtain ⟨hi, -, hrest⟩ := holds_cons.1 h
    cases rest with
    | nil => simpa using hi
    | cons d more =>
      have := ih (by simp) hrest
      simp only [List.length_cons] at this ⊢
      omega

/-- A word that stands at an offset is the text from there on. -/
theorem slice_of_holds (h : s.holds w i = true) : s.slice i (i + w.length) = String.ofList w := by
  have htake : ∀ {w : List Char} {i : Nat}, s.holds w i = true →
      (s.chars.toList.drop i).take w.length = w := by
    intro w
    induction w with
    | nil => simp
    | cons c rest ih =>
      intro i h
      obtain ⟨hi, hc, hrest⟩ := holds_cons.1 h
      have hlength : i < s.chars.toList.length := by simpa [size] using hi
      have hat : s.chars.toList[i] = c := by
        rw [← hc, Array.getElem_toList]
        simp [at_, Array.getD, show i < s.chars.size from hi]
      rw [List.drop_eq_getElem_cons hlength, hat, List.length_cons, List.take_succ_cons, ih hrest]
  rw [slice, Array.toList_extract, List.extract_eq_take_drop, Nat.add_sub_cancel_left, htake h]

/-- A class of characters is scanned up to the end of a word of them. -/
theorem scanWhile_of_holds
    (h : s.holds (w ++ [c]) i = true)
    (hw : ∀ d ∈ w, p d = true)
    (hc : p c = false)
    (hn : w.length ≤ n) :
    s.scanWhile p n i = i + w.length := by
  induction w generalizing i n with
  | nil =>
    obtain ⟨-, hat, -⟩ := holds_cons.1 h
    cases n with
    | zero => rfl
    | succ n => simp [scanWhile, hat, hc]
  | cons d rest ih =>
    obtain ⟨hi, hat, hrest⟩ := holds_cons.1 h
    obtain ⟨n, rfl⟩ : ∃ m, n = m + 1 := ⟨n - 1, by simp only [List.length_cons] at hn; omega⟩
    rw [scanWhile, hat, hw d (by simp), if_pos (by simpa using hi),
      ih hrest (fun e he => hw e (by simp [he])) (by simpa using hn), List.length_cons]
    omega

theorem skipWhile_of_holds
    (h : s.holds (w ++ [c]) i = true)
    (hw : ∀ d ∈ w, p d = true)
    (hc : p c = false) :
    s.skipWhile p i = i + w.length := by
  have hsize := le_size_of_holds (by simp) h
  exact scanWhile_of_holds h hw hc (by simp only [List.length_append] at hsize; omega)

/-- A token starts right here where a character stands that begins neither a gap nor a comment. -/
theorem next_of_holds
    (h : s.holds [c] i = true)
    (hgap : isGap c = false)
    (hslash : c ≠ '/') :
    s.next i = i := by
  obtain ⟨-, hat, -⟩ := holds_cons.1 h
  have hskip : s.skipWhile isGap i = i := skipWhile_of_holds (w := []) h (by simp) hgap
  have hcomment : s.commentEnd? i = none := by simp [commentEnd?, holds, hat, hslash]
  rw [next, skipGaps, hskip]
  simp [hcomment]

end Words

end Source

namespace StringLiteral

open Source Rule

section Escapes

variable {s : Source} {i : Nat} {a : Sign} {c : Char} {quote : Quote}

theorem octal_of_not_isDigit (h : c.isDigit = false) : ('0' ≤ c && c ≤ '7') = false := by
  simp only [Char.isDigit, ge_iff_le, Bool.and_eq_false_iff, decide_eq_false_iff_not] at h ⊢
  refine h.imp_right fun h hle => h (le_trans hle (by decide))

/-- Most escapes are a backslash and one character. -/
theorem escapeEnd_of_one
    (hat : s.at_ (i + 1) = c)
    (hx : c ≠ 'x')
    (hu : c ≠ 'u')
    (hoctal : ('0' ≤ c && c ≤ '7') = false)
    (hreturn : c = '\r' → s.at_ (i + 2) ≠ '\n') :
    s.escapeEnd i = i + 2 := by
  have hfeed : (c == '\r' && s.at_ (i + 2) == '\n') = false := by
    by_cases hc : c = '\r'
    · simp [hreturn hc]
    · simp [hc]
  simp only [escapeEnd, hat, beq_iff_eq, if_neg hx, if_neg hu, hoctal, hfeed]
  rfl

/-- A brace is no digit. -/
theorem brace_notMem_of_areDigits
    {digits : List Char}
    (h : Sign.AreDigits digits) :
    ∀ d ∈ digits, d ≠ '\x7b' ∧ d ≠ '\x7d' := by
  intro d hd
  have hvalue := List.all_eq_true.1 h.2 d hd
  constructor <;>
  · rintro rfl
    cases hvalue

namespace Sign

/-- An escape is read up to its end, if the next character does not continue it. -/
theorem escapeEnd_eq
    (hloose : a.isLoose = false)
    (hallowed : a.IsAllowed quote)
    (hnext : a.isContinuedBy quote c = false)
    (h : s.holds (a.text ++ [c]) i = true) :
    s.escapeEnd i = i + a.text.length := by
  cases a with
  | raw d => cases hloose
  | returned fed => cases hloose
  | simple letter =>
    obtain ⟨-, -, h⟩ := holds_cons.1 h
    obtain ⟨-, hletter, -⟩ := holds_cons.1 h
    by_cases hzero : letter = '0'
    · subst hzero
      have hdigit : c.isDigit = false := by simpa [isContinuedBy] using hnext
      have hoctal : s.skipWhile (fun d => '0' ≤ d && d ≤ '7') (i + 1) = i + 1 + 1 :=
        skipWhile_of_holds (w := ['0']) (c := c) h (by simp) (octal_of_not_isDigit hdigit)
      simp [escapeEnd, hletter, text, hoctal]
    · simp only [IsAllowed, simpleCode?] at hallowed
      split at hallowed
      case h_7 => exact absurd rfl hzero
      case h_8 => cases hallowed
      all_goals
        exact escapeEnd_of_one hletter (by decide) (by decide) (by decide) (absurd · (by decide))
  | itself d =>
    obtain ⟨-, -, h⟩ := holds_cons.1 h
    obtain ⟨-, hd, -⟩ := holds_cons.1 h
    simp only [IsAllowed, isSpecial, Bool.or_eq_false_iff, beq_eq_false_iff_ne] at hallowed
    obtain ⟨⟨⟨⟨⟨⟨⟨-, hdigit⟩, hx⟩, hu⟩, -⟩, hreturn⟩, -⟩, -⟩ := hallowed
    exact escapeEnd_of_one hd hx hu (octal_of_not_isDigit hdigit) (absurd · hreturn)
  | twoDigits digits =>
    obtain ⟨-, -, h⟩ := holds_cons.1 h
    obtain ⟨-, hmark, -⟩ := holds_cons.1 h
    simp [escapeEnd, hmark, text, hallowed.1]
  | fourDigits digits =>
    obtain ⟨-, -, h⟩ := holds_cons.1 h
    obtain ⟨-, hmark, h⟩ := holds_cons.1 h
    have hbrace : s.at_ (i + 2) ≠ '\x7b' := by
      have hlength : 0 < digits.length := by
        rw [hallowed.1]
        decide
      obtain ⟨d, rest, rfl⟩ := List.exists_cons_of_length_pos hlength
      obtain ⟨-, hd, -⟩ := holds_cons.1 h
      rw [hd]
      exact (brace_notMem_of_areDigits hallowed.2 d (by simp)).1
    simp [escapeEnd, hmark, hbrace, text, hallowed.1]
  | braced digits =>
    have hskip : s.skipWhile (· != '\x7d') i = i + (digits.length + 3) := by
      have hword : (braced digits).text ++ [c] = ('\\' :: 'u' :: '\x7b' :: digits ++ ['\x7d']) ++ [c] := by
        simp [text]
      rw [hword] at h
      rw [skipWhile_of_holds (holds_append.1 h).1 _ (by decide)]
      · rfl
      · have hdigits := brace_notMem_of_areDigits hallowed.1
        simp only [List.mem_cons, bne_iff_ne]
        rintro d (rfl | rfl | rfl | hd)
        · decide
        · decide
        · decide
        · exact (hdigits d hd).2
    obtain ⟨-, -, h⟩ := holds_cons.1 h
    obtain ⟨-, hmark, h⟩ := holds_cons.1 h
    obtain ⟨-, hbrace, -⟩ := holds_cons.1 h
    simp [escapeEnd, hmark, hbrace, text, hskip]
    omega
  | continued lineEnd =>
    obtain ⟨-, -, h⟩ := holds_cons.1 h
    cases lineEnd with
    | carriageReturn =>
      obtain ⟨-, hreturn, h⟩ := holds_cons.1 h
      obtain ⟨-, hc, -⟩ := holds_cons.1 h
      refine escapeEnd_of_one hreturn (by decide) (by decide) (by decide) fun _ => ?_
      rw [hc]
      simpa [isContinuedBy] using hnext
    | both =>
      obtain ⟨-, hreturn, h⟩ := holds_cons.1 h
      obtain ⟨-, hfeed, -⟩ := holds_cons.1 h
      simp [escapeEnd, hreturn, hfeed, text, LineEnd.text]
    | _ =>
      obtain ⟨-, hend, -⟩ := holds_cons.1 h
      exact escapeEnd_of_one hend (by decide) (by decide) (by decide) (absurd · (by decide))

end Sign

end Escapes

section Neighbours

variable {a b : Sign} {c d : Char} {quote : Quote} {signs : List Sign}

/-- Characters that continue no sign: those that a sign other than a character as it stands begins with, and
the quotes. -/
def IsNeutral (c : Char) : Prop :=
  c = '\\' ∨ c = '\r' ∨ ∃ quote : Quote, c = quote.char

theorem isNeutral_char (quote : Quote) : IsNeutral quote.char :=
  .inr (.inr ⟨quote, rfl⟩)

theorem isContinuedBy_of_isNeutral (h : IsNeutral c) : a.isContinuedBy quote c = false := by
  have hc : c ≠ '\x7b' ∧ c ≠ '\n' ∧ c.isDigit = false := by
    rcases h with rfl | rfl | ⟨q, rfl⟩
    · decide
    · decide
    · cases q <;> decide
  cases a <;> simp [Sign.isContinuedBy, hc]

/-- A sign begins with the character that it stands for as it is, or with a neutral one. -/
theorem eq_raw_or_isNeutral (h : c ∈ a.text.head?) : a = .raw c ∨ IsNeutral c := by
  cases a with
  | raw d =>
    obtain rfl : d = c := by simpa [Sign.text] using h
    exact .inl rfl
  | returned fed =>
    obtain rfl : '\r' = c := by cases fed <;> simpa [Sign.text] using h
    exact .inr (.inr (.inl rfl))
  | _ =>
    obtain rfl : '\\' = c := by simpa [Sign.text] using h
    exact .inr (.inl rfl)

theorem text_ne_nil (a : Sign) : a.text ≠ [] := by
  cases a with
  | returned fed => cases fed <;> simp [Sign.text]
  | _ => simp [Sign.text]

/-- What comes after a sign, another sign or a neutral character, does not continue it. -/
theorem isContinuedBy_of_head
    (happart : (a :: signs).IsChain (Sign.StaysApart quote))
    (hc : IsNeutral c)
    (h : d ∈ (signs.flatMap Sign.text ++ [c]).head?) :
    a.isContinuedBy quote d = false := by
  cases signs with
  | nil =>
    obtain rfl : c = d := by simpa using h
    exact isContinuedBy_of_isNeutral hc
  | cons b rest =>
    have hb : d ∈ b.text.head? := by
      rw [List.flatMap_cons, List.append_assoc, List.head?_append_of_ne_nil _ (text_ne_nil b)] at h
      exact h
    rcases eq_raw_or_isNeutral hb with rfl | hd
    · exact (List.isChain_cons_cons.1 happart).1
    · exact isContinuedBy_of_isNeutral hd

end Neighbours

section Parts

variable {s : Source} {i j : Nat} {w : List Char} {c : Char} {quote : Quote} {signs : List Sign}

/-- How a rule divides the inside of a literal: it stops at the closing quote, reads an escape by itself, and
what stands before the next escape or the closing quote as one fragment. -/
structure Divides
    (quote : Quote)
    (s : Source)
    (part : Rule Node) :
    Prop where
  stops :
    ∀ {i : Nat}, s.holds [quote.char] i = true → part s i = none
  escape :
    ∀ {a : Sign} {c : Char} {i : Nat},
      a.isLoose = false → a.IsAllowed quote → a.isContinuedBy quote c = false →
      s.holds (a.text ++ [c]) i = true →
      part s i = some (nodeAt s .escapeSequence i (i + a.text.length) [], i + a.text.length)
  fragment :
    ∀ {signs : List Sign} {c : Char} {i : Nat}, signs ≠ [] → (∀ a ∈ signs, a.isLoose) →
      (∀ a ∈ signs, a.IsAllowed quote) → signs.IsChain (Sign.StaysApart quote) →
      c = '\\' ∨ c = quote.char →
      s.holds (signs.flatMap Sign.text ++ [c]) i = true →
      part s i = some (nodeAt s .stringFragment i (i + (signs.flatMap Sign.text).length) [],
        i + (signs.flatMap Sign.text).length)

theorem bind_of_some
    {α β : Type}
    {r : Rule α}
    {f : α → Rule β}
    {a : α}
    (h : r s i = some (a, j)) :
    (r >>= f) s i = f a s j := by
  simp [bind, h]

theorem bind_of_none
    {α β : Type}
    {r : Rule α}
    {f : α → Rule β}
    (h : r s i = none) :
    (r >>= f) s i = none := by
  simp [bind, h]

theorem escape_of_backslash (h : s.at_ i = '\\') :
    escape s i = some (nodeAt s .escapeSequence i (s.escapeEnd i) [], s.escapeEnd i) := by
  simp [escape, exactly, h]

theorem escape_of_ne (h : s.at_ i ≠ '\\') : escape s i = none := by
  simp [escape, exactly, h]

theorem run_of_holds
    {p : Char → Bool}
    (kind : Kind)
    (hne : w ≠ [])
    (hw : ∀ d ∈ w, p d = true)
    (hc : p c = false)
    (h : s.holds (w ++ [c]) i = true) :
    run kind p s i = some (nodeAt s kind i (i + w.length) [], i + w.length) := by
  have hlength := List.length_pos_iff.2 hne
  simp [run, exactly, skipWhile_of_holds h hw hc, hlength]

theorem run_of_not
    {p : Char → Bool}
    (kind : Kind)
    (hc : p c = false)
    (h : s.holds [c] i = true) :
    run kind p s i = none := by
  have hskip : s.skipWhile p i = i := skipWhile_of_holds (w := []) h (by simp) hc
  simp [run, exactly, hskip]

theorem at_of_escape
    {a : Sign}
    (hloose : a.isLoose = false)
    (h : s.holds (a.text ++ [c]) i = true) :
    s.at_ i = '\\' := by
  cases a with
  | raw d => cases hloose
  | returned fed => cases hloose
  | _ => exact (holds_cons.1 h).2.1

/-- The rule for the inside of strings. -/
def stringPart (quote : Quote) : Rule Node :=
  oneOf [Rule.escape, run .stringFragment fun c => c != quote.char && c != '\\' && c != '\n']

theorem divides_stringPart
    (hquote : quote ≠ .tick)
    (s : Source) :
    Divides quote s (stringPart quote) where
  stops := by
    intro i h
    have hat := (holds_cons.1 h).2.1
    have hne : quote.char ≠ '\\' := by cases quote <;> decide
    simp [stringPart, oneOf, orElse, escape_of_ne (hat.trans_ne hne), run_of_not _ _ h, Rule.fail]
  escape := by
    intro a c i hloose hallowed hnext h
    have hend := a.escapeEnd_eq hloose hallowed hnext h
    simp [stringPart, oneOf, orElse, escape_of_backslash (at_of_escape hloose h), hend]
  fragment := by
    intro signs c i hne hloose hallowed _ hc h
    have hplain : ∀ d ∈ signs.flatMap Sign.text, d ≠ quote.char ∧ d ≠ '\\' ∧ d ≠ '\n' := by
      intro d hd
      obtain ⟨a, ha, hd⟩ := List.mem_flatMap.1 hd
      have hloose := hloose a ha
      have hallowed := hallowed a ha
      cases a with
      | raw e =>
        obtain rfl : d = e := by simpa [Sign.text] using hd
        exact ⟨hallowed.1, hallowed.2.1, hallowed.2.2.2 hquote⟩
      | returned fed => exact absurd hallowed hquote
      | _ => cases hloose
    have htext : signs.flatMap Sign.text ≠ [] := by
      obtain ⟨a, rest, rfl⟩ := List.exists_cons_of_ne_nil hne
      simp [text_ne_nil]
    have hat : s.at_ i ≠ '\\' := by
      obtain ⟨d, rest, hd⟩ := List.exists_cons_of_ne_nil htext
      rw [hd] at h hplain
      rw [(holds_cons.1 h).2.1]
      exact (hplain d (by simp)).2.1
    have hrun := run_of_holds (p := fun c => c != quote.char && c != '\\' && c != '\n') .stringFragment htext
      (fun d hd => by simpa [and_assoc] using hplain d hd) (by rcases hc with rfl | rfl <;> simp) h
    simp [stringPart, oneOf, orElse, escape_of_ne hat, hrun]

/-- Two characters that would begin a substitution. -/
def Opens (c d : Char) : Prop :=
  c = '$' ∧ d = '\x7b'

theorem not_opens_of_ne
    {c d : Char}
    (h : c ≠ '$') :
    ¬ Opens c d :=
  fun hopens => h hopens.1

/-- The text of a template reaches up to an escape or the closing quote, if no substitution begins in it. -/
theorem templateText_go_of_holds
    {n : Nat}
    (h : s.holds (w ++ [c]) i = true)
    (hw : ∀ d ∈ w, d ≠ Quote.tick.char ∧ d ≠ '\\')
    (hopens : (w ++ [c]).IsChain fun c d => ¬ Opens c d)
    (hc : c = '\\' ∨ c = Quote.tick.char)
    (hn : w.length ≤ n) :
    templateText.go s n i = i + w.length := by
  induction w generalizing i n with
  | nil =>
    obtain ⟨-, hat, -⟩ := holds_cons.1 h
    cases n with
    | zero => rfl
    | succ n => rcases hc with rfl | rfl <;> simp [templateText.go, hat, Quote.char]
  | cons d rest ih =>
    rw [List.cons_append] at h hopens
    obtain ⟨hi, hat, hrest⟩ := holds_cons.1 h
    obtain ⟨n, rfl⟩ : ∃ m, n = m + 1 := ⟨n - 1, by simp only [List.length_cons] at hn; omega⟩
    obtain ⟨e, more, hmore⟩ : ∃ e more, rest ++ [c] = e :: more :=
      List.exists_cons_of_ne_nil (by simp)
    have hnext : s.at_ (i + 1) = e := by
      rw [hmore] at hrest
      exact (holds_cons.1 hrest).2.1
    rw [hmore, List.isChain_cons_cons] at hopens
    have hd := hw d (by simp)
    have htick : d.toNat ≠ 96 := fun heq => hd.1 (by rw [← Char.ofNat_toNat d, heq]; rfl)
    have hgo : templateText.go s (n + 1) i = templateText.go s n (i + 1) := by
      rw [templateText.go, hat, hnext]
      refine if_neg ?_
      have hopens := hopens.1
      simp only [Opens] at hopens
      simp [hi, hd.2, htick]
      exact fun h₁ h₂ => hopens ⟨h₁, h₂⟩
    rw [hgo, ih hrest (fun e he => hw e (by simp [he])) (hmore ▸ hopens.2) (by simpa using hn),
      List.length_cons]
    omega

/-- No substitution begins among signs that stay apart. -/
theorem isChain_opens
    (hloose : ∀ a ∈ signs, a.isLoose)
    (happart : signs.IsChain (Sign.StaysApart .tick))
    (hc : IsNeutral c) :
    (signs.flatMap Sign.text ++ [c]).IsChain fun c d => ¬ Opens c d := by
  induction signs with
  | nil => simp
  | cons a rest ih =>
    have hrest := ih (fun b hb => hloose b (by simp [hb])) happart.tail
    have ha := hloose a (by simp)
    rw [List.flatMap_cons, List.append_assoc]
    cases a with
    | raw d =>
      refine hrest.cons fun e he hopens => ?_
      have hnext := isContinuedBy_of_head happart hc he
      simp [Sign.isContinuedBy, hopens.1, hopens.2] at hnext
    | returned fed =>
      have hreturn : ∀ e, ¬ Opens '\r' e := fun e => not_opens_of_ne (by decide)
      have hfeed : ∀ e, ¬ Opens '\n' e := fun e => not_opens_of_ne (by decide)
      cases fed with
      | true => exact (hrest.cons fun e _ => hfeed e).cons fun e _ => hreturn e
      | false => exact hrest.cons fun e _ => hreturn e
    | _ => cases ha

theorem templateText_of_stop (h : s.at_ i = '\\' ∨ s.at_ i = Quote.tick.char) :
    templateText s i = none := by
  have hgo : ∀ n, templateText.go s n i = i := by
    intro n
    cases n with
    | zero => rfl
    | succ n => rcases h with h | h <;> simp [templateText.go, h, Quote.char]
  simp [templateText, exactly, hgo]

/-- The rule for a substitution in a template. -/
def substitution (self : Reader) : Rule Node := do
  let l ← exactToken "$\x7b"
  let e ← self (.expressions true)
  let r ← token "\x7d"
  build .templateSubstitution [l, e, r]

/-- The rule for the inside of templates. -/
def templatePart (self : Reader) : Rule Node :=
  oneOf [templateText, Rule.escape, substitution self]

theorem divides_templatePart
    (self : Reader)
    (s : Source) :
    Divides .tick s (templatePart self) where
  stops := by
    intro i h
    have hat := (holds_cons.1 h).2.1
    have hdollar : exactToken "$\x7b" s i = none := by
      have hne : (s.at_ i == '$') = false := by
        rw [hat]
        decide
      simp [exactToken, exactly, holds, hne]
    have hescape : Rule.escape s i = none := escape_of_ne (by rw [hat]; decide)
    simp [templatePart, oneOf, orElse, templateText_of_stop (.inr hat), hescape, substitution,
      bind_of_none hdollar, Rule.fail]
  escape := by
    intro a c i hloose hallowed hnext h
    have hend := a.escapeEnd_eq hloose hallowed hnext h
    have hat := at_of_escape hloose h
    simp [templatePart, oneOf, orElse, templateText_of_stop (.inl hat), escape_of_backslash hat, hend]
  fragment := by
    intro signs c i hne hloose hallowed happart hc h
    have hplain : ∀ d ∈ signs.flatMap Sign.text, d ≠ Quote.tick.char ∧ d ≠ '\\' := by
      intro d hd
      obtain ⟨a, ha, hd⟩ := List.mem_flatMap.1 hd
      have hloose := hloose a ha
      have hallowed := hallowed a ha
      cases a with
      | raw e =>
        obtain rfl : d = e := by simpa [Sign.text] using hd
        exact ⟨hallowed.1, hallowed.2.1⟩
      | returned fed =>
        have hd : d = '\r' ∨ d = '\n' := by cases fed <;> simp [Sign.text] at hd <;> tauto
        rcases hd with rfl | rfl <;> decide
      | _ => cases hloose
    have htext : 0 < (signs.flatMap Sign.text).length := by
      obtain ⟨a, rest, rfl⟩ := List.exists_cons_of_ne_nil hne
      have := List.length_pos_iff.2 (text_ne_nil a)
      simp only [List.flatMap_cons, List.length_append]
      omega
    have hneutral : IsNeutral c := hc.imp_right fun hc => .inr ⟨.tick, hc⟩
    have hsize := le_size_of_holds (by simp) h
    have hgo := templateText_go_of_holds (n := s.size - i) h hplain (isChain_opens hloose happart hneutral) hc
      (by simp only [List.length_append] at hsize; omega)
    have hread : templateText s i = some (nodeAt s .stringFragment i
        (i + (signs.flatMap Sign.text).length) [], i + (signs.flatMap Sign.text).length) := by
      simp only [templateText, exactly, hgo]
      rw [if_pos (by omega)]
    simp only [templatePart, oneOf, orElse, hread]

end Parts

end StringLiteral

end RouteAtlas.Syntax
