import Mathlib
import RouteAtlas.Syntax.Literal

/-!
# String literals

A string may be written in many ways: between single or double quotes or as a template, with characters that
stand for themselves and with escapes. A literal is written with signs, each of which stands for some code
units, and it writes the string that has these code units in a row. A pair of surrogates may come from two
signs, so code units and not characters are what signs stand for.

The reader of literals knows the escapes of one letter and takes the character after any other backslash for
itself. What it reads is never shorter than what the signs stand for, so it reads the string that is written
exactly if each sign is read as what it stands for: if there are no numbered escapes, no continued lines and,
in templates, no line breaks with a carriage return.
-/

namespace RouteAtlas.Syntax

section Units

/-- The code units of a code point: itself, or a pair of surrogates. -/
def codeUnits (point : Nat) : List Nat :=
  if point < 0x10000 then [point]
  else [0xD800 + (point - 0x10000) / 0x400, 0xDC00 + (point - 0x10000) % 0x400]

/-- The code units of a text. -/
def unitsOf (cs : List Char) : List Nat :=
  cs.flatMap fun c => codeUnits c.toNat

theorem unitsOf_singleton (c : Char) : unitsOf [c] = codeUnits c.toNat := by
  simp [unitsOf]

theorem unitsOf_flatMap
    {α : Type}
    (f : α → List Char)
    (as : List α) :
    unitsOf (as.flatMap f) = as.flatMap fun a => unitsOf (f a) := by
  simp [unitsOf, List.flatMap_assoc]

theorem codeUnits_ne_nil (point : Nat) : codeUnits point ≠ [] := by
  unfold codeUnits
  split <;> simp

theorem length_codeUnits_le (point : Nat) : (codeUnits point).length ≤ 2 := by
  unfold codeUnits
  split <;> simp

theorem length_le_length_unitsOf (cs : List Char) : cs.length ≤ (unitsOf cs).length := by
  induction cs with
  | nil => simp
  | cons c rest ih =>
    have hpos := List.length_pos_iff.2 (codeUnits_ne_nil c.toNat)
    simp only [unitsOf, List.flatMap_cons, List.length_append, List.length_cons] at ih ⊢
    omega

theorem toNat_not_surrogate (c : Char) : c.toNat < 0xD800 ∨ 0xDFFF < c.toNat := by
  have := c.valid
  simp only [UInt32.isValidChar, Nat.isValidChar] at this
  simp only [Char.toNat]
  omega

/-- Characters are told from the code units at the start of a text. -/
theorem eq_of_codeUnits_append
    {c d : Char}
    {us vs : List Nat}
    (h : codeUnits c.toNat ++ us = codeUnits d.toNat ++ vs) :
    c = d ∧ us = vs := by
  have hc := toNat_not_surrogate c
  have hd := toNat_not_surrogate d
  have hsame : c.toNat = d.toNat → c = d := fun heq => Char.ext (UInt32.toNat_inj.1 heq)
  have hbound : c.toNat < 0x110000 ∧ d.toNat < 0x110000 := by
    have hvalid := c.valid
    have hvalid' := d.valid
    simp only [UInt32.isValidChar, Nat.isValidChar] at hvalid hvalid'
    simp only [Char.toNat]
    omega
  unfold codeUnits at h
  split at h <;> split at h <;>
    simp only [List.cons_append, List.nil_append, List.cons.injEq] at h
  · exact ⟨hsame h.1, h.2⟩
  -- the first unit of one of them is a surrogate, and the other one is no surrogate
  · omega
  · omega
  · exact ⟨hsame (by omega), h.2.2⟩

theorem unitsOf_injective : Function.Injective unitsOf := by
  intro cs
  induction cs with
  | nil =>
    intro ds h
    cases ds with
    | nil => rfl
    | cons d rest =>
      have hlength := length_le_length_unitsOf (d :: rest)
      rw [← h] at hlength
      simp [unitsOf] at hlength
  | cons c rest ih =>
    intro ds h
    cases ds with
    | nil =>
      have hlength := length_le_length_unitsOf (c :: rest)
      rw [h] at hlength
      simp [unitsOf] at hlength
    | cons d more =>
      obtain ⟨rfl, hrest⟩ := eq_of_codeUnits_append h
      rw [ih hrest]

end Units

namespace StringLiteral

section Signs

/-- What a literal is written between. -/
inductive Quote where
  | single
  | double
  | tick
  deriving DecidableEq, Repr

/-- The character that a quote is. -/
def Quote.char : Quote → Char
  | .single => Char.ofNat 39
  | .double => '"'
  | .tick => Char.ofNat 96

/-- What ends a line. -/
inductive LineEnd where
  | lineFeed
  | carriageReturn
  | both
  | lineSeparator
  | paragraphSeparator
  deriving DecidableEq, Repr

/-- The characters that a line is ended with. -/
def LineEnd.text : LineEnd → List Char
  | .lineFeed => ['\n']
  | .carriageReturn => ['\r']
  | .both => ['\r', '\n']
  | .lineSeparator => [Char.ofNat 0x2028]
  | .paragraphSeparator => [Char.ofNat 0x2029]

/-- What a literal is written with: a character as it stands, a line break with a carriage return, an escape
of one letter, a backslash before a character that stands for itself, escapes with two or four hexadecimal
digits or with digits in braces, and a backslash at the end of a line. -/
inductive Sign where
  | raw (c : Char)
  | returned (fed : Bool)
  | simple (letter : Char)
  | itself (c : Char)
  | twoDigits (digits : List Char)
  | fourDigits (digits : List Char)
  | braced (digits : List Char)
  | continued (lineEnd : LineEnd)
  deriving DecidableEq, Repr

namespace Sign

/-- How a sign is written. -/
def text : Sign → List Char
  | raw c => [c]
  | returned fed => if fed then ['\r', '\n'] else ['\r']
  | simple letter => ['\\', letter]
  | itself c => ['\\', c]
  | twoDigits digits => '\\' :: 'x' :: digits
  | fourDigits digits => '\\' :: 'u' :: digits
  | braced digits => '\\' :: 'u' :: '\x7b' :: (digits ++ ['\x7d'])
  | continued lineEnd => '\\' :: lineEnd.text

/-- The code that an escape of one letter stands for. -/
def simpleCode? : Char → Option Nat
  | 'b' => some 8
  | 't' => some 9
  | 'n' => some 10
  | 'v' => some 11
  | 'f' => some 12
  | 'r' => some 13
  | '0' => some 0
  | _ => none

/-- The number that hexadecimal digits denote. -/
def number (digits : List Char) : Nat :=
  Numeral.ofDigits 16 (digits.filterMap Numeral.hexValue?)

/-- The code units that a sign stands for. A line break with a carriage return stands for a line feed, and a
line that is continued for nothing. -/
def units : Sign → List Nat
  | raw c => codeUnits c.toNat
  | returned _ => [10]
  | simple letter => [(simpleCode? letter).getD 0]
  | itself c => codeUnits c.toNat
  | twoDigits digits => [number digits]
  | fourDigits digits => [number digits]
  | braced digits => codeUnits (number digits)
  | continued _ => []

/-- Characters that have another meaning after a backslash than their own. -/
def isSpecial (c : Char) : Bool :=
  (simpleCode? c).isSome || c.isDigit || c == 'x' || c == 'u' || c == '\n' || c == '\r' ||
    c.toNat == 0x2028 || c.toNat == 0x2029

/-- Whether characters are hexadecimal digits, at least one. -/
def AreDigits (digits : List Char) : Prop :=
  digits ≠ [] ∧ digits.all fun d => (Numeral.hexValue? d).isSome

/-- Whether a sign may stand in a literal. Line breaks stand in templates only, and one with a carriage return
is a sign of its own. -/
def IsAllowed
    (quote : Quote) :
    Sign → Prop
  | raw c => c ≠ quote.char ∧ c ≠ '\\' ∧ c ≠ '\r' ∧ (quote ≠ .tick → c ≠ '\n')
  | returned _ => quote = .tick
  | simple letter => (simpleCode? letter).isSome
  | itself c => isSpecial c = false
  | twoDigits digits => digits.length = 2 ∧ AreDigits digits
  | fourDigits digits => digits.length = 4 ∧ AreDigits digits
  | braced digits => AreDigits digits ∧ number digits < 0x110000
  | continued _ => True

/-- Whether a character, as it stands, would be taken for a part of the sign before it. -/
def isContinuedBy
    (quote : Quote) :
    Sign → Char → Bool
  | raw c, d => quote == .tick && c == '$' && d == '\x7b'
  | returned fed, d => !fed && d == '\n'
  | simple letter, d => letter == '0' && d.isDigit
  | continued lineEnd, d => lineEnd == .carriageReturn && d == '\n'
  | _, _ => false

/-- Whether a sign is not continued by the one after it. -/
def StaysApart
    (quote : Quote)
    (a : Sign) :
    Sign → Prop
  | raw d => a.isContinuedBy quote d = false
  | _ => True

instance (digits : List Char) : Decidable (AreDigits digits) :=
  inferInstanceAs (Decidable (_ ∧ _))

instance
    (quote : Quote)
    (a : Sign) :
    Decidable (a.IsAllowed quote) :=
  match a with
  | raw _ => inferInstanceAs (Decidable (_ ∧ _ ∧ _ ∧ (_ → _)))
  | returned _ | simple _ | itself _ => inferInstanceAs (Decidable (_ = _))
  | twoDigits _ | fourDigits _ | braced _ => inferInstanceAs (Decidable (_ ∧ _))
  | continued _ => inferInstanceAs (Decidable True)

instance
    (quote : Quote)
    (a b : Sign) :
    Decidable (a.StaysApart quote b) :=
  match b with
  | raw _ => inferInstanceAs (Decidable (_ = _))
  | returned _ | simple _ | itself _ | twoDigits _ | fourDigits _ | braced _ | continued _ =>
    inferInstanceAs (Decidable True)

/-- Whether a sign stands in the text of a fragment, and is no escape. -/
def isLoose : Sign → Bool
  | raw _ | returned _ => true
  | _ => false

/-- Signs that are read as what they stand for. -/
def isPlain : Sign → Bool
  | raw _ | simple _ | itself _ => true
  | _ => false

end Sign

end Signs

end StringLiteral

open StringLiteral

/-- A string literal without substitutions: a quote, and signs of which none is continued by the next one. -/
structure StringLiteral where
  quote : Quote
  signs : List Sign
  isAllowed : ∀ a ∈ signs, a.IsAllowed quote
  staysApart : signs.IsChain (Sign.StaysApart quote)

namespace StringLiteral

section Meaning

/-- The text between the quotes. -/
def inner (l : StringLiteral) : List Char :=
  l.signs.flatMap Sign.text

/-- The text of a literal. -/
def text (l : StringLiteral) : List Char :=
  l.quote.char :: (l.inner ++ [l.quote.char])

/-- Whether a literal writes a string. -/
def Writes
    (l : StringLiteral)
    (v : String) :
    Prop :=
  unitsOf v.toList = l.signs.flatMap Sign.units

instance
    (l : StringLiteral)
    (v : String) :
    Decidable (l.Writes v) :=
  inferInstanceAs (Decidable (_ = _))

/-- Whether all signs of a literal are read as what they stand for. -/
def IsPlain (l : StringLiteral) : Prop :=
  ∀ a ∈ l.signs, a.isPlain

instance (l : StringLiteral) : Decidable l.IsPlain :=
  inferInstanceAs (Decidable (∀ a ∈ l.signs, a.isPlain = true))

/-- A literal writes one string at most. -/
theorem Writes.unique
    {l : StringLiteral}
    {v w : String}
    (hv : l.Writes v)
    (hw : l.Writes w) :
    v = w :=
  String.toList_inj.1 (unitsOf_injective (hv.trans hw.symm))

end Meaning

section Reading

namespace Sign

variable {a : Sign} {quote : Quote}

/-- What is read of the characters behind a backslash. -/
def afterBackslash (cs : List Char) : List Char :=
  match Node.simpleEscape? cs with
  | some c => [c]
  | none => cs

/-- What is read of a sign. -/
def reading (a : Sign) : List Char :=
  if a.isLoose then a.text else afterBackslash (a.text.drop 1)

theorem afterBackslash_of_length
    {cs : List Char}
    (h : cs.length ≠ 1) :
    afterBackslash cs = cs := by
  unfold afterBackslash
  rw [show Node.simpleEscape? cs = none by unfold Node.simpleEscape?; split <;> simp_all]

/-- Escapes of one letter are known to the reader. -/
theorem simpleEscape?_eq (letter : Char) :
    Node.simpleEscape? [letter] = (simpleCode? letter).map Char.ofNat := by
  unfold simpleCode?
  split
  case h_8 =>
    unfold Node.simpleEscape?
    split <;> simp_all
  all_goals rfl

theorem codeUnits_of_simpleCode?
    {letter : Char}
    {code : Nat}
    (h : simpleCode? letter = some code) :
    codeUnits (Char.ofNat code).toNat = [code] := by
  unfold simpleCode? at h
  split at h
  case h_8 => cases h
  all_goals
    obtain rfl := Option.some.inj h
    rfl

theorem units_reading_of_isPlain
    (hallowed : a.IsAllowed quote)
    (hplain : a.isPlain) :
    unitsOf a.reading = a.units := by
  cases a with
  | raw c => exact unitsOf_singleton c
  | simple letter =>
    obtain ⟨code, hcode⟩ := Option.isSome_iff_exists.1 hallowed
    have hread : (simple letter).reading = [Char.ofNat code] := by
      simp [reading, isLoose, text, afterBackslash, simpleEscape?_eq, hcode]
    rw [hread, unitsOf_singleton, units, hcode, codeUnits_of_simpleCode? hcode]
    rfl
  | itself c =>
    have hnone : simpleCode? c = none := by
      simp only [IsAllowed, isSpecial, Bool.or_eq_false_iff] at hallowed
      simpa using hallowed.1.1.1.1.1.1.1
    have hread : (itself c).reading = [c] := by
      simp [reading, isLoose, text, afterBackslash, simpleEscape?_eq, hnone]
    rw [hread, unitsOf_singleton, units]
  | _ => cases hplain

/-- What is read of a sign is at least as long as what it stands for, and is something else if the sign is not
plain. -/
theorem units_reading_of_not_isPlain
    (hallowed : a.IsAllowed quote)
    (hplain : a.isPlain = false) :
    a.units.length ≤ (unitsOf a.reading).length ∧ unitsOf a.reading ≠ a.units := by
  have hlonger (h : a.units.length < a.reading.length) :
      a.units.length ≤ (unitsOf a.reading).length ∧ unitsOf a.reading ≠ a.units := by
    have hlength := length_le_length_unitsOf a.reading
    exact ⟨by omega, fun heq => by rw [heq] at hlength; omega⟩
  cases a with
  | returned fed =>
    cases fed with
    | true => exact hlonger (by simp [units, reading, isLoose, text])
    | false => decide
  | twoDigits digits =>
    refine hlonger ?_
    rw [reading, if_neg (by simp [isLoose]), afterBackslash_of_length (by simp [text, hallowed.1])]
    simp [units, text, hallowed.1]
  | fourDigits digits =>
    refine hlonger ?_
    rw [reading, if_neg (by simp [isLoose]), afterBackslash_of_length (by simp [text, hallowed.1])]
    simp [units, text, hallowed.1]
  | braced digits =>
    have hdigits := List.length_pos_iff.2 hallowed.1.1
    have hunits := length_codeUnits_le (number digits)
    refine hlonger ?_
    rw [reading, if_neg (by simp [isLoose]), afterBackslash_of_length (by simp [text])]
    simp only [units, text, List.drop_succ_cons, List.drop_zero, List.length_cons, List.length_append]
    omega
  | continued lineEnd => cases lineEnd <;> exact hlonger (by decide)
  | _ => cases hplain

end Sign

/-- Lists that are put together from pieces, those of one of them being at least as long, are equal only if the
pieces are. -/
theorem flatMap_eq_flatMap_iff
    {α β : Type}
    {f g : α → List β}
    {as : List α}
    (h : ∀ a ∈ as, (g a).length ≤ (f a).length) :
    as.flatMap f = as.flatMap g ↔ ∀ a ∈ as, f a = g a := by
  refine ⟨fun heq => ?_, List.flatMap_congr⟩
  induction as with
  | nil => simp
  | cons a rest ih =>
    rw [List.forall_mem_cons] at h ⊢
    have hrest : (rest.flatMap g).length ≤ (rest.flatMap f).length := by
      rw [List.length_flatMap, List.length_flatMap]
      exact List.sum_le_sum h.2
    have hlength := congrArg List.length heq
    simp only [List.flatMap_cons, List.length_append] at heq hlength
    obtain ⟨ha, hrest⟩ := List.append_inj heq (by have := h.1; omega)
    exact ⟨ha, ih h.2 hrest⟩

/-- What is read of a literal. -/
def reading (l : StringLiteral) : String :=
  String.ofList (l.signs.flatMap Sign.reading)

/-- What is read of a literal is what it writes exactly if all signs are plain. -/
theorem writes_reading_iff (l : StringLiteral) : l.Writes l.reading ↔ l.IsPlain := by
  have hlength : ∀ a ∈ l.signs, a.units.length ≤ (unitsOf a.reading).length := by
    intro a ha
    cases hplain : a.isPlain with
    | true => rw [Sign.units_reading_of_isPlain (l.isAllowed a ha) hplain]
    | false => exact (Sign.units_reading_of_not_isPlain (l.isAllowed a ha) hplain).1
  rw [Writes, reading, String.toList_ofList, unitsOf_flatMap, flatMap_eq_flatMap_iff hlength]
  refine forall₂_congr fun a ha => ⟨fun heq => ?_, Sign.units_reading_of_isPlain (l.isAllowed a ha)⟩
  by_contra hplain
  exact (Sign.units_reading_of_not_isPlain (l.isAllowed a ha) (by simpa using hplain)).2 heq

end Reading

end StringLiteral

end RouteAtlas.Syntax
