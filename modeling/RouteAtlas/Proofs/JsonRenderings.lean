import Mathlib
import RouteAtlas.Json.WithComments
import RouteAtlas.Proofs.Entries

/-!
# Texts of JSON with comments

A text of JSON with comments is made of tokens with gaps between them. A gap holds white space and
comments, in any order; the last item of a list or a mapping may be followed by a comma, and so may the
opening bracket of an empty one. A document is such a text with its structure, from which the value that
it writes can be told without reading the text.

Readers that go through the text from left to right change gaps, final commas or the inside of strings.
A change of these parts is carried out on a document as a whole once it is carried out on each part.
-/

namespace RouteAtlas.Json

section Gaps

/-- Where a reader of white space and comments stands: between tokens, after a slash, in a comment that
ends with its line, in one that ends with a star and a slash, or after a star in the latter. -/
inductive Place where
  | between
  | slash
  | line
  | block
  | star
  deriving DecidableEq, Repr

/-- Where a character leads, if it may stand there. -/
def Place.step? : Place → Char → Option Place
  | between, c => if c = '/' then some slash else if isSpace c then some between else none
  | slash, c => if c = '/' then some line else if c = '*' then some block else none
  | line, c => some (if c = '\n' ∨ c = '\r' then between else line)
  | block, c => some (if c = '*' then star else block)
  | star, c => some (if c = '/' then between else if c = '*' then star else block)

/-- Where a text leads, if it may stand there. -/
def Place.run? : Place → List Char → Option Place
  | p, [] => some p
  | p, c :: cs => (p.step? c).bind fun q => q.run? cs

/-- White space and comments between two tokens. -/
structure Gap where
  chars : List Char
  run_eq : Place.between.run? chars = some .between

/-- Whether a gap holds no comment. -/
def Gap.IsBlank (g : Gap) : Prop :=
  ∀ c ∈ g.chars, isSpace c = true

/-- What stands before a closing bracket: a gap, and perhaps a comma with one more gap. -/
structure Ending where
  gap : Gap
  comma : Option Gap

/-- The text before a closing bracket. -/
def Ending.text (e : Ending) : List Char :=
  match e.comma with
  | none => e.gap.chars
  | some g => e.gap.chars ++ ',' :: g.chars

end Gaps

section Strings

/-- Four hexadecimal digits and the number that they write. -/
structure CodeUnit where
  digits : List Char
  number : Nat
  length_eq : digits.length = 4
  reads : Numeral.readBase? 16 digits = some number

/-- A character of a string as it is written: as itself, by a one-letter escape, by its code point, or
by the two halves of a surrogate pair. -/
inductive Piece where
  | plain (c : Char) (h : c ≠ '"' ∧ c ≠ '\\' ∧ 32 ≤ c.toNat)
  | escape (letter c : Char) (h : simpleEscape? letter = some c)
  | unit (u : CodeUnit) (h : isHighHalf u.number = false ∧ isLowHalf u.number = false)
  | pair (high low : CodeUnit) (h : isHighHalf high.number = true ∧ isLowHalf low.number = true)

namespace Piece

/-- The text of a character of a string. -/
def text : Piece → List Char
  | plain c _ => [c]
  | escape letter _ _ => ['\\', letter]
  | unit u _ => '\\' :: 'u' :: u.digits
  | pair high low _ => '\\' :: 'u' :: (high.digits ++ '\\' :: 'u' :: low.digits)

/-- The character that is written. -/
def meaning : Piece → Char
  | plain c _ => c
  | escape _ c _ => c
  | unit u _ => charOf u.number
  | pair high low _ => charOf (0x10000 + (high.number - 0xD800) * 0x400 + (low.number - 0xDC00))

end Piece

/-- The text between the quotes of a string. -/
def spelled (s : List Piece) : List Char :=
  s.flatMap Piece.text

/-- The text of a string, its quotes included. -/
def quoted (s : List Piece) : List Char :=
  '"' :: (spelled s ++ ['"'])

/-- The string that is written. -/
def meaning (s : List Piece) : String :=
  String.ofList (s.map Piece.meaning)

end Strings

section Figures

/-- The exponent of a number as it is written. -/
structure Exponent where
  letter : Char
  sign : Option Bool
  digits : List Char
  number : Nat
  letter_eq : letter = 'e' ∨ letter = 'E'
  isDigit : ∀ c ∈ digits, c.isDigit
  reads : Numeral.readBase? 10 digits = some number

namespace Exponent

/-- The text of an exponent, its letter included. A sign is either a minus or a plus. -/
def text (e : Exponent) : List Char :=
  e.letter :: ((e.sign.map fun minus => if minus then '-' else '+').toList ++ e.digits)

/-- The exponent that is written. -/
def value (e : Exponent) : Int :=
  if e.sign = some true then -(e.number : Int) else e.number

end Exponent

/-- A number as it is written. A whole part of several digits does not start with a zero. -/
structure Figure where
  negative : Bool
  whole : List Char
  part : List Char
  exponent : Option Exponent
  whole_ne_nil : whole ≠ []
  isDigit_whole : ∀ c ∈ whole, c.isDigit
  whole_eq_zero : whole.head? = some '0' → whole = ['0']
  isDigit_part : ∀ c ∈ part, c.isDigit

namespace Figure

/-- The text of a number after its whole part. -/
def tail (x : Figure) : List Char :=
  (if x.part = [] then [] else '.' :: x.part) ++ (x.exponent.map Exponent.text).getD []

/-- The text of a number. -/
def text (x : Figure) : List Char :=
  if x.negative then '-' :: (x.whole ++ x.tail) else x.whole ++ x.tail

/-- The number that is written: a whole one if there is neither a point nor an exponent, else the
floating-point number nearest to it. -/
def value (x : Figure) : Value :=
  if x.part = [] ∧ x.exponent = none then
    let n : Int := Numeral.ofDigits 10 (x.whole.map fun c => c.toNat - 48)
    .int (if x.negative then -n else n)
  else
    .float (Numeral.Decimal.toBinary64
      ⟨x.whole ++ x.part, x.part.length, (x.exponent.map Exponent.value).getD 0⟩ x.negative)

/-- Whether a number is not a whole one with more digits than can be read. -/
def IsShort (x : Figure) : Prop :=
  x.part = [] → x.exponent = none → x.whole.length ≤ Numeral.maxDigits

end Figure

end Figures

section Documents

/-- The brackets around the items of a list and around the members of a mapping. -/
inductive Bracket where
  | square
  | curly
  deriving DecidableEq, Repr

namespace Bracket

/-- The opening bracket. -/
def opening : Bracket → Char
  | square => '['
  | curly => '\x7b'

/-- The closing bracket. -/
def closing : Bracket → Char
  | square => ']'
  | curly => '\x7d'

/-- The value that brackets make of values with their keys. The items of a list have none. -/
def collect : Bracket → List (String × Value) → Value
  | square, vs => .list (vs.map Prod.snd)
  | curly, vs => .map (ofPairs vs)

end Bracket

/-- What stands before a value in brackets: nothing in a list, the key with its colon in a mapping. -/
inductive Label : Bracket → Type where
  | item : Label .square
  | key (name : List Piece) (before after : Gap) : Label .curly

namespace Label

variable {b : Bracket}

/-- The text before a value in brackets. -/
def text : Label b → List Char
  | item => []
  | key name before after => quoted name ++ (before.chars ++ ':' :: after.chars)

/-- The key of a value. -/
def name : Label b → String
  | item => ""
  | key name _ _ => meaning name

end Label

mutual

/-- A value of JSON with comments as it is written. -/
inductive Doc where
  | word (w : String × Value) (h : w ∈ words)
  | number (x : Figure)
  | string (s : List Piece)
  | empty (b : Bracket) (ending : Ending)
  | filled (b : Bracket) (before : Gap) (entries : Entries b)

/-- The values between brackets as they are written, at least one, with commas between them. -/
inductive Entries : Bracket → Type where
  | last {b : Bracket} (label : Label b) (value : Doc) (ending : Ending) : Entries b
  | more {b : Bracket} (label : Label b) (value : Doc) (after before : Gap) (rest : Entries b) :
      Entries b

end

mutual

/-- The text of a value. -/
def Doc.text : Doc → List Char
  | .word w _ => w.1.toList
  | .number x => x.text
  | .string s => quoted s
  | .empty b ending => b.opening :: (ending.text ++ [b.closing])
  | .filled b before entries => b.opening :: (before.chars ++ (entries.text ++ [b.closing]))

/-- The text of the values between brackets, up to the closing bracket. -/
def Entries.text {b : Bracket} : Entries b → List Char
  | .last label value ending => label.text ++ (value.text ++ ending.text)
  | .more label value after before rest =>
    label.text ++ (value.text ++ (after.chars ++ ',' :: (before.chars ++ rest.text)))

end

mutual

/-- The value that is written. -/
def Doc.value : Doc → Value
  | .word w _ => w.2
  | .number x => x.value
  | .string s => .str (meaning s)
  | .empty b _ => b.collect []
  | .filled b _ entries => b.collect entries.values

/-- The values between brackets with their keys. -/
def Entries.values {b : Bracket} : Entries b → List (String × Value)
  | .last label value _ => [(label.name, value.value)]
  | .more label value _ _ rest => (label.name, value.value) :: rest.values

end

mutual

/-- Whether no mapping writes a key twice. -/
def Doc.KeysApart : Doc → Prop
  | .filled b _ entries => entries.KeysApart ∧ (b = .curly → (entries.values.map Prod.fst).Nodup)
  | _ => True

/-- Whether no mapping among the values between brackets writes a key twice. -/
def Entries.KeysApart {b : Bracket} : Entries b → Prop
  | .last _ value _ => value.KeysApart
  | .more _ value _ _ rest => value.KeysApart ∧ rest.KeysApart

end

/-- A text of JSON with comments: a value with gaps before and after it. The last comment may end with
the text instead of its line. -/
structure Rendering where
  before : Gap
  doc : Doc
  after : List Char
  run_eq : Place.between.run? after = some .between ∨ Place.between.run? after = some .line

/-- The characters of a text of JSON with comments. -/
def Rendering.chars (r : Rendering) : List Char :=
  r.before.chars ++ (r.doc.text ++ r.after)

end Documents

section Parts

/-- The parts of a text that readers may change or refuse. -/
inductive Part where
  | gap (g : Gap)
  | ending (e : Ending)
  | string (s : List Piece)
  | number (x : Figure)

/-- The parts of the text before a value in brackets. -/
def Label.parts {b : Bracket} : Label b → List Part
  | item => []
  | key name before after => [.string name, .gap before, .gap after]

mutual

/-- The parts of the text of a value. -/
def Doc.parts : Doc → List Part
  | .word _ _ => []
  | .number x => [.number x]
  | .string s => [.string s]
  | .empty _ ending => [.ending ending]
  | .filled _ before entries => .gap before :: entries.parts

/-- The parts of the text of the values between brackets. -/
def Entries.parts {b : Bracket} : Entries b → List Part
  | .last label value ending => label.parts ++ (value.parts ++ [.ending ending])
  | .more label value after before rest =>
    label.parts ++ (value.parts ++ (.gap after :: .gap before :: rest.parts))

end

/-- Whether a part may stand in JSON without comments. -/
def Part.IsStrict : Part → Prop
  | gap g => g.IsBlank
  | ending e => e.gap.IsBlank ∧ e.comma = none
  | string _ => True
  | number _ => True

/-- Whether a part is not a whole number with more digits than can be read. -/
def Part.IsShort : Part → Prop
  | number x => x.IsShort
  | _ => True

namespace Rendering

variable (r : Rendering)

/-- Whether a text is JSON as it stands: without comments and without final commas. -/
def IsStrict : Prop :=
  r.before.IsBlank ∧ (∀ p ∈ r.doc.parts, p.IsStrict) ∧ ∀ c ∈ r.after, isSpace c = true

/-- Whether no whole number of a text has more digits than can be read. -/
def IsShort : Prop :=
  ∀ p ∈ r.doc.parts, p.IsShort

end Rendering

end Parts

section Changes

/-- A change of gaps, endings and strings. -/
structure Change where
  gap : Gap → Gap
  ending : Ending → Ending
  string : List Piece → List Piece

namespace Change

variable (m m' : Change)

/-- The part of a text after a change. -/
def part : Part → Part
  | .gap g => .gap (m.gap g)
  | .ending e => .ending (m.ending e)
  | .string s => .string (m.string s)
  | .number x => .number x

/-- One change after another. -/
def comp : Change where
  gap := m'.gap ∘ m.gap
  ending := m'.ending ∘ m.ending
  string := m'.string ∘ m.string

/-- What stands before a value in brackets after a change. -/
def label {b : Bracket} : Label b → Label b
  | .item => .item
  | .key name before after => .key (m.string name) (m.gap before) (m.gap after)

end Change

mutual

/-- A value as it is written after a change. -/
def Doc.map (m : Change) : Doc → Doc
  | .word w h => .word w h
  | .number x => .number x
  | .string s => .string (m.string s)
  | .empty b ending => .empty b (m.ending ending)
  | .filled b before entries => .filled b (m.gap before) (entries.map m)

/-- The values between brackets as they are written after a change. -/
def Entries.map (m : Change) {b : Bracket} : Entries b → Entries b
  | .last label value ending => .last (m.label label) (value.map m) (m.ending ending)
  | .more label value after before rest =>
    .more (m.label label) (value.map m) (m.gap after) (m.gap before) (rest.map m)

end

theorem Label.parts_map
    (m : Change)
    {b : Bracket}
    (l : Label b) :
    (m.label l).parts = l.parts.map m.part := by
  cases l <;> rfl

mutual

theorem Doc.parts_map (m : Change) : (d : Doc) → (d.map m).parts = d.parts.map m.part
  | .word _ _ => rfl
  | .number _ => rfl
  | .string _ => rfl
  | .empty _ _ => rfl
  | .filled _ before entries => by
    simp [Doc.map, Doc.parts, entries.parts_map m, Change.part]

theorem Entries.parts_map
    (m : Change)
    {b : Bracket} :
    (es : Entries b) → (es.map m).parts = es.parts.map m.part
  | .last label value ending => by
    simp [Entries.map, Entries.parts, label.parts_map m, value.parts_map m, Change.part]
  | .more label value after before rest => by
    simp [Entries.map, Entries.parts, label.parts_map m, value.parts_map m, rest.parts_map m,
      Change.part]

end

theorem Change.label_comp
    (m m' : Change)
    {b : Bracket}
    (l : Label b) :
    (m.comp m').label l = m'.label (m.label l) := by
  cases l <;> rfl

mutual

theorem Doc.map_comp (m m' : Change) : (d : Doc) → d.map (m.comp m') = (d.map m).map m'
  | .word _ _ => rfl
  | .number _ => rfl
  | .string _ => rfl
  | .empty _ _ => rfl
  | .filled b before entries =>
    congrArg (Doc.filled b (m'.gap (m.gap before))) (entries.map_comp m m')

theorem Entries.map_comp
    (m m' : Change)
    {b : Bracket} :
    (es : Entries b) → es.map (m.comp m') = (es.map m).map m'
  | .last label value ending => by
    simp only [Entries.map, m.label_comp m' label, value.map_comp m m']
    rfl
  | .more label value after before rest => by
    simp only [Entries.map, m.label_comp m' label, value.map_comp m m', rest.map_comp m m']
    rfl

end

end Changes

section Values

/-- Brackets around values show these values, if keys are not written twice. -/
theorem Bracket.collect_inj
    {b : Bracket}
    {vs vs' : List (String × Value)}
    (hlength : vs'.length = vs.length)
    (hitems : b = .square → vs'.map Prod.fst = vs.map Prod.fst)
    (hmembers : b = .curly → (vs.map Prod.fst).Nodup)
    (h : b.collect vs' = b.collect vs) :
    vs' = vs := by
  cases b with
  | square =>
    have hvalues : vs'.map Prod.snd = vs.map Prod.snd := Value.list.inj h
    rw [← List.zip_unzip vs', ← List.zip_unzip vs, List.unzip_eq_map, List.unzip_eq_map]
    exact congrArg₂ List.zip (hitems rfl) hvalues
  | curly =>
    have hself := ofPairs_of_nodup (hmembers rfl)
    have hvalues : ofPairs vs' = vs := (Value.map.inj h).trans hself
    rw [← hvalues]
    exact (ofPairs_of_length_eq (by rw [hvalues, hlength])).symm

variable {m : Change}

theorem Label.name_map_of_kept
    {b : Bracket}
    (l : Label b)
    (h : ∀ s, .string s ∈ l.parts → m.string s = s) :
    (m.label l).name = l.name := by
  cases l with
  | item => rfl
  | key name before after => exact congrArg meaning (h name (by simp [Label.parts]))

mutual

/-- A change that keeps the strings of a document keeps its value. -/
theorem Doc.value_map_of_kept :
    (d : Doc) → (∀ s, .string s ∈ d.parts → m.string s = s) → (d.map m).value = d.value
  | .word _ _, _ => rfl
  | .number _, _ => rfl
  | .string s, h => congrArg (fun s => Value.str (meaning s)) (h s (by simp [Doc.parts]))
  | .empty _ _, _ => rfl
  | .filled b before entries, h =>
    congrArg b.collect (entries.values_map_of_kept fun s hs => h s (by simp [Doc.parts, hs]))

theorem Entries.values_map_of_kept {b : Bracket} :
    (es : Entries b) → (∀ s, .string s ∈ es.parts → m.string s = s) → (es.map m).values = es.values
  | .last label value ending, h => by
    have hname := label.name_map_of_kept fun s hs => h s (by simp [Entries.parts, hs])
    have hvalue := value.value_map_of_kept fun s hs => h s (by simp [Entries.parts, hs])
    simp only [Entries.map, Entries.values, hname, hvalue]
  | .more label value after before rest, h => by
    have hname := label.name_map_of_kept fun s hs => h s (by simp [Entries.parts, hs])
    have hvalue := value.value_map_of_kept fun s hs => h s (by simp [Entries.parts, hs])
    have hrest := rest.values_map_of_kept fun s hs => h s (by simp [Entries.parts, hs])
    simp only [Entries.map, Entries.values, hname, hvalue, hrest]

end

theorem Entries.length_values_map
    {b : Bracket} :
    (es : Entries b) → (es.map m).values.length = es.values.length
  | .last _ _ _ => rfl
  | .more _ _ _ _ rest => congrArg Nat.succ rest.length_values_map

/-- The items of a list have no keys. -/
theorem Label.name_of_square
    {b : Bracket}
    (hb : b = .square)
    (l : Label b) :
    l.name = "" := by
  cases l with
  | item => rfl
  | key name before after => cases hb

theorem Entries.keys_map_of_square
    {b : Bracket}
    (hb : b = .square) :
    (es : Entries b) → (es.map m).values.map Prod.fst = es.values.map Prod.fst
  | .last label _ _ => by
    simp [Entries.map, Entries.values, Label.name_of_square hb]
  | .more label _ _ _ rest => by
    simp [Entries.map, Entries.values, Label.name_of_square hb, rest.keys_map_of_square hb]

section Kept

variable (hm : ∀ s, meaning (m.string s) = meaning s → m.string s = s)

include hm

theorem Label.kept_of_name_map
    {b : Bracket}
    (l : Label b)
    (h : (m.label l).name = l.name) :
    ∀ s, .string s ∈ l.parts → m.string s = s := by
  cases l with
  | item => simp [Label.parts]
  | key name before after =>
    intro s hs
    obtain rfl : s = name := by simpa [Label.parts] using hs
    exact hm s h

mutual

/-- A change that keeps the value of a document keeps its strings, if none of them changes without a
change of what it means and no key is written twice. -/
theorem Doc.kept_of_value_map :
    (d : Doc) → d.KeysApart → (d.map m).value = d.value →
      ∀ s, .string s ∈ d.parts → m.string s = s
  | .word _ _, _, _ => by simp [Doc.parts]
  | .number _, _, _ => by simp [Doc.parts]
  | .string s, _, h => by
    intro s' hs'
    obtain rfl : s' = s := by simpa [Doc.parts] using hs'
    exact hm s' (Value.str.inj h)
  | .empty _ _, _, _ => by simp [Doc.parts]
  | .filled b before entries, hkeys, h => by
    have hvalues : (entries.map m).values = entries.values :=
      Bracket.collect_inj entries.length_values_map (fun hb => entries.keys_map_of_square hb) hkeys.2 h
    have hentries := entries.kept_of_values_map hkeys.1 hvalues
    intro s hs
    exact hentries s (by simpa [Doc.parts] using hs)

theorem Entries.kept_of_values_map {b : Bracket} :
    (es : Entries b) → es.KeysApart → (es.map m).values = es.values →
      ∀ s, .string s ∈ es.parts → m.string s = s
  | .last label value ending, hkeys, h => by
    simp only [Entries.map, Entries.values, List.cons.injEq, Prod.mk.injEq, and_true] at h
    have hlabel := label.kept_of_name_map hm h.1
    have hvalue := value.kept_of_value_map hkeys h.2
    intro s hs
    simp only [Entries.parts, List.mem_append, List.mem_singleton, reduceCtorEq, or_false] at hs
    exact hs.elim (hlabel s) (hvalue s)
  | .more label value after before rest, hkeys, h => by
    simp only [Entries.map, Entries.values, List.cons.injEq, Prod.mk.injEq] at h
    have hlabel := label.kept_of_name_map hm h.1.1
    have hvalue := value.kept_of_value_map hkeys.1 h.1.2
    have hrest := rest.kept_of_values_map hkeys.2 h.2
    intro s hs
    simp only [Entries.parts, List.mem_append, List.mem_cons, reduceCtorEq, false_or] at hs
    exact hs.elim (hlabel s) fun hs => hs.elim (hvalue s) (hrest s)

end

end Kept

end Values

end RouteAtlas.Json
