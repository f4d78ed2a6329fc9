import Mathlib
import RouteAtlas.Json.Printer
import RouteAtlas.Json.Reader
import RouteAtlas.Proofs.Entries
import RouteAtlas.Proofs.JsonComments
import RouteAtlas.Proofs.JsonReading
import RouteAtlas.Proofs.NumberTexts

/-!
# Reading what is printed

A printed value is read as this value again, on one line or with an item a line: strings with their
escapes, whole numbers of not too many digits, floating-point numbers, and mappings in the order of
their keys.
-/

namespace RouteAtlas

open Binary64

mutual

/-- A value as data has it: its finite numbers are rounded ones, and its mappings have no key twice. -/
def Value.IsSound : Value → Prop
  | .float (.finite _ m e) => IsRounded m e
  | .list items => Value.AreSound items
  | .map entries => (entries.map Prod.fst).Nodup ∧ Value.EntriesAreSound entries
  | _ => True

/-- Whether all values of a list are sound. -/
def Value.AreSound : List Value → Prop
  | [] => True
  | v :: rest => v.IsSound ∧ Value.AreSound rest

/-- Whether the values of all entries are sound. -/
def Value.EntriesAreSound : List (String × Value) → Prop
  | [] => True
  | (_, v) :: rest => v.IsSound ∧ Value.EntriesAreSound rest

end

namespace Json

section Strings

theorem fourHex_control : ∀ n < 32,
    (fourHex n).length = 4 ∧ Numeral.readBase? 16 (fourHex n) = some n := by
  decide

/-- Every character is written so that it is read again. -/
theorem exists_piece (c : Char) : ∃ p : Piece, p.text = escapeChar c ∧ p.meaning = c := by
  unfold escapeChar
  split
  · exact ⟨.escape '"' '"' rfl, rfl, rfl⟩
  · exact ⟨.escape '\\' '\\' rfl, rfl, rfl⟩
  · exact ⟨.escape 'n' '\n' rfl, rfl, rfl⟩
  · exact ⟨.escape 'r' '\r' rfl, rfl, rfl⟩
  · exact ⟨.escape 't' '\t' rfl, rfl, rfl⟩
  · next hquote hslash _ _ _ =>
    have hof : Char.ofNat c.toNat = c := Char.ofNat_toNat c
    split
    · next h => exact ⟨.escape 'b' c (by rw [← hof, h]; rfl), rfl, rfl⟩
    · split
      · next h => exact ⟨.escape 'f' c (by rw [← hof, h]; rfl), rfl, rfl⟩
      · split
        · next h =>
          obtain ⟨hlength, hreads⟩ := fourHex_control c.toNat h
          have hhalf : isHighHalf c.toNat = false ∧ isLowHalf c.toNat = false := by
            simp [isHighHalf, isLowHalf]
            omega
          refine ⟨.unit ⟨fourHex c.toNat, c.toNat, hlength, hreads⟩ hhalf, rfl, ?_⟩
          have hvalid : c.toNat.isValidChar := .inl (by omega)
          simp only [Piece.meaning, charOf, hvalid, if_true, hof]
        · next h => exact ⟨.plain c ⟨hquote, hslash, by omega⟩, rfl, rfl⟩

/-- Every text is written so that it is read again. -/
theorem exists_pieces (s : String) :
    ∃ ps : List Piece, quoted ps = (quote s).toList ∧ meaning ps = s := by
  have hchars (cs : List Char) :
      ∃ ps : List Piece, spelled ps = cs.flatMap escapeChar ∧ ps.map Piece.meaning = cs := by
    induction cs with
    | nil => exact ⟨[], rfl, rfl⟩
    | cons c cs ih =>
      obtain ⟨p, htext, hmeaning⟩ := exists_piece c
      obtain ⟨ps, htexts, hmeanings⟩ := ih
      exact ⟨p :: ps, by simp [spelled, ← htexts, htext], by simp [hmeaning, hmeanings]⟩
  obtain ⟨ps, htexts, hmeanings⟩ := hchars s.toList
  exact ⟨ps, by simp [quoted, quote, htexts], by simp [meaning, hmeanings]⟩

end Strings

section Gaps

/-- White space alone is a gap. -/
def Gap.blank
    (cs : List Char)
    (h : ∀ c ∈ cs, isSpace c = true) :
    Gap :=
  ⟨cs, run?_of_isSpace h⟩

theorem forall_isSpace_nil : ∀ c ∈ ([] : List Char), isSpace c = true :=
  List.forall_mem_nil _

variable (indent : Option Nat) (depth : Nat)

/-- What stands around and between printed items is white space, aside from the commas. -/
theorem exists_layout : ∃ opening between closing : Gap,
    (opening.IsBlank ∧ between.IsBlank ∧ closing.IsBlank) ∧
      (Layout.at indent depth).opening.toList = opening.chars ∧
      (Layout.at indent depth).between.toList = ',' :: between.chars ∧
      (Layout.at indent depth).closing.toList = closing.chars := by
  cases indent with
  | none =>
    have hempty := forall_isSpace_nil
    have hblank : ∀ c ∈ [' '], isSpace c = true := List.forall_mem_singleton.2 rfl
    refine ⟨.blank [] hempty, .blank [' '] hblank, .blank [] hempty, ⟨hempty, hblank, hempty⟩, ?_, ?_, ?_⟩
    all_goals simp [Layout.at, Gap.blank]
  | some width =>
    have hline (d : Nat) : ∀ c ∈ '\n' :: List.replicate (width * d) ' ', isSpace c = true := by
      rw [List.forall_mem_cons]
      refine ⟨by decide, fun c hc => ?_⟩
      rw [List.eq_of_mem_replicate hc]
      decide
    refine ⟨.blank _ (hline (depth + 1)), .blank _ (hline (depth + 1)), .blank _ (hline depth),
      ⟨hline _, hline _, hline _⟩, ?_, ?_, ?_⟩
    all_goals simp [Layout.at, Gap.blank, String.toList_append]

end Gaps

section Items

variable {b : Bracket}

/-- Whether a part is JSON as it stands and short enough to be read. -/
def Part.IsPrinted (p : Part) : Prop :=
  p.IsStrict ∧ p.IsShort

/-- A value in brackets as it is printed: what stands before it, and the value itself. -/
structure Item (b : Bracket) where
  label : Label b
  doc : Doc

namespace Item

/-- The text of a value in brackets. -/
def text (x : Item b) : List Char :=
  x.label.text ++ x.doc.text

/-- A value in brackets with its key. -/
def value (x : Item b) : String × Value :=
  (x.label.name, x.doc.value)

/-- Whether all parts of a value in brackets are as they are printed. -/
def IsPrinted (x : Item b) : Prop :=
  ∀ p ∈ x.label.parts ++ x.doc.parts, p.IsPrinted

end Item

/-- Items with the same gaps between them are the entries of brackets. -/
theorem exists_entries
    {between closing : Gap}
    (hbetween : between.IsBlank)
    (hclosing : closing.IsBlank)
    (x : Item b)
    (xs : List (Item b))
    (h : ∀ y ∈ x :: xs, y.IsPrinted) :
    ∃ es : Entries b,
      es.text = x.text ++ (xs.flatMap (fun y => ',' :: (between.chars ++ y.text)) ++ closing.chars) ∧
      es.values = (x :: xs).map Item.value ∧ ∀ p ∈ es.parts, p.IsPrinted := by
  induction xs generalizing x with
  | nil =>
    refine ⟨.last x.label x.doc ⟨closing, none⟩, ?_, ?_, ?_⟩
    · simp [Entries.text, Ending.text, Item.text]
    · simp [Entries.values, Item.value]
    · intro p hp
      rw [Entries.parts, ← List.append_assoc, List.mem_append] at hp
      rcases hp with hp | hp
      · exact h x List.mem_cons_self p hp
      · rw [List.mem_singleton.1 hp]
        exact ⟨⟨hclosing, rfl⟩, trivial⟩
  | cons y ys ih =>
    obtain ⟨rest, htext, hvalues, hparts⟩ := ih y fun z hz => h z (List.mem_cons_of_mem _ hz)
    refine ⟨.more x.label x.doc (.blank [] forall_isSpace_nil) between rest, ?_, ?_, ?_⟩
    · simp [Entries.text, htext, Item.text, Gap.blank]
    · simp [Entries.values, hvalues, Item.value]
    · intro p hp
      rw [Entries.parts, ← List.append_assoc, List.mem_append] at hp
      rcases hp with hp | hp
      · exact h x List.mem_cons_self p hp
      · rcases List.mem_cons.1 hp with rfl | hp
        · exact ⟨forall_isSpace_nil, trivial⟩
        · rcases List.mem_cons.1 hp with rfl | hp
          · exact ⟨hbetween, trivial⟩
          · exact hparts p hp

theorem toList_bracketed
    (left right item : String)
    (layout : Layout)
    (items : List String) :
    (bracketed left right layout (item :: items)).toList =
      left.toList ++ (layout.opening.toList ++ (item.toList ++
        (items.flatMap (fun i => layout.between.toList ++ i.toList) ++
          (layout.closing.toList ++ right.toList)))) := by
  have hfold (acc : String) :
      (items.foldl (fun acc i => acc ++ layout.between ++ i) acc).toList =
        acc.toList ++ items.flatMap fun i => layout.between.toList ++ i.toList := by
    induction items generalizing acc with
    | nil => simp
    | cons i rest ih => simp [ih]
  simp [bracketed, hfold]

/-- Printed items in brackets are a document, whatever the indentation. -/
theorem exists_doc_of_items
    (indent : Option Nat)
    (depth : Nat)
    (left right : String)
    (hleft : left.toList = [b.opening])
    (hright : right.toList = [b.closing])
    {texts : List String}
    {xs : List (Item b)}
    (htexts : xs.map Item.text = texts.map String.toList)
    (h : ∀ x ∈ xs, x.IsPrinted) :
    ∃ d : Doc, d.text = (bracketed left right (Layout.at indent depth) texts).toList ∧
      d.value = b.collect (xs.map Item.value) ∧ ∀ p ∈ d.parts, p.IsPrinted := by
  obtain ⟨opening, between, closing, ⟨hopening, hbetween, hclosing⟩, ho, hb, hc⟩ :=
    exists_layout indent depth
  cases xs with
  | nil =>
    obtain rfl : texts = [] := by simpa using htexts.symm
    refine ⟨.empty b ⟨.blank [] forall_isSpace_nil, none⟩, ?_, rfl, ?_⟩
    · simp [Doc.text, Ending.text, Gap.blank, bracketed, hleft, hright]
    · rintro p hp
      rw [List.mem_singleton.1 hp]
      exact ⟨⟨forall_isSpace_nil, rfl⟩, trivial⟩
  | cons x xs =>
    obtain ⟨item, items, rfl⟩ : ∃ item items, texts = item :: items := by
      cases texts with
      | nil => simp at htexts
      | cons item items => exact ⟨item, items, rfl⟩
    obtain ⟨hitem, hitems⟩ : x.text = item.toList ∧ xs.map Item.text = items.map String.toList := by
      simpa using htexts
    obtain ⟨es, htext, hvalues, hparts⟩ := exists_entries hbetween hclosing x xs h
    refine ⟨.filled b opening es, ?_, ?_, ?_⟩
    · have hflat : items.flatMap (fun i => (Layout.at indent depth).between.toList ++ i.toList) =
          xs.flatMap (fun y => ',' :: (between.chars ++ y.text)) := by
        have hmap := congrArg (List.flatMap fun cs => ',' :: (between.chars ++ cs)) hitems
        rw [List.flatMap_map, List.flatMap_map] at hmap
        rw [hmap, hb]
        rfl
      rw [toList_bracketed, hflat, ho, hc, hleft, hright, Doc.text, htext, hitem]
      simp
    · rw [Doc.value, hvalues]
    · exact List.forall_mem_cons.2 ⟨⟨hopening, trivial⟩, hparts⟩

end Items

section Values

variable (indent : Option Nat)

mutual

/-- A sound value is printed as a document that writes it. -/
theorem exists_doc (v : Value) :
    ∀ depth, v.IsSound → isWritable v = true →
      ∃ d : Doc, d.text = (printAt indent depth v).toList ∧ d.value = v ∧
        ∀ p ∈ d.parts, p.IsPrinted := by
  intro depth hsound hwritable
  cases v with
  | null =>
    exact ⟨.word ("null", .null) (by simp [words]), by simp [Doc.text, printAt], rfl, List.forall_mem_nil _⟩
  | bool b =>
    cases b
    · exact ⟨.word ("false", .bool false) (by simp [words]), by simp [Doc.text, printAt], rfl, List.forall_mem_nil _⟩
    · exact ⟨.word ("true", .bool true) (by simp [words]), by simp [Doc.text, printAt], rfl, List.forall_mem_nil _⟩
  | int i =>
    rw [isWritable] at hwritable
    obtain ⟨x, htext, hvalue, hshort⟩ := exists_figure_int hwritable
    refine ⟨.number x, htext.trans (by rw [printAt]), hvalue, ?_⟩
    exact List.forall_mem_singleton.2 ⟨trivial, hshort⟩
  | float x =>
    cases x with
    | finite negative m e =>
      rw [Value.IsSound] at hsound
      obtain ⟨x, htext, hvalue, hshort⟩ := exists_figure_finite negative hsound
      refine ⟨.number x, htext.trans (by simp [printAt, floatText]), hvalue, ?_⟩
      exact List.forall_mem_singleton.2 ⟨trivial, hshort⟩
    | infinite negative =>
      cases negative
      · exact ⟨.word ("Infinity", .float (.infinite false)) (by simp [words]),
          by simp [Doc.text, printAt, floatText], rfl, List.forall_mem_nil _⟩
      · exact ⟨.word ("-Infinity", .float (.infinite true)) (by simp [words]),
          by simp [Doc.text, printAt, floatText], rfl, List.forall_mem_nil _⟩
    | notANumber =>
      exact ⟨.word ("NaN", .float .notANumber) (by simp [words]),
        by simp [Doc.text, printAt, floatText], rfl, List.forall_mem_nil _⟩
  | str s =>
    obtain ⟨ps, htext, hmeaning⟩ := exists_pieces s
    refine ⟨.string ps, htext.trans (by rw [printAt]), by rw [Doc.value, hmeaning], ?_⟩
    exact List.forall_mem_singleton.2 ⟨trivial, trivial⟩
  | list items =>
    rw [Value.IsSound] at hsound
    rw [isWritable] at hwritable
    obtain ⟨xs, htexts, hvalues, hparts⟩ := exists_items items (depth + 1) hsound hwritable
    obtain ⟨d, htext, hvalue, hprinted⟩ :=
      exists_doc_of_items indent depth "[" "]" rfl rfl htexts hparts
    refine ⟨d, htext.trans (by rw [printAt]), ?_, hprinted⟩
    rw [hvalue, hvalues]
    simp [Bracket.collect]
  | map entries =>
    rw [Value.IsSound] at hsound
    rw [isWritable] at hwritable
    obtain ⟨hkeys, hsound⟩ := hsound
    obtain ⟨xs, htexts, hvalues, hparts⟩ := exists_members entries (depth + 1) hsound hwritable
    obtain ⟨d, htext, hvalue, hprinted⟩ :=
      exists_doc_of_items indent depth "\x7b" "\x7d" rfl rfl htexts hparts
    refine ⟨d, htext.trans (by rw [printAt]), ?_, hprinted⟩
    rw [hvalue, hvalues, Bracket.collect, ofPairs_of_nodup hkeys]

/-- The items of a list are printed as items that write them. -/
theorem exists_items (items : List Value) :
    ∀ depth, Value.AreSound items → areWritable items = true →
      ∃ xs : List (Item .square),
        xs.map Item.text = (printItems indent depth items).map String.toList ∧
          xs.map Item.value = items.map (fun v => ("", v)) ∧ ∀ x ∈ xs, x.IsPrinted := by
  intro depth hsound hwritable
  cases items with
  | nil => exact ⟨[], by simp [printItems], rfl, List.forall_mem_nil _⟩
  | cons v rest =>
    rw [areWritable, Bool.and_eq_true] at hwritable
    obtain ⟨d, htext, hvalue, hparts⟩ := exists_doc v depth hsound.1 hwritable.1
    obtain ⟨xs, htexts, hvalues, hprinted⟩ := exists_items rest depth hsound.2 hwritable.2
    refine ⟨⟨.item, d⟩ :: xs, ?_, ?_, List.forall_mem_cons.2 ⟨?_, hprinted⟩⟩
    · simp [printItems, htexts, Item.text, Label.text, htext]
    · simp [hvalues, Item.value, Label.name, hvalue]
    · simpa [Item.IsPrinted, Label.parts] using hparts

/-- The entries of a mapping are printed as members that write them. -/
theorem exists_members (entries : List (String × Value)) :
    ∀ depth, Value.EntriesAreSound entries → entriesAreWritable entries = true →
      ∃ xs : List (Item .curly),
        xs.map Item.text = (printEntries indent depth entries).map String.toList ∧
          xs.map Item.value = entries ∧ ∀ x ∈ xs, x.IsPrinted := by
  intro depth hsound hwritable
  cases entries with
  | nil => exact ⟨[], by simp [printEntries], rfl, List.forall_mem_nil _⟩
  | cons e rest =>
    obtain ⟨k, v⟩ := e
    rw [entriesAreWritable, Bool.and_eq_true] at hwritable
    obtain ⟨d, htext, hvalue, hparts⟩ := exists_doc v depth hsound.1 hwritable.1
    obtain ⟨xs, htexts, hvalues, hprinted⟩ := exists_members rest depth hsound.2 hwritable.2
    obtain ⟨ps, hkey, hname⟩ := exists_pieces k
    have hspace : ∀ c ∈ [' '], isSpace c = true := List.forall_mem_singleton.2 rfl
    refine ⟨⟨.key ps (.blank [] forall_isSpace_nil) (.blank [' '] hspace), d⟩ :: xs, ?_, ?_,
      List.forall_mem_cons.2 ⟨?_, hprinted⟩⟩
    · simp [printEntries, htexts, Item.text, Label.text, htext, hkey, Gap.blank]
    · simp [hvalues, Item.value, Label.name, hvalue, hname]
    · rw [Item.IsPrinted, List.forall_mem_append]
      refine ⟨?_, hparts⟩
      simp only [Label.parts, List.forall_mem_cons]
      exact ⟨⟨trivial, trivial⟩, ⟨forall_isSpace_nil, trivial⟩, ⟨hspace, trivial⟩, List.forall_mem_nil _⟩

end

/-- A printed value is read as this value. -/
theorem parse_print
    {v : Value}
    (hsound : v.IsSound)
    (hwritable : isWritable v = true) :
    parse (print indent v) = .ok v := by
  obtain ⟨d, htext, hvalue, hprinted⟩ := exists_doc indent v 0 hsound hwritable
  obtain ⟨hread, -⟩ := parseChars_rendering ⟨.blank [] forall_isSpace_nil, d, [], .inl rfl⟩
  have hchars : (print indent v).toList = [] ++ (d.text ++ []) := by
    rw [List.nil_append, List.append_nil, htext, print]
  rw [parse, hchars]
  refine (hread ⟨⟨forall_isSpace_nil, fun p hp => (hprinted p hp).1, List.forall_mem_nil _⟩, fun p hp => (hprinted p hp).2⟩).trans ?_
  rw [hvalue]

end Values

end Json

end RouteAtlas
