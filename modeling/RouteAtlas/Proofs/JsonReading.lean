import Mathlib
import RouteAtlas.Proofs.JsonTokens

/-!
# Reading documents of JSON

The reader of JSON returns the value of a document if the document holds no comment, no final comma and
no whole number with too many digits. On all other documents it fails, whatever stands in them.
-/

namespace RouteAtlas.Json

section Values

/-- Reads the values between brackets, with their keys if they have any. -/
def readEntries
    (b : Bracket)
    (n : Nat)
    (cs : List Char) :
    Except Fault (List (String × Value) × List Char) :=
  match b with
  | .square => (readItems n cs).map fun r => (r.1.map fun v => ("", v), r.2)
  | .curly => readMembers n cs

/-- Reads what follows a value between brackets. -/
def readMore
    (b : Bracket)
    (n : Nat)
    (key : String)
    (r : Value × List Char) :
    Except Fault (List (String × Value) × List Char) :=
  match skipSpace r.2 with
  | [] => .error .malformed
  | c :: rest =>
    if c = b.closing then .ok ([(key, r.1)], rest)
    else if c = ',' then
      (readEntries b n (skipSpace rest)).map fun later => ((key, r.1) :: later.1, later.2)
    else .error .malformed

theorem readValue_brackets
    (b : Bracket)
    (n : Nat)
    {cs : List Char}
    {c : Char}
    {rest : List Char}
    (h : skipSpace cs = c :: rest) :
    readValue (n + 1) (b.opening :: cs) =
      if c = b.closing then .ok (b.collect [], rest)
      else (readEntries b n (c :: rest)).map fun r => (b.collect r.1, r.2) := by
  cases b with
  | square =>
    rw [Bracket.opening, readValue, h]
    by_cases hc : c = ']'
    · simp [hc, Bracket.closing, Bracket.collect]
    · simp only [Bracket.closing, hc, if_false, readEntries]
      split
      · next heq => exact absurd (List.cons.inj heq).1 hc
      · cases readItems n (c :: rest) <;> simp [Except.map, Bracket.collect, Function.comp_def]
  | curly =>
    rw [Bracket.opening, readValue, h]
    by_cases hc : c = '\x7d'
    · simp [hc, Bracket.closing, Bracket.collect, ofPairs]
    · simp only [Bracket.closing, hc, if_false, readEntries]
      split
      · next heq => exact absurd (List.cons.inj heq).1 hc
      · rfl

theorem readEntries_refuses
    (b : Bracket)
    {c : Char}
    (h : c ∈ [',', ':', '/', ']', '\x7d'])
    (n : Nat)
    (cs : List Char) :
    readEntries b n (c :: cs) = .error .malformed := by
  cases b with
  | square =>
    cases n with
    | zero => rfl
    | succ n => simp [readEntries, readItems, readValue_refuses h, Except.map]
  | curly =>
    cases n with
    | zero => rfl
    | succ n => fin_cases h <;> rfl

theorem readEntries_item
    (n : Nat)
    (cs : List Char) :
    readEntries .square (n + 1) cs = readValue n cs >>= readMore .square n "" := by
  rw [readEntries, readItems]
  cases hvalue : readValue n cs with
  | error e => rfl
  | ok r =>
    obtain ⟨v, rest⟩ := r
    simp only [bind, Except.bind, readMore, Bracket.closing]
    cases hskip : skipSpace rest with
    | nil => rfl
    | cons c more =>
      by_cases hclose : c = ']'
      · simp [hclose, Except.map]
      · by_cases hcomma : c = ','
        · simp only [hcomma, readEntries]
          cases readItems n (skipSpace more) <;> simp [Except.map]
        · simp only [hclose, hcomma, if_false]
          split
          · next heq => exact absurd (List.cons.inj heq).1 hclose
          · next heq => exact absurd (List.cons.inj heq).1 hcomma
          · rfl

theorem readEntries_member
    (name : List Piece)
    (n : Nat)
    {cs rest : List Char}
    (h : skipSpace cs = ':' :: rest) :
    readEntries .curly (n + 1) (quoted name ++ cs) =
      readValue n (skipSpace rest) >>= readMore .curly n (meaning name) := by
  have hquoted : quoted name ++ cs = '"' :: (spelled name ++ '"' :: cs) := by
    simp [quoted]
  rw [readEntries, hquoted, readMembers, readString_spelled]
  simp only [h]
  cases hvalue : readValue n (skipSpace rest) with
  | error e => rfl
  | ok r =>
    obtain ⟨v, afterValue⟩ := r
    simp only [bind, Except.bind, readMore, Bracket.closing]
    cases hskip : skipSpace afterValue with
    | nil => rfl
    | cons c more =>
      by_cases hclose : c = '\x7d'
      · simp [hclose]
      · by_cases hcomma : c = ','
        · simp [hcomma, readEntries]
        · simp only [hclose, hcomma, if_false]
          split
          · next heq => exact absurd (List.cons.inj heq).1 hclose
          · next heq => exact absurd (List.cons.inj heq).1 hcomma
          · rfl

theorem readEntries_member_refused
    (name : List Piece)
    (n : Nat)
    {cs rest : List Char}
    (h : skipSpace cs = '/' :: rest) :
    readEntries .curly (n + 1) (quoted name ++ cs) = .error .malformed := by
  have hquoted : quoted name ++ cs = '"' :: (spelled name ++ '"' :: cs) := by
    simp [quoted]
  rw [readEntries, hquoted, readMembers, readString_spelled]
  simp only [h]
  rfl

theorem readValue_string
    (s : List Piece)
    (n : Nat)
    (rest : List Char) :
    readValue (n + 1) (quoted s ++ rest) = .ok (.str (meaning s), rest) := by
  have hquoted : quoted s ++ rest = '"' :: (spelled s ++ '"' :: rest) := by
    simp [quoted]
  rw [hquoted, readValue, readString_spelled]
  rfl

theorem readValue_number
    (x : Figure)
    (n : Nat)
    (rest : List Char) :
    readValue (n + 1) (x.text ++ rest) = readNumber (x.text ++ rest) := by
  have hword := readWord?_figure x rest
  obtain ⟨c, cs, htext, hc⟩ := x.exists_head
  have hne : c ≠ '"' ∧ c ≠ '[' ∧ c ≠ '\x7b' := by
    refine ⟨?_, ?_, ?_⟩ <;> rintro rfl <;> revert hc <;> decide
  rw [htext, List.cons_append] at hword ⊢
  unfold readValue
  split
  · next heq => exact absurd (List.cons.inj heq).1 hne.1
  · next heq => exact absurd (List.cons.inj heq).1 hne.2.1
  · next heq => exact absurd (List.cons.inj heq).1 hne.2.2
  · rw [hword]

end Values

section Documents

variable {α β : Type}

/-- A reading succeeds exactly under a condition, with a given result and what follows it. -/
def Reads
    (x : Except Fault (α × List Char))
    (good : Prop)
    (a : α)
    (rest : List Char) :
    Prop :=
  (good → x = .ok (a, rest)) ∧ (¬ good → ∃ e, x = .error e)

/-- Whether the parts of a text all may stand in JSON without comments and can all be read. -/
def Readable (ps : List Part) : Prop :=
  ∀ p ∈ ps, p.IsStrict ∧ p.IsShort

theorem readable_append
    {ps ps' : List Part} :
    Readable (ps ++ ps') ↔ Readable ps ∧ Readable ps' := by
  simp only [Readable, List.mem_append, or_imp, forall_and]
  tauto

theorem readable_cons
    {p : Part}
    {ps : List Part} :
    Readable (p :: ps) ↔ (p.IsStrict ∧ p.IsShort) ∧ Readable ps := by
  simp [Readable]

theorem readable_nil : Readable [] := by
  simp [Readable]

section Combining

variable {x y : Except Fault (α × List Char)} {good good' : Prop} {a : α} {rest : List Char}

theorem Reads.congr
    (h : Reads x good a rest)
    (hgood : good' ↔ good) :
    Reads x good' a rest := by
  rwa [propext hgood]

/-- What fails without a condition, and else is a reading. -/
theorem Reads.guard
    (hy : Reads y good' a rest)
    (hx : (good → x = y) ∧ (¬ good → ∃ e, x = .error e)) :
    Reads x (good ∧ good') a rest := by
  constructor
  · rintro ⟨hgood, hgood'⟩
    rw [hx.1 hgood, hy.1 hgood']
  · intro hbad
    by_cases hgood : good
    · rw [hx.1 hgood]
      exact hy.2 fun hgood' => hbad ⟨hgood, hgood'⟩
    · exact hx.2 hgood

theorem Reads.bind
    {f : α × List Char → Except Fault (β × List Char)}
    {c : β}
    {rest' : List Char}
    (hx : Reads x good a rest)
    (hf : Reads (f (a, rest)) good' c rest') :
    Reads (x >>= f) (good ∧ good') c rest' := by
  refine hf.guard ⟨fun hgood => ?_, fun hbad => ?_⟩
  · rw [hx.1 hgood]
    rfl
  · obtain ⟨e, he⟩ := hx.2 hbad
    exact ⟨e, by rw [he]; rfl⟩

theorem Reads.map
    (hx : Reads x good a rest)
    (f : α → β) :
    Reads (x.map fun r => (f r.1, r.2)) good (f a) rest := by
  constructor
  · intro hgood
    rw [hx.1 hgood]
    rfl
  · intro hbad
    obtain ⟨e, he⟩ := hx.2 hbad
    exact ⟨e, by rw [he]; rfl⟩

end Combining

section Brackets

variable {b : Bracket}

theorem Gap.skip
    (g : Gap)
    {c : Char}
    (hc : isSpace c = false)
    (cs : List Char) :
    (g.IsBlank → skipSpace (g.chars ++ c :: cs) = c :: cs) ∧
      (¬ g.IsBlank → ∃ more, skipSpace (g.chars ++ c :: cs) = '/' :: more) := by
  have hskip := skipSpace_of_run (by rw [g.run_eq]; rfl) (c :: cs)
  rwa [skipSpace_of_head hc] at hskip

theorem Gap.follows
    (g : Gap)
    {rest : List Char}
    (hrest : Follows rest) :
    Follows (g.chars ++ rest) :=
  follows_of_run (by rw [g.run_eq]; rfl) hrest

theorem Bracket.closing_mem (b : Bracket) : b.closing ∈ [',', ':', '/', ']', '\x7d'] := by
  cases b <;> decide

theorem Bracket.isSpace_closing (b : Bracket) : isSpace b.closing = false := by
  cases b <;> decide

theorem readEntries_label
    (label : Label b)
    (n : Nat)
    {c : Char}
    (hc : Opens c)
    (cs : List Char) :
    (Readable label.parts → readEntries b (n + 1) (label.text ++ c :: cs) =
        readValue n (c :: cs) >>= readMore b n label.name) ∧
      (¬ Readable label.parts → ∃ e, readEntries b (n + 1) (label.text ++ c :: cs) = .error e) := by
  cases label with
  | item => exact ⟨fun _ => readEntries_item n _, fun h => absurd readable_nil h⟩
  | key name before after =>
    have htext : (Label.key name before after).text ++ c :: cs =
        quoted name ++ (before.chars ++ ':' :: (after.chars ++ c :: cs)) := by
      simp [Label.text]
    have hcolon : isSpace ':' = false := by decide
    obtain ⟨hblank, hcomment⟩ := before.skip hcolon (after.chars ++ c :: cs)
    obtain ⟨hblank', hcomment'⟩ := after.skip hc.isSpace_eq cs
    simp only [htext, Label.parts, readable_cons, readable_nil, Part.IsStrict, Part.IsShort, and_true,
      true_and]
    constructor
    · rintro ⟨hbefore, hafter⟩
      rw [readEntries_member name n (hblank hbefore), hblank' hafter]
      rfl
    · intro hbad
      by_cases hbefore : before.IsBlank
      · obtain ⟨more, hmore⟩ := hcomment' fun hafter => hbad ⟨hbefore, hafter⟩
        rw [readEntries_member name n (hblank hbefore), hmore, readValue_refuses (by decide)]
        exact ⟨_, rfl⟩
      · obtain ⟨more, hmore⟩ := hcomment hbefore
        exact ⟨_, readEntries_member_refused name n hmore⟩

/-- A closing bracket comes next if its ending has no comment and no comma. Else a slash comes next, or
a comma without a value after it. -/
theorem Ending.skip
    (e : Ending)
    (b : Bracket)
    (rest : List Char) :
    (Readable [.ending e] → skipSpace (e.text ++ b.closing :: rest) = b.closing :: rest) ∧
      (¬ Readable [.ending e] → (∃ more, skipSpace (e.text ++ b.closing :: rest) = '/' :: more) ∨
        ∃ more c more', skipSpace (e.text ++ b.closing :: rest) = ',' :: more ∧
          skipSpace more = c :: more' ∧ c ∈ [',', ':', '/', ']', '\x7d']) := by
  obtain ⟨g, comma⟩ := e
  have hgood : Readable [.ending ⟨g, comma⟩] ↔ g.IsBlank ∧ comma = none := by
    simp [readable_cons, readable_nil, Part.IsStrict, Part.IsShort]
  rw [hgood]
  cases comma with
  | none =>
    obtain ⟨hblank, hcomment⟩ := g.skip b.isSpace_closing rest
    exact ⟨fun h => hblank h.1, fun hbad => .inl (hcomment fun hg => hbad ⟨hg, rfl⟩)⟩
  | some g' =>
    obtain ⟨hblank, hcomment⟩ := g.skip (by decide : isSpace ',' = false)
      (g'.chars ++ b.closing :: rest)
    obtain ⟨hblank', hcomment'⟩ := g'.skip b.isSpace_closing rest
    refine ⟨fun h => absurd h.2 (by simp), fun _ => ?_⟩
    have htext : (Ending.mk g (some g')).text ++ b.closing :: rest =
        g.chars ++ ',' :: (g'.chars ++ b.closing :: rest) := by
      simp [Ending.text]
    rw [htext]
    by_cases hg : g.IsBlank
    · refine .inr ⟨g'.chars ++ b.closing :: rest, ?_⟩
      by_cases hg' : g'.IsBlank
      · exact ⟨_, _, hblank hg, hblank' hg', b.closing_mem⟩
      · obtain ⟨more, hmore⟩ := hcomment' hg'
        exact ⟨_, _, hblank hg, hmore, by decide⟩
    · exact .inl (hcomment hg)

/-- A value is the last one between brackets if its ending has no comment and no comma. -/
theorem readMore_ending
    (n : Nat)
    (key : String)
    (v : Value)
    (e : Ending)
    (rest : List Char) :
    Reads (readMore b n key (v, e.text ++ b.closing :: rest)) (Readable [.ending e]) [(key, v)]
      rest := by
  obtain ⟨hclose, hother⟩ := e.skip b rest
  have hslash : ('/' : Char) ≠ b.closing := by cases b <;> decide
  have hcomma : (',' : Char) ≠ b.closing := by cases b <;> decide
  unfold readMore
  constructor
  · intro hgood
    simp [hclose hgood]
  · intro hbad
    refine ⟨.malformed, ?_⟩
    rcases hother hbad with ⟨more, hmore⟩ | ⟨more, c, more', hmore, hnext, hc⟩
    · simp [hmore, hslash]
    · simp only [hmore, hcomma, if_false, if_true, hnext, readEntries_refuses b hc]
      rfl

/-- An empty list or mapping. -/
theorem readValue_empty
    (n : Nat)
    (e : Ending)
    (rest : List Char) :
    Reads (readValue (n + 1) (b.opening :: (e.text ++ b.closing :: rest))) (Readable [.ending e])
      (b.collect []) rest := by
  obtain ⟨hclose, hother⟩ := e.skip b rest
  have hslash : ('/' : Char) ≠ b.closing := by cases b <;> decide
  have hcomma : (',' : Char) ≠ b.closing := by cases b <;> decide
  constructor
  · intro hgood
    rw [readValue_brackets b n (hclose hgood), if_pos rfl]
  · intro hbad
    refine ⟨.malformed, ?_⟩
    rcases hother hbad with ⟨more, hmore⟩ | ⟨more, -, -, hmore, -, -⟩
    · rw [readValue_brackets b n hmore, if_neg hslash, readEntries_refuses b (by decide)]
      rfl
    · rw [readValue_brackets b n hmore, if_neg hcomma, readEntries_refuses b (by decide)]
      rfl

/-- A list or a mapping is read like its values if no comment comes before them. -/
theorem readValue_filled
    (n : Nat)
    (before : Gap)
    {c : Char}
    (hc : Opens c)
    (cs : List Char) :
    (Readable [.gap before] → readValue (n + 1) (b.opening :: (before.chars ++ c :: cs)) =
        (readEntries b n (c :: cs)).map fun r => (b.collect r.1, r.2)) ∧
      (¬ Readable [.gap before] →
        ∃ e, readValue (n + 1) (b.opening :: (before.chars ++ c :: cs)) = .error e) := by
  have hgood : Readable [.gap before] ↔ before.IsBlank := by
    simp [readable_cons, readable_nil, Part.IsStrict, Part.IsShort]
  have hopen : c ≠ b.closing := by
    rintro rfl
    exact hc.2 b.closing_mem
  have hslash : ('/' : Char) ≠ b.closing := by cases b <;> decide
  obtain ⟨hblank, hcomment⟩ := before.skip hc.isSpace_eq cs
  rw [hgood]
  constructor
  · intro hbefore
    rw [readValue_brackets b n (hblank hbefore), if_neg hopen]
  · intro hbad
    obtain ⟨more, hmore⟩ := hcomment hbad
    rw [readValue_brackets b n hmore, if_neg hslash, readEntries_refuses b (by decide)]
    exact ⟨.malformed, rfl⟩

/-- Values follow one another between brackets if there is no comment around the comma. -/
theorem readMore_comma
    (n : Nat)
    (key : String)
    (v : Value)
    (after before : Gap)
    {c : Char}
    (hc : Opens c)
    (cs : List Char) :
    (Readable [.gap after, .gap before] →
        readMore b n key (v, after.chars ++ ',' :: (before.chars ++ c :: cs)) =
          (readEntries b n (c :: cs)).map fun r => ((key, v) :: r.1, r.2)) ∧
      (¬ Readable [.gap after, .gap before] →
        ∃ e, readMore b n key (v, after.chars ++ ',' :: (before.chars ++ c :: cs)) = .error e) := by
  have hgood : Readable [.gap after, .gap before] ↔ after.IsBlank ∧ before.IsBlank := by
    simp [readable_cons, readable_nil, Part.IsStrict, Part.IsShort]
  have hslash : ('/' : Char) ≠ b.closing := by cases b <;> decide
  have hcomma : (',' : Char) ≠ b.closing := by cases b <;> decide
  obtain ⟨hblank, hcomment⟩ := after.skip (by decide : isSpace ',' = false) (before.chars ++ c :: cs)
  obtain ⟨hblank', hcomment'⟩ := before.skip hc.isSpace_eq cs
  rw [hgood]
  unfold readMore
  constructor
  · rintro ⟨hafter, hbefore⟩
    simp only [hblank hafter, hcomma, if_false, if_true, hblank' hbefore]
  · intro hbad
    refine ⟨.malformed, ?_⟩
    by_cases hafter : after.IsBlank
    · obtain ⟨more, hmore⟩ := hcomment' fun hbefore => hbad ⟨hafter, hbefore⟩
      simp only [hblank hafter, hcomma, if_false, if_true, hmore,
        readEntries_refuses b (by decide : ('/' : Char) ∈ [',', ':', '/', ']', '\x7d'])]
      rfl
    · obtain ⟨more, hmore⟩ := hcomment hafter
      simp [hmore, hslash]

end Brackets

section Induction

theorem Bracket.follows_closing
    (b : Bracket)
    (rest : List Char) :
    Follows (b.closing :: rest) := by
  rintro c ⟨⟩
  exact .inr b.closing_mem

theorem Ending.follows
    (e : Ending)
    (b : Bracket)
    (rest : List Char) :
    Follows (e.text ++ b.closing :: rest) := by
  obtain ⟨g, comma⟩ := e
  cases comma with
  | none => exact g.follows (b.follows_closing rest)
  | some g' =>
    have hcomma : Follows (',' :: (g'.chars ++ b.closing :: rest)) := by
      rintro c ⟨⟩
      exact .inr (by decide)
    simpa [Ending.text] using g.follows hcomma

theorem Doc.exists_bound
    (d : Doc)
    {n : Nat}
    (h : d.text.length ≤ n) :
    ∃ n', n = n' + 1 := by
  obtain ⟨c, cs, htext, -⟩ := d.exists_head
  rw [htext, List.length_cons] at h
  exact ⟨n - 1, by omega⟩

mutual

/-- A document is read exactly if it holds no comments, no final commas and no numbers that are too
long. -/
theorem Doc.reads :
    (d : Doc) → ∀ {n : Nat} {rest : List Char}, d.text.length ≤ n → Follows rest →
      Reads (readValue n (d.text ++ rest)) (Readable d.parts) d.value rest
  | .word w h, n, rest, hn, hrest => by
    obtain ⟨n, rfl⟩ := (Doc.word w h).exists_bound hn
    refine ⟨fun _ => ?_, fun hbad => absurd readable_nil hbad⟩
    simp only [words, List.mem_cons, List.not_mem_nil, or_false] at h
    rcases h with rfl | rfl | rfl | rfl | rfl | rfl <;> rfl
  | .number x, n, rest, hn, hrest => by
    obtain ⟨n, rfl⟩ := (Doc.number x).exists_bound hn
    have hgood : Readable (Doc.number x).parts ↔ x.IsShort := by
      simp [Doc.parts, readable_cons, readable_nil, Part.IsStrict, Part.IsShort]
    refine Reads.congr ?_ hgood
    rw [Doc.text, readValue_number]
    exact x.readNumber_text hrest
  | .string s, n, rest, hn, hrest => by
    obtain ⟨n, rfl⟩ := (Doc.string s).exists_bound hn
    have hgood : Readable (Doc.string s).parts := by
      simp [Doc.parts, readable_cons, readable_nil, Part.IsStrict, Part.IsShort]
    exact ⟨fun _ => readValue_string s n rest, fun hbad => absurd hgood hbad⟩
  | .empty b ending, n, rest, hn, hrest => by
    obtain ⟨n, rfl⟩ := (Doc.empty b ending).exists_bound hn
    have htext : (Doc.empty b ending).text ++ rest =
        b.opening :: (ending.text ++ b.closing :: rest) := by
      simp [Doc.text]
    rw [htext]
    exact readValue_empty n ending rest
  | .filled b before entries, n, rest, hn, hrest => by
    obtain ⟨n, rfl⟩ := (Doc.filled b before entries).exists_bound hn
    have hlength : entries.text.length < n := by
      simp [Doc.text] at hn
      omega
    obtain ⟨c, cs, hhead, hc⟩ := entries.exists_head
    have htext : (Doc.filled b before entries).text ++ rest =
        b.opening :: (before.chars ++ c :: (cs ++ b.closing :: rest)) := by
      simp [Doc.text, hhead]
    have hentries := (entries.reads rest hlength).map b.collect
    rw [hhead, List.cons_append] at hentries
    rw [htext]
    refine (hentries.guard (readValue_filled n before hc _)).congr ?_
    simp [Doc.parts, readable_cons, readable_nil]

theorem Entries.reads {b : Bracket} :
    (es : Entries b) → ∀ {n : Nat} (rest : List Char), es.text.length < n →
      Reads (readEntries b n (es.text ++ b.closing :: rest)) (Readable es.parts) es.values rest
  | .last label value ending, n, rest, hn => by
    obtain ⟨n, rfl⟩ := Nat.exists_eq_succ_of_ne_zero (Nat.ne_zero_of_lt hn)
    have hlength : value.text.length ≤ n := by
      simp [Entries.text] at hn
      omega
    obtain ⟨c, cs, hhead, hc⟩ := value.exists_head
    have hvalue := value.reads hlength (ending.follows b rest)
    have htext : (Entries.last label value ending).text ++ b.closing :: rest =
        label.text ++ c :: (cs ++ (ending.text ++ b.closing :: rest)) := by
      simp [Entries.text, hhead]
    rw [hhead, List.cons_append] at hvalue
    rw [htext]
    refine ((hvalue.bind (readMore_ending n label.name value.value ending rest)).guard
      (readEntries_label label n hc _)).congr ?_
    simp [Entries.parts, readable_append]
  | .more label value after before more, n, rest, hn => by
    obtain ⟨n, rfl⟩ := Nat.exists_eq_succ_of_ne_zero (Nat.ne_zero_of_lt hn)
    have hlength : value.text.length ≤ n ∧ more.text.length < n := by
      simp [Entries.text] at hn
      omega
    obtain ⟨c, cs, hhead, hc⟩ := value.exists_head
    obtain ⟨c', cs', hhead', hc'⟩ := more.exists_head
    have hfollows : Follows (after.chars ++ ',' :: (before.chars ++ (more.text ++ b.closing :: rest))) := by
      refine after.follows ?_
      rintro d ⟨⟩
      exact .inr (by decide)
    have hvalue := value.reads hlength.1 hfollows
    have hmore := (more.reads rest hlength.2).map fun vs => (label.name, value.value) :: vs
    have htext : (Entries.more label value after before more).text ++ b.closing :: rest =
        label.text ++ c :: (cs ++ (after.chars ++ ',' :: (before.chars ++
          (more.text ++ b.closing :: rest)))) := by
      simp [Entries.text, hhead]
    rw [hhead, List.cons_append] at hvalue
    rw [hhead', List.cons_append] at hvalue hmore htext
    rw [htext]
    have hcomma := hmore.guard (readMore_comma n label.name value.value after before hc' _)
    refine ((hvalue.bind hcomma).guard (readEntries_label label n hc _)).congr ?_
    simp [Entries.parts, readable_append, readable_cons, readable_nil, and_assoc]

end

end Induction

/-- A text of JSON with comments is read as JSON exactly if it is JSON as it stands and no whole number
has too many digits. -/
theorem parseChars_rendering (r : Rendering) :
    (r.IsStrict ∧ r.IsShort → parseChars r.chars = .ok r.doc.value) ∧
      (¬ (r.IsStrict ∧ r.IsShort) → ∃ e, parseChars r.chars = .error e) := by
  have hafter : (Place.between.run? r.after).isSome := by
    rcases r.run_eq with h | h <;> rw [h] <;> rfl
  have hfollows : Follows r.after := by
    have hnil : Follows [] := nofun
    simpa using follows_of_run hafter hnil
  obtain ⟨hend, hcomment⟩ := skipSpace_of_run hafter []
  rw [List.append_nil] at hend hcomment
  have hlength : r.doc.text.length ≤ r.chars.length + 1 := by
    simp [Rendering.chars]
    omega
  obtain ⟨hread, hrefuse⟩ := r.doc.reads hlength hfollows
  have hgood : Readable r.doc.parts ↔ (∀ p ∈ r.doc.parts, p.IsStrict) ∧ r.IsShort := by
    simp only [Readable, Rendering.IsShort, forall_and]
  obtain ⟨c, cs, hhead, hc⟩ := r.doc.exists_head
  obtain ⟨hblank, hslash⟩ := r.before.skip hc.isSpace_eq (cs ++ r.after)
  rw [← List.cons_append, ← hhead] at hblank hslash
  unfold parseChars
  constructor
  · rintro ⟨⟨hbefore, hstrict, hspace⟩, hshort⟩
    have hskip : skipSpace r.chars = r.doc.text ++ r.after := hblank hbefore
    rw [hskip, hread (hgood.2 ⟨hstrict, hshort⟩)]
    dsimp only
    rw [hend hspace]
    rfl
  · intro hbad
    by_cases hbefore : r.before.IsBlank
    · have hskip : skipSpace r.chars = r.doc.text ++ r.after := hblank hbefore
      rw [hskip]
      by_cases hdoc : Readable r.doc.parts
      · obtain ⟨more, hmore⟩ := hcomment fun hspace =>
          hbad ⟨⟨hbefore, (hgood.1 hdoc).1, hspace⟩, (hgood.1 hdoc).2⟩
        exact ⟨.malformed, by simp [hread hdoc, hmore]⟩
      · obtain ⟨e, he⟩ := hrefuse hdoc
        exact ⟨e, by simp [he]⟩
    · obtain ⟨more, hmore⟩ := hslash hbefore
      have hskip : skipSpace r.chars = '/' :: more := hmore
      rw [hskip, readValue_refuses (by decide)]
      exact ⟨.malformed, rfl⟩

end Documents

end RouteAtlas.Json
