import Mathlib
import RouteAtlas.Proofs.JsonTokens
import RouteAtlas.Text.Utf8

/-!
# Readers that change texts of JSON

Before a text with comments is read as JSON, its line breaks are made alike, its comments are dropped,
and then its final commas. Each of these goes through the text from left to right without knowing its
structure, and each is a change of the parts of a document: the first two change gaps only, whatever
stands in the comments and in the strings. The third one drops every comma that only white space
separates from a closing bracket, inside strings too.
-/

namespace RouteAtlas.Json

section Carrying

/-- The characters that a reader of comments and commas may look at. -/
def marks : List Char :=
  ['\r', '"', '/']

/-- A reader carries out a change on texts whose parts are of some kind, if it does so on each part. -/
structure Carries
    (F : List Char → List Char)
    (m : Change)
    (ok : Part → Prop) :
    Prop where
  plain : ∀ c rest, c ∉ ',' :: marks → F (c :: rest) = c :: F rest
  gap : ∀ g rest, ok (.gap g) → rest.head? ≠ some '\n' →
    F (g.chars ++ rest) = (m.gap g).chars ++ F rest
  ending : ∀ e (b : Bracket) rest, ok (.ending e) →
    F (e.text ++ b.closing :: rest) = (m.ending e).text ++ b.closing :: F rest
  separator : ∀ g c rest, ok (.gap g) → Opens c →
    F (',' :: (g.chars ++ c :: rest)) = ',' :: F (g.chars ++ c :: rest)
  string : ∀ s rest, F (quoted s ++ rest) = quoted (m.string s) ++ F rest

variable {F : List Char → List Char} {m : Change} {ok : Part → Prop}

theorem Opens.head_ne
    {c : Char}
    (h : Opens c)
    (rest : List Char) :
    (c :: rest).head? ≠ some '\n' := by
  rintro ⟨⟩
  exact absurd h.1 (by decide)

namespace Carries

variable (h : Carries F m ok)

include h

theorem append
    {cs : List Char}
    (hcs : ∀ c ∈ cs, c ∉ ',' :: marks)
    (rest : List Char) :
    F (cs ++ rest) = cs ++ F rest := by
  induction cs with
  | nil => rfl
  | cons c cs ih =>
    rw [List.forall_mem_cons] at hcs
    rw [List.cons_append, h.plain c _ hcs.1, ih hcs.2, List.cons_append]

theorem label
    {b : Bracket}
    (l : Label b)
    (hl : ∀ p ∈ l.parts, ok p)
    {c : Char}
    (hc : Opens c)
    (rest : List Char) :
    F (l.text ++ c :: rest) = (m.label l).text ++ F (c :: rest) := by
  cases l with
  | item => rfl
  | key name before after =>
    have hbefore : ok (.gap before) := hl _ (by simp [Label.parts])
    have hafter : ok (.gap after) := hl _ (by simp [Label.parts])
    have htext : (Label.key name before after).text ++ c :: rest =
        quoted name ++ (before.chars ++ ':' :: (after.chars ++ c :: rest)) := by
      simp [Label.text]
    have hcolon : (':' :: (after.chars ++ c :: rest)).head? ≠ some '\n' := by simp
    rw [htext, h.string, h.gap before _ hbefore hcolon, h.plain ':' _ (by decide),
      h.gap after _ hafter (hc.head_ne rest)]
    simp [Change.label, Label.text]

end Carries

theorem not_mem_marks_of_digit
    {c : Char}
    (h : c.isDigit) :
    c ∉ ',' :: marks := by
  intro hmem
  fin_cases hmem <;> revert h <;> decide

theorem not_mem_marks_of_word
    {w : String × Value}
    (h : w ∈ words) :
    ∀ c ∈ w.1.toList, c ∉ ',' :: marks := by
  simp only [words, List.mem_cons, List.not_mem_nil, or_false] at h
  rcases h with rfl | rfl | rfl | rfl | rfl | rfl <;> simp [marks]

theorem Exponent.not_mem_marks
    (e : Exponent) :
    ∀ c ∈ e.text, c ∉ ',' :: marks := by
  intro c hc
  simp only [Exponent.text, List.mem_cons, List.mem_append] at hc
  rcases hc with rfl | hc | hc
  · rcases e.letter_eq with hletter | hletter <;> rw [hletter] <;> decide
  · cases hsign : e.sign with
    | none => simp [hsign] at hc
    | some minus => cases minus <;> simp [hsign] at hc <;> subst hc <;> decide
  · exact not_mem_marks_of_digit (e.isDigit c hc)

theorem Figure.not_mem_marks
    (x : Figure) :
    ∀ c ∈ x.text, c ∉ ',' :: marks := by
  have hwhole : ∀ c ∈ x.whole, c ∉ ',' :: marks :=
    fun c hc => not_mem_marks_of_digit (x.isDigit_whole c hc)
  have hpart : ∀ c ∈ (if x.part = [] then [] else '.' :: x.part), c ∉ ',' :: marks := by
    intro c hc
    split at hc
    · cases hc
    · rcases List.mem_cons.1 hc with rfl | hc
      · decide
      · exact not_mem_marks_of_digit (x.isDigit_part c hc)
  have hexponent : ∀ c ∈ (x.exponent.map Exponent.text).getD [], c ∉ ',' :: marks := by
    intro c hc
    cases hexponent : x.exponent with
    | none => simp [hexponent] at hc
    | some e => exact e.not_mem_marks c (by simpa [hexponent] using hc)
  intro c hc
  unfold Figure.text at hc
  have hcases : c = '-' ∨ c ∈ x.whole ++ x.tail := by
    split at hc
    · exact List.mem_cons.1 hc
    · exact .inr hc
  rcases hcases with rfl | hc
  · decide
  · simp only [Figure.tail, List.mem_append] at hc
    rcases hc with hc | hc | hc
    · exact hwhole c hc
    · exact hpart c hc
    · exact hexponent c hc

mutual

/-- A reader that carries out a change on every part carries it out on a document. -/
theorem Doc.carried (h : Carries F m ok) :
    (d : Doc) → (∀ p ∈ d.parts, ok p) → ∀ rest, F (d.text ++ rest) = (d.map m).text ++ F rest
  | .word w hw, _, rest => h.append (not_mem_marks_of_word hw) rest
  | .number x, _, rest => h.append x.not_mem_marks rest
  | .string s, _, rest => h.string s rest
  | .empty b ending, hok, rest => by
    have hopening : b.opening ∉ ',' :: marks := by cases b <;> decide
    have hending : ok (.ending ending) := hok _ (by simp [Doc.parts])
    have htext : (Doc.empty b ending).text ++ rest =
        b.opening :: (ending.text ++ b.closing :: rest) := by
      simp [Doc.text]
    rw [htext, h.plain _ _ hopening, h.ending ending b rest hending]
    simp [Doc.map, Doc.text]
  | .filled b before entries, hok, rest => by
    have hopening : b.opening ∉ ',' :: marks := by cases b <;> decide
    have hbefore : ok (.gap before) := hok _ (by simp [Doc.parts])
    have hentries := entries.carried h (fun p hp => hok p (by simp [Doc.parts, hp])) rest
    obtain ⟨c, cs, hhead, hc⟩ := entries.exists_head
    have htext : (Doc.filled b before entries).text ++ rest =
        b.opening :: (before.chars ++ (entries.text ++ b.closing :: rest)) := by
      simp [Doc.text]
    have hgap : F (before.chars ++ (entries.text ++ b.closing :: rest)) =
        (m.gap before).chars ++ F (entries.text ++ b.closing :: rest) :=
      h.gap before _ hbefore (by rw [hhead]; exact hc.head_ne _)
    rw [htext, h.plain _ _ hopening, hgap, hentries]
    simp [Doc.map, Doc.text]

theorem Entries.carried (h : Carries F m ok) {b : Bracket} :
    (es : Entries b) → (∀ p ∈ es.parts, ok p) → ∀ rest,
      F (es.text ++ b.closing :: rest) = (es.map m).text ++ b.closing :: F rest
  | .last label value ending, hok, rest => by
    have hending : ok (.ending ending) := hok _ (by simp [Entries.parts])
    have hvalue := value.carried h (fun p hp => hok p (by simp [Entries.parts, hp]))
      (ending.text ++ b.closing :: rest)
    obtain ⟨c, cs, hhead, hc⟩ := value.exists_head
    have hlabel := h.label label (fun p hp => hok p (by simp [Entries.parts, hp])) hc
      (cs ++ (ending.text ++ b.closing :: rest))
    have htext : (Entries.last label value ending).text ++ b.closing :: rest =
        label.text ++ c :: (cs ++ (ending.text ++ b.closing :: rest)) := by
      simp [Entries.text, hhead]
    rw [hhead, List.cons_append] at hvalue
    rw [htext, hlabel, hvalue, h.ending ending b rest hending]
    simp [Entries.map, Entries.text]
  | .more label value after before more, hok, rest => by
    have hafter : ok (.gap after) := hok _ (by simp [Entries.parts])
    have hbefore : ok (.gap before) := hok _ (by simp [Entries.parts])
    have hmore := more.carried h (fun p hp => hok p (by simp [Entries.parts, hp])) rest
    have hvalue := value.carried h (fun p hp => hok p (by simp [Entries.parts, hp]))
      (after.chars ++ ',' :: (before.chars ++ (more.text ++ b.closing :: rest)))
    obtain ⟨c, cs, hhead, hc⟩ := value.exists_head
    obtain ⟨c', cs', hhead', hc'⟩ := more.exists_head
    have hlabel := h.label label (fun p hp => hok p (by simp [Entries.parts, hp])) hc
      (cs ++ (after.chars ++ ',' :: (before.chars ++ (more.text ++ b.closing :: rest))))
    have hcomma : (',' :: (before.chars ++ (more.text ++ b.closing :: rest))).head? ≠ some '\n' := by
      simp
    have hseparator : F (',' :: (before.chars ++ (more.text ++ b.closing :: rest))) =
        ',' :: F (before.chars ++ (more.text ++ b.closing :: rest)) := by
      rw [hhead', List.cons_append]
      exact h.separator before c' _ hbefore hc'
    have hgap : F (before.chars ++ (more.text ++ b.closing :: rest)) =
        (m.gap before).chars ++ F (more.text ++ b.closing :: rest) :=
      h.gap before _ hbefore (by rw [hhead']; exact hc'.head_ne _)
    have htext : (Entries.more label value after before more).text ++ b.closing :: rest =
        label.text ++ c :: (cs ++ (after.chars ++ ',' :: (before.chars ++
          (more.text ++ b.closing :: rest)))) := by
      simp [Entries.text, hhead]
    rw [hhead, List.cons_append] at hvalue
    rw [htext, hlabel, hvalue, h.gap after _ hafter hcomma, hseparator, hgap, hmore]
    simp [Entries.map, Entries.text]

end

/-- A reader that carries out a change carries it out on a text up to what follows its value. -/
theorem Carries.chars
    (h : Carries F m ok)
    {r : Rendering}
    (hbefore : ok (.gap r.before))
    (hparts : ∀ p ∈ r.doc.parts, ok p) :
    F r.chars = (m.gap r.before).chars ++ ((r.doc.map m).text ++ F r.after) := by
  obtain ⟨c, cs, hhead, hc⟩ := r.doc.exists_head
  rw [Rendering.chars, h.gap r.before _ hbefore (by rw [hhead]; exact hc.head_ne _),
    r.doc.carried h hparts]

end Carrying

section Gaps

/-- The white space and the comments of a part. -/
def Part.spacing : Part → List Char
  | gap g => g.chars
  | ending e => e.text
  | _ => []

/-- A change of gaps alone. -/
def Change.ofGaps (f : Gap → Gap) : Change where
  gap := f
  ending e := ⟨f e.gap, e.comma.map f⟩
  string s := s

/-- A reader that does not look at commas carries out a change of gaps if it does so on each gap. -/
theorem Carries.ofGaps
    {F : List Char → List Char}
    {f : Gap → Gap}
    {P : List Char → Prop}
    (hP : ∀ cs cs', P (cs ++ cs') → P cs ∧ P cs')
    (hplain : ∀ c rest, c ∉ marks → F (c :: rest) = c :: F rest)
    (hgap : ∀ g rest, P g.chars → rest.head? ≠ some '\n' →
      F (g.chars ++ rest) = (f g).chars ++ F rest)
    (hstring : ∀ s rest, F (quoted s ++ rest) = quoted s ++ F rest) :
    Carries F (.ofGaps f) fun p => P p.spacing where
  plain c rest hc := hplain c rest fun hmem => hc (List.mem_cons_of_mem _ hmem)
  gap := hgap
  ending e b rest he := by
    obtain ⟨g, comma⟩ := e
    have hclosing : b.closing ∉ marks ∧ (b.closing :: rest).head? ≠ some '\n' := by
      cases b <;> exact ⟨by decide, by simp [Bracket.closing]⟩
    cases comma with
    | none =>
      show F (g.chars ++ b.closing :: rest) = (f g).chars ++ b.closing :: F rest
      rw [hgap g _ he hclosing.2, hplain _ _ hclosing.1]
    | some g' =>
      obtain ⟨hg, hg'⟩ := hP g.chars (',' :: g'.chars) he
      have htext : (Ending.mk g (some g')).text ++ b.closing :: rest =
          g.chars ++ ',' :: (g'.chars ++ b.closing :: rest) := by
        simp [Ending.text]
      rw [htext, hgap g _ hg (by simp), hplain ',' _ (by decide),
        hgap g' _ (hP [','] g'.chars hg').2 hclosing.2, hplain _ _ hclosing.1]
      simp [Ending.text, Change.ofGaps]
  separator g c rest hg hc := hplain ',' _ (by decide)
  string := hstring

end Gaps

section Lines

theorem plainNewlinesOf_cons
    {c : Char}
    (hc : c ≠ '\r')
    (rest : List Char) :
    Text.plainNewlinesOf (c :: rest) = c :: Text.plainNewlinesOf rest := by
  rw [Text.plainNewlinesOf]
  · exact fun _ h => absurd h hc
  · exact hc

theorem plainNewlinesOf_return
    {rest : List Char}
    (hrest : rest.head? ≠ some '\n') :
    Text.plainNewlinesOf ('\r' :: rest) = '\n' :: Text.plainNewlinesOf rest := by
  rw [Text.plainNewlinesOf]
  rintro more rfl
  exact hrest rfl

/-- Line breaks are made alike before and after a place at which no line break may be split. -/
theorem plainNewlinesOf_append
    (cs : List Char)
    {rest : List Char}
    (hrest : rest.head? ≠ some '\n') :
    Text.plainNewlinesOf (cs ++ rest) = Text.plainNewlinesOf cs ++ Text.plainNewlinesOf rest := by
  fun_induction Text.plainNewlinesOf cs with
  | case1 => rfl
  | case2 more ih => simp [Text.plainNewlinesOf, ih]
  | case3 more hmore ih =>
    have hhead : (more ++ rest).head? ≠ some '\n' := by
      cases more with
      | nil => exact hrest
      | cons c more =>
        rintro ⟨⟩
        exact hmore more rfl
    rw [List.cons_append, plainNewlinesOf_return hhead, ih, List.cons_append]
  | case4 c more _ hc ih => rw [List.cons_append, plainNewlinesOf_cons hc, ih, List.cons_append]

/-- A line feed leads wherever a carriage return leads, with a line feed after it or without. -/
theorem Place.step?_newline (p : Place) :
    p.step? '\r' = p.step? '\n' ∧ (p.step? '\n').bind (fun q => q.step? '\n') = p.step? '\n' := by
  cases p <;> decide

theorem run?_plainNewlinesOf
    (p : Place)
    (cs : List Char) :
    p.run? (Text.plainNewlinesOf cs) = p.run? cs := by
  fun_induction Text.plainNewlinesOf cs generalizing p with
  | case1 => rfl
  | case2 more ih =>
    obtain ⟨hreturn, htwice⟩ := p.step?_newline
    simp only [Place.run?, hreturn, ih, ← Option.bind_assoc, htwice]
  | case3 more hmore ih => simp only [Place.run?, p.step?_newline.1, ih]
  | case4 c more _ hc ih => simp only [Place.run?, ih]

/-- A gap with every line break as one line feed. -/
def Gap.plainLines (g : Gap) : Gap :=
  ⟨Text.plainNewlinesOf g.chars, by rw [run?_plainNewlinesOf, g.run_eq]⟩

theorem isSome_of_mapM
    {α β : Type}
    {f : α → Option β}
    {as : List α}
    {bs : List β}
    (h : as.mapM f = some bs) :
    ∀ a ∈ as, (f a).isSome := by
  induction as generalizing bs with
  | nil => simp
  | cons a as ih =>
    rw [List.mapM_cons] at h
    obtain ⟨b, hb, h⟩ := Option.bind_eq_some_iff.1 h
    obtain ⟨more, hmore, -⟩ := Option.bind_eq_some_iff.1 h
    rw [List.forall_mem_cons, hb]
    exact ⟨rfl, ih hmore⟩

/-- The digits of a code point are neither control characters nor marks. -/
theorem CodeUnit.digit_ne
    (u : CodeUnit) :
    ∀ c ∈ u.digits, c ∉ ['\r', ',', '"', '\\'] := by
  intro c hc
  obtain ⟨ns, hns, -⟩ : ∃ ns, u.digits.mapM (fun c => (Numeral.hexValue? c).filter (· < 16)) = some ns ∧
      Numeral.ofDigits 16 ns = u.number := by
    have hreads := u.reads
    unfold Numeral.readBase? at hreads
    split at hreads
    · cases hreads
    · exact Option.map_eq_some_iff.1 hreads
  have hdigit := isSome_of_mapM hns c hc
  intro hmem
  fin_cases hmem <;> revert hdigit <;> decide

theorem escape_letter_ne
    {letter c : Char}
    (h : simpleEscape? letter = some c) :
    letter ∉ ['\r', ','] := by
  intro hmem
  fin_cases hmem <;> cases h

/-- No line break stands in a string. -/
theorem return_notMem_quoted (s : List Piece) : '\r' ∉ quoted s := by
  have hpiece : ∀ p : Piece, '\r' ∉ p.text := by
    intro p
    cases p with
    | plain c h =>
      rw [Piece.text, List.mem_singleton]
      rintro rfl
      exact absurd h.2.2 (by decide)
    | escape letter c h =>
      have hletter : '\r' ≠ letter := by
        rintro rfl
        exact escape_letter_ne h (by simp)
      simp [Piece.text, hletter]
    | unit u h =>
      have hdigit := fun hmem => u.digit_ne '\r' hmem (by simp)
      simpa [Piece.text] using hdigit
    | pair high low h =>
      have hhigh := fun hmem => high.digit_ne '\r' hmem (by simp)
      have hlow := fun hmem => low.digit_ne '\r' hmem (by simp)
      simpa [Piece.text] using And.intro hhigh hlow
  simpa [quoted, spelled] using fun p _ => hpiece p

/-- Making line breaks alike is a change of gaps. -/
theorem carries_plainNewlinesOf :
    Carries Text.plainNewlinesOf (.ofGaps Gap.plainLines) fun _ => True := by
  refine .ofGaps (P := fun _ => True) ?_ ?_ ?_ ?_
  · exact fun _ _ _ => ⟨trivial, trivial⟩
  · exact fun c rest hc => plainNewlinesOf_cons (by rintro rfl; exact hc (by decide)) rest
  · exact fun g rest _ hrest => plainNewlinesOf_append g.chars hrest
  · intro s rest
    have hkept : ∀ cs : List Char, '\r' ∉ cs →
        Text.plainNewlinesOf (cs ++ rest) = cs ++ Text.plainNewlinesOf rest := by
      intro cs hcs
      induction cs with
      | nil => rfl
      | cons c cs ih =>
        rw [List.mem_cons, not_or] at hcs
        rw [List.cons_append, plainNewlinesOf_cons (Ne.symm hcs.1), ih hcs.2, List.cons_append]
    exact hkept _ (return_notMem_quoted s)

end Lines

end RouteAtlas.Json
