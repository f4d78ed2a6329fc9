import Mathlib
import RouteAtlas.Proofs.JsonChanges

/-!
# Dropping final commas

Every comma that only white space separates from a closing bracket is dropped, wherever it stands. In a
text without comments these are the final commas of lists and mappings, and the commas inside strings
that stand before a bracket of the same string.
-/

namespace RouteAtlas.Json

section Texts

/-- Whether a text holds a comma that only white space separates from a closing bracket. -/
def HoldsFinalComma (cs : List Char) : Prop :=
  ∃ before blank c after, cs = before ++ ',' :: (blank ++ c :: after) ∧
    (∀ d ∈ blank, Text.isBlank d = true) ∧ c ∈ [']', '\x7d']

theorem closesNext_append
    {blank : List Char}
    (h : ∀ d ∈ blank, Text.isBlank d = true)
    {c : Char}
    (hc : Text.isBlank c = false)
    (rest : List Char) :
    closesNext (blank ++ c :: rest) = true ↔ c ∈ [']', '\x7d'] := by
  rw [closesNext, List.dropWhile_append_of_pos h, List.dropWhile_cons_of_neg (by simp [hc])]
  simp [or_comm]

theorem closesNext_iff (cs : List Char) :
    closesNext cs = true ↔ ∃ blank c after, cs = blank ++ c :: after ∧
      (∀ d ∈ blank, Text.isBlank d = true) ∧ c ∈ [']', '\x7d'] := by
  constructor
  · intro h
    have hsplit := List.takeWhile_append_dropWhile (p := Text.isBlank) (l := cs)
    unfold closesNext at h
    split at h
    · next c after heq =>
      rw [heq] at hsplit
      refine ⟨cs.takeWhile Text.isBlank, c, after, hsplit.symm, fun d hd => List.mem_takeWhile_imp hd, ?_⟩
      simpa [or_comm] using h
    · cases h
  · rintro ⟨blank, c, after, rfl, hblank, hc⟩
    have hother : Text.isBlank c = false := by
      fin_cases hc <;> decide
    exact (closesNext_append hblank hother after).2 hc

theorem holdsFinalComma_cons
    (c : Char)
    (cs : List Char) :
    HoldsFinalComma (c :: cs) ↔ c = ',' ∧ closesNext cs = true ∨ HoldsFinalComma cs := by
  rw [closesNext_iff]
  constructor
  · rintro ⟨before, blank, d, after, heq, h⟩
    cases before with
    | nil =>
      obtain ⟨rfl, rfl⟩ := List.cons.inj heq
      exact .inl ⟨rfl, blank, d, after, rfl, h⟩
    | cons b before =>
      obtain ⟨rfl, rfl⟩ := List.cons.inj heq
      exact .inr ⟨before, blank, d, after, rfl, h⟩
  · rintro (⟨rfl, blank, d, after, rfl, h⟩ | ⟨before, blank, d, after, rfl, h⟩)
    · exact ⟨[], blank, d, after, rfl, h⟩
    · exact ⟨c :: before, blank, d, after, rfl, h⟩

theorem not_holdsFinalComma_nil : ¬ HoldsFinalComma [] := by
  rintro ⟨before, blank, c, after, heq, -⟩
  simp at heq

theorem holdsFinalComma_append
    {cs : List Char}
    (h : ',' ∉ cs)
    (rest : List Char) :
    HoldsFinalComma (cs ++ rest) ↔ HoldsFinalComma rest := by
  induction cs with
  | nil => rfl
  | cons c cs ih =>
    rw [List.mem_cons, not_or] at h
    have hc : c ≠ ',' := Ne.symm h.1
    rw [List.cons_append, holdsFinalComma_cons, ih h.2]
    simp [hc]

theorem dropFinalCommas_cons
    {c : Char}
    {cs : List Char}
    (h : c = ',' → closesNext cs = false) :
    dropFinalCommas (c :: cs) = c :: dropFinalCommas cs := by
  by_cases hc : c = ','
  · simp [dropFinalCommas, hc, h hc]
  · simp [dropFinalCommas, hc]

theorem dropFinalCommas_append
    {cs : List Char}
    (h : ',' ∉ cs)
    (rest : List Char) :
    dropFinalCommas (cs ++ rest) = cs ++ dropFinalCommas rest := by
  induction cs with
  | nil => rfl
  | cons c cs ih =>
    rw [List.mem_cons, not_or] at h
    have hc : c ≠ ',' := Ne.symm h.1
    rw [List.cons_append, dropFinalCommas_cons (fun heq => absurd heq hc), ih h.2, List.cons_append]

end Texts

section Strings

/-- A string without the commas that only white space separates from a closing bracket. -/
def trimmed : List Piece → List Piece
  | [] => []
  | p :: s => if p.text = [','] ∧ closesNext (spelled s) = true then trimmed s else p :: trimmed s

theorem Piece.comma_notMem
    (p : Piece)
    (h : p.text ≠ [',']) :
    ',' ∉ p.text := by
  cases p with
  | plain c hc =>
    rw [text, List.mem_singleton]
    rintro rfl
    exact h rfl
  | escape letter c hc =>
    have hletter : ',' ≠ letter := by
      rintro rfl
      exact escape_letter_ne hc (by simp)
    simp [text, hletter]
  | unit u hu =>
    have hdigit := fun hmem => u.digit_ne ',' hmem (by simp)
    simpa [text] using hdigit
  | pair high low hu =>
    have hhigh := fun hmem => high.digit_ne ',' hmem (by simp)
    have hlow := fun hmem => low.digit_ne ',' hmem (by simp)
    simpa [text] using And.intro hhigh hlow

theorem spelled_cons
    (p : Piece)
    (s : List Piece) :
    spelled (p :: s) = p.text ++ spelled s :=
  rfl

/-- A bracket after the closing quote does not count. -/
theorem closesNext_quote (cs rest : List Char) :
    closesNext (cs ++ '"' :: rest) = closesNext cs := by
  induction cs with
  | nil => rfl
  | cons c cs ih =>
    by_cases hblank : Text.isBlank c = true
    · simpa [closesNext, hblank] using ih
    · simp [closesNext, hblank]

theorem dropFinalCommas_spelled
    (s : List Piece)
    (rest : List Char) :
    dropFinalCommas (spelled s ++ '"' :: rest) = spelled (trimmed s) ++ '"' :: dropFinalCommas rest := by
  induction s with
  | nil => exact dropFinalCommas_cons (by simp)
  | cons p s ih =>
    rw [spelled_cons, trimmed]
    by_cases hcomma : p.text = [',']
    · rw [hcomma, List.singleton_append, List.cons_append]
      by_cases hcloses : closesNext (spelled s) = true
      · rw [if_pos ⟨rfl, hcloses⟩, ← ih]
        simp [dropFinalCommas, closesNext_quote, hcloses]
      · rw [Bool.not_eq_true] at hcloses
        rw [dropFinalCommas_cons fun _ => by rw [closesNext_quote, hcloses], ih]
        simp [hcloses, spelled_cons, hcomma]
    · rw [List.append_assoc, dropFinalCommas_append (p.comma_notMem hcomma), ih,
        if_neg fun h => hcomma h.1, spelled_cons, List.append_assoc]

theorem trimmed_sublist (s : List Piece) : (trimmed s).Sublist s := by
  induction s with
  | nil => exact List.Sublist.slnil
  | cons p s ih =>
    rw [trimmed]
    split
    · exact ih.cons p
    · exact ih.cons_cons p

/-- A string stays as it is exactly if none of its commas stands before a closing bracket. -/
theorem trimmed_eq_self_iff (s : List Piece) :
    trimmed s = s ↔ ¬ HoldsFinalComma (spelled s) := by
  induction s with
  | nil => exact iff_of_true rfl not_holdsFinalComma_nil
  | cons p s ih =>
    have hlength := (trimmed_sublist s).length_le
    rw [trimmed, spelled_cons]
    by_cases hcomma : p.text = [',']
    · rw [hcomma, List.singleton_append, holdsFinalComma_cons]
      by_cases hcloses : closesNext (spelled s) = true
      · rw [if_pos ⟨rfl, hcloses⟩]
        refine iff_of_false (fun heq => ?_) (not_not.2 (.inl ⟨rfl, hcloses⟩))
        rw [heq, List.length_cons] at hlength
        omega
      · simp [hcloses, ih]
    · rw [holdsFinalComma_append (p.comma_notMem hcomma), if_neg fun h => hcomma h.1, ← ih]
      simp

/-- A string that loses a comma means something else. -/
theorem trimmed_eq_self
    {s : List Piece}
    (h : meaning (trimmed s) = meaning s) :
    trimmed s = s := by
  have hlength := congrArg List.length (String.ofList_injective h)
  rw [List.length_map, List.length_map] at hlength
  exact (trimmed_sublist s).eq_of_length hlength

end Strings

section Endings

theorem run?_append
    (p : Place)
    (cs cs' : List Char) :
    p.run? (cs ++ cs') = (p.run? cs).bind fun q => q.run? cs' := by
  induction cs generalizing p with
  | nil => rfl
  | cons c cs ih => simp [Place.run?, ih, Option.bind_assoc]

/-- The gaps of an ending without the comma between them. -/
def Ending.joined (e : Ending) : Gap where
  chars := e.gap.chars ++ (e.comma.map Gap.chars).getD []
  run_eq := by
    rw [run?_append, e.gap.run_eq]
    cases e.comma with
    | none => rfl
    | some g => exact g.run_eq

/-- The change of a text without comments that loses its commas before closing brackets. -/
def Change.trim : Change where
  gap g := g
  ending e := ⟨e.joined, none⟩
  string := trimmed

/-- Whether a part holds no comment. -/
def Part.IsBlank : Part → Prop
  | gap g => g.IsBlank
  | ending e => e.gap.IsBlank ∧ ∀ g ∈ e.comma, g.IsBlank
  | _ => True

theorem Gap.IsBlank.comma_notMem
    {g : Gap}
    (h : g.IsBlank) :
    ',' ∉ g.chars :=
  fun hmem => absurd (h ',' hmem) (by decide)

theorem Gap.closesNext_append
    {g : Gap}
    (h : g.IsBlank)
    {c : Char}
    (hc : Text.isBlank c = false)
    (rest : List Char) :
    closesNext (g.chars ++ c :: rest) = true ↔ c ∈ [']', '\x7d'] :=
  Json.closesNext_append (fun d hd => isBlank_of_isSpace (h d hd)) hc rest

/-- Dropping final commas is a change of endings and strings, once comments are dropped. -/
theorem carries_dropFinalCommas : Carries dropFinalCommas .trim Part.IsBlank where
  plain c rest hc := dropFinalCommas_cons fun heq => absurd (heq ▸ List.mem_cons_self) hc
  gap g rest hg _ := dropFinalCommas_append hg.comma_notMem rest
  ending e b rest he := by
    obtain ⟨g, comma⟩ := e
    have hclosing : dropFinalCommas (b.closing :: rest) = b.closing :: dropFinalCommas rest :=
      dropFinalCommas_cons fun heq => by cases b <;> cases heq
    have hgap := he.1.comma_notMem
    cases comma with
    | none =>
      have htext : (Change.trim.ending ⟨g, none⟩).text = g.chars := List.append_nil _
      rw [htext, ← hclosing]
      exact dropFinalCommas_append hgap _
    | some g' =>
      have hg' : g'.IsBlank := he.2 g' rfl
      have hcloses : closesNext (g'.chars ++ b.closing :: rest) = true :=
        (Gap.closesNext_append hg' (by cases b <;> decide) rest).2 (by cases b <;> decide)
      have hcomma : dropFinalCommas (',' :: (g'.chars ++ b.closing :: rest)) =
          dropFinalCommas (g'.chars ++ b.closing :: rest) := by
        simp [dropFinalCommas, hcloses]
      have htext : (Ending.mk g (some g')).text ++ b.closing :: rest =
          g.chars ++ ',' :: (g'.chars ++ b.closing :: rest) := by
        simp [Ending.text]
      have htrim : (Change.trim.ending ⟨g, some g'⟩).text = g.chars ++ g'.chars := rfl
      rw [htext, dropFinalCommas_append hgap, hcomma, dropFinalCommas_append hg'.comma_notMem, hclosing,
        htrim, List.append_assoc]
  separator g c rest hg hc := by
    refine dropFinalCommas_cons fun _ => ?_
    rw [← Bool.not_eq_true, Gap.closesNext_append hg hc.1]
    intro hmem
    exact hc.2 (by fin_cases hmem <;> decide)
  string s rest := by
    have htext : quoted s ++ rest = '"' :: (spelled s ++ '"' :: rest) := by simp [quoted]
    rw [htext, dropFinalCommas_cons (by simp), dropFinalCommas_spelled]
    simp [quoted, Change.trim]

end Endings

end RouteAtlas.Json
