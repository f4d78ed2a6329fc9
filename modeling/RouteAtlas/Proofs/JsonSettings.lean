import Mathlib
import RouteAtlas.Project.Config
import RouteAtlas.Proofs.JsonComments
import RouteAtlas.Proofs.JsonCommas
import RouteAtlas.Proofs.JsonReading
import RouteAtlas.Proofs.ResolvedPaths

/-!
# Reading settings with comments

A settings file is a text of JSON with comments. It is read as what it writes whatever its comments and
its strings hold, with one exception. Where a text is not JSON as it stands, a string must not hold a
comma that only white space separates from a closing bracket, because such a comma is lost.
-/

namespace RouteAtlas

namespace Json

section Lines

theorem return_notMem_plainNewlinesOf (cs : List Char) : '\r' ∉ Text.plainNewlinesOf cs := by
  fun_induction Text.plainNewlinesOf cs with
  | case1 => simp
  | case2 more ih => simp [ih]
  | case3 more hmore ih => simp [ih]
  | case4 c more _ hc ih => simp [Ne.symm hc, ih]

theorem isSpace_plainNewlinesOf_iff (cs : List Char) :
    (∀ c ∈ Text.plainNewlinesOf cs, isSpace c = true) ↔ ∀ c ∈ cs, isSpace c = true := by
  have hfeed : isSpace '\n' = true := by decide
  have hreturn : isSpace '\r' = true := by decide
  fun_induction Text.plainNewlinesOf cs with
  | case1 => rfl
  | case2 more ih => simpa [hfeed, hreturn] using ih
  | case3 more hmore ih => simpa [hfeed, hreturn] using ih
  | case4 c more _ hc ih => simp [ih]

end Lines

section Renderings

theorem Doc.forall_parts_map
    {P : Part → Prop}
    (m : Change)
    (d : Doc) :
    (∀ p ∈ (d.map m).parts, P p) ↔ ∀ p ∈ d.parts, P (m.part p) := by
  rw [d.parts_map m, List.forall_mem_map]

theorem Change.isShort_part
    (m : Change)
    (p : Part) :
    (m.part p).IsShort ↔ p.IsShort := by
  cases p <;> rfl

namespace Rendering

variable (r : Rendering)

/-- A text with every line break as one line feed. -/
def plainLines : Rendering where
  before := r.before.plainLines
  doc := r.doc.map (.ofGaps Gap.plainLines)
  after := Text.plainNewlinesOf r.after
  run_eq := by
    rw [run?_plainNewlinesOf]
    exact r.run_eq

/-- A text without its comments. -/
def stripped : Rendering where
  before := r.before.stripped
  doc := r.doc.map (.ofGaps Gap.stripped)
  after := Place.between.kept r.after
  run_eq := .inl (run?_of_isSpace (Place.isSpace_kept _ _))

/-- A text without the commas that only white space separates from a closing bracket. -/
def trimmed : Rendering where
  before := r.before
  doc := r.doc.map .trim
  after := r.after
  run_eq := r.run_eq

theorem chars_plainLines : r.plainLines.chars = Text.plainNewlinesOf r.chars :=
  (carries_plainNewlinesOf.chars trivial fun _ _ => trivial).symm

/-- Line breaks that are made alike do not make a text JSON, nor do they keep it from being so. -/
theorem isStrict_plainLines : r.plainLines.IsStrict ↔ r.IsStrict := by
  have hgap : ∀ g : Gap, g.plainLines.IsBlank ↔ g.IsBlank :=
    fun g => isSpace_plainNewlinesOf_iff g.chars
  have hpart : ∀ p : Part, ((Change.ofGaps Gap.plainLines).part p).IsStrict ↔ p.IsStrict := by
    intro p
    cases p with
    | gap g => exact hgap g
    | ending e => exact and_congr (hgap e.gap) (by simp [Change.ofGaps])
    | string s => rfl
    | number x => rfl
  have hparts : (∀ p ∈ r.plainLines.doc.parts, p.IsStrict) ↔ ∀ p ∈ r.doc.parts, p.IsStrict := by
    refine (r.doc.forall_parts_map _).trans ?_
    simp only [hpart]
  exact and_congr (hgap r.before) (and_congr hparts (isSpace_plainNewlinesOf_iff r.after))

theorem return_notMem_spacing : ∀ p ∈ r.plainLines.doc.parts, '\r' ∉ p.spacing := by
  refine (r.doc.forall_parts_map _).2 fun p _ => ?_
  cases p with
  | gap g => exact return_notMem_plainNewlinesOf g.chars
  | ending e =>
    obtain ⟨g, comma⟩ := e
    have hgap := return_notMem_plainNewlinesOf g.chars
    cases comma with
    | none => exact hgap
    | some g' =>
      have hgap' := return_notMem_plainNewlinesOf g'.chars
      simp [Change.part, Change.ofGaps, Part.spacing, Ending.text, Gap.plainLines, hgap, hgap']
  | string s => simp [Change.part, Part.spacing]
  | number x => simp [Change.part, Part.spacing]

theorem chars_stripped : r.plainLines.stripped.chars = dropComments r.plainLines.chars := by
  have hafter : dropComments r.plainLines.after = r.plainLines.stripped.after := by
    have hreturn := return_notMem_plainNewlinesOf r.after
    have hend : Place.between.Drops [] [] ∧ Place.line.Drops [] [] := ⟨rfl, rfl⟩
    have hdrops : Place.between.Drops (r.plainLines.after ++ [])
        (Place.between.kept r.plainLines.after ++ []) :=
      r.plainLines.run_eq.elim (fun h => hend.1.run h hreturn) fun h => hend.2.run h hreturn
    rw [List.append_nil, List.append_nil] at hdrops
    exact hdrops
  have hbefore : '\r' ∉ (Part.gap r.plainLines.before).spacing :=
    return_notMem_plainNewlinesOf r.before.chars
  rw [carries_dropComments.chars hbefore r.return_notMem_spacing, hafter]
  rfl

theorem isBlank_stripped : ∀ p ∈ r.stripped.doc.parts, p.IsBlank := by
  have hgap : ∀ g : Gap, g.stripped.IsBlank := fun g => Place.isSpace_kept _ _
  refine (r.doc.forall_parts_map _).2 fun p _ => ?_
  cases p with
  | gap g => exact hgap g
  | ending e =>
    refine ⟨hgap e.gap, fun g hg => ?_⟩
    obtain ⟨g', -, rfl⟩ := Option.mem_map.1 hg
    exact hgap g'
  | string s => trivial
  | number x => trivial

theorem chars_trimmed : r.stripped.trimmed.chars = dropFinalCommas r.stripped.chars := by
  have hbefore : (Part.gap r.stripped.before).IsBlank := Place.isSpace_kept _ _
  have hcomma : ',' ∉ r.stripped.after :=
    fun hmem => absurd (Place.isSpace_kept _ _ ',' hmem) (by decide)
  have hafter : dropFinalCommas r.stripped.after = r.stripped.after := by
    simpa [dropFinalCommas] using dropFinalCommas_append hcomma []
  rw [carries_dropFinalCommas.chars hbefore r.isBlank_stripped, hafter]
  rfl

/-- A text without comments and final commas is JSON as it stands. -/
theorem isStrict_trimmed : r.stripped.trimmed.IsStrict := by
  refine ⟨Place.isSpace_kept _ _, (r.stripped.doc.forall_parts_map _).2 fun p hp => ?_,
    Place.isSpace_kept _ _⟩
  have hblank := r.isBlank_stripped p hp
  cases p with
  | gap g => exact hblank
  | ending e =>
    refine ⟨fun c hc => ?_, rfl⟩
    rcases List.mem_append.1 hc with hc | hc
    · exact hblank.1 c hc
    · obtain ⟨gap, comma⟩ := e
      cases comma with
      | none => cases hc
      | some g => exact hblank.2 g rfl c hc
  | string s => trivial
  | number x => trivial

/-- The text that is left after comments and final commas are dropped. -/
def bare : Rendering :=
  r.plainLines.stripped.trimmed

theorem chars_bare :
    r.bare.chars = dropFinalCommas (dropComments (Text.plainNewlinesOf r.chars)) := by
  rw [bare, chars_trimmed, chars_stripped, chars_plainLines]

/-- The changes that leave the bare text. -/
def toBare : Change :=
  ((Change.ofGaps Gap.plainLines).comp (.ofGaps Gap.stripped)).comp .trim

theorem doc_bare : r.bare.doc = r.doc.map toBare := by
  rw [toBare, Doc.map_comp, Doc.map_comp]
  rfl

theorem isStrict_bare : r.bare.IsStrict :=
  r.plainLines.isStrict_trimmed

theorem isShort_plainLines : r.plainLines.IsShort ↔ r.IsShort := by
  refine (r.doc.forall_parts_map _).trans ?_
  simp only [Change.isShort_part, IsShort]

theorem isShort_bare : r.bare.IsShort ↔ r.IsShort := by
  unfold IsShort
  rw [doc_bare, Doc.forall_parts_map]
  simp only [Change.isShort_part]

/-- What is left of a text means what the text means exactly if no string loses a comma. -/
theorem value_bare_iff
    (hkeys : r.doc.KeysApart) :
    r.bare.doc.value = r.doc.value ↔ ∀ s, .string s ∈ r.doc.parts → ¬ HoldsFinalComma (spelled s) := by
  have hstring : ∀ s, toBare.string s = s ↔ ¬ HoldsFinalComma (spelled s) := trimmed_eq_self_iff
  rw [doc_bare]
  constructor
  · intro h s hs
    exact (hstring s).1 (r.doc.kept_of_value_map (fun _ => trimmed_eq_self) hkeys h s hs)
  · intro h
    exact r.doc.value_map_of_kept fun s hs => (hstring s).2 (h s hs)

end Rendering

/-- A text of JSON with comments is read as what it writes exactly if no whole number has too many digits
and either the text is JSON as it stands or no string would lose a comma. -/
theorem parseWithComments_iff
    {r : Rendering}
    (hkeys : r.doc.KeysApart) :
    parseWithComments (Text.plainNewlines (String.ofList r.chars)) = .ok r.doc.value ↔
      r.IsShort ∧ (r.IsStrict ∨ ∀ s, .string s ∈ r.doc.parts → ¬ HoldsFinalComma (spelled s)) := by
  have htext : (Text.plainNewlines (String.ofList r.chars)).toList = r.plainLines.chars := by
    rw [Text.plainNewlines, String.toList_ofList, String.toList_ofList, r.chars_plainLines]
  obtain ⟨hread, hrefuse⟩ := parseChars_rendering r.plainLines
  obtain ⟨hread', hrefuse'⟩ := parseChars_rendering r.bare
  rw [r.isStrict_plainLines, r.isShort_plainLines] at hread hrefuse
  rw [r.isShort_bare, r.chars_bare, ← r.chars_plainLines] at hread' hrefuse'
  unfold parseWithComments
  dsimp only
  rw [htext]
  by_cases hplain : r.IsStrict ∧ r.IsShort
  · have hvalue : r.plainLines.doc.value = r.doc.value := r.doc.value_map_of_kept fun _ _ => rfl
    rw [hread hplain, hvalue]
    exact iff_of_true rfl ⟨hplain.2, .inl hplain.1⟩
  · obtain ⟨e, he⟩ := hrefuse hplain
    simp only [he]
    by_cases hshort : r.IsShort
    · have hstrict : ¬ r.IsStrict := fun h => hplain ⟨h, hshort⟩
      rw [hread' ⟨r.isStrict_bare, hshort⟩, Except.ok.injEq, r.value_bare_iff hkeys]
      simp only [hshort, hstrict, true_and, false_or]
    · obtain ⟨e', he'⟩ := hrefuse' fun h => hshort h.2
      rw [he']
      simp [hshort]

end Renderings

end Json

namespace Project

open Files Json

section Settings

variable {t : Tree} {p : Path} {content : Content} {r : Rendering} {entries : List (String × Value)}

theorem readSettings_eq_ok_iff
    (hfile : t.find? p = some (.file content))
    {text : String}
    (htext : content.text? = some text) :
    readSettings t p = .ok entries ↔ parseWithComments (Text.plainNewlines text) = .ok (.map entries) := by
  unfold readSettings
  simp only [hfile, htext]
  cases parseWithComments (Text.plainNewlines text) with
  | ok v => cases v <;> simp
  | error e => cases e <;> simp

/-- A settings file is read as the mapping that it writes exactly if no whole number has too many digits
and either the file is JSON as it stands or no string would lose a comma. -/
theorem readSettings_iff
    (hfile : t.find? p = some (.file content))
    (htext : content.text? = some (String.ofList r.chars))
    (hvalue : r.doc.value = .map entries)
    (hkeys : r.doc.KeysApart) :
    readSettings t p = .ok entries ↔
      r.IsShort ∧ (r.IsStrict ∨ ∀ s, .string s ∈ r.doc.parts → ¬ HoldsFinalComma (spelled s)) := by
  rw [readSettings_eq_ok_iff hfile htext, ← hvalue, parseWithComments_iff hkeys]

end Settings

section Remarks

/-- A mapping of one string under one key, with a remark and a final comma. -/
def remarked (name s : List Piece) : Rendering where
  before := ⟨[], rfl⟩
  doc :=
    .filled .curly ⟨"/* [\"a, */ // ,]\n".toList, by decide⟩
      (.last (.key name ⟨[], rfl⟩ ⟨[' '], rfl⟩) (.string s) ⟨⟨[], rfl⟩, some ⟨['\n'], rfl⟩⟩)
  after := []
  run_eq := .inl rfl

variable (name s : List Piece)

theorem value_remarked : (remarked name s).doc.value = .map [(meaning name, .str (meaning s))] :=
  rfl

theorem keysApart_remarked : (remarked name s).doc.KeysApart :=
  ⟨trivial, fun _ => List.nodup_singleton _⟩

theorem isShort_remarked : (remarked name s).IsShort := by
  simp [remarked, Rendering.IsShort, Doc.parts, Entries.parts, Label.parts, Part.IsShort]

theorem string_remarked
    {s' : List Piece}
    (h : .string s' ∈ (remarked name s).doc.parts) :
    s' = name ∨ s' = s := by
  simpa [remarked, Doc.parts, Entries.parts, Label.parts] using h

theorem not_isStrict_remarked : ¬ (remarked name s).IsStrict := by
  rintro ⟨-, hparts, -⟩
  have hending := hparts (.ending ⟨⟨[], rfl⟩, some ⟨['\n'], rfl⟩⟩)
    (by simp [remarked, Doc.parts, Entries.parts, Label.parts])
  cases hending.2

/-- The tree of one settings file. -/
def settingsTree (r : Rendering) : Tree :=
  ⟨.directory [("a.json", .file (.text (String.ofList r.chars)))]⟩

theorem find?_settingsTree (r : Rendering) :
    (settingsTree r).find? (Path.root.child "a.json") =
      some (.file (.text (String.ofList r.chars))) := by
  have hentry : (settingsTree r).root.get? ["a.json"] =
      some (.file (.text (String.ofList r.chars))) := by
    simp [settingsTree, Entry.get?, Entry.lookup?]
  exact (Tree.find?_of_reached (.file .root (by decide) hentry)).trans hentry

/-- A string of characters that are written as themselves. -/
def plainly
    (text : List Char)
    (h : ∀ c ∈ text, c ≠ '"' ∧ c ≠ '\\' ∧ 32 ≤ c.toNat) :
    List Piece :=
  text.pmap Piece.plain h

/-- A mapping with strings that look like remarks and final commas. -/
def lookalikes : Rendering :=
  remarked (plainly ['/', '*', '*', '/'] (by simp)) (plainly [']', ',', '/', '/', ','] (by simp))

theorem readSettings_lookalikes :
    (settingsTree lookalikes).find? (Path.root.child "a.json") =
        some (.file (.text (String.ofList lookalikes.chars))) ∧
      lookalikes.doc.value = .map [("/**/", .str "],//,")] ∧
      lookalikes.doc.KeysApart ∧
      readSettings (settingsTree lookalikes) (Path.root.child "a.json") =
        .ok [("/**/", .str "],//,")] := by
  have hfile := find?_settingsTree lookalikes
  have hvalue : lookalikes.doc.value = .map [("/**/", .str "],//,")] := value_remarked _ _
  have hkeys : lookalikes.doc.KeysApart := keysApart_remarked _ _
  have hshort : lookalikes.IsShort := isShort_remarked _ _
  have hstrings : ∀ s, .string s ∈ lookalikes.doc.parts → ¬ HoldsFinalComma (spelled s) := by
    intro s hs
    rcases string_remarked _ _ hs with rfl | rfl
    · exact (trimmed_eq_self_iff _).1 rfl
    · exact (trimmed_eq_self_iff _).1 rfl
  exact ⟨hfile, hvalue, hkeys, (readSettings_iff hfile rfl hvalue hkeys).2 ⟨hshort, .inr hstrings⟩⟩

/-- Not every string of a file with comments is read as it is written: of `,]` the comma is lost. -/
theorem not_readSettings_remarked :
    ¬∀ (t : Tree) (p : Path) (content : Content) (r : Rendering) (entries : List (String × Value)),
      t.find? p = some (.file content) → content.text? = some (String.ofList r.chars) →
      r.doc.value = .map entries → r.doc.KeysApart → r.IsShort → readSettings t p = .ok entries := by
  intro h
  have hcomma : HoldsFinalComma (spelled (plainly [',', ']'] (by simp))) :=
    ⟨[], [], ']', [], rfl, by simp, by simp⟩
  have hread := h _ _ _ (remarked [] (plainly [',', ']'] (by simp))) _ (find?_settingsTree _) rfl
    (value_remarked _ _) (keysApart_remarked _ _) (isShort_remarked _ _)
  rw [readSettings_eq_ok_iff (find?_settingsTree _) rfl, ← value_remarked,
    parseWithComments_iff (keysApart_remarked _ _)] at hread
  refine hread.2.elim (not_isStrict_remarked _ _) fun hstrings => hstrings _ ?_ hcomma
  simp [remarked, Doc.parts, Entries.parts, Label.parts]

end Remarks

end Project

end RouteAtlas
