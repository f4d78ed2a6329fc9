import Mathlib
import RouteAtlas.Text.Case

/-!
# Letter case

The lower case of a letter is read from a table of runs. As bits of two numbers, the letters that have a lower
case and the letters that are one have nothing in common, so the first character of a lower case is its own
lower case. Beyond ASCII only few letters have their lower case, or count as a letter, within ASCII.
-/

namespace RouteAtlas

namespace Text

section Runs

/-- So many bits, one at each multiple of a distance. -/
def spacedBits (step : Nat) : Nat → Nat
  | 0 => 0
  | n + 1 => 1 ||| spacedBits step n <<< step

theorem testBit_spacedBits
    {step n i : Nat} :
    (spacedBits step n).testBit i = true ↔ ∃ k < n, i = k * step := by
  induction n generalizing i with
  | zero => simp [spacedBits]
  | succ n ih =>
    rw [spacedBits, Nat.testBit_lor, Bool.or_eq_true, Nat.testBit_shiftLeft, Bool.and_eq_true, ih,
      Nat.testBit_one_eq_true_iff_self_eq_zero, decide_eq_true_eq]
    constructor
    · rintro (rfl | ⟨hstep, k, hk, hi⟩)
      · exact ⟨0, by omega, by simp⟩
      · exact ⟨k + 1, by omega, by rw [Nat.succ_mul]; omega⟩
    · rintro ⟨_ | k, hk, rfl⟩
      · simp
      · rw [Nat.succ_mul]
        exact .inr ⟨by omega, k, by omega, by omega⟩

namespace CaseRun

/-- The code point to which the first letter of a run is moved. -/
def low (r : CaseRun) : Nat :=
  ((r.first : Int) + r.offset).toNat

/-- The code point to which the last letter of a run is moved. -/
def high (r : CaseRun) : Nat :=
  ((r.last : Int) + r.offset).toNat

/-- The number of letters of a run. -/
def size (r : CaseRun) : Nat :=
  (r.last - r.first) / r.step + 1

/-- The code points of a run, as the bits of a number. -/
def sources (r : CaseRun) : Nat :=
  spacedBits r.step r.size <<< r.first

/-- The code points to which a run moves its letters, as the bits of a number. -/
def images (r : CaseRun) : Nat :=
  spacedBits r.step r.size <<< r.low

/-- A run moves letters to characters. -/
def IsWellPlaced (r : CaseRun) : Prop :=
  0 < r.step ∧ 0 ≤ (r.first : Int) + r.offset ∧
    (r.high < 0xD800 ∨ 0xDFFF < r.low ∧ r.high < 0x110000)

instance (r : CaseRun) : Decidable r.IsWellPlaced :=
  inferInstanceAs (Decidable (_ ∧ _))

variable {r : CaseRun} {n : Nat} {d : Char}

theorem IsWellPlaced.of_image
    (hplaced : r.IsWellPlaced)
    (h : r.apply? n = some d) :
    r.sources.testBit n = true ∧ r.images.testBit d.toNat = true ∧
      r.low ≤ d.toNat ∧ d.toNat ≤ r.high := by
  obtain ⟨hstep, hfirst, hbounds⟩ := hplaced
  unfold CaseRun.apply? at h
  split at h
  · next hn =>
    simp only [Bool.and_eq_true, decide_eq_true_eq, beq_iff_eq] at hn
    obtain ⟨⟨hlow, hhigh⟩, hmod⟩ := hn
    obtain rfl := Option.some.inj h
    unfold low high at hbounds
    have hchar : (((n : Int) + r.offset).toNat).isValidChar := by
      unfold Nat.isValidChar
      omega
    have hplace : (spacedBits r.step r.size).testBit (n - r.first) = true :=
      testBit_spacedBits.2 ⟨(n - r.first) / r.step,
        Nat.lt_succ_of_le (Nat.div_le_div_right (by omega)),
        (Nat.div_mul_cancel (Nat.dvd_of_mod_eq_zero hmod)).symm⟩
    rw [Char.toNat_ofNat, if_pos hchar, sources, images, Nat.testBit_shiftLeft, Nat.testBit_shiftLeft]
    unfold low high
    refine ⟨?_, ?_, by omega, by omega⟩
    · simp [hplace, hlow]
    · rw [show ((n : Int) + r.offset).toNat - ((r.first : Int) + r.offset).toNat = n - r.first by omega, hplace]
      simp only [ge_iff_le, Bool.and_true, decide_eq_true_eq]
      omega
  · cases h

end CaseRun

/-- All code points of some runs. -/
def bitsOf
    (bits : CaseRun → Nat)
    (runs : List CaseRun) :
    Nat :=
  runs.foldr (fun r more => bits r ||| more) 0

theorem testBit_bitsOf
    {bits : CaseRun → Nat}
    {runs : List CaseRun}
    {r : CaseRun}
    {n : Nat}
    (hr : r ∈ runs)
    (h : (bits r).testBit n = true) :
    (bitsOf bits runs).testBit n = true := by
  induction runs with
  | nil => cases hr
  | cons q runs ih =>
    rw [bitsOf, List.foldr_cons, Nat.testBit_lor, Bool.or_eq_true]
    rcases List.mem_cons.1 hr with rfl | hr
    · exact .inl h
    · exact .inr (ih hr)

end Runs

section LetterCase

/-- No letter to which one is moved for its lower case has a lower case of its own. -/
theorem sources_and_images_lowerRuns :
    (bitsOf CaseRun.sources lowerRuns ||| 1 <<< 304) &&& bitsOf CaseRun.images lowerRuns = 0 := by
  decide +kernel

/-- Letters beyond ASCII have their lower case beyond ASCII, but for the sign of the kelvin. -/
theorem lowerRuns_spec :
    ∀ r ∈ lowerRuns, r.IsWellPlaced ∧ (128 ≤ r.low ∨ r.low = 107 ∧ r.high = 107) := by
  decide +kernel

theorem upperRuns_spec :
    ∀ r ∈ upperRuns, r.IsWellPlaced ∧ (95 < r.low ∨ 46 < r.low ∧ r.high < 95) := by
  decide +kernel

variable {c d : Char}

theorem lowerChar_of_ascii (hc : c.toNat < 128) : lowerChar c = [c.toLower] :=
  if_pos hc

/-- A letter beyond ASCII is put in lower case as itself, by the run that has it, or as the one letter whose
lower case is two characters. -/
theorem lowerChar_cases (hc : 128 ≤ c.toNat) :
    lowerChar c = ['i', Char.ofNat 775] ∨ lowerChar c = [c] ∨
      ∃ r ∈ lowerRuns, ∃ d, lowerChar c = [d] ∧ r.apply? c.toNat = some d := by
  rw [lowerChar, if_neg (by omega)]
  split
  · exact .inl rfl
  · cases hfind : lowerRuns.findSome? fun r => r.apply? c.toNat with
    | none => exact .inr (.inl rfl)
    | some d =>
      obtain ⟨r, hr, hd⟩ := List.exists_of_findSome?_eq_some hfind
      exact .inr (.inr ⟨r, hr, d, rfl, hd⟩)

/-- What a run gives is beyond ASCII, but for the small k. -/
theorem eq_or_of_image
    {r : CaseRun}
    (hr : r ∈ lowerRuns)
    (hd : r.apply? c.toNat = some d) :
    d = 'k' ∨ 128 ≤ d.toNat := by
  obtain ⟨-, -, hlow, hhigh⟩ := (lowerRuns_spec r hr).1.of_image hd
  rcases (lowerRuns_spec r hr).2 with h | h
  · exact .inr (h.trans hlow)
  · exact .inl (Char.toNat_inj.1 (show d.toNat = 107 by omega))

theorem lowerChar_of_image
    {r : CaseRun}
    (hr : r ∈ lowerRuns)
    (hd : r.apply? c.toNat = some d) :
    lowerChar d = [d] := by
  rcases eq_or_of_image hr hd with rfl | hascii
  · rfl
  have himage : (bitsOf CaseRun.images lowerRuns).testBit d.toNat = true :=
    testBit_bitsOf hr ((lowerRuns_spec r hr).1.of_image hd).2.1
  have hsource : (bitsOf CaseRun.sources lowerRuns ||| 1 <<< 304).testBit d.toNat = false := by
    have hnone := congrArg (Nat.testBit · d.toNat) sources_and_images_lowerRuns
    simpa [himage] using hnone
  rw [Nat.testBit_lor, Bool.or_eq_false_iff] at hsource
  have hdotted : d.toNat ≠ 304 := by
    intro heq
    rw [heq] at hsource
    exact absurd hsource.2 (by decide)
  have hfind : (lowerRuns.findSome? fun q => q.apply? d.toNat) = none := by
    refine List.findSome?_eq_none_iff.2 fun q hq => ?_
    by_contra hsome
    obtain ⟨e, he⟩ := Option.ne_none_iff_exists'.1 hsome
    have := testBit_bitsOf hq ((lowerRuns_spec q hq).1.of_image he).1
    rw [hsource.1] at this
    cases this
  rw [lowerChar, if_neg (by omega), if_neg (by simpa using hdotted), hfind]
  rfl

/-- The first character of a lower case is its own lower case. -/
theorem exists_lowerChar_eq_cons (c : Char) : ∃ d ds, lowerChar c = d :: ds ∧ lowerChar d = [d] := by
  by_cases hc : c.toNat < 128
  · refine ⟨c.toLower, [], lowerChar_of_ascii hc, ?_⟩
    have hlower : c.toLower.toNat < 128 := by
      have h : ∀ n < 128, (Char.ofNat n).toLower.toNat < 128 := by decide
      simpa using h c.toNat hc
    rw [lowerChar_of_ascii hlower, Char.toLower_toLower_eq_toLower]
  · rcases lowerChar_cases (Nat.le_of_not_lt hc) with h | h | ⟨r, hr, d, h, hd⟩
    · exact ⟨'i', [Char.ofNat 775], h, rfl⟩
    · exact ⟨c, [], h, h⟩
    · exact ⟨d, [], h, lowerChar_of_image hr hd⟩

theorem caseTwins_spec : ∀ e ∈ caseTwins, Char.ofNat e.2 ∈ ['i', 's'] ∨ 128 ≤ (Char.ofNat e.2).toNat := by
  decide

/-- Beyond ASCII there are letters that count as i, k or s when case is ignored, but none that counts as
another character of ASCII. -/
theorem foldCase_of_not_ascii (hc : 128 ≤ c.toNat) :
    foldCase c ∈ ['i', 'k', 's'] ∨ 128 ≤ (foldCase c).toNat := by
  have hlow : (lowerChar c).headD c ∈ ['i', 'k'] ∨ 128 ≤ ((lowerChar c).headD c).toNat := by
    rcases lowerChar_cases hc with h | h | ⟨r, hr, d, h, hd⟩
    · simp [h]
    · simp [h, hc]
    · rw [h]
      exact (eq_or_of_image hr hd).imp_left fun hk => by simp [hk]
  unfold foldCase
  generalize (lowerChar c).headD c = low at hlow
  dsimp only
  split
  · next hascii =>
    rcases hlow with h | h
    · exact .inl (by grind)
    · omega
  · next hascii =>
    cases hfind : caseTwins.find? fun e => e.1 == low.toNat with
    | none => exact .inr (Nat.le_of_not_lt hascii)
    | some e =>
      rcases caseTwins_spec e (List.mem_of_find?_eq_some hfind) with h | h
      · exact .inl (by
          show Char.ofNat e.2 ∈ _
          grind)
      · exact .inr h

end LetterCase

end Text

end RouteAtlas
