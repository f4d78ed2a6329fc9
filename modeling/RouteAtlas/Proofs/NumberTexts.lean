import Mathlib
import RouteAtlas.Json.Printer
import RouteAtlas.Proofs.JsonRenderings
import RouteAtlas.Proofs.NearestNumbers

/-!
# Numbers and their texts

The text of a number is read as this number again. Seventeen digits always tell a floating-point number
from all others, and no text of a number has more.
-/

namespace RouteAtlas.Binary64

section Shortest

variable {num den m : Nat} {e : Int}

/-- The number of binary digits bounds the place of the first decimal digit. -/
theorem ten_zpow_le_two_zpow
    {t : Int}
    (hmin : -1076 ≤ t)
    (hmax : t ≤ 1024) :
    (10 : ℚ) ^ ((t + 2) * 30103 / 100000 - 4) ≤ 2 ^ t := by
  obtain ⟨j, hj⟩ : ∃ j : Int, j = (t + 2) * 30103 / 100000 - 4 := ⟨_, rfl⟩
  rw [← hj]
  rcases le_or_gt 0 j with hpos | hneg
  · -- ten is less than two to the power of ten thirds
    refine le_of_pow_le_pow_left₀ three_ne_zero (two_zpow_pos t).le ?_
    calc ((10 : ℚ) ^ j) ^ 3 = (10 ^ 3) ^ j := by rw [← zpow_natCast, ← zpow_natCast, zpow_comm]
      _ ≤ (2 ^ 10) ^ j := zpow_le_zpow_left₀ hpos (by norm_num) (by norm_num)
      _ = 2 ^ (10 * j) := by rw [← zpow_natCast, ← zpow_mul]; rfl
      _ ≤ 2 ^ (t * 3) := zpow_le_zpow_right₀ one_le_two (by omega)
      _ = (2 ^ t) ^ 3 := by rw [zpow_mul]; rfl
  · -- ten is more than two to the power of 93 by 28
    refine le_of_pow_le_pow_left₀ (n := 28) (by norm_num) (two_zpow_pos t).le ?_
    have hswap : ((2 : ℚ) ^ 93) ^ (-j) ≤ (10 ^ 28) ^ (-j) :=
      zpow_le_zpow_left₀ (by omega) (by norm_num) (by norm_num)
    calc ((10 : ℚ) ^ j) ^ 28 = ((10 ^ 28) ^ (-j))⁻¹ := by
          rw [zpow_neg, inv_inv, ← zpow_natCast, ← zpow_natCast, zpow_comm]
      _ ≤ ((2 ^ 93) ^ (-j))⁻¹ := inv_anti₀ (by positivity) hswap
      _ = 2 ^ (93 * j) := by rw [zpow_neg, inv_inv, ← zpow_natCast, ← zpow_mul]; rfl
      _ ≤ 2 ^ (t * 28) := zpow_le_zpow_right₀ one_le_two (by omega)
      _ = (2 ^ t) ^ 28 := by rw [zpow_mul]; rfl

/-- The walk to the place of the first digit ends at or below it, if it does not start too far above. -/
theorem ten_zpow_leadingPlace_le
    (hden : 0 < den)
    {steps : Nat}
    {k : Int}
    (h : (10 : ℚ) ^ (k - steps - 1) ≤ num / den) :
    (10 : ℚ) ^ (leadingPlace num den steps k - 1) ≤ num / den := by
  induction steps generalizing k with
  | zero => simpa [leadingPlace] using h
  | succ steps ih =>
    have hcompare := lt_zpow_iff_of_scaled num (b := 10) (by norm_num) hden (k - 1)
    have hbelow :
        (if 0 ≤ k - 1 then decide (num < den * Nat.pow 10 (k - 1).toNat)
          else decide (num * Nat.pow 10 (1 - k).toNat < den)) = true ↔
        (num : ℚ) / den < 10 ^ (k - 1) := by
      rw [Nat.cast_ofNat, neg_sub] at hcompare
      rw [← hcompare]
      split <;> simp
    simp only [leadingPlace, hbelow]
    split
    · refine ih ?_
      convert h using 2
      push_cast
      ring
    · next hk => exact not_lt.1 hk

/-- The place at which the digits of a number start is not above its first digit. -/
theorem ten_zpow_place_le
    (hnum : 0 < num)
    (hden : 0 < den)
    (hmin : (2 : ℚ) ^ (-1074 : Int) ≤ num / den)
    (hmax : (num : ℚ) / den < 2 ^ (1024 : Int)) :
    (10 : ℚ) ^ (leadingPlace num den 5 (placeBound num den) - 1) ≤ num / den := by
  obtain ⟨hlow, hhigh⟩ := binades_of_log2 hnum hden
  have hfrom : (-1074 : Int) < num.log2 - den.log2 + 1 :=
    (zpow_lt_zpow_iff_right₀ one_lt_two).1 (hmin.trans_lt hhigh)
  have hto : (num.log2 : Int) - den.log2 - 1 < 1024 :=
    (zpow_lt_zpow_iff_right₀ one_lt_two).1 (hlow.trans_lt hmax)
  have hbound : placeBound num den - (5 : Nat) - 1 =
      ((num.log2 : Int) - den.log2 - 1 + 2) * 30103 / 100000 - 4 := by
    unfold placeBound
    omega
  refine ten_zpow_leadingPlace_le hden (le_trans ?_ hlow)
  rw [hbound]
  exact ten_zpow_le_two_zpow (by omega) (by omega)

theorem quotientOf_eq
    (m : Nat)
    (e : Int) :
    0 < (quotientOf m e).2 ∧ ((quotientOf m e).1 : ℚ) / (quotientOf m e).2 = m * 2 ^ e := by
  unfold quotientOf
  split
  · next he =>
    refine ⟨one_pos, ?_⟩
    rw [Nat.cast_mul, cast_pow_toNat he, Nat.cast_one, div_one, Nat.cast_ofNat]
  · next he =>
    refine ⟨Nat.two_pow_pos _, ?_⟩
    rw [cast_pow_toNat (by omega), Nat.cast_ofNat, zpow_neg, div_inv_eq_mul]

/-- The nearer one of the decimals next to a quotient is no further from it than half a unit. -/
theorem abs_headD_neighbours_le
    (num : Nat)
    (hden : 0 < den)
    (scale : Int) :
    |((neighbours num den scale).headD 0 : ℚ) - num / den / 10 ^ scale| ≤ 1 / 2 := by
  have hhead (n d : Nat) :
      (if divideToEven n d == n / d then [n / d, n / d + 1] else [n / d + 1, n / d]).headD 0 =
        divideToEven n d := by
    split
    · next h => exact (beq_iff_eq.1 h).symm
    · next h =>
      have hne : divideToEven n d ≠ n / d := by simpa using h
      simp only [divideToEven] at hne ⊢
      grind
  by_cases hs : 0 ≤ scale
  · have hpow : 0 < Nat.pow 10 scale.toNat := Nat.pow_pos (by norm_num)
    have hclose := abs_divideToEven_sub_le num (Nat.mul_pos hden hpow)
    rw [Nat.cast_mul, cast_pow_toNat hs, ← div_div, Nat.cast_ofNat] at hclose
    simpa only [neighbours, hs, if_true, hhead] using hclose
  · have hclose := abs_divideToEven_sub_le (num * Nat.pow 10 (-scale).toNat) hden
    rw [Nat.cast_mul, cast_pow_toNat (by omega), zpow_neg, Nat.cast_ofNat, mul_div_right_comm,
      ← div_eq_mul_inv] at hclose
    simpa only [neighbours, hs, if_false, hhead] using hclose

/-- Digits that are read as a number are not all zero. -/
theorem pos_of_ofDecimal
    {c : Nat}
    {s : Int}
    (hm : 0 < m)
    (h : ofDecimal false c s = .finite false m e) :
    0 < c := by
  refine Nat.pos_of_ne_zero fun hc => ?_
  obtain ⟨hzero, -⟩ : 0 = m ∧ -1074 = e := by simpa [ofDecimal, hc] using h
  omega

/-- The digits that are found are read as the number: those before the last try because this is what
is tried, and seventeen digits because they are near to every number. -/
theorem ofDecimal_shortestFrom
    (h : IsRounded m e)
    (hden : 0 < den)
    (hquot : (num : ℚ) / den = m * 2 ^ e)
    {place : Int}
    (hplace : (10 : ℚ) ^ (place - 1) ≤ num / den)
    (steps : Nat)
    {count : Nat}
    (hcount : count + steps = 17) :
    ofDecimal false (shortestFrom m e num den place steps count).1
      (shortestFrom m e num den place steps count).2 = .finite false m e := by
  induction steps generalizing count with
  | zero =>
    obtain rfl : count = 17 := by omega
    have hclose := abs_headD_neighbours_le num hden (place - (17 : Nat))
    rw [shortestFrom]
    dsimp only
    generalize (neighbours num den (place - (17 : Nat))).headD 0 = c at hclose ⊢
    have hunit := ten_zpow_pos (place - (17 : Nat))
    have hscale : (10 : ℚ) ^ (place - 1) = 10 ^ 16 * 10 ^ (place - (17 : Nat)) := by
      rw [← zpow_natCast, ← zpow_add₀ (by norm_num)]
      congr 1
      push_cast
      ring
    rw [hscale] at hplace
    generalize place - (17 : Nat) = scale at hclose hplace hunit ⊢
    obtain ⟨z, hz⟩ : ∃ z : ℚ, (num : ℚ) / den = z * 10 ^ scale := ⟨num / den / 10 ^ scale, by field_simp⟩
    have hlarge : 10 ^ 16 ≤ z := by
      rw [hz] at hplace
      exact le_of_mul_le_mul_right hplace hunit
    rw [hz, mul_div_cancel_right₀ z hunit.ne'] at hclose
    have hpos : 0 < c := by
      have : (0 : ℚ) < c := by linarith [(abs_le.1 hclose).1]
      exact_mod_cast this
    refine ofDecimal_eq_of_near h hpos ?_
    rw [← hquot, hz, ← sub_mul, abs_mul, abs_of_pos hunit, mul_right_comm]
    exact mul_le_mul_of_nonneg_right (by linarith) hunit.le
  | succ steps ih =>
    rw [shortestFrom]
    split
    · next c hc => simpa using List.find?_some hc
    · exact ih (by omega)

/-- The digits that a number is written with are read as the number. -/
theorem ofDecimal_shortest
    (h : IsRounded m e)
    (hm : 0 < m) :
    ofDecimal false (shortest m e).1 (shortest m e).2 = .finite false m e := by
  obtain ⟨hden, hquot⟩ := quotientOf_eq m e
  obtain ⟨hmin, hmax⟩ := h.bounds hm
  rw [← hquot] at hmin hmax
  have hnum : 0 < (quotientOf m e).1 := by
    refine Nat.pos_of_ne_zero fun hzero => ?_
    rw [hzero, Nat.cast_zero, zero_div] at hmin
    exact absurd hmin (not_le.2 (two_zpow_pos _))
  exact ofDecimal_shortestFrom h hden hquot (ten_zpow_place_le hnum hden hmin hmax) 16 rfl

end Shortest

end RouteAtlas.Binary64

namespace RouteAtlas.Numeral

section Digits

/-- The number that decimal digits denote. -/
def numberOf (cs : List Char) : Nat :=
  ofDigits 10 (cs.map fun c => c.toNat - 48)

theorem numberOf_eq_ofDigitChars (cs : List Char) : numberOf cs = Nat.ofDigitChars 10 cs 0 := by
  simp [numberOf, ofDigits, Nat.ofDigitChars, List.foldl_map, Nat.mul_comm]

theorem numberOf_append
    (cs ds : List Char) :
    numberOf (cs ++ ds) = numberOf cs * 10 ^ ds.length + numberOf ds := by
  rw [numberOf_eq_ofDigitChars, Nat.ofDigitChars_append, Nat.ofDigitChars_eq_ofDigitChars_zero,
    numberOf_eq_ofDigitChars, numberOf_eq_ofDigitChars, Nat.mul_comm]

@[simp] theorem numberOf_zeros (n : Nat) : numberOf (List.replicate n '0') = 0 := by
  rw [numberOf_eq_ofDigitChars, Nat.ofDigitChars_replicate_zero, Nat.mul_zero]

theorem numberOf_cons_zero (cs : List Char) : numberOf ('0' :: cs) = numberOf cs := rfl

theorem numberOf_toDigits (n : Nat) : numberOf (Nat.toDigits 10 n) = n := by
  rw [numberOf_eq_ofDigitChars, Nat.ofDigitChars_ten_toDigits]

/-- Only zero is written with a zero as its first digit. -/
theorem eq_zero_of_head?_toDigits
    {n : Nat}
    (h : (Nat.toDigits 10 n).head? = some '0') :
    n = 0 := by
  induction n using Nat.strongRecOn with
  | ind n ih =>
    rw [Nat.toDigits_eq_if (by norm_num)] at h
    split at h
    · simpa using h
    · next hn =>
      rw [List.head?_append_of_ne_nil _ Nat.toDigits_ne_nil] at h
      have := ih (n / 10) (by omega) h
      omega

theorem length_toDigits_le
    {n k : Nat}
    (hk : 0 < k)
    (h : n < Nat.pow 10 k) :
    (Nat.toDigits 10 n).length ≤ k :=
  (Nat.length_toDigits_le_iff (by norm_num) hk).2 h

theorem hexValue?_of_isDigit
    {c : Char}
    (hc : c.isDigit) :
    (hexValue? c).filter (· < 10) = some (c.toNat - 48) := by
  simp only [Char.isDigit, Bool.and_eq_true, decide_eq_true_eq] at hc
  obtain ⟨hlow, hhigh⟩ := hc
  have h1 : 48 ≤ c.toNat := hlow
  have h2 : c.toNat ≤ 57 := hhigh
  have h3 : c.toNat - 48 < 10 := by omega
  simp [hexValue?, h1, h2, h3]

theorem readBase?_of_isDigit
    {cs : List Char}
    (hne : cs ≠ [])
    (hdigit : ∀ c ∈ cs, c.isDigit) :
    readBase? 10 cs = some (numberOf cs) := by
  have hmap : ∀ {ds : List Char}, (∀ c ∈ ds, c.isDigit) →
      ds.mapM (fun c => (hexValue? c).filter (· < 10)) = some (ds.map fun c => c.toNat - 48) := by
    intro ds hds
    induction ds with
    | nil => rfl
    | cons d rest ih =>
      rw [List.forall_mem_cons] at hds
      simp [List.mapM_cons, hexValue?_of_isDigit hds.1, ih hds.2]
  simp [readBase?, hne, hmap hdigit, numberOf]

end Digits

end RouteAtlas.Numeral

namespace RouteAtlas.Json

open Binary64 Numeral

section Figures

theorem exists_zeros (digits : List Char) :
    ∃ k, digits = withoutFinalZeros digits ++ List.replicate k '0' := by
  cases digits with
  | nil => exact ⟨0, rfl⟩
  | cons d ds =>
    refine ⟨(ds.reverse.takeWhile (· == '0')).length, ?_⟩
    have hzeros : ds.reverse.takeWhile (· == '0') =
        List.replicate (ds.reverse.takeWhile (· == '0')).length '0' :=
      List.eq_replicate_of_mem fun c hc => by simpa using List.mem_takeWhile_imp hc
    rw [withoutFinalZeros, List.cons_append, List.cons.injEq]
    refine ⟨rfl, ?_⟩
    conv_lhs => rw [← List.reverse_reverse ds,
      ← List.takeWhile_append_dropWhile (p := (· == '0')) (l := ds.reverse), List.reverse_append,
      hzeros, List.reverse_replicate]

/-- A number with a point or an exponent is the floating-point number nearest to its digits. -/
theorem Figure.value_eq_float
    {x : Figure}
    (h : x.part ≠ [] ∨ x.exponent ≠ none) :
    x.value = .float (ofDecimal x.negative (numberOf (x.whole ++ x.part))
      ((x.exponent.map Exponent.value).getD 0 - x.part.length)) := by
  rw [Figure.value, if_neg (by tauto)]
  rfl

/-- An exponent as it is written after the digits of a number. -/
theorem exists_exponent (e : Int) :
    ∃ x : Exponent, x.value = e ∧
      x.text = (if e < 0 then "e-" else "e+").toList ++
        (if (Nat.toDigits 10 e.natAbs).length < 2 then '0' :: Nat.toDigits 10 e.natAbs
          else Nat.toDigits 10 e.natAbs) := by
  obtain ⟨padded, hpadded⟩ : ∃ padded, padded =
    if (Nat.toDigits 10 e.natAbs).length < 2 then '0' :: Nat.toDigits 10 e.natAbs
      else Nat.toDigits 10 e.natAbs := ⟨_, rfl⟩
  rw [← hpadded]
  have hdigits : ∀ c ∈ Nat.toDigits 10 e.natAbs, c.isDigit := fun c hc =>
    Nat.isDigit_of_mem_toDigits (by norm_num) (by norm_num) hc
  have hnumber := numberOf_toDigits e.natAbs
  have hfacts : padded ≠ [] ∧ (∀ c ∈ padded, c.isDigit) ∧ numberOf padded = e.natAbs := by
    rw [hpadded]
    split
    · refine ⟨List.cons_ne_nil _ _, ?_, (numberOf_cons_zero _).trans hnumber⟩
      exact List.forall_mem_cons.2 ⟨by decide, hdigits⟩
    · exact ⟨Nat.toDigits_ne_nil, hdigits, hnumber⟩
  obtain ⟨hne, hdigit, hvalue⟩ := hfacts
  refine ⟨⟨'e', some (decide (e < 0)), padded, e.natAbs, .inl rfl, hdigit, ?_⟩, ?_, ?_⟩
  · rw [readBase?_of_isDigit hne hdigit, hvalue]
  · simp only [Exponent.value, Option.some.injEq, decide_eq_true_eq]
    split <;> omega
  · by_cases he : e < 0 <;> simp [Exponent.text, he]

/-- Digits that start with no zero. -/
structure IsSignificant (ds : List Char) : Prop where
  ne_nil : ds ≠ []
  isDigit : ∀ c ∈ ds, c.isDigit
  head_ne : ds.head? ≠ some '0'

theorem IsSignificant.pos
    {ds : List Char}
    (h : IsSignificant ds) :
    0 < numberOf ds := by
  obtain ⟨d, rest, rfl⟩ := List.exists_cons_of_ne_nil h.ne_nil
  have hd : d.isDigit := h.isDigit d List.mem_cons_self
  have hne : d ≠ '0' := by simpa using h.head_ne
  have hvalue : 0 < numberOf [d] := by
    simp only [Char.isDigit, Bool.and_eq_true, decide_eq_true_eq] at hd
    have hlow : 48 ≤ d.toNat := hd.1
    have hlow' : d.toNat ≠ 48 := fun heq => hne (Char.toNat_inj.1 heq)
    simp [numberOf, ofDigits]
    omega
  rw [← List.singleton_append, numberOf_append]
  positivity

/-- A minus sign, if there is one. -/
def signOf (negative : Bool) : List Char :=
  if negative then ['-'] else []

theorem Figure.text_eq (x : Figure) :
    x.text = signOf x.negative ++ (x.whole ++ ((if x.part = [] then [] else '.' :: x.part) ++
      (x.exponent.map Exponent.text).getD [])) := by
  cases hx : x.negative <;> simp [Figure.text, Figure.tail, signOf, hx]

variable {shown : List Char}

/-- Digits after the point, with zeros in front of them. -/
theorem exists_figure_fraction
    (negative : Bool)
    (h : IsSignificant shown)
    (zeros : Nat) :
    ∃ x : Figure, x.text = signOf negative ++ '0' :: '.' :: (List.replicate zeros '0' ++ shown) ∧
      x.value = .float (ofDecimal negative (numberOf shown) (-(zeros : Int) - shown.length)) ∧
      x.IsShort := by
  have hpart : List.replicate zeros '0' ++ shown ≠ [] := by simp [h.ne_nil]
  refine ⟨⟨negative, ['0'], List.replicate zeros '0' ++ shown, none, by simp,
    List.forall_mem_singleton.2 (by decide), by simp, ?_⟩, ?_, ?_, fun hnil => absurd hnil hpart⟩
  · intro c hc
    rcases List.mem_append.1 hc with hc | hc
    · rw [List.eq_of_mem_replicate hc]
      decide
    · exact h.isDigit c hc
  · simp [Figure.text_eq, h.ne_nil]
  · rw [Figure.value_eq_float (.inl hpart)]
    simp only [List.singleton_append, numberOf_cons_zero]
    rw [numberOf_append, numberOf_zeros, Nat.zero_mul, Nat.zero_add, List.length_append,
      List.length_replicate]
    congr 2
    push_cast
    simp
    ring

/-- The digits on both sides of a point are the shown ones with zeros after them, as many as there are
places to fill; a point is never the end. -/
theorem exists_zeros_at_point
    (shown : List Char)
    (place : Nat) :
    ∃ zeros : Nat,
      shown.take place ++ List.replicate (place - shown.length) '0' ++
          (if shown.drop place = [] then ['0'] else shown.drop place) =
        shown ++ List.replicate zeros '0' ∧
      (zeros : Int) - (if shown.drop place = [] then ['0'] else shown.drop place).length =
        place - shown.length := by
  by_cases hfits : shown.length ≤ place
  · refine ⟨place - shown.length + 1, ?_, ?_⟩
    · rw [List.drop_eq_nil_of_le hfits, if_pos rfl, List.take_of_length_le hfits,
        List.replicate_succ', List.append_assoc]
    · rw [List.drop_eq_nil_of_le hfits, if_pos rfl, List.length_singleton]
      omega
  · have hmore : place < shown.length := not_le.1 hfits
    have hdrop : shown.drop place ≠ [] := fun hnil => hfits (List.drop_eq_nil_iff.1 hnil)
    refine ⟨0, ?_, ?_⟩
    · rw [if_neg hdrop, Nat.sub_eq_zero_of_le hmore.le, List.replicate_zero, List.append_nil,
        List.append_nil, List.take_append_drop]
    · rw [if_neg hdrop, List.length_drop]
      omega

/-- Digits before and after the point, with zeros to fill the places before it. -/
theorem exists_figure_point
    (negative : Bool)
    (h : IsSignificant shown)
    {place : Nat}
    (hplace : 0 < place) :
    ∃ x : Figure, x.text = signOf negative ++ (shown.take place ++
        List.replicate (place - shown.length) '0' ++
        '.' :: (if shown.drop place = [] then ['0'] else shown.drop place)) ∧
      x.value = .float (ofDecimal negative (numberOf shown) (place - shown.length)) ∧
      x.IsShort := by
  obtain ⟨d, ds, rfl⟩ := List.exists_cons_of_ne_nil h.ne_nil
  obtain ⟨p, rfl⟩ : ∃ p, place = p + 1 := ⟨place - 1, by omega⟩
  obtain ⟨part, hpart⟩ : ∃ part, part =
    if (d :: ds).drop (p + 1) = [] then ['0'] else (d :: ds).drop (p + 1) := ⟨_, rfl⟩
  rw [← hpart]
  have hne : part ≠ [] := by
    rw [hpart]
    split
    · simp
    · next hdrop => exact hdrop
  have hdigit : ∀ c ∈ part, c.isDigit := by
    rw [hpart]
    split
    · exact List.forall_mem_singleton.2 (by decide)
    · exact fun c hc => h.isDigit c (List.mem_of_mem_drop hc)
  refine ⟨⟨negative, (d :: ds).take (p + 1) ++ List.replicate (p + 1 - (d :: ds).length) '0', part,
    none, by simp, ?_, ?_, hdigit⟩, ?_, ?_, fun hnil => absurd hnil hne⟩
  · intro c hc
    rcases List.mem_append.1 hc with hc | hc
    · exact h.isDigit c (List.mem_of_mem_take hc)
    · rw [List.eq_of_mem_replicate hc]
      decide
  · intro hzero
    exact absurd (by simpa using hzero) h.head_ne
  · simp [Figure.text_eq, hne]
  · obtain ⟨zeros, hwritten, hscale⟩ := exists_zeros_at_point (d :: ds) (p + 1)
    rw [← hpart] at hwritten hscale
    have hnumber := congrArg numberOf hwritten
    rw [numberOf_append _ (List.replicate zeros '0'), numberOf_zeros,
      List.length_replicate] at hnumber
    have hpos := h.pos
    rw [Figure.value_eq_float (.inl hne)]
    refine congrArg Value.float (ofDecimal_congr (hnumber ▸ by positivity) hpos ?_)
    rw [hnumber, ← hscale]
    push_cast
    rw [add_zero, mul_assoc, ← zpow_natCast, ← zpow_add₀ (by norm_num)]
    simp [sub_eq_add_neg]

/-- Digits of which the first stands before the point, with an exponent. -/
theorem exists_figure_exponent
    (negative : Bool)
    (h : IsSignificant shown)
    (e : Int) :
    ∃ x : Figure, x.text = signOf negative ++ (shown.take 1 ++
        ((if shown.drop 1 = [] then [] else '.' :: shown.drop 1) ++
        ((if e < 0 then "e-" else "e+").toList ++
          (if (Nat.toDigits 10 e.natAbs).length < 2 then '0' :: Nat.toDigits 10 e.natAbs
            else Nat.toDigits 10 e.natAbs)))) ∧
      x.value = .float (ofDecimal negative (numberOf shown) (e + 1 - shown.length)) ∧
      x.IsShort := by
  obtain ⟨d, ds, rfl⟩ := List.exists_cons_of_ne_nil h.ne_nil
  obtain ⟨exponent, hvalue, htext⟩ := exists_exponent e
  refine ⟨⟨negative, [d], ds, some exponent, by simp, ?_, ?_, ?_⟩, ?_, ?_, fun _ hnone => ?_⟩
  · simpa using h.isDigit d List.mem_cons_self
  · exact fun hzero => absurd (by simpa using hzero) h.head_ne
  · exact fun c hc => h.isDigit c (List.mem_cons_of_mem _ hc)
  · simp [Figure.text_eq, htext]
  · rw [Figure.value_eq_float (.inr (Option.some_ne_none _))]
    simp only [List.singleton_append, Option.map_some, Option.getD_some, hvalue, List.length_cons]
    congr 2
    push_cast
    ring
  · exact absurd hnone (Option.some_ne_none _)

/-- The layout of digits is read as the number that they denote with their place. -/
theorem exists_figure_layout
    (negative : Bool)
    {digits : List Char}
    (h : IsSignificant digits)
    (place : Int) :
    ∃ x : Figure, x.text = signOf negative ++ (layout digits place).toList ∧
      x.value = .float (ofDecimal negative (numberOf digits) (place - digits.length)) ∧
      x.IsShort := by
  obtain ⟨k, hzeros⟩ := exists_zeros digits
  obtain ⟨shown, hshown⟩ : ∃ shown, shown = withoutFinalZeros digits := ⟨_, rfl⟩
  rw [← hshown] at hzeros
  have hnumber : numberOf digits = numberOf shown * 10 ^ k := by
    rw [hzeros, numberOf_append, numberOf_zeros, List.length_replicate, Nat.add_zero]
  have hne : shown ≠ [] := by
    rintro rfl
    have hpos := h.pos
    rw [hzeros, List.nil_append, numberOf_zeros] at hpos
    exact hpos.false
  have h' : IsSignificant shown := by
    refine ⟨hne, fun c hc => h.isDigit c (hzeros ▸ List.mem_append_left _ hc), ?_⟩
    rw [← List.head?_append_of_ne_nil _ hne, ← hzeros]
    exact h.head_ne
  -- what the figure has to denote, without the zeros that are not shown
  have hvalue : ofDecimal negative (numberOf digits) (place - digits.length) =
      ofDecimal negative (numberOf shown) (place - shown.length) := by
    refine ofDecimal_congr h.pos h'.pos ?_
    rw [hnumber, hzeros, List.length_append, List.length_replicate]
    push_cast
    rw [mul_assoc, ← zpow_natCast, ← zpow_add₀ (by norm_num)]
    congr 2
    ring
  rw [hvalue]
  unfold layout
  simp only [← hshown]
  by_cases hposition : -4 < place ∧ place ≤ 16
  · rw [if_pos (by simpa using hposition)]
    by_cases hsmall : place ≤ 0
    · rw [if_pos hsmall]
      obtain ⟨zeros, rfl⟩ : ∃ zeros : Nat, place = -zeros := ⟨(-place).toNat, by omega⟩
      simpa using exists_figure_fraction negative h' zeros
    · rw [if_neg hsmall]
      obtain ⟨p, rfl⟩ : ∃ p : Nat, place = p := ⟨place.toNat, by omega⟩
      obtain ⟨x, htext, hx⟩ := exists_figure_point negative h' (show 0 < p by omega)
      refine ⟨x, htext.trans ?_, hx⟩
      simp
      split <;> simp
  · rw [if_neg (by simpa using hposition)]
    obtain ⟨x, htext, hx⟩ := exists_figure_exponent negative h' (place - 1)
    rw [Int.sub_add_cancel] at hx
    refine ⟨x, htext.trans ?_, hx⟩
    simp
    split <;> simp

theorem isSignificant_toDigits
    {n : Nat}
    (h : 0 < n) :
    IsSignificant (Nat.toDigits 10 n) where
  ne_nil := Nat.toDigits_ne_nil
  isDigit _ hd := Nat.isDigit_of_mem_toDigits (by norm_num) (by norm_num) hd
  head_ne hhead := h.ne' (eq_zero_of_head?_toDigits hhead)

/-- A finite number is read from its text. -/
theorem exists_figure_finite
    (negative : Bool)
    {m : Nat}
    {e : Int}
    (h : IsRounded m e) :
    ∃ x : Figure, x.text = (Binary64.text (.finite negative m e)).toList ∧
      x.value = .float (.finite negative m e) ∧ x.IsShort := by
  have hsign : (if negative then "-" else "").toList = signOf negative := by
    cases negative <;> rfl
  rcases Nat.eq_zero_or_pos m with rfl | hm
  · have hzero : e = -1074 := by
      by_contra hne
      have := h.full (by have := h.le; omega)
      omega
    have hdigit : ∀ c ∈ ['0'], c.isDigit := List.forall_mem_singleton.2 (by decide)
    refine ⟨⟨negative, ['0'], ['0'], none, by simp, hdigit, by simp, hdigit⟩, ?_, ?_,
      by simp [Figure.IsShort]⟩
    · simp only [Binary64.text, beq_self_eq_true, if_true, String.toList_append, hsign]
      simp [Figure.text_eq]
    · rw [Figure.value_eq_float (.inl (by simp)), hzero]
      rfl
  · obtain ⟨c, s, hcs⟩ : ∃ c s, shortest m e = (c, s) := ⟨_, _, rfl⟩
    have hread := ofDecimal_shortest h hm
    rw [hcs] at hread
    have hne : (m == 0) = false := by simpa using hm.ne'
    obtain ⟨x, htext, hvalue, hshort⟩ := exists_figure_layout negative
      (isSignificant_toDigits (pos_of_ofDecimal hm hread)) ((Nat.toDigits 10 c).length + s)
    refine ⟨x, ?_, ?_, hshort⟩
    · simp only [Binary64.text, hcs, hne, Bool.false_eq_true, if_false]
      rw [htext, ← hsign, String.toList_append]
    · rw [hvalue, numberOf_toDigits, add_sub_cancel_left, ofDecimal_eq_withSign, hread]
      rfl

theorem toList_repr (i : Int) :
    i.repr.toList = signOf (decide (i < 0)) ++ Nat.toDigits 10 i.natAbs := by
  cases i with
  | ofNat n =>
    have hnonneg : ¬ (Int.ofNat n < 0) := by simp
    simp only [Int.repr, Nat.toList_repr, signOf, hnonneg]
    rfl
  | negSucc n =>
    have hneg : Int.negSucc n < 0 := Int.negSucc_lt_zero n
    simp only [Int.repr, String.toList_append, Nat.toList_repr, signOf, hneg]
    rfl

/-- A whole number of not too many digits is read from its text. -/
theorem exists_figure_int
    {i : Int}
    (h : Numeral.isWritable i = true) :
    ∃ x : Figure, x.text = (toString i).toList ∧ x.value = .int i ∧ x.IsShort := by
  have hzero : (Nat.toDigits 10 i.natAbs).head? = some '0' → Nat.toDigits 10 i.natAbs = ['0'] :=
    fun hhead => by rw [eq_zero_of_head?_toDigits hhead, Nat.toDigits_zero]
  refine ⟨⟨decide (i < 0), Nat.toDigits 10 i.natAbs, [], none, Nat.toDigits_ne_nil,
    fun d hd => Nat.isDigit_of_mem_toDigits (by norm_num) (by norm_num) hd, hzero, by simp⟩,
    ?_, ?_, ?_⟩
  · simp [Figure.text_eq, toList_repr]
  · have hnumber : ofDigits 10 ((Nat.toDigits 10 i.natAbs).map fun c => c.toNat - 48) = i.natAbs :=
      numberOf_toDigits i.natAbs
    simp only [Figure.value, and_self, if_true, hnumber, decide_eq_true_eq, Value.int.injEq]
    split <;> omega
  · intro _ _
    exact length_toDigits_le (by decide) (of_decide_eq_true h)

end Figures

end RouteAtlas.Json
