import Mathlib
import RouteAtlas.Number.Binary64

/-!
# Rounding to the nearest number

Reading a decimal depends on its exact value alone, however many zeros it is written with. A decimal
that differs from a number by no more than its share of `2 · 10 ^ 16` is read as this number, which is
why seventeen digits are always enough.
-/

namespace RouteAtlas.Binary64

section Quotients

variable {num den num' den' : Nat}

theorem cast_pow_toNat
    {b : Nat}
    {k : Int}
    (hk : 0 ≤ k) :
    ((Nat.pow b k.toNat : Nat) : ℚ) = (b : ℚ) ^ k := by
  obtain ⟨n, rfl⟩ := Int.eq_ofNat_of_zero_le hk
  simp

theorem two_zpow_pos (k : Int) : (0 : ℚ) < 2 ^ k := by positivity

theorem ten_zpow_pos (k : Int) : (0 : ℚ) < 10 ^ k := by positivity

theorem divideToEven_mul_right
    (num den : Nat)
    {k : Nat}
    (hk : 0 < k) :
    divideToEven (num * k) (den * k) = divideToEven num den := by
  have hdiv : num * k / (den * k) = num / den := Nat.mul_div_mul_right num den hk
  have hmod : num * k % (den * k) = num % den * k := Nat.mul_mod_mul_right k num den
  have htwice : 2 * (num % den * k) = 2 * (num % den) * k := by ring
  simp only [divideToEven, hdiv, hmod, htwice, Nat.mul_lt_mul_right hk]

/-- Rounding a quotient depends on its value alone. -/
theorem divideToEven_congr
    (hden : 0 < den)
    (hden' : 0 < den')
    (h : (num : ℚ) / den = num' / den') :
    divideToEven num den = divideToEven num' den' := by
  have hcross : num * den' = num' * den := by
    rw [div_eq_div_iff (by positivity) (by positivity)] at h
    exact_mod_cast h
  rw [← divideToEven_mul_right num den hden', ← divideToEven_mul_right num' den' hden, hcross,
    Nat.mul_comm den]

/-- A rounded quotient is no further than one half from the quotient. -/
theorem abs_divideToEven_sub_le
    (num : Nat)
    (hden : 0 < den) :
    |(divideToEven num den : ℚ) - num / den| ≤ 1 / 2 := by
  have hden' : (0 : ℚ) < den := by exact_mod_cast hden
  obtain ⟨f, hf⟩ : ∃ f : ℚ, f = (num % den : Nat) / den := ⟨_, rfl⟩
  have hquot : (num : ℚ) / den = (num / den : Nat) + f := by
    have hsplit : (num : ℚ) = den * (num / den : Nat) + (num % den : Nat) := by
      exact_mod_cast (Nat.div_add_mod num den).symm
    rw [hf]
    field_simp
    exact hsplit
  have hnonneg : 0 ≤ f := hf ▸ by positivity
  have hlt : f < 1 := by
    rw [hf, div_lt_one hden']
    exact_mod_cast Nat.mod_lt num hden
  have hhalf : f < 1 / 2 ↔ 2 * (num % den) < den := by
    rw [hf, div_lt_div_iff₀ hden' two_pos]
    norm_cast
    omega
  have hhalf' : 1 / 2 < f ↔ den < 2 * (num % den) := by
    rw [hf, div_lt_div_iff₀ two_pos hden']
    norm_cast
    omega
  rw [hquot, abs_le]
  simp only [divideToEven]
  split
  · next h =>
    rw [← hhalf] at h
    constructor <;> linarith
  · next h =>
    rw [← hhalf, not_lt] at h
    split
    · push_cast
      constructor <;> linarith
    · next h' =>
      rw [← hhalf', not_lt] at h'
      split <;> push_cast <;> constructor <;> linarith

theorem divideToEven_eq
    {m : Nat}
    (hden : 0 < den)
    (h : |(num : ℚ) / den - m| < 1 / 2) :
    divideToEven num den = m := by
  have hround := abs_divideToEven_sub_le num hden
  have hdiff : |(divideToEven num den : ℚ) - m| < 1 := by
    calc |(divideToEven num den : ℚ) - m|
        ≤ |(divideToEven num den : ℚ) - num / den| + |(num : ℚ) / den - m| := abs_sub_le _ _ _
      _ < 1 := by linarith
  have hint : |((divideToEven num den : Int) - m : Int)| < 1 := by exact_mod_cast hdiff
  have := Int.abs_lt_one_iff.1 hint
  omega

end Quotients

section Binades

variable {num den : Nat}

/-- The comparison by which the binade of a quotient is chosen. -/
theorem lt_zpow_iff_of_scaled
    (num : Nat)
    {b : Nat}
    (hb : 0 < b)
    (hden : 0 < den)
    (k : Int) :
    (if 0 ≤ k then num < den * Nat.pow b k.toNat else num * Nat.pow b (-k).toNat < den) ↔
      (num : ℚ) / den < (b : ℚ) ^ k := by
  have hden' : (0 : ℚ) < den := by exact_mod_cast hden
  have hb' : (0 : ℚ) < b := by exact_mod_cast hb
  rw [div_lt_iff₀ hden']
  split
  · next hk =>
    rw [← cast_pow_toNat hk, mul_comm]
    norm_cast
  · next hk =>
    have hinv : (b : ℚ) ^ k = ((b : ℚ) ^ (-k))⁻¹ := by rw [zpow_neg, inv_inv]
    rw [hinv, inv_mul_eq_div, lt_div_iff₀ (by positivity), ← cast_pow_toNat (by omega)]
    norm_cast

/-- The logarithm of a number is told by the powers next to it. -/
theorem log_eq
    {b : Nat}
    {x : ℚ}
    {k : Int}
    (hb : 1 < b)
    (hx : 0 < x)
    (hlow : (b : ℚ) ^ k ≤ x)
    (hhigh : x < (b : ℚ) ^ (k + 1)) :
    Int.log b x = k := by
  have h := (Int.zpow_le_iff_le_log hb hx).1 hlow
  have h' := (Int.lt_zpow_iff_log_lt hb hx).1 hhigh
  omega

/-- A number counted in units of a power of two lies below the binade of a greater power. -/
theorem log_mul_zpow_lt
    {z : ℚ}
    {e : Int}
    (hpos : 0 < z * 2 ^ e)
    {k : Nat}
    (hk : z < 2 ^ k) :
    Int.log 2 (z * 2 ^ e) < k + e := by
  refine (Int.lt_zpow_iff_log_lt one_lt_two hpos).1 ?_
  rw [Nat.cast_ofNat, zpow_add₀ two_ne_zero, zpow_natCast]
  exact mul_lt_mul_of_pos_right hk (two_zpow_pos e)

theorem le_log_mul_zpow
    {z : ℚ}
    {e : Int}
    (hpos : 0 < z * 2 ^ e)
    {k : Nat}
    (hk : 2 ^ k ≤ z) :
    k + e ≤ Int.log 2 (z * 2 ^ e) := by
  refine (Int.zpow_le_iff_le_log one_lt_two hpos).1 ?_
  rw [Nat.cast_ofNat, zpow_add₀ two_ne_zero, zpow_natCast]
  exact mul_le_mul_of_nonneg_right hk (two_zpow_pos e).le

variable {num den : Nat}

/-- The binary digits of two numbers leave two binades for their quotient. -/
theorem binades_of_log2
    (hnum : 0 < num)
    (hden : 0 < den) :
    (2 : ℚ) ^ ((num.log2 : Int) - den.log2 - 1) ≤ num / den ∧
      (num : ℚ) / den < 2 ^ ((num.log2 : Int) - den.log2 + 1) := by
  have hden' : (0 : ℚ) < den := by exact_mod_cast hden
  have hlow {n : Nat} (hn : 0 < n) : (2 : ℚ) ^ (n.log2 : Int) ≤ n := by
    exact_mod_cast Nat.log2_self_le hn.ne'
  have hhigh (n : Nat) : (n : ℚ) < 2 ^ ((n.log2 : Int) + 1) := by
    exact_mod_cast Nat.lt_log2_self (n := n)
  constructor
  · rw [le_div_iff₀ hden']
    calc (2 : ℚ) ^ ((num.log2 : Int) - den.log2 - 1) * den
        ≤ 2 ^ ((num.log2 : Int) - den.log2 - 1) * 2 ^ ((den.log2 : Int) + 1) := by
          gcongr
          exact (hhigh den).le
      _ = 2 ^ (num.log2 : Int) := by rw [← zpow_add₀ two_ne_zero]; congr 1; ring
      _ ≤ num := hlow hnum
  · rw [div_lt_iff₀ hden']
    calc (num : ℚ) < 2 ^ ((num.log2 : Int) + 1) := hhigh num
      _ = 2 ^ ((num.log2 : Int) - den.log2 + 1) * 2 ^ (den.log2 : Int) := by
          rw [← zpow_add₀ two_ne_zero]; congr 1; ring
      _ ≤ 2 ^ ((num.log2 : Int) - den.log2 + 1) * den := by
          gcongr
          exact hlow hden

theorem exponentOf_eq
    (hnum : 0 < num)
    (hden : 0 < den) :
    exponentOf num den = max (-1074) (Int.log 2 ((num : ℚ) / den) - 52) := by
  have hx : (0 : ℚ) < num / den := by
    have : (0 : ℚ) < num := by exact_mod_cast hnum
    have : (0 : ℚ) < den := by exact_mod_cast hden
    positivity
  obtain ⟨hlow, hhigh⟩ := binades_of_log2 hnum hden
  obtain ⟨guess, hguess⟩ : ∃ guess : Int, guess = (num.log2 : Int) - den.log2 - 52 := ⟨_, rfl⟩
  have hscaled :
      (if 0 ≤ guess then decide (num < den * Nat.pow 2 (52 + guess.toNat))
        else decide (num * Nat.pow 2 (-guess).toNat < den * Nat.pow 2 52)) = true ↔
      (num : ℚ) / den < 2 ^ (guess + 52) := by
    have hcompare := lt_zpow_iff_of_scaled num two_pos
      (Nat.mul_pos hden (Nat.two_pow_pos 52)) guess
    rw [zpow_add₀ two_ne_zero, zpow_ofNat, ← div_lt_iff₀ (by positivity), div_div]
    simp only [Nat.cast_mul, Nat.cast_pow, Nat.cast_ofNat] at hcompare
    rw [← hcompare]
    split <;> simp [Nat.pow_add, Nat.mul_assoc]
  have hlog : Int.log 2 ((num : ℚ) / den) = if (num : ℚ) / den < 2 ^ (guess + 52)
      then guess - 1 + 52 else guess + 52 := by
    have hlow' : ((2 : Nat) : ℚ) ^ (guess - 1 + 52) ≤ num / den := by
      rw [Nat.cast_two, hguess]
      convert hlow using 2
      omega
    have hhigh' : (num : ℚ) / den < ((2 : Nat) : ℚ) ^ (guess + 52 + 1) := by
      rw [Nat.cast_two, hguess]
      convert hhigh using 2
      omega
    split
    · next h =>
      refine log_eq one_lt_two hx hlow' ?_
      rw [Nat.cast_two, show guess - 1 + 52 + 1 = guess + 52 by omega]
      exact h
    · next h => exact log_eq one_lt_two hx (le_of_not_gt h) hhigh'
  simp only [exponentOf, ← hguess, hscaled, hlog]
  split <;> omega

end Binades

section Rounding

variable {num den num' den' : Nat} {negative : Bool}

/-- A rounded mantissa with its exponent as a number; the mantissa may have become one bit longer. -/
def carried
    (negative : Bool)
    (m : Nat)
    (e : Int) :
    Binary64 :=
  let (m, e) := if m == Nat.pow 2 53 then (Nat.pow 2 52, e + 1) else (m, e)
  if 971 < e then .infinite negative else .finite negative m e

theorem carried_of_lt
    {m : Nat}
    {e : Int}
    (hm : m < 2 ^ 53)
    (he : e ≤ 971) :
    carried negative m e = .finite negative m e := by
  have hne : (m == Nat.pow 2 53) = false := beq_eq_false_iff_ne.2 hm.ne
  simp only [carried, hne, Bool.false_eq_true, if_false]
  rw [if_neg (by omega)]

/-- A mantissa that has become one bit longer belongs to the next exponent. -/
theorem carried_two_pow
    {e : Int}
    (he : e ≤ 971) :
    carried negative (2 ^ 53) (e - 1) = .finite negative (2 ^ 52) e := by
  have heq : (2 ^ 53 == Nat.pow 2 53) = true := rfl
  simp only [carried, heq, if_true]
  rw [if_neg (by omega), Int.sub_add_cancel, Nat.pow_eq]

theorem ofQuotient_eq_carried
    (negative : Bool)
    (hnum : 0 < num) :
    ofQuotient negative num den = carried negative
      (if 0 ≤ exponentOf num den then
        divideToEven num (den * Nat.pow 2 (exponentOf num den).toNat)
      else divideToEven (num * Nat.pow 2 (-exponentOf num den).toNat) den)
      (exponentOf num den) := by
  have hne : (num == 0) = false := by simpa using hnum.ne'
  simp only [ofQuotient, hne, carried, Bool.false_eq_true, if_false]

/-- The number nearest to a quotient comes from its mantissa at its exponent. -/
theorem exists_mantissa
    (negative : Bool)
    (hnum : 0 < num)
    (hden : 0 < den) :
    ∃ n d : Nat, 0 < d ∧ (n : ℚ) / d = num / den / 2 ^ exponentOf num den ∧
      ofQuotient negative num den = carried negative (divideToEven n d) (exponentOf num den) := by
  rw [ofQuotient_eq_carried negative hnum]
  generalize exponentOf num den = e
  split
  · next he =>
    refine ⟨num, den * Nat.pow 2 e.toNat, Nat.mul_pos hden (Nat.two_pow_pos _), ?_, rfl⟩
    rw [Nat.cast_mul, cast_pow_toNat he, div_div]
    rfl
  · next he =>
    refine ⟨num * Nat.pow 2 (-e).toNat, den, hden, ?_, rfl⟩
    rw [Nat.cast_mul, cast_pow_toNat (by omega), zpow_neg]
    push_cast
    ring

/-- The number nearest to a quotient depends on the value of the quotient alone. -/
theorem ofQuotient_congr
    (hden : 0 < den)
    (hden' : 0 < den')
    (h : (num : ℚ) / den = num' / den') :
    ofQuotient negative num den = ofQuotient negative num' den' := by
  have hzero : num = 0 ↔ num' = 0 := by
    have hnum : (num : ℚ) / den = 0 ↔ num = 0 := by simp [hden.ne']
    have hnum' : (num' : ℚ) / den' = 0 ↔ num' = 0 := by simp [hden'.ne']
    rw [← hnum, ← hnum', h]
  rcases Nat.eq_zero_or_pos num with hnum | hnum
  · simp [ofQuotient, hnum, hzero.1 hnum]
  · have hnum' : 0 < num' := Nat.pos_of_ne_zero fun h' => hnum.ne' (hzero.2 h')
    have hexp : exponentOf num den = exponentOf num' den' := by
      rw [exponentOf_eq hnum hden, exponentOf_eq hnum' hden', h]
    obtain ⟨n, d, hd, hquot, heq⟩ := exists_mantissa negative hnum hden
    obtain ⟨n', d', hd', hquot', heq'⟩ := exists_mantissa negative hnum' hden'
    rw [heq, heq', hexp, divideToEven_congr hd hd' (by rw [hquot, hquot', h, hexp])]

/-- A mantissa and an exponent as rounding gives them: 53 binary digits, or fewer at the least
exponent. -/
structure IsRounded
    (m : Nat)
    (e : Int) :
    Prop where
  lt : m < 2 ^ 53
  le : -1074 ≤ e
  le_max : e ≤ 971
  full : -1074 < e → 2 ^ 52 ≤ m

theorem isRounded_zero : IsRounded 0 (-1074) where
  lt := by norm_num
  le := le_rfl
  le_max := by norm_num
  full h := absurd h (lt_irrefl _)

/-- A quotient lies in the binade of its exponent, or below it at the least exponent. -/
theorem scaled_bounds
    (hnum : 0 < num)
    (hden : 0 < den) :
    (num : ℚ) / den / 2 ^ exponentOf num den < 2 ^ 53 ∧
      (-1074 < exponentOf num den → 2 ^ 52 ≤ (num : ℚ) / den / 2 ^ exponentOf num den) := by
  have hx : (0 : ℚ) < num / den := by
    have : (0 : ℚ) < num := by exact_mod_cast hnum
    have : (0 : ℚ) < den := by exact_mod_cast hden
    positivity
  have hexp := exponentOf_eq hnum hden
  generalize exponentOf num den = e at hexp ⊢
  generalize (num : ℚ) / den = x at hexp hx ⊢
  have hpow (k : Nat) : (2 : ℚ) ^ k * 2 ^ e = 2 ^ (k + e : Int) := by
    rw [zpow_add₀ two_ne_zero, zpow_natCast]
  constructor
  · rw [div_lt_iff₀ (two_zpow_pos e), hpow]
    refine (Int.lt_zpow_iff_log_lt one_lt_two hx).2 ?_
    omega
  · intro he
    rw [le_div_iff₀ (two_zpow_pos e), hpow]
    refine (Int.zpow_le_iff_le_log one_lt_two hx).2 ?_
    omega

/-- What rounding a quotient gives is a rounded number. -/
theorem isRounded_of_ofQuotient
    {negative' : Bool}
    {m : Nat}
    {e : Int}
    (hden : 0 < den)
    (h : ofQuotient negative num den = .finite negative' m e) :
    IsRounded m e := by
  rcases Nat.eq_zero_or_pos num with rfl | hnum
  · obtain ⟨-, rfl, rfl⟩ : negative = negative' ∧ 0 = m ∧ -1074 = e := by
      simpa [ofQuotient] using h
    exact isRounded_zero
  · obtain ⟨n, d, hd, hquot, heq⟩ := exists_mantissa negative hnum hden
    obtain ⟨hhigh, hlow⟩ := scaled_bounds hnum hden
    have hleast : -1074 ≤ exponentOf num den := by
      rw [exponentOf_eq hnum hden]
      exact le_max_left _ _
    rw [heq] at h
    rw [← hquot] at hhigh hlow
    generalize exponentOf num den = e' at *
    have hclose := abs_le.1 (abs_divideToEven_sub_le n hd)
    generalize divideToEven n d = m' at *
    have hm' : m' ≤ 2 ^ 53 := by
      have : (m' : ℚ) < 2 ^ 53 + 1 := by linarith
      exact Nat.lt_succ_iff.1 (by exact_mod_cast this)
    have hfull : -1074 < e' → 2 ^ 52 ≤ m' := by
      intro he
      have : (2 : ℚ) ^ 52 < m' + 1 := by linarith [hlow he]
      exact Nat.lt_succ_iff.1 (by exact_mod_cast this)
    simp only [carried] at h
    split at h
    · split at h
      · cases h
      · obtain ⟨-, rfl, rfl⟩ : negative = negative' ∧ 2 ^ 52 = m ∧ e' + 1 = e := by simpa using h
        exact ⟨by norm_num, by omega, by omega, fun _ => le_rfl⟩
    · split at h
      · cases h
      · next hne _ =>
        have hne : m' ≠ 2 ^ 53 := by simpa using hne
        obtain ⟨-, rfl, rfl⟩ : negative = negative' ∧ m' = m ∧ e' = e := by simpa using h
        exact ⟨by omega, hleast, by omega, hfull⟩

/-- A quotient that is near to a rounded number is rounded to it. Below a power of two the numbers lie
closer together, which is where the bound is needed as it stands. -/
theorem ofQuotient_eq_of_near
    {m : Nat}
    {e : Int}
    (h : IsRounded m e)
    (hnum : 0 < num)
    (hden : 0 < den)
    (hnear : |(num : ℚ) / den - m * 2 ^ e| * (2 * 10 ^ 16) ≤ m * 2 ^ e) :
    ofQuotient negative num den = .finite negative m e := by
  have hx : (0 : ℚ) < num / den := by
    have : (0 : ℚ) < num := by exact_mod_cast hnum
    have : (0 : ℚ) < den := by exact_mod_cast hden
    positivity
  obtain ⟨n, d, hd, hquot, heq⟩ := exists_mantissa negative hnum hden
  rw [heq]
  have hexp := exponentOf_eq hnum hden
  generalize exponentOf num den = e' at hquot hexp ⊢
  generalize (num : ℚ) / den = x at hquot hexp hx hnear
  -- the quotient in units of the last binary digit of the number
  obtain ⟨z, hz⟩ : ∃ z : ℚ, x = z * 2 ^ e := ⟨x / 2 ^ e, by field_simp⟩
  have hunit := two_zpow_pos e
  have hbelow (k : Nat) (hk : z < 2 ^ k) : Int.log 2 x < k + e := by
    rw [hz] at hx ⊢
    exact log_mul_zpow_lt hx hk
  have habove (k : Nat) (hk : 2 ^ k ≤ z) : k + e ≤ Int.log 2 x := by
    rw [hz] at hx ⊢
    exact le_log_mul_zpow hx hk
  have hzm : |z - m| * (2 * 10 ^ 16) ≤ m := by
    rw [hz, ← sub_mul, abs_mul, abs_of_pos hunit, mul_right_comm] at hnear
    exact le_of_mul_le_mul_right hnear hunit
  have hlt : (m : ℚ) ≤ 2 ^ 53 - 1 := by
    have : (m : ℚ) + 1 ≤ 2 ^ 53 := by exact_mod_cast h.lt
    linarith
  have hhalf : |z - m| < 1 / 2 := by linarith
  have hbounds := abs_lt.1 hhalf
  have hmax := hbelow 53 (by linarith)
  have hsame (he : e' = e) : carried negative (divideToEven n d) e' = .finite negative m e := by
    have hm' : divideToEven n d = m := by
      refine divideToEven_eq hd ?_
      rw [hquot, he, hz, mul_div_cancel_right₀ z hunit.ne']
      exact hhalf
    rw [he, hm']
    exact carried_of_lt h.lt h.le_max
  rcases le_or_gt (2 ^ 52) z with hfull | hfew
  · have hmin := habove 52 hfull
    exact hsame (by have := h.le; omega)
  · have hless := hbelow 52 hfew
    rcases h.le.eq_or_lt with he | he
    · exact hsame (by omega)
    · -- the number is a power of two and the quotient lies in the binade below it
      have hfull := h.full he
      have hm' : m = 2 ^ 52 := by
        have : (m : ℚ) < 2 ^ 52 + 1 := by linarith
        have : m < 2 ^ 52 + 1 := by exact_mod_cast this
        omega
      have hquarter : |z - 2 ^ 52| < 1 / 4 := by
        rw [hm'] at hzm
        push_cast at hzm
        linarith
      have hbounds' := abs_lt.1 hquarter
      have hmin := habove 51 (by linarith)
      have he' : e' = e - 1 := by omega
      have hcarry : divideToEven n d = 2 ^ 53 := by
        refine divideToEven_eq hd ?_
        have hdouble : z * 2 ^ e / 2 ^ (e - 1) = 2 * z := by
          rw [zpow_sub_one₀ two_ne_zero]
          field_simp
        rw [hquot, he', hz, hdouble, abs_lt]
        push_cast
        constructor <;> linarith
      rw [he', hcarry, hm']
      exact carried_two_pow h.le_max

end Rounding

section Decimals

variable {d d' : Nat} {s s' : Int} {negative : Bool}

/-- The place of the first digit of a decimal is told by its value. -/
theorem places_eq
    (hd : 0 < d)
    (s : Int) :
    ((Nat.toDigits 10 d).length : Int) + s = Int.log 10 ((d : ℚ) * 10 ^ s) + 1 := by
  have hd' : (0 : ℚ) < d := by exact_mod_cast hd
  have hpos : 0 < (Nat.toDigits 10 d).length := Nat.length_toDigits_pos
  have hhigh : d < 10 ^ (Nat.toDigits 10 d).length :=
    (Nat.length_toDigits_le_iff (by norm_num) hpos).1 le_rfl
  have hlow : 10 ^ ((Nat.toDigits 10 d).length - 1) ≤ d := by
    by_contra hlt
    rcases Nat.eq_zero_or_pos ((Nat.toDigits 10 d).length - 1) with hone | hmore
    · rw [hone] at hlt
      omega
    · have := (Nat.length_toDigits_le_iff (by norm_num) hmore).2 (not_le.1 hlt)
      omega
  have hlog : Int.log 10 ((d : ℚ) * 10 ^ s) = ((Nat.toDigits 10 d).length : Int) - 1 + s := by
    refine log_eq (by norm_num) (by positivity) ?_ ?_
    · rw [Nat.cast_ofNat, zpow_add₀ (by norm_num)]
      gcongr
      rw [← Int.natCast_pred_of_pos hpos, zpow_natCast]
      exact_mod_cast hlow
    · rw [Nat.cast_ofNat, add_right_comm, zpow_add₀ (by norm_num), sub_add_cancel]
      gcongr
      rw [zpow_natCast]
      exact_mod_cast hhigh
  omega

/-- A decimal is rounded as a quotient of its value, unless it is far too large or too small. -/
theorem exists_quotient
    (negative : Bool)
    (hd : 0 < d)
    (s : Int) :
    ∃ num den : Nat, 0 < num ∧ 0 < den ∧ (num : ℚ) / den = d * 10 ^ s ∧
      ofDecimal negative d s =
        if 400 < Int.log 10 ((d : ℚ) * 10 ^ s) + 1 then .infinite negative
        else if Int.log 10 ((d : ℚ) * 10 ^ s) + 1 < -400 then .finite negative 0 (-1074)
        else ofQuotient negative num den := by
  have hne : (d == 0) = false := by simpa using hd.ne'
  simp only [ofDecimal, hne, Bool.false_eq_true, if_false, places_eq hd s]
  by_cases hs : 0 ≤ s
  · refine ⟨d * Nat.pow 10 s.toNat, 1, Nat.mul_pos hd (Nat.pow_pos (by norm_num)), one_pos, ?_, ?_⟩
    · rw [Nat.cast_mul, cast_pow_toNat hs, Nat.cast_one, div_one, Nat.cast_ofNat]
    · simp only [hs, if_true]
  · refine ⟨d, Nat.pow 10 (-s).toNat, hd, Nat.pow_pos (by norm_num), ?_, ?_⟩
    · rw [cast_pow_toNat (by omega), Nat.cast_ofNat, zpow_neg, div_inv_eq_mul]
    · simp only [hs, if_false]

/-- Reading a decimal depends on its value alone. -/
theorem ofDecimal_congr
    (hd : 0 < d)
    (hd' : 0 < d')
    (h : (d : ℚ) * 10 ^ s = d' * 10 ^ s') :
    ofDecimal negative d s = ofDecimal negative d' s' := by
  obtain ⟨num, den, -, hden, hquot, heq⟩ := exists_quotient negative hd s
  obtain ⟨num', den', -, hden', hquot', heq'⟩ := exists_quotient negative hd' s'
  rw [heq, heq', h, ofQuotient_congr hden hden' (by rw [hquot, hquot', h])]

/-- A number with a given sign. -/
def withSign (negative : Bool) : Binary64 → Binary64
  | .finite _ m e => .finite negative m e
  | .infinite _ => .infinite negative
  | .notANumber => .notANumber

/-- The sign of what is read is the given one, and the rest does not depend on it. -/
theorem ofDecimal_eq_withSign :
    ofDecimal negative d s = (ofDecimal false d s).withSign negative := by
  have hcarried (m : Nat) (e : Int) :
      carried negative m e = (carried false m e).withSign negative := by
    unfold carried
    generalize (if m == Nat.pow 2 53 then (Nat.pow 2 52, e + 1) else (m, e)) = p
    dsimp only
    split <;> rfl
  have hquotient (num den : Nat) :
      ofQuotient negative num den = (ofQuotient false num den).withSign negative := by
    rcases Nat.eq_zero_or_pos num with rfl | hnum
    · rfl
    · rw [ofQuotient_eq_carried negative hnum, ofQuotient_eq_carried false hnum]
      exact hcarried _ _
  unfold ofDecimal
  dsimp only
  split_ifs
  · rfl
  · rfl
  · rfl
  · exact hquotient _ _
  · exact hquotient _ _

theorem isRounded_of_ofDecimal
    {negative' : Bool}
    {m : Nat}
    {e : Int}
    (h : ofDecimal negative d s = .finite negative' m e) :
    IsRounded m e := by
  have hzero : ∀ b : Bool, (Binary64.finite b 0 (-1074) = .finite negative' m e) → IsRounded m e := by
    rintro b heq
    obtain ⟨-, rfl, rfl⟩ : b = negative' ∧ 0 = m ∧ -1074 = e := by simpa using heq
    exact isRounded_zero
  rcases Nat.eq_zero_or_pos d with rfl | hd
  · exact hzero negative (by simpa [ofDecimal] using h)
  · obtain ⟨num, den, -, hden, -, heq⟩ := exists_quotient negative hd s
    rw [heq] at h
    split at h
    · cases h
    · split at h
      · exact hzero negative h
      · exact isRounded_of_ofQuotient hden h

theorem two_pow_le_ten_pow
    {n k : Nat}
    (h : n ≤ 3 * k) :
    (2 : ℚ) ^ n ≤ 10 ^ k := by
  calc (2 : ℚ) ^ n ≤ 2 ^ (3 * k) := pow_le_pow_right₀ one_le_two h
    _ = 8 ^ k := by rw [pow_mul]; norm_num
    _ ≤ 10 ^ k := by gcongr; norm_num

/-- Every rounded number that is not zero lies well within the bounds of what is read. -/
theorem IsRounded.bounds
    {m : Nat}
    {e : Int}
    (h : IsRounded m e)
    (hm : 0 < m) :
    (2 : ℚ) ^ (-1074 : Int) ≤ m * 2 ^ e ∧ (m : ℚ) * 2 ^ e < 2 ^ (1024 : Int) := by
  have hm' : (1 : ℚ) ≤ m := by exact_mod_cast hm
  have hlt : (m : ℚ) < 2 ^ 53 := by exact_mod_cast h.lt
  have hlow : (2 : ℚ) ^ (-1074 : Int) ≤ 2 ^ e := zpow_le_zpow_right₀ one_le_two h.le
  have hhigh : (2 : ℚ) ^ e ≤ 2 ^ (971 : Int) := zpow_le_zpow_right₀ one_le_two h.le_max
  constructor
  · calc (2 : ℚ) ^ (-1074 : Int) ≤ 2 ^ e := hlow
      _ ≤ m * 2 ^ e := le_mul_of_one_le_left (two_zpow_pos e).le hm'
  · calc (m : ℚ) * 2 ^ e < 2 ^ 53 * 2 ^ e := by gcongr
      _ ≤ 2 ^ 53 * 2 ^ (971 : Int) := by gcongr
      _ = 2 ^ (1024 : Int) := by rw [← zpow_natCast, ← zpow_add₀ two_ne_zero]; norm_num

/-- A decimal that is near to a rounded number is read as it. -/
theorem ofDecimal_eq_of_near
    {m : Nat}
    {e : Int}
    (h : IsRounded m e)
    (hd : 0 < d)
    (hnear : |(d : ℚ) * 10 ^ s - m * 2 ^ e| * (2 * 10 ^ 16) ≤ m * 2 ^ e) :
    ofDecimal negative d s = .finite negative m e := by
  have hd' : (0 : ℚ) < d := by exact_mod_cast hd
  have hx : (0 : ℚ) < d * 10 ^ s := by positivity
  obtain ⟨num, den, hnum, hden, hquot, heq⟩ := exists_quotient negative hd s
  have hm : 0 < m := by
    refine Nat.pos_of_ne_zero fun hm => ?_
    have : (0 : ℚ) < |(d : ℚ) * 10 ^ s| := abs_pos.2 hx.ne'
    rw [hm, Nat.cast_zero, zero_mul, sub_zero] at hnear
    linarith
  obtain ⟨hlow, hhigh⟩ := h.bounds hm
  obtain ⟨hbelow, habove⟩ :
      (d : ℚ) * 10 ^ s ≤ 2 * (m * 2 ^ e) ∧ m * 2 ^ e ≤ 2 * ((d : ℚ) * 10 ^ s) := by
    have := le_abs_self ((d : ℚ) * 10 ^ s - m * 2 ^ e)
    have := neg_abs_le ((d : ℚ) * 10 ^ s - m * 2 ^ e)
    constructor <;> linarith
  have hmax : Int.log 10 ((d : ℚ) * 10 ^ s) < 400 := by
    refine (Int.lt_zpow_iff_log_lt (by norm_num) hx).1 ?_
    rw [Nat.cast_ofNat, zpow_ofNat]
    calc (d : ℚ) * 10 ^ s ≤ 2 * (m * 2 ^ e) := hbelow
      _ < 2 * 2 ^ (1024 : Int) := by gcongr
      _ = 2 ^ 1025 := by rw [zpow_ofNat, ← pow_succ']
      _ ≤ 10 ^ 400 := two_pow_le_ten_pow (by norm_num)
  have hmin : -401 ≤ Int.log 10 ((d : ℚ) * 10 ^ s) := by
    refine (Int.zpow_le_iff_le_log (by norm_num) hx).1 ?_
    calc ((10 : Nat) : ℚ) ^ (-401 : Int) ≤ (2 ^ 1075)⁻¹ :=
          inv_anti₀ (by positivity) (two_pow_le_ten_pow (by norm_num))
      _ = 2 ^ (-1074 : Int) / 2 := by rw [pow_succ, mul_inv, div_eq_mul_inv]; rfl
      _ ≤ d * 10 ^ s := by linarith
  rw [heq, if_neg (by omega), if_neg (by omega)]
  exact ofQuotient_eq_of_near h hnum hden (by rwa [hquot])

end Decimals

end RouteAtlas.Binary64
