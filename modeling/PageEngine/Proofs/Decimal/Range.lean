import Mathlib.Algebra.Order.Field.Power
import Mathlib.Tactic.Linarith
import Mathlib.Tactic.Ring
import PageEngine.Decimal.Reading

/-! The range of doubles. A quotient is rounded to no double exactly if it is beyond the largest
one by half of its last place or more; otherwise the double is within half of its own last place.
The same holds of decimals, where numbers far out of reach are not even divided. -/

namespace PageEngine

namespace Double

/-- The number without its sign. -/
def magnitude (d : Double) : ℚ := d.significand * 2 ^ d.exponent

/-- The magnitude of the largest double. -/
def largest : ℚ := (2 ^ 53 - 1) * 2 ^ (971 : ℤ)

/-- Where magnitudes begin that are rounded to no double: half of the last place beyond the
largest. -/
def ceiling : ℚ := largest + 2 ^ (970 : ℤ)

theorem two_zpow_pos (e : Int) : (0 : ℚ) < 2 ^ e := zpow_pos rfl e

theorem zpow_two_le {e e' : Int} (h : e ≤ e') : (2 : ℚ) ^ e ≤ 2 ^ e' :=
  zpow_le_zpow_right₀ (by decide) h

/-- No double is beyond the largest one. -/
theorem Canonical.magnitude_le {d : Double} (h : d.Canonical) : d.magnitude ≤ largest := by
  have hsignificand : d.significand + 1 ≤ 2 ^ 53 := h.significand_lt
  have hcast : (d.significand : ℚ) ≤ 2 ^ 53 - 1 := by
    rw [le_sub_iff_add_le]
    exact_mod_cast hsignificand
  exact mul_le_mul hcast (zpow_two_le h.le_greatest) (two_zpow_pos _).le (by norm_num)

variable {num den k : Nat} {e : Int}

/-! ### Rounding a quotient -/

/-- A half goes to the even neighbour: so an even number is reached from half below it. -/
theorem le_roundQuotient_iff (hden : 0 < den) (heven : k % 2 = 0) :
    k ≤ roundQuotient num den ↔ 2 * (k * den) ≤ 2 * num + den := by
  have hdiv := Nat.div_add_mod num den
  have hmod := Nat.mod_lt num hden
  rw [Nat.mul_comm] at hdiv
  simp only [roundQuotient]
  generalize num / den = q at hdiv ⊢
  generalize num % den = r at hdiv hmod ⊢
  rcases Nat.lt_trichotomy k (q + 1) with hlt | rfl | hgt
  · have hmul : k * den ≤ q * den := Nat.mul_le_mul_right den (Nat.le_of_lt_succ hlt)
    split
    · omega
    · split <;> omega
  · have hmul : (q + 1) * den = q * den + den := Nat.succ_mul q den
    split
    · omega
    · split <;> omega
  · have hmul : (q + 2) * den ≤ k * den := Nat.mul_le_mul_right den hgt
    rw [Nat.add_mul] at hmul
    split
    · omega
    · split <;> omega

theorem roundQuotient_le (hden : 0 < den) (h : num < k * den) : roundQuotient num den ≤ k := by
  have hfloor : num / den < k := (Nat.div_lt_iff_lt_mul hden).2 h
  simp only [roundQuotient]
  split
  · exact Nat.le_of_lt hfloor
  · split <;> omega

/-! ### The fitting exponent -/

theorem scaleQuotient_pos (num : Nat) (hden : 0 < den) (e : Int) :
    0 < (scaleQuotient num den e).2 := by
  unfold scaleQuotient
  split
  · rw [Nat.shiftLeft_eq]
    positivity
  · exact hden

theorem scaleQuotient_eq (num : Nat) (hden : 0 < den) (e : Int) :
    ((scaleQuotient num den e).1 : ℚ) / (scaleQuotient num den e).2 = num / den / 2 ^ e := by
  have hpos : (den : ℚ) ≠ 0 := by positivity
  unfold scaleQuotient
  split
  · rename_i he
    obtain ⟨n, rfl⟩ := Int.eq_ofNat_of_zero_le he
    rw [Int.toNat_natCast, Nat.shiftLeft_eq, Nat.cast_mul, Nat.cast_pow, zpow_natCast, div_div]
    rfl
  · rename_i he
    obtain ⟨n, rfl⟩ := Int.exists_eq_neg_ofNat (Int.le_of_not_le he)
    rw [neg_neg, Int.toNat_natCast, Nat.shiftLeft_eq, Nat.cast_mul, Nat.cast_pow, zpow_neg,
      zpow_natCast, div_inv_eq_mul, div_mul_eq_mul_div]
    rfl

theorem quotient_eq (num : Nat) (hden : 0 < den) (e : Int) :
    (num : ℚ) / den = (scaleQuotient num den e).1 / (scaleQuotient num den e).2 * 2 ^ e := by
  rw [scaleQuotient_eq num hden e, div_mul_cancel₀ _ (two_zpow_pos e).ne']

/-- The lengths of two numbers tell where their quotient lies. -/
theorem quotient_lt (num : Nat) (hden : 0 < den) :
    (num : ℚ) / den < 2 ^ ((num.log2 : ℤ) - den.log2 + 1) := by
  have hnum : (num : ℚ) < 2 ^ (num.log2 + 1) := by exact_mod_cast Nat.lt_log2_self
  have hlow : (2 : ℚ) ^ den.log2 ≤ den := by
    exact_mod_cast Nat.log2_self_le (Nat.ne_of_gt hden)
  calc (num : ℚ) / den ≤ num / 2 ^ den.log2 := by gcongr
    _ < 2 ^ (num.log2 + 1) / 2 ^ den.log2 := by gcongr
    _ = 2 ^ ((num.log2 : ℤ) - den.log2 + 1) := by
      rw [show (num.log2 : ℤ) - den.log2 + 1 = ((num.log2 + 1 : ℕ) : ℤ) - (den.log2 : ℕ) by
        push_cast; ring, zpow_sub₀ two_ne_zero, zpow_natCast, zpow_natCast]

theorem le_quotient (hnum : 0 < num) (hden : 0 < den) :
    (2 : ℚ) ^ ((num.log2 : ℤ) - den.log2 - 1) ≤ num / den := by
  have hlow : (2 : ℚ) ^ num.log2 ≤ num := by
    exact_mod_cast Nat.log2_self_le (Nat.ne_of_gt hnum)
  have hhigh : (den : ℚ) ≤ 2 ^ (den.log2 + 1) := by
    exact_mod_cast Nat.le_of_lt Nat.lt_log2_self
  calc (2 : ℚ) ^ ((num.log2 : ℤ) - den.log2 - 1) = 2 ^ num.log2 / 2 ^ (den.log2 + 1) := by
        rw [show (num.log2 : ℤ) - den.log2 - 1 = (num.log2 : ℕ) - ((den.log2 + 1 : ℕ) : ℤ) by
          push_cast; ring, zpow_sub₀ two_ne_zero, zpow_natCast, zpow_natCast]
    _ ≤ num / 2 ^ (den.log2 + 1) := by gcongr
    _ ≤ num / den := by gcongr

/-- At the fitting exponent a quotient has fifty-three bits before the point, or fewer at the
least exponent. -/
structure Fits (x : ℚ) (e : Int) : Prop where
  least : leastExponent ≤ e
  lt : x < 2 ^ ((53 : ℤ) + e)
  full : leastExponent < e → 2 ^ ((52 : ℤ) + e) ≤ x

theorem div_lt_significandBound_iff (num : Nat) (hden : 0 < den) (e : Int) :
    (scaleQuotient num den e).1 / (scaleQuotient num den e).2 < significandBound ↔
      (num : ℚ) / den < 2 ^ ((53 : ℤ) + e) := by
  have hpos := scaleQuotient_pos num hden e
  have hscale := scaleQuotient_eq num hden e
  have hbound : (significandBound : ℚ) = 2 ^ (53 : ℤ) := by
    rw [significandBound, Nat.shiftLeft_eq]
    norm_num
  have hcast : (0 : ℚ) < (scaleQuotient num den e).2 := Nat.cast_pos.2 hpos
  rw [Nat.div_lt_iff_lt_mul hpos, ← Nat.cast_lt (α := ℚ), Nat.cast_mul, ← div_lt_iff₀ hcast,
    hscale, hbound, div_lt_iff₀ (two_zpow_pos e), zpow_add₀ two_ne_zero]

theorem fits_fittingExponent (hnum : 0 < num) (hden : 0 < den) :
    Fits (num / den) (fittingExponent num den) := by
  have hlow := le_quotient hnum hden
  have hhigh := quotient_lt num hden
  simp only [fittingExponent]
  generalize hraw : max (Int.ofNat num.log2 - Int.ofNat den.log2 - 53) leastExponent = e
  simp only [Int.ofNat_eq_natCast] at hraw
  split
  · rename_i hbits
    refine ⟨?_, (div_lt_significandBound_iff num hden e).1 hbits, fun h => ?_⟩
    · omega
    · refine le_trans (zpow_two_le ?_) hlow
      omega
  · rename_i hbits
    rw [div_lt_significandBound_iff num hden, not_lt] at hbits
    refine ⟨?_, lt_of_lt_of_le hhigh (zpow_two_le ?_), fun _ => ?_⟩
    · omega
    · omega
    · rw [show (52 : ℤ) + (e + 1) = 53 + e by ring]
      exact hbits

/-! ### The rounded significand -/

/-- The quotient, rounded at an exponent. -/
def rounded (num den : Nat) (e : Int) : Nat :=
  roundQuotient (scaleQuotient num den e).1 (scaleQuotient num den e).2

/-- The rounded quotient is within half of what its last bit stands for. -/
theorem rounded_near (num : Nat) (hden : 0 < den) (e : Int) :
    |(rounded num den e : ℚ) * 2 ^ e - num / den| ≤ 2 ^ (e - 1) := by
  have hpos := scaleQuotient_pos num hden e
  have hx := quotient_eq num hden e
  have hhigh : 2 * (rounded num den e * (scaleQuotient num den e).2) ≤
      2 * (scaleQuotient num den e).1 + (scaleQuotient num den e).2 :=
    two_mul_roundQuotient_le hpos
  have hlow : 2 * (scaleQuotient num den e).1 ≤
      2 * (rounded num den e * (scaleQuotient num den e).2) + (scaleQuotient num den e).2 :=
    le_two_mul_roundQuotient hpos
  generalize rounded num den e = q at hhigh hlow ⊢
  generalize (scaleQuotient num den e).1 = n at hx hhigh hlow
  generalize (scaleQuotient num den e).2 = d at hx hpos hhigh hlow
  have hd : (0 : ℚ) < d := Nat.cast_pos.2 hpos
  have hhigh' : (2 * (q * d) : ℚ) ≤ 2 * n + d := by exact_mod_cast hhigh
  have hlow' : (2 * n : ℚ) ≤ 2 * (q * d) + d := by exact_mod_cast hlow
  have hle : (q : ℚ) - 1 / 2 ≤ n / d := by
    rw [le_div_iff₀ hd]
    linarith
  have hge : (n : ℚ) / d ≤ q + 1 / 2 := by
    rw [div_le_iff₀ hd]
    linarith
  rw [hx, ← sub_mul, abs_mul, abs_of_pos (two_zpow_pos e), zpow_sub_one₀ two_ne_zero, mul_comm]
  refine mul_le_mul_of_nonneg_left ?_ (two_zpow_pos e).le
  rw [abs_le]
  constructor <;> linarith

/-- An even significand is reached from half below it. -/
theorem le_rounded_iff (num : Nat) (hden : 0 < den) (e : Int) (heven : k % 2 = 0) :
    k ≤ rounded num den e ↔ (2 * k - 1) * (2 : ℚ) ^ (e - 1) ≤ num / den := by
  have hpos := scaleQuotient_pos num hden e
  have hx := quotient_eq num hden e
  rw [rounded, le_roundQuotient_iff hpos heven]
  generalize (scaleQuotient num den e).1 = n at hx ⊢
  generalize (scaleQuotient num den e).2 = d at hx hpos ⊢
  have hd : (0 : ℚ) < d := Nat.cast_pos.2 hpos
  have hhalf : (n : ℚ) / d * 2 ^ e = 2 * n / d * 2 ^ (e - 1) := by
    rw [zpow_sub_one₀ two_ne_zero]
    ring
  rw [hx, hhalf, mul_le_mul_iff_left₀ (two_zpow_pos _), le_div_iff₀ hd]
  constructor
  · intro h
    have hcast : (2 * (k * d) : ℚ) ≤ 2 * n + d := by exact_mod_cast h
    linarith
  · intro h
    have hcast : (2 * (k * d) : ℚ) ≤ 2 * n + d := by linarith
    exact_mod_cast hcast

theorem significandBound_le_rounded_iff (num : Nat) (hden : 0 < den) (e : Int) :
    significandBound ≤ rounded num den e ↔ (2 ^ 54 - 1) * (2 : ℚ) ^ (e - 1) ≤ num / den := by
  rw [le_rounded_iff num hden e rfl, significandBound, Nat.shiftLeft_eq]
  norm_num

theorem rounded_le (hnum : 0 < num) (hden : 0 < den) :
    rounded num den (fittingExponent num den) ≤ significandBound := by
  have hpos := scaleQuotient_pos num hden (fittingExponent num den)
  refine roundQuotient_le hpos ?_
  rw [← Nat.div_lt_iff_lt_mul hpos, div_lt_significandBound_iff num hden]
  exact (fits_fittingExponent hnum hden).lt

/-- Above the least exponent all bits of the significand are in use. -/
theorem rounded_ne_zero (hnum : 0 < num) (hden : 0 < den)
    (h : leastExponent < fittingExponent num den) :
    rounded num den (fittingExponent num den) ≠ 0 := by
  have hfull := (fits_fittingExponent hnum hden).full h
  generalize fittingExponent num den = e at hfull ⊢
  have hhalf : (2 * (2 : ℕ) - 1) * (2 : ℚ) ^ (e - 1) ≤ num / den := by
    refine le_trans ?_ hfull
    rw [show (52 : ℤ) + e = 53 + (e - 1) by ring, zpow_add₀ two_ne_zero]
    exact mul_le_mul_of_nonneg_right (by norm_num) (two_zpow_pos _).le
  have htwo := (le_rounded_iff num hden e rfl).2 hhalf
  omega

/-! ### Beyond the largest -/

theorem ceiling_eq : ceiling = (2 ^ 54 - 1) * 2 ^ (970 : ℤ) := by
  rw [ceiling, largest, show (971 : ℤ) = 970 + 1 from rfl, zpow_add_one₀ two_ne_zero]
  ring

theorem ceiling_le (h : greatestExponent ≤ e) : ceiling ≤ (2 ^ 54 - 1) * 2 ^ (e - 1) := by
  have hpow : (2 : ℚ) ^ (970 : ℤ) ≤ 2 ^ (e - 1) := zpow_two_le (Int.le_sub_one_of_lt h)
  rw [ceiling_eq]
  exact mul_le_mul_of_nonneg_left hpow (by norm_num)

theorem le_ceiling (h : e ≤ greatestExponent) : (2 ^ 54 - 1) * 2 ^ (e - 1) ≤ ceiling := by
  have hpow : (2 : ℚ) ^ (e - 1) ≤ 2 ^ (970 : ℤ) := zpow_two_le (Int.sub_right_le_of_le_add h)
  rw [ceiling_eq]
  exact mul_le_mul_of_nonneg_left hpow (by norm_num)

theorem ceiling_le_zpow (h : greatestExponent < e) : ceiling ≤ 2 ^ ((52 : ℤ) + e) := by
  have hpow : (2 : ℚ) ^ (970 : ℤ) * 2 ^ (54 : ℤ) ≤ 2 ^ ((52 : ℤ) + e) := by
    rw [← zpow_add₀ two_ne_zero]
    refine zpow_two_le ?_
    rw [greatestExponent] at h
    omega
  refine le_trans ?_ hpow
  rw [ceiling_eq, mul_comm]
  exact mul_le_mul_of_nonneg_left (by norm_num) (two_zpow_pos _).le

theorem zpow_le_ceiling (h : e < greatestExponent) : 2 ^ ((53 : ℤ) + e) ≤ ceiling := by
  have hpow : (2 : ℚ) ^ ((53 : ℤ) + e) ≤ 2 ^ (970 : ℤ) * 2 ^ (53 : ℤ) := by
    rw [← zpow_add₀ two_ne_zero]
    refine zpow_two_le ?_
    rw [greatestExponent] at h
    omega
  refine le_trans hpow ?_
  rw [ceiling_eq, mul_comm (2 ^ 54 - 1 : ℚ)]
  exact mul_le_mul_of_nonneg_left (by norm_num) (two_zpow_pos _).le

theorem ofQuotient_eq (negative : Bool) (num den : Nat) :
    ofQuotient negative num den =
      let e := fittingExponent num den
      let q := rounded num den e
      if q = significandBound then
        if greatestExponent < e + 1 then none else some ⟨negative, leastFull, e + 1⟩
      else if q = 0 then some (zero negative)
      else if greatestExponent < e then none else some ⟨negative, q, e⟩ := by
  dsimp only
  by_cases hcarry : rounded num den (fittingExponent num den) = significandBound
  · rw [if_pos hcarry]
    unfold rounded at hcarry
    simp only [ofQuotient, hcarry, if_true]
    rfl
  · rw [if_neg hcarry]
    unfold rounded at hcarry ⊢
    simp only [ofQuotient, hcarry, if_false]

theorem one_le_ceiling : 1 ≤ ceiling := by
  have hpow : (1 : ℚ) ≤ 2 ^ ((53 : ℤ) + 970) := one_le_zpow₀ (by decide) (by decide)
  exact le_trans hpow (zpow_le_ceiling (by decide))

/-- A quotient is rounded to no double exactly if it is beyond the largest one by half of its last
place or more. -/
theorem ofQuotient_eq_none_iff (negative : Bool) (hnum : 0 < num) (hden : 0 < den) :
    ofQuotient negative num den = none ↔ ceiling ≤ num / den := by
  have hfits := fits_fittingExponent hnum hden
  have hcarry := significandBound_le_rounded_iff num hden (fittingExponent num den)
  have hle := rounded_le hnum hden
  have hnonzero := rounded_ne_zero hnum hden
  rw [ofQuotient_eq]
  dsimp only
  generalize fittingExponent num den = e at hfits hcarry hle hnonzero ⊢
  generalize rounded num den e = q at hcarry hle hnonzero ⊢
  by_cases hq : q = significandBound
  · rw [if_pos hq]
    by_cases he : greatestExponent < e + 1
    · have hx := hcarry.1 (Nat.le_of_eq hq.symm)
      rw [if_pos he]
      exact iff_of_true rfl (le_trans (ceiling_le (Int.le_of_lt_add_one he)) hx)
    · have hlt := zpow_le_ceiling (Int.lt_of_add_one_le (Int.not_lt.1 he))
      rw [if_neg he]
      exact iff_of_false nofun (not_le.2 (lt_of_lt_of_le hfits.lt hlt))
  · have hx := lt_of_not_ge (mt hcarry.2 fun h => hq (Nat.le_antisymm hle h))
    rw [if_neg hq]
    by_cases he : greatestExponent < e
    · have hleast : leastExponent < e := Int.lt_trans (by decide) he
      rw [if_neg (hnonzero hleast), if_pos he]
      exact iff_of_true rfl (le_trans (ceiling_le_zpow he) (hfits.full hleast))
    · have hlt := lt_of_lt_of_le hx (le_ceiling (Int.not_lt.1 he))
      rw [if_neg he]
      refine iff_of_false ?_ (not_le.2 hlt)
      split <;> exact nofun

/-- A double that a quotient is rounded to is within half of its last place. -/
theorem ofQuotient_near {negative : Bool} {d : Double} (hnum : 0 < num) (hden : 0 < den)
    (h : ofQuotient negative num den = some d) :
    d.negative = negative ∧ |d.magnitude - num / den| ≤ 2 ^ (d.exponent - 1) := by
  have hnear := rounded_near num hden (fittingExponent num den)
  have hnonzero := rounded_ne_zero hnum hden
  have hleast := (fits_fittingExponent hnum hden).least
  rw [ofQuotient_eq] at h
  dsimp only at h
  generalize fittingExponent num den = e at hnear hnonzero hleast h
  generalize rounded num den e = q at hnear hnonzero h
  by_cases hq : q = significandBound
  · rw [if_pos hq] at h
    split at h
    · cases h
    · cases h
      have hsame : (leastFull : ℚ) * 2 ^ (e + 1) = q * 2 ^ e := by
        rw [hq, leastFull, significandBound, Nat.shiftLeft_eq, Nat.shiftLeft_eq,
          zpow_add_one₀ two_ne_zero]
        push_cast
        ring
      refine ⟨rfl, le_trans (le_of_eq ?_) (le_trans hnear (zpow_two_le ?_))⟩
      · rw [magnitude, hsame]
      · show e - 1 ≤ e + 1 - 1
        omega
  · rw [if_neg hq] at h
    by_cases hzero : q = 0
    · rw [if_pos hzero] at h
      cases h
      have he : e = leastExponent := by
        have hnot := mt hnonzero (not_not.2 hzero)
        omega
      rw [hzero, he] at hnear
      exact ⟨rfl, hnear⟩
    · rw [if_neg hzero] at h
      split at h
      · cases h
      · cases h
        exact ⟨rfl, hnear⟩

end Double

namespace Decimal

/-- The number without its sign. -/
def magnitude (d : Decimal) : ℚ := d.coefficient * 10 ^ d.exponent

theorem pow_le_coefficient {n : Nat} (h : n ≠ 0) :
    10 ^ ((Nat.toDigits 10 n).length - 1) ≤ n ∧ n < 10 ^ (Nat.toDigits 10 n).length := by
  have hpos : 0 < (Nat.toDigits 10 n).length := Nat.length_toDigits_pos
  have hiff := fun k => @Nat.length_toDigits_le_iff 10 n k (by decide)
  constructor
  · rcases Nat.eq_zero_or_pos ((Nat.toDigits 10 n).length - 1) with hone | hmore
    · rw [hone]
      omega
    · have hlong := mt (hiff _ hmore).2
      omega
  · exact (hiff _ hpos).1 (Nat.le_refl _)

/-- The number of digits tells the magnitude up to a factor of ten. -/
theorem magnitude_bounds (d : Decimal) (h : d.coefficient ≠ 0) :
    (10 : ℚ) ^ (Int.ofNat (Nat.toDigits 10 d.coefficient).length + d.exponent - 1) ≤ d.magnitude ∧
      d.magnitude < 10 ^ (Int.ofNat (Nat.toDigits 10 d.coefficient).length + d.exponent) := by
  have hpos : 0 < (Nat.toDigits 10 d.coefficient).length := Nat.length_toDigits_pos
  obtain ⟨hlow, hhigh⟩ := pow_le_coefficient h
  generalize (Nat.toDigits 10 d.coefficient).length = n at hpos hlow hhigh ⊢
  obtain ⟨m, rfl⟩ := Nat.exists_eq_succ_of_ne_zero (Nat.ne_of_gt hpos)
  have hten : (0 : ℚ) < 10 ^ d.exponent := zpow_pos rfl _
  have hlow' : (10 : ℚ) ^ m ≤ d.coefficient := by exact_mod_cast hlow
  have hhigh' : (d.coefficient : ℚ) < 10 ^ (m + 1) := by exact_mod_cast hhigh
  rw [magnitude, Int.ofNat_eq_natCast]
  constructor
  · rw [show ((m.succ : ℕ) : ℤ) + d.exponent - 1 = (m : ℕ) + d.exponent by push_cast; ring,
      zpow_add₀ (by decide), zpow_natCast]
    exact mul_le_mul_of_nonneg_right hlow' hten.le
  · rw [zpow_add₀ (by decide), zpow_natCast]
    exact mul_lt_mul_of_pos_right hhigh' hten

theorem zpow_ten_le {e e' : Int} (h : e ≤ e') : (10 : ℚ) ^ e ≤ 10 ^ e' :=
  zpow_le_zpow_right₀ (by decide) h

/-- A decimal is out of reach, or it is divided out. -/
theorem toDouble?_cases (d : Decimal) (h : d.coefficient ≠ 0) :
    (d.toDouble? = none ∧ 10 ^ reach ≤ d.magnitude) ∨
      (d.toDouble? = some (Double.zero d.negative) ∧ d.magnitude < 10 ^ (-reach)) ∨
      ∃ num den : Nat, 0 < num ∧ 0 < den ∧ d.magnitude = num / den ∧
        d.toDouble? = Double.ofQuotient d.negative num den := by
  obtain ⟨hlow, hhigh⟩ := magnitude_bounds d h
  have hpos : 0 < d.coefficient := Nat.pos_of_ne_zero h
  have hten : ∀ n, 0 < 10 ^ n := fun n => Nat.pow_pos (by decide)
  simp only [toDouble?, Nat.pow_eq]
  rw [if_neg h]
  split
  · rename_i hfar
    exact .inl ⟨rfl, le_trans (zpow_ten_le (Int.le_sub_one_of_lt hfar)) hlow⟩
  split
  · rename_i hsmall
    exact .inr (.inl ⟨rfl, lt_of_lt_of_le hhigh (zpow_ten_le hsmall.le)⟩)
  split
  · rename_i hexponent
    obtain ⟨n, hn⟩ := Int.eq_ofNat_of_zero_le hexponent
    refine .inr (.inr ⟨_, _, Nat.mul_pos hpos (hten _), Nat.one_pos, ?_, rfl⟩)
    rw [magnitude, hn, Int.toNat_natCast, zpow_natCast]
    simp
  · rename_i hexponent
    obtain ⟨n, hn⟩ := Int.exists_eq_neg_ofNat (Int.le_of_not_le hexponent)
    refine .inr (.inr ⟨_, _, hpos, hten _, ?_, rfl⟩)
    rw [magnitude, hn, neg_neg, Int.toNat_natCast, zpow_neg, zpow_natCast, ← div_eq_mul_inv]
    simp

theorem two_zpow_le_reach : (2 : ℚ) ^ ((3 : ℤ) * 400) ≤ 10 ^ reach := by
  rw [zpow_mul]
  exact zpow_le_zpow_left₀ (by decide) (by norm_num) (by norm_num)

theorem ceiling_le_reach : Double.ceiling ≤ 10 ^ reach := by
  calc Double.ceiling ≤ 2 ^ ((52 : ℤ) + 972) := Double.ceiling_le_zpow (by decide)
    _ ≤ 2 ^ ((3 : ℤ) * 400) := Double.zpow_two_le (by decide)
    _ ≤ 10 ^ reach := two_zpow_le_reach

theorem zpow_reach_le : (10 : ℚ) ^ (-reach) ≤ 2 ^ (Double.leastExponent - 1) := by
  calc (10 : ℚ) ^ (-reach) = (10 ^ reach)⁻¹ := zpow_neg ..
    _ ≤ (2 ^ ((3 : ℤ) * 400))⁻¹ := inv_anti₀ (Double.two_zpow_pos _) two_zpow_le_reach
    _ = 2 ^ (-((3 : ℤ) * 400)) := (zpow_neg ..).symm
    _ ≤ 2 ^ (Double.leastExponent - 1) := Double.zpow_two_le (by decide)

/-- A decimal is rounded to no double exactly if it is beyond the largest one by half of its last
place or more. -/
theorem toDouble?_eq_none_iff (d : Decimal) :
    d.toDouble? = none ↔ Double.ceiling ≤ d.magnitude := by
  by_cases hzero : d.coefficient = 0
  · have hceiling := lt_of_lt_of_le one_pos Double.one_le_ceiling
    rw [toDouble?, if_pos hzero, magnitude, hzero, Nat.cast_zero, zero_mul]
    exact iff_of_false nofun (not_le.2 hceiling)
  rcases toDouble?_cases d hzero with ⟨h, hfar⟩ | ⟨h, hsmall⟩ | ⟨num, den, hnum, hden, hd, h⟩
  · exact iff_of_true h (le_trans ceiling_le_reach hfar)
  · have hone : (10 : ℚ) ^ (-reach) ≤ 1 := zpow_le_one_of_nonpos₀ (by decide) (by decide)
    rw [h]
    exact iff_of_false nofun
      (not_le.2 (lt_of_lt_of_le hsmall (le_trans hone Double.one_le_ceiling)))
  · rw [h, hd]
    exact Double.ofQuotient_eq_none_iff d.negative hnum hden

/-- A double that a decimal is rounded to is within half of its last place. -/
theorem toDouble?_near {d : Decimal} {nearest : Double} (h : d.toDouble? = some nearest) :
    nearest.negative = d.negative ∧
      |nearest.magnitude - d.magnitude| ≤ 2 ^ (nearest.exponent - 1) := by
  by_cases hzero : d.coefficient = 0
  · rw [toDouble?, if_pos hzero] at h
    cases h
    simp [magnitude, hzero, Double.magnitude, Double.zero, zpow_nonneg]
  rcases toDouble?_cases d hzero with ⟨h', hfar⟩ | ⟨h', hsmall⟩ | ⟨num, den, hnum, hden, hd, h'⟩
  · cases h'.symm.trans h
  · cases h'.symm.trans h
    have hpos : 0 ≤ d.magnitude := mul_nonneg (Nat.cast_nonneg _) (zpow_nonneg (by decide) _)
    have hsmall' := le_trans hsmall.le zpow_reach_le
    refine ⟨rfl, ?_⟩
    rw [Double.magnitude, Double.zero, Nat.cast_zero, zero_mul, zero_sub, abs_neg,
      abs_of_nonneg hpos]
    exact hsmall'
  · rw [hd]
    exact Double.ofQuotient_near hnum hden (h'.symm.trans h)

end Decimal

end PageEngine
