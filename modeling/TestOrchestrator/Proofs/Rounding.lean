import Mathlib.Algebra.Order.Field.Power
import Mathlib.Algebra.Order.Ring.Rat
import Mathlib.Data.Nat.Cast.Order.Field
import Mathlib.Tactic.GCongr
import Mathlib.Tactic.Linarith
import Mathlib.Tactic.NormNum
import Mathlib.Tactic.Positivity
import Mathlib.Tactic.Ring
import TestOrchestrator.Decimal.Binary64
import TestOrchestrator.Decimal.Power
/-!
# Rounding to doubles

The value of a magnitude is a rational number, and the bounds on what rounding does to it are stated
there.

* `Binary64.value m e` is the value, and `Binary64.Rounded m e` are the magnitudes that rounding
  gives.
* `abs_roundDivEven_sub_le` and `abs_scaled_sub_le`: rounding to whole numbers, or to whole units,
  is off by a half at most.
* `ofRatio_eq`: rounding gives the whole units nearest to a number, as a magnitude.
* `ofRatio_le_topWord`, `ofRatio_natural` and `half_le_ofRatio` bound what is given, and
  `div_tens_le` and `mul_tens_le` what comes of a shift by powers of ten.
-/

namespace TestOrchestrator.Decimal

variable {num den m n : Nat} {e : Int} {neg : Bool}

/-! ## Whole numbers -/

theorem roundDivEven_bounds (num : Nat) (hden : 0 < den) :
    2 * num ≤ 2 * (roundDivEven num den * den) + den ∧
      2 * (roundDivEven num den * den) ≤ 2 * num + den := by
  have hsplit : num / den * den + num % den = num := Nat.div_add_mod' num den
  have hrest := Nat.mod_lt num hden
  unfold roundDivEven
  simp only
  split_ifs with hbelow habove
  · omega
  · rw [Nat.add_mul]
    omega
  · rw [Nat.add_mul]
    rcases Nat.mod_two_eq_zero_or_one (num / den) with hparity | hparity <;> rw [hparity] <;> omega

theorem abs_roundDivEven_sub_le (num : Nat) (hden : 0 < den) :
    |(roundDivEven num den : ℚ) - num / den| ≤ 1 / 2 := by
  have hpos : (0 : ℚ) < den := Nat.cast_pos.2 hden
  obtain ⟨hlow, hhigh⟩ := roundDivEven_bounds num hden
  have hlow' : (2 * num : ℚ) ≤ 2 * (roundDivEven num den * den) + den := mod_cast hlow
  have hhigh' : (2 * (roundDivEven num den * den) : ℚ) ≤ 2 * num + den := mod_cast hhigh
  rw [abs_le, neg_le_sub_iff_le_add, sub_le_iff_le_add, div_le_iff₀ hpos, ← sub_le_iff_le_add',
    le_div_iff₀ hpos]
  constructor <;> linarith

namespace Binary64

/-! ## Values -/

/-- The number that a magnitude stands for. -/
def value (m : Nat) (e : Int) : ℚ := m * 2 ^ e

@[simp] theorem value_zero (e : Int) : value 0 e = 0 := by
  rw [value, Nat.cast_zero, zero_mul]

theorem value_nonneg (m : Nat) (e : Int) : 0 ≤ value m e := by
  unfold value
  positivity

theorem ratio_pos (m : Nat) (e : Int) : 0 < (ratio m e).2 := by
  unfold ratio
  split
  · rw [Nat.one_shiftLeft]
    exact Nat.two_pow_pos _
  · exact Nat.one_pos

theorem zpow_of_neg (x : ℚ) {e : Int} (he : e < 0) : x ^ e = (x ^ (-e).toNat)⁻¹ := by
  rw [← zpow_natCast, Int.toNat_of_nonneg (by omega), zpow_neg, inv_inv]

theorem zpow_of_not_neg (x : ℚ) {e : Int} (he : ¬e < 0) : x ^ e = x ^ e.toNat := by
  rw [← zpow_natCast, Int.toNat_of_nonneg (by omega)]

theorem ratio_eq_value (m : Nat) (e : Int) : ((ratio m e).1 : ℚ) / (ratio m e).2 = value m e := by
  unfold ratio value
  split <;> rename_i he
  · rw [zpow_of_neg 2 he, Nat.one_shiftLeft, Nat.cast_pow, Nat.cast_ofNat, div_eq_mul_inv]
  · rw [zpow_of_not_neg 2 he, Nat.shiftLeft_eq, Nat.cast_mul, Nat.cast_pow, Nat.cast_ofNat,
      Nat.cast_one, div_one]

theorem abs_scaled_sub_le (num : Nat) (hden : 0 < den) (e : Int) :
    |(scaled num den e : ℚ) - num / den / 2 ^ e| ≤ 1 / 2 := by
  unfold scaled
  split <;> rename_i he
  · have h := abs_roundDivEven_sub_le (num <<< (-e).toNat) hden
    rw [Nat.shiftLeft_eq, Nat.cast_mul, Nat.cast_pow, Nat.cast_ofNat] at h
    rw [zpow_of_neg 2 he, div_inv_eq_mul, div_mul_eq_mul_div, Nat.shiftLeft_eq]
    exact h
  · have hscaled : 0 < den <<< e.toNat := by
      rw [Nat.shiftLeft_eq]
      positivity
    have h := abs_roundDivEven_sub_le num hscaled
    rw [Nat.shiftLeft_eq, Nat.cast_mul, Nat.cast_pow, Nat.cast_ofNat] at h
    rw [zpow_of_not_neg 2 he, div_div, Nat.shiftLeft_eq]
    exact h

theorem two_zpow_log2_le (hn : n ≠ 0) : (2 : ℚ) ^ (n.log2 : Int) ≤ n := by
  rw [zpow_natCast]
  exact_mod_cast Nat.log2_self_le hn

theorem lt_two_zpow_log2 (n : Nat) : (n : ℚ) < 2 ^ ((n.log2 : Int) + 1) := by
  have h : n < 2 ^ (n.log2 + 1) := Nat.lt_log2_self
  rw [← Nat.cast_succ, zpow_natCast]
  exact_mod_cast h

/-- A number is in the binade of the sizes of its parts or in the one below. -/
theorem binade_eq (num : Nat) (hden : 0 < den) :
    binade num den = if (2 : ℚ) ^ ((num.log2 : Int) - den.log2) ≤
      num / den then (num.log2 : Int) - den.log2
      else (num.log2 : Int) - den.log2 - 1 := by
  have hpos : (0 : ℚ) < den := Nat.cast_pos.2 hden
  unfold binade
  generalize (num.log2 : Int) - den.log2 = k
  refine if_congr ?_ rfl rfl
  split <;> rename_i hk
  · rw [zpow_of_neg 2 hk, le_div_iff₀ hpos, inv_mul_le_iff₀ (by positivity), Nat.shiftLeft_eq,
      mul_comm]
    exact_mod_cast Iff.rfl
  · rw [zpow_of_not_neg 2 hk, le_div_iff₀ hpos, Nat.shiftLeft_eq, mul_comm]
    exact_mod_cast Iff.rfl

/-- A number is in its binade. -/
theorem binade_bounds (hnum : num ≠ 0) (hden : 0 < den) :
    (2 : ℚ) ^ binade num den ≤ num / den ∧ (num / den : ℚ) < 2 ^ (binade num den + 1) := by
  have hpos : (0 : ℚ) < den := Nat.cast_pos.2 hden
  have hlow : (2 : ℚ) ^ ((num.log2 : Int) - den.log2 - 1) ≤ num / den := by
    rw [le_div_iff₀ hpos]
    calc (2 : ℚ) ^ ((num.log2 : Int) - den.log2 - 1) * den
        ≤ 2 ^ ((num.log2 : Int) - den.log2 - 1) * 2 ^ ((den.log2 : Int) + 1) := by
          gcongr
          exact (lt_two_zpow_log2 den).le
      _ = 2 ^ (num.log2 : Int) := by
        rw [← zpow_add₀ two_ne_zero]
        congr 1
        omega
      _ ≤ num := two_zpow_log2_le hnum
  have hhigh : (num / den : ℚ) < 2 ^ ((num.log2 : Int) - den.log2 + 1) := by
    rw [div_lt_iff₀ hpos]
    calc (num : ℚ) < 2 ^ ((num.log2 : Int) + 1) := lt_two_zpow_log2 num
      _ = 2 ^ ((num.log2 : Int) - den.log2 + 1) * 2 ^ (den.log2 : Int) := by
        rw [← zpow_add₀ two_ne_zero]
        congr 1
        omega
      _ ≤ 2 ^ ((num.log2 : Int) - den.log2 + 1) * den := by
        gcongr
        exact two_zpow_log2_le (Nat.ne_of_gt hden)
  rw [binade_eq num hden]
  split <;> rename_i hfits
  · exact ⟨hfits, hhigh⟩
  · rw [Int.sub_add_cancel]
    exact ⟨hlow, not_le.1 hfits⟩

/-! ## Rounding -/

/-- The magnitudes that rounding gives. -/
structure Rounded (m : Nat) (e : Int) : Prop where
  mantissa : m < 2 ^ 53
  exponent : -1074 ≤ e
  full : -1074 < e → 2 ^ 52 ≤ m

theorem rounded_zero : Rounded 0 (-1074) := ⟨by decide, by decide, fun h => absurd h (by decide)⟩

/-- The exponent that a number is rounded with. -/
def unitOf (num den : Nat) : Int := max (binade num den - 52) (-1074)

theorem scaled_bounds (hnum : num ≠ 0) (hden : 0 < den) :
    scaled num den (unitOf num den) ≤ 2 ^ 53 ∧
      (-1074 < unitOf num den → 2 ^ 52 ≤ scaled num den (unitOf num den)) := by
  have herror := abs_le.1 (abs_scaled_sub_le num hden (unitOf num den))
  obtain ⟨hlow, hhigh⟩ := binade_bounds hnum hden
  have hunit : (0 : ℚ) < 2 ^ unitOf num den := by positivity
  constructor
  · have hquotient : (num / den / 2 ^ unitOf num den : ℚ) < 2 ^ (53 : Int) := by
      rw [div_lt_iff₀ hunit, ← zpow_add₀ two_ne_zero]
      refine hhigh.trans_le (zpow_le_zpow_right₀ one_le_two ?_)
      unfold unitOf
      omega
    have hlt : (scaled num den (unitOf num den) : ℚ) < (2 ^ 53 + 1 : Nat) := by
      push_cast
      rw [zpow_ofNat] at hquotient
      linarith
    exact Nat.lt_succ_iff.1 (Nat.cast_lt.1 hlt)
  · intro hnormal
    have hquotient : (2 : ℚ) ^ (52 : Int) ≤ num / den / 2 ^ unitOf num den := by
      rw [le_div_iff₀ hunit, ← zpow_add₀ two_ne_zero]
      refine le_trans (zpow_le_zpow_right₀ one_le_two ?_) hlow
      unfold unitOf at hnormal ⊢
      omega
    have hlt : ((2 ^ 52 : Nat) : ℚ) < (scaled num den (unitOf num den) + 1 : Nat) := by
      push_cast
      rw [zpow_ofNat] at hquotient
      linarith
    exact Nat.lt_succ_iff.1 (Nat.cast_lt.1 hlt)

/-- **What a number is rounded to** is a whole number of units, as a magnitude. -/
theorem ofRatio_eq (neg : Bool) (hnum : num ≠ 0) (hden : 0 < den) :
    ∃ m e, Rounded m e ∧ e ≤ unitOf num den + 1 ∧
      value m e = value (scaled num den (unitOf num den)) (unitOf num den) ∧
      ofRatio neg num den = if 971 < e then .infinite neg else .finite neg m e := by
  obtain ⟨hhigh, hnormal⟩ := scaled_bounds hnum hden
  have hleast : -1074 ≤ unitOf num den := le_max_right _ _
  unfold ofRatio
  simp only [if_neg hnum]
  rw [← unitOf]
  generalize scaled num den (unitOf num den) = m at hhigh hnormal ⊢
  generalize unitOf num den = e at hnormal hleast ⊢
  by_cases hzero : m = 0
  · refine ⟨0, -1074, rounded_zero, by omega, ?_, ?_⟩
    · rw [hzero, value_zero, value_zero]
    · rw [if_pos hzero]
      rfl
  rw [if_neg hzero]
  by_cases hnext : m = 9007199254740992
  · refine ⟨4503599627370496, e + 1, ⟨by decide, by omega, fun _ => by decide⟩, le_rfl, ?_, ?_⟩
    · rw [hnext, value, value, zpow_add₀ two_ne_zero]
      norm_num
      ring
    · rw [if_pos hnext]
  · refine ⟨m, e, ⟨by omega, hleast, hnormal⟩, by omega, rfl, ?_⟩
    rw [if_neg hnext]

theorem rounded_ofRatio {neg' : Bool} (hden : 0 < den)
    (h : ofRatio neg num den = .finite neg' m e) : Rounded m e := by
  by_cases hnum : num = 0
  · rw [hnum] at h
    cases h
    exact rounded_zero
  · obtain ⟨m', e', hrounded, -, -, heq⟩ := ofRatio_eq neg hnum hden
    rw [heq] at h
    split at h
    · cases h
    · cases h
      exact hrounded

theorem rounded_add {x y : Binary64} (h : x.add y = .finite neg m e) : Rounded m e := by
  cases x with
  | nan => cases y <;> cases h
  | infinite neg₁ =>
    cases y with
    | nan => cases h
    | finite neg₂ m₂ e₂ => cases h
    | infinite neg₂ =>
      have hsum : (infinite neg₁).add (infinite neg₂) = if neg₁ =
          neg₂ then .infinite neg₁ else .nan := rfl
      rw [hsum] at h
      split at h <;> cases h
  | finite neg₁ m₁ e₁ =>
    cases y with
    | nan => cases h
    | infinite neg₂ => cases h
    | finite neg₂ m₂ e₂ =>
      obtain ⟨k, hsum⟩ : ∃ k : Int, (finite neg₁ m₁ e₁).add (finite neg₂ m₂ e₂) =
          if k = 0 then zero (neg₁ && neg₂)
          else ofRatio (k < 0) k.natAbs ((ratio m₁ e₁).2 * (ratio m₂ e₂).2) := ⟨_, rfl⟩
      rw [hsum] at h
      split at h
      · cases h
        exact rounded_zero
      · exact rounded_ofRatio (Nat.mul_pos (ratio_pos m₁ e₁) (ratio_pos m₂ e₂)) h

/-- The largest double below `2 ^ 64`. -/
def topWord : ℚ := 2 ^ 64 - 2 ^ 11

theorem topWord_nonneg : 0 ≤ topWord := by norm_num [topWord]

theorem unitOf_le (hnum : num ≠ 0) (hden : 0 < den) (h : (num / den : ℚ) < 2 ^ 64) :
    unitOf num den ≤ 11 := by
  have hbinade : (2 : ℚ) ^ binade num den < 2 ^ (64 : Int) := (binade_bounds hnum hden).1.trans_lt h
  have hlt := (zpow_lt_zpow_iff_right₀ one_lt_two).1 hbinade
  unfold unitOf
  omega

/-- Numbers that are not too close to `2 ^ 64` are rounded to numbers below it. -/
theorem ofRatio_le_topWord (neg : Bool) (hden : 0 < den) (h : (num / den : ℚ) < 2 ^ 64 - 2 ^ 10) :
    ∃ m e, ofRatio neg num den = .finite neg m e ∧ value m e ≤ topWord := by
  by_cases hnum : num = 0
  · refine ⟨0, -1074, by rw [hnum]; rfl, ?_⟩
    rw [value_zero]
    exact topWord_nonneg
  obtain ⟨m, e, -, hexponent, hvalue, heq⟩ := ofRatio_eq neg hnum hden
  have hunit := unitOf_le hnum hden (h.trans (by norm_num))
  refine ⟨m, e, heq.trans (if_neg (by omega)), ?_⟩
  rw [hvalue, value]
  rcases hunit.lt_or_eq with hsmall | htop
  · have hhigh : (scaled num den (unitOf num den) : ℚ) ≤ 2 ^ 53 :=
      mod_cast (scaled_bounds hnum hden).1
    calc (scaled num den (unitOf num den) : ℚ) * 2 ^ unitOf num den ≤ 2 ^ 53 * 2 ^ (10 : Int) := by
          gcongr
          · exact one_le_two
          · omega
      _ ≤ topWord := by norm_num [topWord]
  · have herror := (abs_le.1 (abs_scaled_sub_le num hden (unitOf num den))).2
    rw [htop] at herror ⊢
    have hlt : (scaled num den 11 : ℚ) < (2 ^ 53 : Nat) := by
      have hquotient : (num / den / 2 ^ (11 : Int) : ℚ) < 2 ^ 53 - 1 / 2 := by
        rw [div_lt_iff₀ (by positivity)]
        exact h.trans_le (by norm_num)
      push_cast
      linarith
    have hle : (scaled num den 11 : ℚ) ≤ (2 ^ 53 - 1 : Nat) :=
      Nat.cast_le.2 (Nat.le_pred_of_lt (Nat.cast_lt.1 hlt))
    calc (scaled num den 11 : ℚ) * 2 ^ (11 : Int) ≤ (2 ^ 53 - 1 : Nat) * 2 ^ (11 : Int) := by gcongr
      _ ≤ topWord := by norm_num [topWord]

/-- A whole number below `2 ^ 64` is rounded to one that is larger by no more than one part in
`2 ^ 53`. -/
theorem ofRatio_natural (neg : Bool) (h : n < wordLimit) :
    ∃ m e, ofRatio neg n 1 = .finite neg m e ∧ value m e ≤ n + n / 2 ^ 53 := by
  by_cases hzero : n = 0
  · refine ⟨0, -1074, by rw [hzero]; rfl, ?_⟩
    rw [value_zero]
    positivity
  obtain ⟨m, e, -, hexponent, hvalue, heq⟩ := ofRatio_eq neg hzero Nat.one_pos
  obtain ⟨hlow, hhigh⟩ := binade_bounds hzero Nat.one_pos
  have herror := (abs_le.1 (abs_scaled_sub_le n Nat.one_pos (unitOf n 1))).2
  rw [Nat.cast_one, div_one] at hlow hhigh herror
  have hunit := unitOf_le hzero Nat.one_pos (by rw [Nat.cast_one, div_one]; exact_mod_cast h)
  have hwhole : unitOf n 1 = binade n 1 - 52 := by
    have hone : (2 : ℚ) ^ (0 : Int) < 2 ^ (binade n 1 + 1) := by
      refine lt_of_le_of_lt ?_ hhigh
      exact_mod_cast Nat.pos_of_ne_zero hzero
    have hlt := (zpow_lt_zpow_iff_right₀ one_lt_two).1 hone
    unfold unitOf
    omega
  refine ⟨m, e, heq.trans (if_neg (by omega)), ?_⟩
  rw [hvalue, value]
  have hpos : (0 : ℚ) < 2 ^ unitOf n 1 := by positivity
  have hround : (scaled n 1 (unitOf n 1) : ℚ) ≤ n / 2 ^ unitOf n 1 + 1 / 2 := by linarith
  calc (scaled n 1 (unitOf n 1) : ℚ) * 2 ^ unitOf n 1 ≤
    (n / 2 ^ unitOf n 1 + 1 / 2) * 2 ^ unitOf n 1 := by gcongr
    _ = n + 2 ^ (binade n 1 - 53) := by
      rw [add_mul, div_mul_cancel₀ _ hpos.ne', hwhole,
        show binade n 1 - 52 = binade n 1 - 53 + 1 by omega, zpow_add_one₀ two_ne_zero]
      ring
    _ = n + 2 ^ binade n 1 / 2 ^ 53 := by
      rw [zpow_sub₀ two_ne_zero]
      norm_num
    _ ≤ n + n / 2 ^ 53 := by gcongr

/-- A number from one on is rounded to more than half of it. -/
theorem half_le_ofRatio {neg' : Bool} (hden : 0 < den) (hle : den ≤ num)
    (h : ofRatio neg num den = .finite neg' m e) :
    (num / den : ℚ) / 2 ≤ value m e := by
  have hnum : num ≠ 0 := by omega
  obtain ⟨m', e', -, -, hvalue, heq⟩ := ofRatio_eq neg hnum hden
  obtain ⟨rfl, rfl⟩ : m' = m ∧ e' = e := by
    rw [heq] at h
    split at h
    · cases h
    · cases h
      exact ⟨rfl, rfl⟩
  obtain ⟨-, hhigh⟩ := binade_bounds hnum hden
  have hone : (2 : ℚ) ^ (0 : Int) < 2 ^ (binade num den + 1) := by
    refine lt_of_le_of_lt ?_ hhigh
    rw [zpow_zero, one_le_div (Nat.cast_pos.2 hden)]
    exact_mod_cast hle
  have hbinade := (zpow_lt_zpow_iff_right₀ one_lt_two).1 hone
  have hunit : unitOf num den = binade num den - 52 := by
    unfold unitOf
    omega
  have hmantissa : (2 ^ 52 : ℚ) ≤ scaled num den (unitOf num den) :=
    mod_cast (scaled_bounds hnum hden).2 (by omega)
  rw [hvalue, value]
  calc (num / den : ℚ) / 2 ≤ 2 ^ (binade num den + 1) / 2 := by gcongr
    _ = 2 ^ 52 * 2 ^ unitOf num den := by
      rw [hunit, zpow_add_one₀ two_ne_zero, zpow_sub₀ two_ne_zero]
      norm_num
      ring
    _ ≤ scaled num den (unitOf num den) * 2 ^ unitOf num den := by gcongr

/-! ## Products and quotients -/

variable {m' : Nat} {e' : Int}

/-- A product that is not too close to `2 ^ 64`. -/
theorem mul_le_topWord (h : value m e * value m' e' < 2 ^ 64 - 2 ^ 10) :
    ∃ n k, (finite false m e).mul (finite false m' e') = .finite false n k ∧
      value n k ≤ topWord := by
  have hratio :
      (((ratio m e).1 * (ratio m' e').1 : Nat) / ((ratio m e).2 * (ratio m' e').2 : Nat) : ℚ) <
      2 ^ 64 - 2 ^ 10 := by
    rw [Nat.cast_mul, Nat.cast_mul, mul_div_mul_comm, ratio_eq_value, ratio_eq_value]
    exact h
  exact ofRatio_le_topWord false (Nat.mul_pos (ratio_pos m e) (ratio_pos m' e')) hratio

/-- A quotient that is not too close to `2 ^ 64`. -/
theorem div_le_topWord (hpos : 0 < value m' e') (h : value m e / value m' e' < 2 ^ 64 - 2 ^ 10) :
    ∃ n k, (finite false m e).div (finite false m' e') = .finite false n k ∧
      value n k ≤ topWord := by
  have hmantissa : m' ≠ 0 := by
    rintro rfl
    rw [value_zero] at hpos
    exact lt_irrefl _ hpos
  have hnum : 0 < (ratio m' e').1 := by
    rw [← ratio_eq_value] at hpos
    exact_mod_cast (div_pos_iff_of_pos_right (Nat.cast_pos.2 (ratio_pos m' e'))).1 hpos
  unfold div
  simp only [if_neg hmantissa]
  refine ofRatio_le_topWord _ (Nat.mul_pos (ratio_pos m e) hnum) ?_
  rw [Nat.cast_mul, Nat.cast_mul, mul_div_mul_comm, ratio_eq_value, ← inv_div, ratio_eq_value,
    ← div_eq_mul_inv]
  exact h

/-! ## Powers of ten -/

theorem cast_tens (n : Nat) : (tens n : ℚ) = 10 ^ n := Nat.cast_pow 10 n

theorem isFinite_tens : ∀ n < 309, (ofRatio false (tens n) 1).isFinite = true := by decide +kernel

theorem exists_tens (h : n < 309) :
    ∃ m e, ofRatio false (tens n) 1 = .finite false m e ∧ (10 : ℚ) ^ n / 2 ≤ value m e := by
  obtain ⟨m, e, -, -, -, heq⟩ := ofRatio_eq false (Nat.ne_of_gt (tens_pos n)) Nat.one_pos
  have hpower : ofRatio false (tens n) 1 = .finite false m e := by
    have hfinite := isFinite_tens n h
    rw [heq] at hfinite ⊢
    split at hfinite
    · cases hfinite
    · rename_i hlarge
      exact if_neg hlarge
  have hhalf := half_le_ofRatio Nat.one_pos (tens_pos n) hpower
  rw [cast_tens, Nat.cast_one, div_one] at hhalf
  exact ⟨m, e, hpower, hhalf⟩

/-- A quotient by a power of ten. -/
theorem div_tens_le (hvalue : value m e ≤ 2 ^ 65) (hn : n ≠ 0) (hlt : n < 309) :
    ∃ m' e', (finite false m e).div (ofRatio false (tens n) 1) = .finite false m' e' ∧
      value m' e' ≤ topWord := by
  obtain ⟨mp, ep, hpower, hhalf⟩ := exists_tens hlt
  have hten : (10 : ℚ) ≤ 10 ^ n := le_self_pow₀ (by norm_num) hn
  have hfive : 5 ≤ value mp ep := by linarith
  rw [hpower]
  refine div_le_topWord (by linarith) ?_
  calc value m e / value mp ep ≤ 2 ^ 65 / 5 := by gcongr
    _ < 2 ^ 64 - 2 ^ 10 := by norm_num

/-- A product of a whole number and a power of ten, both of which are rounded first. -/
theorem mul_tens_le {v : Nat} (hn : n < 309) (h : (v : ℚ) * 10 ^ n ≤ 2 ^ 64 - 5 * 2 ^ 10) :
    ∃ m e, (ofRatio false v 1).mul (ofRatio false (tens n) 1) = .finite false m e ∧
      value m e ≤ topWord := by
  by_cases hv : v = 0
  · obtain ⟨mp, ep, hpower, -⟩ := exists_tens hn
    rw [hv, hpower]
    refine mul_le_topWord (e := -1074) (m := 0) ?_
    rw [value_zero, zero_mul]
    norm_num
  have hbound : (2 ^ 64 - 5 * 2 ^ 10 : ℚ) < wordLimit := by norm_num [wordLimit]
  have hv1 : (1 : ℚ) ≤ v := mod_cast Nat.pos_of_ne_zero hv
  have hvlt : (v : ℚ) < wordLimit :=
    ((le_mul_of_one_le_right (by positivity) (one_le_pow₀ (by norm_num))).trans h).trans_lt hbound
  have htens : (tens n : ℚ) < wordLimit := by
    rw [cast_tens]
    exact ((le_mul_of_one_le_left (by positivity) hv1).trans h).trans_lt hbound
  obtain ⟨mv, ev, hmv, hev⟩ := ofRatio_natural false (Nat.cast_lt.1 hvlt)
  obtain ⟨mp, ep, hmp, hep⟩ := ofRatio_natural false (Nat.cast_lt.1 htens)
  rw [hmv, hmp]
  refine mul_le_topWord ?_
  rw [cast_tens] at hep
  calc value mv ev * value mp ep ≤ (v + v / 2 ^ 53) * (10 ^ n + 10 ^ n / 2 ^ 53) :=
        mul_le_mul hev hep (value_nonneg _ _) (by positivity)
    _ = v * 10 ^ n * (1 + 1 / 2 ^ 53) ^ 2 := by ring
    _ ≤ (2 ^ 64 - 5 * 2 ^ 10) * (1 + 1 / 2 ^ 53) ^ 2 := by gcongr
    _ < 2 ^ 64 - 2 ^ 10 := by norm_num

end Binary64

end TestOrchestrator.Decimal
