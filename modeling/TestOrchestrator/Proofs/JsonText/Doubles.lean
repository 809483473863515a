import TestOrchestrator.Proofs.JsonText.Numerals
import TestOrchestrator.Proofs.Rounding
/-!
# Doubles in JSON texts

A double is written with its shortest digits, and what is read from them may be another double. This
follows the bounds along that way.

* `Shortest.digits_le`: the shortest decimal is at most half a unit above the double.
* `Number.significand_ofScientific`: the digits of a significand that fit make a number that is no
  larger.
* `shiftTens_neg` and `shiftTens_nonneg`: a shift by powers of ten, to either side, stays below
  `2 ^ 64`.
* `Number.exists_value?_ofDouble`: from the text of a double below `2 ^ 64` a double below `2 ^ 64`
  is read.
-/

namespace TestOrchestrator

/-! ## The size of the shortest decimal -/

namespace Decimal.Shortest

variable {i : Interval} {d m fuel : Nat} {p e : Int}

theorem le_of_contains (hden : 0 < i.den) (h : i.contains d p = true) :
    (d : ℚ) * 10 ^ p ≤ i.high / i.den := by
  have hhigh : (if p < 0 then d else d * tens p.toNat) * i.den ≤
      i.high * (if p < 0 then tens (-p).toNat else 1) := by
    unfold Interval.contains at h
    simp only at h
    split at h <;> simp only [Bool.and_eq_true, decide_eq_true_eq] at h
    · exact h.2
    · exact h.2.le
  rw [le_div_iff₀ (Nat.cast_pos.2 hden)]
  split at hhigh <;> rename_i hp
  · rw [Binary64.zpow_of_neg 10 hp, ← div_eq_mul_inv, div_mul_eq_mul_div,
      div_le_iff₀ (by positivity), ← Binary64.cast_tens]
    exact_mod_cast hhigh
  · rw [Binary64.zpow_of_not_neg 10 hp, ← Binary64.cast_tens]
    rw [Nat.mul_one] at hhigh
    exact_mod_cast hhigh

theorem contains_of_onGrid? (h : i.onGrid? p = some d) : i.contains d p = true := by
  unfold Interval.onGrid? at h
  simp only at h
  split_ifs at h with hboth hup hlower hupper
  all_goals cases h
  · exact (Bool.and_eq_true_iff.1 hboth).2
  · exact (Bool.and_eq_true_iff.1 (Bool.and_eq_true_iff.1 hboth).1).2
  · exact (Bool.and_eq_true_iff.1 hlower).2
  · exact hupper

theorem stripTens_eq (fuel d : Nat) (p : Int) :
    ((stripTens fuel d p).1 : ℚ) * 10 ^ (stripTens fuel d p).2 = d * 10 ^ p := by
  fun_induction stripTens fuel d p with
  | case1 d p => rfl
  | case2 fuel d p h ih =>
    rw [Bool.and_eq_true, decide_eq_true_eq] at h
    obtain ⟨k, rfl⟩ := Nat.dvd_of_mod_eq_zero h.1
    rw [ih, Nat.mul_div_cancel_left _ (by decide), zpow_add_one₀ (by norm_num)]
    push_cast
    ring
  | case3 => rfl

theorem le_stripTens (fuel d : Nat) (p : Int) : p ≤ (stripTens fuel d p).2 := by
  fun_induction stripTens fuel d p with
  | case1 d p => exact le_rfl
  | case2 fuel d p h ih => omega
  | case3 => exact le_rfl

/-- The decimal that is found is not above the interval. One that is given up for has no digits
before the point. -/
theorem search_le (hden : 0 < i.den) (hvalue : i.value ≤ i.high) (hp : p ≤ fuel) :
    ((search i fuel p).1 : ℚ) * 10 ^ (search i fuel p).2 ≤ i.high / i.den := by
  induction fuel generalizing p with
  | zero =>
    have hpower : (10 : ℚ) ^ p ≤ 1 := zpow_le_one_of_nonpos₀ (by norm_num) hp
    calc ((i.value / i.den : Nat) : ℚ) * 10 ^ p ≤ (i.value / i.den : Nat) :=
          mul_le_of_le_one_right (by positivity) hpower
      _ ≤ i.value / i.den := Nat.cast_div_le
      _ ≤ i.high / i.den := by gcongr
  | succ fuel ih =>
    rw [search]
    cases hgrid : i.onGrid? p with
    | some d =>
      rw [stripTens_eq]
      exact le_of_contains hden (contains_of_onGrid? hgrid)
    | none => exact ih (by omega)

theorem le_search (i : Interval) (fuel : Nat) (p : Int) : p - fuel ≤ (search i fuel p).2 := by
  induction fuel generalizing p with
  | zero => exact (Int.sub_zero p).le
  | succ fuel ih =>
    rw [search]
    cases i.onGrid? p with
    | some d => exact le_trans (by omega) (le_stripTens 20 d p)
    | none => exact le_trans (by omega) (ih (p - 1))

/-- The binary size of a number below `2 ^ 64`. -/
theorem log2_add_lt (hm : m ≠ 0) (h : Binary64.value m e < 2 ^ 64) : (m.log2 : Int) + e < 64 := by
  have hlt : (2 : ℚ) ^ ((m.log2 : Int) + e) < 2 ^ (64 : Int) := by
    rw [zpow_add₀ two_ne_zero]
    refine lt_of_le_of_lt ?_ h
    exact mul_le_mul_of_nonneg_right (Binary64.two_zpow_log2_le hm) (by positivity)
  exact (zpow_lt_zpow_iff_right₀ one_lt_two).1 hlt

/-- **The shortest decimal of a number below `2 ^ 64`** is at most half a unit above it. -/
theorem digits_le (hm : m ≠ 0) (h : Binary64.value m e < 2 ^ 64) :
    ((digits m e).1 : ℚ) * 10 ^ (digits m e).2 ≤ Binary64.value m e + 2 ^ e / 2 := by
  have hlog := log2_add_lt hm h
  have hstart : magnitude m e + 2 ≤ (24 : Nat) := by
    unfold magnitude
    omega
  have hden : 0 < (interval m e).den := Binary64.ratio_pos 1 (e - 2)
  have hvalue : (interval m e).value ≤ (interval m e).high :=
    Nat.mul_le_mul_right _ (Nat.le_add_right _ _)
  have hunit : ((Binary64.ratio 1 (e - 2)).1 : ℚ) / (Binary64.ratio 1 (e - 2)).2 = 2 ^ e / 4 := by
    rw [Binary64.ratio_eq_value, Binary64.value, Nat.cast_one, one_mul, zpow_sub₀ two_ne_zero]
    norm_num
  refine (search_le hden hvalue hstart).trans (le_of_eq ?_)
  show (((4 * m + 2) * (Binary64.ratio 1 (e - 2)).1 : Nat) : ℚ) / (Binary64.ratio 1 (e - 2)).2 = _
  rw [Nat.cast_mul, mul_div_assoc, hunit, Binary64.value]
  push_cast
  ring

theorem le_digits (he : -1074 ≤ e) : -400 ≤ (digits m e).2 := by
  have h := le_search (interval m e) 24 (magnitude m e + 2)
  have hdigits : (digits m e).2 = (search (interval m e) 24 (magnitude m e + 2)).2 := rfl
  unfold magnitude at h hdigits
  omega

end Decimal.Shortest

/-! ## Significands -/

namespace Json

open Decimal

variable {ds : List Char} {d : Char} {m v k fuel : Nat} {e t : Int}

namespace Significand

/-- A digit before the point is counted or taken. -/
theorem pushWhole_cases (s : Significand) (d : Char) :
    s.pushWhole d = { s with scale := s.scale + 1, full := true } ∨
      s.value * 10 + (d.toNat - 48) < wordLimit ∧
        s.pushWhole d = { s with value := s.value * 10 + (d.toNat - 48) } := by
  unfold pushWhole
  simp only
  split <;> rename_i hfits
  · exact .inl rfl
  · simp only [Bool.or_eq_true, decide_eq_true_eq, not_or, Nat.not_le] at hfits
    exact .inr ⟨hfits.2, rfl⟩

/-- A digit behind the point is dropped or taken. -/
theorem pushFraction_cases (s : Significand) (d : Char) :
    s.pushFraction d = { s with full := true } ∨
      s.full = false ∧ s.value * 10 + (d.toNat - 48) < wordLimit ∧
        s.pushFraction d = ⟨s.value * 10 + (d.toNat - 48), s.scale - 1, false⟩ := by
  unfold pushFraction
  simp only
  split <;> rename_i hfits
  · exact .inl rfl
  · simp only [Bool.or_eq_true, decide_eq_true_eq, not_or, Nat.not_le, Bool.not_eq_true] at hfits
    rw [hfits.1]
    exact .inr ⟨rfl, hfits.2, rfl⟩

theorem value_pushWhole_lt {s : Significand} (hs : s.value < wordLimit) (d : Char) :
    (s.pushWhole d).value < wordLimit := by
  rcases pushWhole_cases s d with hpush | ⟨hfits, hpush⟩ <;> rw [hpush]
  · exact hs
  · exact hfits

theorem value_pushFraction_lt {s : Significand} (hs : s.value < wordLimit) (d : Char) :
    (s.pushFraction d).value < wordLimit := by
  rcases pushFraction_cases s d with hpush | ⟨-, hfits, hpush⟩ <;> rw [hpush]
  · exact hs
  · exact hfits

theorem scale_pushFraction_le (s : Significand) (d : Char) :
    (s.pushFraction d).scale ≤ s.scale := by
  rcases pushFraction_cases s d with hpush | ⟨-, -, hpush⟩ <;> rw [hpush]
  exact sub_le_self _ (by decide)

theorem value_foldl_lt {push : Significand → Char → Significand}
    (hpush : ∀ s : Significand, s.value < wordLimit → ∀ d, (push s d).value < wordLimit)
    (ds : List Char)
    {s : Significand} (hs : s.value < wordLimit) : (ds.foldl push s).value < wordLimit := by
  induction ds generalizing s with
  | nil => exact hs
  | cons d ds ih => exact ih (hpush s hs d)

theorem scale_foldl_pushFraction_le (ds : List Char) (s : Significand) :
    (ds.foldl pushFraction s).scale ≤ s.scale := by
  induction ds generalizing s with
  | nil => exact le_rfl
  | cons d ds ih => exact (ih _).trans (scale_pushFraction_le s d)

/-- Few digits before the point all fit. -/
theorem foldl_pushWhole_of_short (hds : ∀ d ∈ ds, d.isDigit = true) (hv : v < 10 ^ k)
    (hk : k + ds.length ≤ 19) :
    ∃ v', v' < 10 ^ (k + ds.length) ∧ ds.foldl pushWhole ⟨v, 0, false⟩ = ⟨v', 0, false⟩ := by
  induction ds generalizing v k with
  | nil => exact ⟨v, hv, rfl⟩
  | cons d ds ih =>
    obtain ⟨hd, hds⟩ := List.forall_mem_cons.1 hds
    have hdigit := toNat_of_isDigit hd
    rw [List.length_cons] at hk
    have hv' : v * 10 + (d.toNat - 48) < 10 ^ (k + 1) := by
      rw [pow_succ]
      omega
    have hpower : 10 ^ (k + 1) ≤ 10 ^ 19 := Nat.pow_le_pow_right (by decide) (by omega)
    have hfits : v * 10 + (d.toNat - 48) < wordLimit := hv'.trans_le (hpower.trans (by decide))
    have hpush : pushWhole ⟨v, 0, false⟩ d = ⟨v * 10 + (d.toNat - 48), 0, false⟩ := by
      unfold pushWhole
      simp only [Bool.false_or, decide_eq_true_eq, if_neg (Nat.not_le.2 hfits)]
    obtain ⟨v', hlt, hfold⟩ := ih hds hv' (by omega)
    refine ⟨v', ?_, ?_⟩
    · rw [List.length_cons, ← Nat.add_assoc, Nat.add_right_comm]
      exact hlt
    · rw [List.foldl_cons, hpush, hfold]

end Significand

namespace Number

theorem significand_value_lt (n : Number) : n.significand.value < wordLimit := by
  refine Significand.value_foldl_lt (fun _ => Significand.value_pushFraction_lt) n.fraction ?_
  exact Significand.value_foldl_lt (fun _ => Significand.value_pushWhole_lt) n.whole (by decide)

/-- With few digits before the point, some digit behind it counts. -/
theorem significand_scale_neg {n : Number} (hwhole : ∀ d ∈ n.whole, d.isDigit = true)
    (hfraction : ∀ d ∈ n.fraction, d.isDigit = true) (hshort : n.whole.length ≤ 18)
    (hne : n.fraction ≠ []) :
    n.significand.scale < 0 := by
  obtain ⟨v, hv, hfold⟩ := Significand.foldl_pushWhole_of_short (k := 0) hwhole Nat.one_pos
    (by omega)
  obtain ⟨d, ds, hds⟩ := List.exists_cons_of_ne_nil hne
  have hdigit := toNat_of_isDigit (hfraction d (hds ▸ List.mem_cons_self))
  have hpower : 10 ^ (0 + n.whole.length) ≤ 10 ^ 18 := Nat.pow_le_pow_right (by decide) (by omega)
  have hfits : v * 10 + (d.toNat - 48) < wordLimit := by
    unfold wordLimit
    omega
  have hpush : Significand.pushFraction ⟨v, 0, false⟩ d = ⟨v * 10 + (d.toNat - 48), -1, false⟩ := by
    unfold Significand.pushFraction
    simp only [Bool.false_or, decide_eq_true_eq, if_neg (Nat.not_le.2 hfits)]
    rfl
  unfold significand
  simp only [hfold]
  rw [hds, List.foldl_cons, hpush]
  exact (Significand.scale_foldl_pushFraction_le ds _).trans_lt (show (-1 : Int) < 0 by decide)

/-- Of digits with a point behind the first, the significand takes a first part and drops the other
`j`. -/
theorem significand_ofScientific (neg : Bool) (k : Nat) (x : Int) :
    let s := (ofScientific neg (digitsOf k) x).significand
    ∃ j : Nat, s.value * 10 ^ j ≤ k ∧ s.scale = j + 1 - (digitsOf k).length ∧
      (s.full = false → j = 0 ∧ s.value = k) := by
  simp only [significand, ofScientific]
  induction k using digitsOf_induction with
  | first k hlt =>
    have hwhole : [k.digitChar].foldl Significand.pushWhole ⟨0, 0, false⟩ = ⟨k, 0, false⟩ := by
      have h := foldl_pushWhole (hlt.trans (by decide : 10 < wordLimit))
      rwa [digitsOf_of_lt hlt] at h
    rw [digitsOf_of_lt hlt, List.take_succ_cons, List.take_zero, List.drop_succ_cons,
      List.drop_zero, hwhole]
    exact ⟨0, by simp, rfl, fun _ => ⟨rfl, rfl⟩⟩
  | push k i hk hi ih =>
    have hne : digitsOf k ≠ [] := Nat.toDigits_ne_nil
    have hlength : 1 ≤ (digitsOf k).length := List.length_pos_iff.2 hne
    rw [digitsOf_push hk hi, List.take_append_of_le_length hlength,
      List.drop_append_of_le_length hlength, List.foldl_append]
    generalize ((digitsOf k).drop 1).foldl Significand.pushFraction _ = s at ih ⊢
    obtain ⟨j, hle, hscale, hfull⟩ := ih
    rw [List.foldl_cons, List.foldl_nil, List.length_append, List.length_singleton]
    rcases Significand.pushFraction_cases s i.digitChar with hpush | ⟨hfits, -, hpush⟩ <;>
      rw [hpush]
    · have hle' : s.value * 10 ^ (j + 1) ≤ k * 10 + i := by
        rw [pow_succ, ← Nat.mul_assoc]
        omega
      exact ⟨j + 1, hle', by simp only; omega, fun h => (Bool.false_ne_true h.symm).elim⟩
    · obtain ⟨rfl, hvalue⟩ := hfull hfits
      rw [hvalue, digitChar_value hi]
      exact ⟨0, by simp, by simp only; omega, fun _ => ⟨rfl, rfl⟩⟩

/-! ## Exponents -/

theorem exponentSize?_push (ds : List Char) {i : Nat} (hi : i < 10) :
    exponentSize? (ds ++ [i.digitChar]) =
      (exponentSize? ds).bind fun e =>
        if 2147483648 ≤ e * 10 + i then none else some (e * 10 + i) := by
  rw [exponentSize?, List.foldlM_append]
  simp only [List.foldlM_cons, List.foldlM_nil, digitChar_value hi, bind_pure]
  rfl

theorem exponentSize?_digitsOf (hk : k < 2147483648) : exponentSize? (digitsOf k) = some k := by
  induction k using digitsOf_induction with
  | first k hlt =>
    rw [digitsOf_of_lt hlt, ← List.nil_append [k.digitChar], exponentSize?_push [] hlt]
    show (if 2147483648 ≤ 0 * 10 + k then none else some (0 * 10 + k)) = some k
    rw [if_neg (by omega), Nat.zero_mul, Nat.zero_add]
  | push k i hne hi ih =>
    rw [digitsOf_push hne hi, exponentSize?_push _ hi, ih (by omega), Option.bind_some,
      if_neg (by omega)]

theorem magnitude?_ofScientific (neg : Bool) (ds : List Char) {x : Int}
    (hx : x.natAbs < 2147483648) :
    (ofScientific neg ds x).magnitude? =
      shiftTens 8 (Binary64.ofRatio false (ofScientific neg ds x).significand.value 1)
        ((ofScientific neg ds x).significand.scale + x) := by
  have hexponent : (ofScientific neg ds x).exponent = some (decide (x < 0), digitsOf x.natAbs) :=
    rfl
  unfold magnitude?
  simp only [hexponent, exponentSize?_digitsOf hx, decide_eq_true_eq]
  congr 1
  split <;> omega

end Number

/-! ## Shifts -/

section Shifts

open Binary64

/-- One step of a shift to the right ends it or leaves less to shift by. -/
theorem shiftTens_step (ht : t < 0) (hvalue : value m e ≤ 2 ^ 65) (fuel : Nat) :
    ∃ m' e', value m' e' ≤ topWord ∧
      (shiftTens (fuel + 1) (.finite false m e) t = some (.finite false m' e') ∨
        t + 308 < 0 ∧
          shiftTens (fuel + 1) (.finite false m e) t =
            shiftTens fuel (.finite false m' e') (t + 308)) := by
  rw [shiftTens]
  split <;> rename_i hsize
  · obtain ⟨m', e', hdiv, hle⟩ :=
      div_tens_le hvalue (show t.natAbs ≠ 0 by omega) (show t.natAbs < 309 by omega)
    simp only [if_neg (show ¬0 ≤ t by omega), hdiv]
    exact ⟨m', e', hle, .inl rfl⟩
  · split <;> rename_i hzero
    · refine ⟨m, e, ?_, .inl rfl⟩
      rw [of_decide_eq_true hzero, value_zero]
      exact topWord_nonneg
    · obtain ⟨m', e', hdiv, hle⟩ :=
        div_tens_le hvalue (show 308 ≠ 0 by decide) (show 308 < 309 by decide)
      rw [if_neg (show ¬0 ≤ t by omega), hdiv]
      exact ⟨m', e', hle, .inr ⟨by omega, rfl⟩⟩

/-- **A shift to the right** ends with a smaller number. -/
theorem shiftTens_neg (ht : t < 0) (hvalue : value m e ≤ 2 ^ 65) (fuel : Nat) :
    ∃ m' e', shiftTens (fuel + 1) (.finite false m e) t = some (.finite false m' e') ∧
      value m' e' ≤ topWord := by
  induction fuel generalizing m e t with
  | zero =>
    obtain ⟨m', e', hle, hstep | ⟨-, hstep⟩⟩ := shiftTens_step ht hvalue 0
    · exact ⟨m', e', hstep, hle⟩
    · exact ⟨m', e', hstep, hle⟩
  | succ fuel ih =>
    obtain ⟨m', e', hle, hstep | ⟨ht', hstep⟩⟩ := shiftTens_step ht hvalue (fuel + 1)
    · exact ⟨m', e', hstep, hle⟩
    · rw [hstep]
      exact ih ht' (hle.trans (by norm_num [topWord]))

/-- **A shift to the left** that stays well below `2 ^ 64`. -/
theorem shiftTens_nonneg (ht : 0 ≤ t) (h : (v : ℚ) * 10 ^ t ≤ 2 ^ 64 - 5 * 2 ^ 10) (fuel : Nat) :
    ∃ m e, shiftTens (fuel + 1) (ofRatio false v 1) t = some (.finite false m e) ∧
      value m e ≤ topWord := by
  rw [shiftTens]
  split <;> rename_i hsize
  · have hbound : (v : ℚ) * 10 ^ t.natAbs ≤ 2 ^ 64 - 5 * 2 ^ 10 := by
      rwa [← zpow_natCast, Int.natAbs_of_nonneg ht]
    obtain ⟨m, e, hmul, hle⟩ := mul_tens_le (show t.natAbs < 309 by omega) hbound
    simp only [hmul]
    exact ⟨m, e, rfl, hle⟩
  · have hv : v = 0 := by
      by_contra hv
      have hlarge : (10 : ℚ) ^ (20 : Int) ≤ v * 10 ^ t := by
        calc (10 : ℚ) ^ (20 : Int) ≤ 10 ^ t := zpow_le_zpow_right₀ (by norm_num) (by omega)
          _ ≤ v * 10 ^ t := le_mul_of_one_le_left (by positivity) (mod_cast Nat.pos_of_ne_zero hv)
      exact absurd (hlarge.trans h) (by norm_num)
    rw [hv]
    refine ⟨0, -1074, rfl, ?_⟩
    rw [value_zero]
    exact topWord_nonneg

end Shifts

/-! ## Doubles that are read again -/

namespace Number

open Binary64

theorem pow_length_digitsOf_le (hk : k ≠ 0) : 10 ^ (digitsOf k).length ≤ 10 * k := by
  induction k using digitsOf_induction with
  | first k hlt =>
    rw [digitsOf_of_lt hlt, List.length_singleton]
    omega
  | push k i hne hi ih =>
    have h := ih hne
    rw [digitsOf_push hne hi, List.length_append, List.length_singleton, pow_succ]
    omega

theorem fraction_ofPositional_ne_nil (neg : Bool) (hds : ds ≠ []) (p : Int) :
    (ofPositional neg ds p).fraction ≠ [] := by
  unfold ofPositional
  split_ifs with hpoint hshort
  · exact fun h => hds (List.append_eq_nil_iff.1 h).2
  · exact List.cons_ne_nil _ _
  · rw [ne_eq, List.drop_eq_nil_iff]
    exact hshort

theorem whole_ofPositional_length_le (neg : Bool) (ds : List Char) {p : Int} (hp : p ≤ 16) :
    (ofPositional neg ds p).whole.length ≤ 18 := by
  unfold ofPositional
  split_ifs with hpoint hshort
  · exact Nat.le_of_ble_eq_true rfl
  · rw [List.length_append, List.length_replicate]
    omega
  · rw [List.length_take]
    omega

theorem exponent_ofPositional (neg : Bool) (ds : List Char) (p : Int) :
    (ofPositional neg ds p).exponent = none := by
  unfold ofPositional
  split_ifs <;> rfl

/-- Digits that are laid out with a point behind the first sixteen at most. -/
theorem magnitude?_ofPositional_le {p : Int} (hk : k = 0 → p ≤ 0) (hp : p ≤ 16) :
    ∃ m e, (ofPositional false (digitsOf k) p).magnitude? = some (.finite false m e) ∧
      value m e ≤ topWord := by
  obtain ⟨⟨d, ds, hwhole, -, hdigits⟩, hfraction, -⟩ := formed_ofPositional false hk
  have hscale := significand_scale_neg (hwhole ▸ hdigits) hfraction
    (whole_ofPositional_length_le false _ hp)
    (fraction_ofPositional_ne_nil false Nat.toDigits_ne_nil p)
  have hlt := significand_value_lt (ofPositional false (digitsOf k) p)
  have hlt' : ((ofPositional false (digitsOf k) p).significand.value : ℚ) ≤ 2 ^ 64 :=
    mod_cast hlt.le
  obtain ⟨m, e, hm, hle⟩ := ofRatio_natural false hlt
  unfold magnitude?
  simp only [exponent_ofPositional, hm]
  refine shiftTens_neg hscale (hle.trans ?_) 7
  linarith

/-- Digits that are laid out with an exponent. -/
theorem magnitude?_ofScientific_le {p : Int} (hzero : k = 0 → p < 0) (hp : -400 ≤ p)
    (hk : (k : ℚ) * 10 ^ p ≤ 2 ^ 64 - 5 * 2 ^ 10) :
    ∃ m e, (ofScientific false (digitsOf k) ((digitsOf k).length + p - 1)).magnitude? =
      some (.finite false m e) ∧
      value m e ≤ topWord := by
  have hpoint : (digitsOf k).length + p < 21 := by
    by_cases hk' : k = 0
    · have hp' := hzero hk'
      rw [hk', digitsOf_of_lt (by decide), List.length_singleton]
      omega
    have hlength : (10 : ℚ) ^ (digitsOf k).length ≤ 10 * k := mod_cast pow_length_digitsOf_le hk'
    have hpower : (10 : ℚ) ^ ((digitsOf k).length + p) < 10 ^ (21 : Int) := by
      calc (10 : ℚ) ^ ((digitsOf k).length + p) = 10 ^ (digitsOf k).length * 10 ^ p := by
            rw [zpow_add₀ (by norm_num), zpow_natCast]
        _ ≤ 10 * k * 10 ^ p := by gcongr
        _ = 10 * (k * 10 ^ p) := mul_assoc _ _ _
        _ ≤ 10 * (2 ^ 64 - 5 * 2 ^ 10) := by gcongr
        _ < 10 ^ (21 : Int) := by norm_num
    exact (zpow_lt_zpow_iff_right₀ (by norm_num)).1 hpower
  rw [magnitude?_ofScientific false _ (by omega)]
  obtain ⟨j, hle, hscale, -⟩ := significand_ofScientific false k ((digitsOf k).length + p - 1)
  have hlt := significand_value_lt (ofScientific false (digitsOf k) ((digitsOf k).length + p - 1))
  generalize (ofScientific false (digitsOf k) ((digitsOf k).length + p - 1)).significand =
    s at hle hscale hlt ⊢
  rw [hscale, show (j : Int) + 1 - (digitsOf k).length + ((digitsOf k).length + p - 1) =
    j + p by omega]
  by_cases ht : 0 ≤ j + p
  · refine shiftTens_nonneg ht (le_trans ?_ hk) 7
    rw [zpow_add₀ (by norm_num), zpow_natCast, ← mul_assoc]
    gcongr
    exact_mod_cast hle
  · obtain ⟨m, e, hm, hvalue⟩ := ofRatio_natural false hlt
    have hlt' : (s.value : ℚ) ≤ 2 ^ 64 := mod_cast hlt.le
    rw [hm]
    refine shiftTens_neg (not_le.1 ht) (hvalue.trans ?_) 7
    linarith

/-- The two largest doubles below `2 ^ 64` are read from their own texts. -/
theorem magnitude?_ofDouble_top : ∀ j < 3, j ≠ 0 →
    (ofDouble false (2 ^ 53 - j) 11).magnitude? = some (.finite false (2 ^ 53 - j) 11) := by
  decide +kernel

theorem magnitude?_ofDouble_le (hm : m ≠ 0) (hrounded : Rounded m e) (h : value m e < 2 ^ 64) :
    ∃ m' e', (ofDouble false m e).magnitude? = some (.finite false m' e') ∧
      value m' e' ≤ topWord := by
  have he : e ≤ 11 := by
    have hlog := Shortest.log2_add_lt hm h
    by_contra hlarge
    have hfull : 52 ≤ m.log2 := (Nat.le_log2 hm).2 (hrounded.full (by omega))
    omega
  by_cases htop : e = 11 ∧ 2 ^ 53 - 3 < m
  · obtain ⟨rfl, hmantissa⟩ := htop
    have hlt := hrounded.mantissa
    obtain ⟨j, hj, hne, rfl⟩ : ∃ j < 3, j ≠ 0 ∧ m = 2 ^ 53 - j :=
      ⟨2 ^ 53 - m, by omega, by omega, by omega⟩
    refine ⟨2 ^ 53 - j, 11, magnitude?_ofDouble_top j hj hne, ?_⟩
    have hle : ((2 ^ 53 - j : Nat) : ℚ) ≤ (2 ^ 53 - 1 : Nat) := Nat.cast_le.2 (by omega)
    calc value (2 ^ 53 - j) 11 ≤ (2 ^ 53 - 1 : Nat) * 2 ^ (11 : Int) :=
      mul_le_mul_of_nonneg_right hle (by positivity)
      _ ≤ topWord := by norm_num [topWord]
  have hbound : value m e + 2 ^ e / 2 ≤ 2 ^ 64 - 5 * 2 ^ 10 := by
    have hm' : (m : ℚ) ≤ 2 ^ 53 := mod_cast hrounded.mantissa.le
    rcases he.lt_or_eq with hsmall | rfl
    · have hunit : (2 : ℚ) ^ e ≤ 2 ^ (10 : Int) := zpow_le_zpow_right₀ one_le_two (by omega)
      calc value m e + 2 ^ e / 2 ≤ 2 ^ 53 * 2 ^ (10 : Int) + 2 ^ (10 : Int) / 2 := by
            unfold value
            gcongr
        _ ≤ 2 ^ 64 - 5 * 2 ^ 10 := by norm_num
    · have hm'' : (m : ℚ) ≤ (2 ^ 53 - 3 : Nat) := Nat.cast_le.2 (by omega)
      calc value m 11 + 2 ^ (11 : Int) / 2 ≤
        (2 ^ 53 - 3 : Nat) * 2 ^ (11 : Int) + 2 ^ (11 : Int) / 2 := by
            unfold value
            gcongr
        _ ≤ 2 ^ 64 - 5 * 2 ^ 10 := by norm_num
  have hdecimal := (Shortest.digits_le hm h).trans hbound
  have hzero := Shortest.digits_of_eq_zero (e := e) hm
  have hleast := Shortest.le_digits (m := m) hrounded.exponent
  unfold ofDouble
  rw [if_neg hm]
  generalize Shortest.digits m e = r at hdecimal hzero hleast ⊢
  obtain ⟨k, p⟩ := r
  simp only at hdecimal hzero hleast ⊢
  split <;> rename_i hpoint
  · refine magnitude?_ofPositional_le (fun hk => ?_) hpoint.2
    have hp := hzero hk
    rw [hk, digitsOf_of_lt (by decide), List.length_singleton]
    omega
  · exact magnitude?_ofScientific_le hzero hleast hdecimal

/-- A double is not written as a whole number. -/
theorem value?_ofDouble {neg neg' : Bool} {m' : Nat} {e' : Int} (hm : m ≠ 0)
    (h : (ofDouble neg m e).magnitude? = some (.finite neg' m' e')) :
    (ofDouble neg m e).value? = some (.float (.finite neg m' e')) := by
  have hparts : ((ofDouble neg m e).fraction.isEmpty && (ofDouble neg m e).exponent.isNone) =
      false := by
    unfold ofDouble
    rw [if_neg hm]
    simp only
    split
    · have hdigits : digitsOf (Shortest.digits m e).1 ≠ [] := Nat.toDigits_ne_nil
      rw [List.isEmpty_eq_false_iff.2 (fraction_ofPositional_ne_nil neg hdigits _), Bool.false_and]
    · exact Bool.and_false _
  unfold value?
  simp only [hparts, Bool.false_and, Bool.false_eq_true, if_false, h, Option.map_some, neg_ofDouble]

/-- **The text of a double below `2 ^ 64`** is read as such a double. -/
theorem exists_value?_ofDouble (hm : m ≠ 0) (hrounded : Rounded m e) (h : value m e < 2 ^ 64) :
    ∃ m' e', (ofDouble false m e).value? = some (.float (.finite false m' e')) ∧
      value m' e' ≤ topWord := by
  obtain ⟨m', e', hmagnitude, hle⟩ := magnitude?_ofDouble_le hm hrounded h
  exact ⟨m', e', value?_ofDouble hm hmagnitude, hle⟩

end Number

end Json

end TestOrchestrator
