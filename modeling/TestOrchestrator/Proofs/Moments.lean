import TestOrchestrator.Proofs.ReadBack.Digits
import TestOrchestrator.Time.Timestamp
/-!
# Timestamps from their texts

* `Timestamp.Valid t` says that a timestamp is a moment: its date is one of the calendar and its
  time one of a day. Only the last second of a minute can be a leap second.
* `Timestamp.read?_render`: the text of a moment, in any year, is read as the moment with its whole
  milliseconds.
-/

namespace TestOrchestrator.Timestamp

open Decimal Text

variable {t : Timestamp} {ds rest : List Char} {c : Char} {n width : Nat}

/-- A timestamp that is a moment. -/
structure Valid (t : Timestamp) : Prop where
  date : isDate t.year t.month t.day = true
  hour : t.hour < 24
  minute : t.minute < 60
  second : t.second < 60
  nanos : t.nanos < 1000000000 ∨ t.second = 59 ∧ t.nanos < 2000000000

/-! ## Digits -/

/-- A text of digits only, one at least. -/
structure Digits (ds : List Char) : Prop where
  isDigit : ∀ d ∈ ds, d.isDigit = true
  ne_nil : ds ≠ []

theorem isBlank_of_isDigit (h : c.isDigit = true) : isBlank c = false := by
  have hrange := toNat_of_isDigit h
  simp only [isBlank, Bool.or_eq_false_iff, Bool.and_eq_false_iff, decide_eq_false_iff_not]
  omega

theorem leadingDigits_append (hds : ∀ d ∈ ds, d.isDigit = true) (hwidth : ds.length ≤ width)
    (hrest : ds.length = width ∨ ∀ c ∈ rest.head?, c.isDigit = false) :
      leadingDigits width (ds ++ rest) = ds := by
  induction ds generalizing width with
  | nil =>
    cases width with
    | zero => rfl
    | succ width =>
      cases rest with
      | nil => rfl
      | cons c rest =>
        have hc : c.isDigit = false := by simpa using hrest
        rw [List.nil_append, leadingDigits, hc, if_neg Bool.false_ne_true]
  | cons d ds ih =>
    obtain ⟨hd, hds⟩ := List.forall_mem_cons.1 hds
    obtain ⟨width, rfl⟩ : ∃ w, width = w + 1 :=
      ⟨width - 1, by rw [List.length_cons] at hwidth; omega⟩
    simp only [List.length_cons, Nat.add_right_cancel_iff, Nat.add_le_add_iff_right] at hwidth hrest
    rw [List.cons_append, leadingDigits, if_pos hd, ih hds hwidth hrest]

theorem ofDigits_zeros (k : Nat) (ds : List Char) :
    ofDigits (List.replicate k '0' ++ ds) = ofDigits ds := by
  induction k with
  | zero => rfl
  | succ k ih => exact ih

theorem ofDigits_digitsOf (n : Nat) : ofDigits (digitsOf n) = n := by
  have hdigit : ∀ k < 10, k.digitChar.toNat - 48 = k := by decide
  induction n using digitsOf_induction with
  | first n hlt =>
    rw [digitsOf_of_lt hlt]
    show 0 * 10 + (n.digitChar.toNat - 48) = n
    rw [hdigit n hlt, Nat.zero_mul, Nat.zero_add]
  | push n k hn hk ih =>
    rw [digitsOf_push hn hk, ofDigits, List.foldl_append, ← ofDigits, ih]
    show n * 10 + (k.digitChar.toNat - 48) = _
    rw [hdigit k hk]

theorem ofDigits_padded (width n : Nat) : ofDigits (padded width n) = n := by
  rw [padded, ofDigits_zeros, ofDigits_digitsOf]

theorem digits_padded (width n : Nat) : Digits (padded width n) where
  isDigit := by
    refine List.forall_mem_append.2 ⟨fun d hd => ?_, fun d hd => isDigit_of_mem_digitsOf hd⟩
    rw [List.eq_of_mem_replicate hd]
    rfl
  ne_nil := by
    obtain ⟨d, ds, hds, -⟩ := exists_digitsOf n
    rw [padded, hds]
    exact List.append_ne_nil_of_right_ne_nil _ (List.cons_ne_nil _ _)

theorem length_digitsOf_le (hn : n < tens (width + 1)) : (digitsOf n).length ≤ width + 1 := by
  induction n using digitsOf_induction generalizing width with
  | first n hlt =>
    rw [digitsOf_of_lt hlt, List.length_singleton]
    omega
  | push n k hn' hk ih =>
    rw [tens_succ] at hn
    rw [digitsOf_push hn' hk, List.length_append, List.length_singleton]
    obtain _ | width := width
    · rw [tens_zero] at hn
      omega
    · have hlength : (digitsOf n).length ≤ width + 1 := ih (by omega)
      omega

theorem length_padded (hn : n < tens (width + 1)) : (padded (width + 1) n).length = width + 1 := by
  have hlength := length_digitsOf_le hn
  rw [padded, List.length_append, List.length_replicate]
  omega

/-! ## Parts of a text -/

theorem Digits.exists_cons (h : Digits ds) : ∃ d ds', ds = d :: ds' ∧ d.isDigit = true := by
  obtain ⟨d, ds', rfl⟩ := List.exists_cons_of_ne_nil h.ne_nil
  exact ⟨d, ds', rfl, h.isDigit d List.mem_cons_self⟩

theorem dropWhile_isBlank (h : isBlank c = false) (cs : List Char) :
    (c :: cs).dropWhile isBlank = c :: cs := by
  rw [List.dropWhile_cons, h]
  rfl

theorem number?_digits (h : Digits ds) (hlength : ds.length = width) (rest : List Char) :
    number? width (ds ++ rest) = some (ofDigits ds, rest) := by
  obtain ⟨d, ds', rfl, hd⟩ := h.exists_cons
  have hleading : leadingDigits width (d :: ds' ++ rest) = d :: ds' :=
    leadingDigits_append h.isDigit (Nat.le_of_eq hlength) (.inl hlength)
  rw [number?, List.cons_append, dropWhile_isBlank (isBlank_of_isDigit hd), ← List.cons_append,
    hleading]
  show some (ofDigits (d :: ds'), List.drop (d :: ds').length (d :: ds' ++ rest)) = _
  rw [List.drop_left]

theorem number?_padded (hn : n < tens (width + 1)) (rest : List Char) :
    number? (width + 1) (padded (width + 1) n ++ rest) = some (n, rest) := by
  rw [number?_digits (digits_padded _ _) (length_padded hn), ofDigits_padded]

theorem mark?_cons (h : isBlank c = false) (cs : List Char) : mark? c (c :: cs) = some cs := by
  rw [mark?, dropWhile_isBlank h]
  exact if_pos rfl

/-- A year after its sign. -/
theorem signed_padded (n : Nat) (sign : Int) (rest : List Char) :
    year?.signed (padded 4 n ++ '-' :: rest) sign = some (sign * n, '-' :: rest) := by
  have hdigits := digits_padded 4 n
  have hleading : leadingDigits (padded 4 n ++ '-' :: rest).length (padded 4 n ++ '-' :: rest) =
      padded 4 n :=
    leadingDigits_append hdigits.isDigit (by rw [List.length_append]; omega) (.inr (by simp))
  have hread : year?.signed (padded 4 n ++ '-' :: rest) sign =
      some (sign * (ofDigits (padded 4 n) : Int),
        (padded 4 n ++ '-' :: rest).drop (padded 4 n).length) := by
    rw [year?.signed, hleading]
    obtain ⟨d, ds, hds, -⟩ := hdigits.exists_cons
    rw [hds]
  rw [hread, ofDigits_padded, List.drop_left]

theorem year?_yearText (y : Int) (rest : List Char) :
    year? (yearText y ++ '-' :: rest) = some (y, '-' :: rest) := by
  unfold yearText
  split
  · rename_i hy
    have hnumber : number? 4 (padded 4 y.toNat ++ '-' :: rest) = some (y.toNat, '-' :: rest) := by
      refine number?_padded ?_ _
      show y.toNat < 10000
      omega
    obtain ⟨d, ds, hds, hd⟩ := (digits_padded 4 y.toNat).exists_cons
    have hminus : d ≠ '-' := by
      rintro rfl
      cases hd
    have hplus : d ≠ '+' := by
      rintro rfl
      cases hd
    rw [hds, List.cons_append] at hnumber ⊢
    rw [year?, dropWhile_isBlank (isBlank_of_isDigit hd)]
    split
    · rename_i heq
      exact absurd (List.cons.inj heq).1 hminus
    · rename_i heq
      exact absurd (List.cons.inj heq).1 hplus
    · rw [hnumber, Option.map_some]
      show some ((y.toNat : Int), '-' :: rest) = _
      rw [Int.toNat_of_nonneg hy.1]
  · split
    · rename_i hy
      show year?.signed (padded 4 y.natAbs ++ '-' :: rest) (-1) = _
      rw [signed_padded]
      congr 2
      omega
    · rename_i hy
      show year?.signed (padded 4 y.natAbs ++ '-' :: rest) 1 = _
      rw [signed_padded]
      congr 2
      omega

theorem fraction?_padded (hn : n < 1000) :
    fraction? ('.' :: (padded 3 n ++ ['Z'])) = some (n * 1000000, ['Z']) := by
  have hdigits := digits_padded 3 n
  have hlength : (padded 3 n).length = 3 := length_padded hn
  have hleading : leadingDigits 9 (padded 3 n ++ ['Z']) = padded 3 n :=
    leadingDigits_append hdigits.isDigit (by omega) (.inr (by simp))
  have hrest : (padded 3 n ++ ['Z']).dropWhile Char.isDigit = ['Z'] := by
    rw [List.dropWhile_append_of_pos hdigits.isDigit]
    rfl
  have hread : fraction? ('.' :: (padded 3 n ++ ['Z'])) =
      some (ofDigits (padded 3 n) * tens (9 - (padded 3 n).length),
        (padded 3 n ++ ['Z']).dropWhile Char.isDigit) := by
    rw [fraction?, hleading]
    obtain ⟨d, ds, hds, -⟩ := hdigits.exists_cons
    rw [hds]
  rw [hread, ofDigits_padded, hlength, hrest]
  rfl

/-- The moment at a minute of a day in UTC. -/
theorem ofLocal?_utc {y : Int} {month day hour minute : Nat} (hyear : isYear y = true)
    (hhour : hour < 24)
    (hminute : minute < 60) (second nanos : Nat) :
    ofLocal? y month day (hour * 60 + minute) 0 second nanos =
      some ⟨y, month, day, hour, minute, second, nanos⟩ := by
  have hearly : ¬((hour * 60 + minute : Nat) : Int) - 0 < 0 := by omega
  have hlate : ¬1440 ≤ ((hour * 60 + minute : Nat) : Int) - 0 := by omega
  have hday : ((((hour * 60 + minute : Nat) : Int) - 0) % 1440).toNat = hour * 60 + minute := by
    omega
  have hhours : (hour * 60 + minute) / 60 = hour := by omega
  have hminutes : (hour * 60 + minute) % 60 = minute := by omega
  simp only [ofLocal?, if_neg hearly, if_neg hlate, hyear, if_true, hday, hhours, hminutes]

theorem daysIn_le (y : Int) (month : Nat) : daysIn y month ≤ 31 := by
  unfold daysIn
  split
  · split <;> omega
  · split <;> omega

/-- The text of a date and a time of day in UTC, the second of which may be the 60th. -/
theorem read?_text {y : Int} {month day hour minute second millis : Nat}
    (hdate : isDate y month day = true)
    (hhour : hour < 24) (hminute : minute < 60) (hsecond : second ≤ 60) (hmillis : millis < 1000) :
    read? (yearText y ++ '-' :: padded 2 month ++ '-' :: padded 2 day ++
      'T' :: padded 2 hour ++ ':' ::
      padded 2 minute ++ ':' :: padded 2 second ++ '.' :: padded 3 millis ++ ['Z']) =
        some ⟨y, month, day, hour, minute, if second = 60 then 59 else second,
          if second = 60 then millis * 1000000 + 1000000000 else millis * 1000000⟩ := by
  have htwo : ∀ {n}, n < 100 → ∀ rest, number? 2 (padded 2 n ++ rest) = some (n, rest) :=
    fun hn => number?_padded hn
  have hminus : ∀ cs, mark? '-' ('-' :: cs) = some cs := mark?_cons (by decide)
  have hcolon : ∀ cs, mark? ':' (':' :: cs) = some cs := mark?_cons (by decide)
  have hoffset : offset? ['Z'] = some (0, []) := rfl
  have hcalendar := hdate
  simp only [isDate, Bool.and_eq_true, decide_eq_true_eq] at hcalendar
  obtain ⟨⟨⟨⟨hyear, -⟩, hmonth⟩, -⟩, hday⟩ := hcalendar
  have hday : day < 100 := by
    have hdays := daysIn_le y month
    omega
  simp only [List.append_assoc, List.cons_append]
  have hchecks : (isDate y month day && decide (hour < 24) && decide (minute < 60) &&
      decide (second ≤ 60) &&
      decide (Int.natAbs 0 < 1440) && [].all isBlank) = true := by
    simp only [hdate, hhour, hminute, hsecond, decide_true, Bool.true_and]
    rfl
  -- The parts of the text, from the first to the last.
  refine Option.bind_eq_some_iff.2 ⟨_, year?_yearText y _, ?_⟩
  refine Option.bind_eq_some_iff.2 ⟨_, hminus _, ?_⟩
  refine Option.bind_eq_some_iff.2 ⟨_, htwo (by omega) _, ?_⟩
  refine Option.bind_eq_some_iff.2 ⟨_, hminus _, ?_⟩
  refine Option.bind_eq_some_iff.2 ⟨_, htwo hday _, ?_⟩
  refine Option.bind_eq_some_iff.2 ⟨_, htwo (by omega) _, ?_⟩
  refine Option.bind_eq_some_iff.2 ⟨_, hcolon _, ?_⟩
  refine Option.bind_eq_some_iff.2 ⟨_, htwo (by omega) _, ?_⟩
  refine Option.bind_eq_some_iff.2 ⟨_, hcolon _, ?_⟩
  refine Option.bind_eq_some_iff.2 ⟨_, htwo (by omega) _, ?_⟩
  refine Option.bind_eq_some_iff.2 ⟨_, fraction?_padded hmillis, ?_⟩
  refine Option.bind_eq_some_iff.2 ⟨_, hoffset, ?_⟩
  refine (if_pos hchecks).trans ?_
  by_cases hlast : second = 60
  · rw [if_pos hlast, if_pos hlast, if_pos hlast]
    exact ofLocal?_utc hyear hhour hminute 59 _
  · rw [if_neg hlast, if_neg hlast, if_neg hlast]
    exact ofLocal?_utc hyear hhour hminute second _

/-- **The text of a moment is read as the moment with its whole milliseconds.** -/
theorem read?_render (h : t.Valid) : read? t.render.toList = some t.toMillis := by
  obtain ⟨hdate, hhour, hminute, hsecond, hnanos⟩ := h
  rw [render, String.toList_ofList]
  by_cases hleap : 1000000000 ≤ t.nanos
  · simp only [if_pos hleap]
    obtain ⟨hlast, hnanos⟩ : t.second = 59 ∧ t.nanos < 2000000000 := by omega
    have hmillis : (t.nanos - 1000000000) / 1000000 * 1000000 + 1000000000 =
        t.nanos / 1000000 * 1000000 := by omega
    rw [read?_text hdate hhour hminute (by omega) (by omega), if_pos (by omega), if_pos (by omega),
      hmillis, toMillis, hlast]
  · simp only [if_neg hleap]
    rw [read?_text hdate hhour hminute (by omega) (by omega), if_neg (by omega), if_neg (by omega),
      toMillis]

end TestOrchestrator.Timestamp
