import TestOrchestrator.Json.Reader
import TestOrchestrator.Proofs.ReadBack.Digits
import TestOrchestrator.Proofs.ReadBack.Encoding
/-!
# Numbers in JSON texts

* `Number.text n` is the text of the parts of a number, and `Number.Formed n` says that they have
  the grammar.
* `number?_text`: from that text the same parts are read, as long as no digit, point or exponent
  comes behind.
* `Number.ofInt` and `Number.ofDouble` are the parts that whole numbers and doubles are written with
  (`text_ofInt`, `text_ofDouble`), and they are well formed.
-/

namespace TestOrchestrator

namespace Json

open Text.Utf8 Decimal

variable {cs ds : List Char} {d : Char} {rest : List UInt8} {n : Number}

/-! ## Digits -/

/-- A character below `U+0080` is one byte. -/
theorem exists_byte (h : d.toNat < 0x80) :
    ∃ b : UInt8, b.toNat = d.toNat ∧ ascii b = d ∧ ∀ cs, encode (d :: cs) = b :: encode cs := by
  have henc := encodedAs d
  cases hbytes : String.utf8EncodeChar d with
  | nil => exact absurd hbytes String.utf8EncodeChar_ne_nil
  | cons b bs =>
    rw [hbytes] at henc
    cases henc with
    | one small first =>
      refine ⟨b, first, ?_, fun cs => ?_⟩
      · rw [ascii, first, Char.ofNat_toNat]
      · rw [encode, List.flatMap_cons, hbytes]
        rfl
    | two range | three range | four range => omega

theorem exists_digit (h : d.isDigit = true) :
    ∃ b, isDigit b = true ∧ ascii b = d ∧ ∀ cs, encode (d :: cs) = b :: encode cs := by
  have hrange := toNat_of_isDigit h
  obtain ⟨b, hb, hascii, hencode⟩ := exists_byte (d := d) (by omega)
  refine ⟨b, ?_, hascii, hencode⟩
  simp only [isDigit, Bool.and_eq_true, decide_eq_true_eq, UInt8.le_iff_toNat_le, UInt8.reduceToNat]
  omega

/-- No digit comes first. -/
def NoDigit (rest : List UInt8) : Prop := ∀ b ∈ rest.head?, isDigit b = false

theorem digits_of_noDigit (h : NoDigit rest) : digits rest = ([], rest) := by
  cases rest with
  | nil => rfl
  | cons b bs =>
    have hb := h b rfl
    rw [digits, hb, if_neg Bool.false_ne_true]

theorem digits_text (hds : ∀ d ∈ ds, d.isDigit = true) (hrest : NoDigit rest) :
    digits (encode ds ++ rest) = (ds, rest) := by
  induction ds with
  | nil => exact digits_of_noDigit hrest
  | cons d ds ih =>
    obtain ⟨hd, hds⟩ := List.forall_mem_cons.1 hds
    obtain ⟨b, hb, hascii, hencode⟩ := exists_digit hd
    rw [hencode, List.cons_append, digits, if_pos hb, ih hds, hascii]

/-! ## Numbers from their parts -/

/-- The part behind the point, with the point. -/
def fractionText (ds : List Char) : List Char := if ds = [] then [] else '.' :: ds

/-- The exponent with its sign. -/
def exponentText : Option (Bool × List Char) → List Char
  | none => []
  | some (neg, ds) => 'e' :: (if neg then '-' else '+') :: ds

/-- The text of a number without its sign. -/
def Number.text (n : Number) : List Char :=
  n.whole ++ (fractionText n.fraction ++ exponentText n.exponent)

/-- The parts of a number have the grammar: digits, no needless zero at the front, and an exponent
only with digits. -/
structure Number.Formed (n : Number) : Prop where
  whole : ∃ d ds, n.whole = d :: ds ∧ (d = '0' → ds = []) ∧ ∀ e ∈ d :: ds, e.isDigit = true
  fraction : ∀ d ∈ n.fraction, d.isDigit = true
  exponent : ∀ neg ds, n.exponent = some (neg, ds) → ds ≠ [] ∧ ∀ d ∈ ds, d.isDigit = true

/-- Nothing comes first that could belong to a number. -/
def Stops (rest : List UInt8) : Prop := ∀ b ∈ rest.head?, isDigit b = false ∧ b ≠ 0x2E ∧ b ≠ 0x65 ∧
    b ≠ 0x45

theorem Stops.noDigit (h : Stops rest) : NoDigit rest := fun b hb => (h b hb).1

/-- A mark, a sign and digits are an exponent. -/
theorem exponent?_sign {d : Char} (neg : Bool) (h : digits bs = (d :: ds, rest)) :
    exponent? (0x65 :: (if neg then 0x2D else 0x2B) :: bs) = some (some (neg, d :: ds), rest) := by
  rw [exponent?.eq_def]
  cases neg <;> simp [h]

theorem exponent?_text {x : Option (Bool × List Char)}
    (hx : ∀ neg ds, x = some (neg, ds) → ds ≠ [] ∧ ∀ d ∈ ds, d.isDigit = true)
    (hrest : Stops rest) :
    exponent? (encode (exponentText x) ++ rest) = some (x, rest) := by
  match x with
  | none =>
    cases rest with
    | nil => rfl
    | cons b bs =>
      obtain ⟨-, -, hsmall, hlarge⟩ := hrest b rfl
      have hmark : (b = 0x65 || b = 0x45) = false := by simp [hsmall, hlarge]
      show exponent? (b :: bs) = _
      rw [exponent?.eq_def]
      simp only [hmark, Bool.false_eq_true, if_false]
  | some (neg, ds) =>
    obtain ⟨hne, hds⟩ := hx neg ds rfl
    obtain ⟨d, ds, rfl⟩ := List.exists_cons_of_ne_nil hne
    have hexponent := exponent?_sign neg (digits_text hds hrest.noDigit)
    cases neg <;> exact hexponent

/-- A point and digits are a fraction. -/
theorem fraction?_point {d : Char} (h : digits bs = (d :: ds, rest)) :
    fraction? (0x2E :: bs) = some (d :: ds, rest) := by
  rw [fraction?, h]

theorem fraction?_text (hds : ∀ d ∈ ds, d.isDigit = true) (hrest : NoDigit rest)
    (hpoint : ∀ b ∈ rest.head?, b ≠ 0x2E) : fraction? (encode (fractionText ds) ++ rest) =
      some (ds, rest) := by
  cases ds with
  | nil =>
    show fraction? rest = _
    rw [fraction?.eq_def]
    split
    · exact absurd rfl (hpoint _ rfl)
    · rfl
  | cons d ds => exact fraction?_point (digits_text hds hrest)

theorem noDigit_exponentText (x : Option (Bool × List Char)) (hrest : Stops rest) :
    NoDigit (encode (exponentText x) ++ rest) ∧ ∀ b ∈ (encode (exponentText x) ++ rest).head?,
      b ≠ 0x2E := by
  match x with
  | none => exact ⟨hrest.noDigit, fun b hb => (hrest b hb).2.1⟩
  | some (neg, ds) =>
    constructor
    · rintro b ⟨⟩
      rfl
    · rintro b ⟨⟩
      decide

theorem noDigit_fractionText (hrest : NoDigit rest) :
    NoDigit (encode (fractionText ds) ++ rest) := by
  cases ds with
  | nil => exact hrest
  | cons d ds =>
    rintro b ⟨⟩
    rfl

/-- **A number is read from its text.** -/
theorem number?_text (h : n.Formed) (hrest : Stops rest) :
    number? n.neg (encode n.text ++ rest) = some (n, rest) := by
  obtain ⟨d, ds, hwhole, hzero, hdigits⟩ := h.whole
  obtain ⟨hnoDigit, hpoint⟩ := noDigit_exponentText n.exponent hrest
  have hds : digits (encode n.text ++ rest) =
      (d :: ds, encode (fractionText n.fraction) ++
        (encode (exponentText n.exponent) ++ rest)) := by
    rw [Number.text, hwhole, encode_append, encode_append, List.append_assoc, List.append_assoc]
    exact digits_text hdigits (noDigit_fractionText hnoDigit)
  rw [number?, hds]
  split
  · rename_i heq
    cases heq
  · rename_i heq
    cases heq
    cases hzero rfl
  · simp only [Option.bind_eq_bind, Option.bind_some, fraction?_text h.fraction hnoDigit hpoint,
      exponent?_text h.exponent hrest, ← hwhole]
    rfl

/-! ## What numbers are written with -/

/-- The parts of a whole number. -/
def Number.ofInt (k : Int) : Number := ⟨k < 0, digitsOf k.natAbs, [], none⟩

/-- The parts of digits with a point after the first `point` of them. -/
def Number.ofPositional (neg : Bool) (ds : List Char) (point : Int) : Number :=
  if point ≤ 0 then ⟨neg, ['0'], List.replicate (-point).toNat '0' ++ ds, none⟩
  else if ds.length ≤ point.toNat then ⟨neg, ds ++ List.replicate (point.toNat - ds.length) '0',
    ['0'], none⟩
  else ⟨neg, ds.take point.toNat, ds.drop point.toNat, none⟩

/-- The parts of digits with a point after the first and an exponent. -/
def Number.ofScientific (neg : Bool) (ds : List Char) (x : Int) : Number :=
  ⟨neg, ds.take 1, ds.drop 1, some (x < 0, digitsOf x.natAbs)⟩

/-- The parts of a double. -/
def Number.ofDouble (neg : Bool) (m : Nat) (e : Int) : Number :=
  if m = 0 then ⟨neg, ['0'], ['0'], none⟩
  else
    let (d, p) := Shortest.digits m e
    let ds := digitsOf d
    let point := (ds.length : Int) + p
    if numbers.minPoint < point ∧ point ≤ numbers.maxPoint then .ofPositional neg ds point
    else .ofScientific neg ds (point - 1)

theorem text_ofInt (k : Int) : (Number.ofInt k).text = digitsOf k.natAbs := List.append_nil _

theorem text_ofPositional (neg : Bool) (hds : ds ≠ []) (point : Int) :
    (Number.ofPositional neg ds point).text = Layout.positional ds point := by
  unfold Number.ofPositional Layout.positional
  simp only
  split_ifs with hpoint hshort
  · simp [Number.text, fractionText, exponentText, hds]
  · simp [Number.text, fractionText, exponentText]
  · have hdrop : ds.drop point.toNat ≠ [] := by
      rw [ne_eq, List.drop_eq_nil_iff]
      exact hshort
    simp only [Number.text, fractionText, exponentText, if_neg hdrop, List.append_nil]

theorem text_ofScientific (neg : Bool) (hds : ds ≠ []) (x : Int) :
    (Number.ofScientific neg ds x).text = numbers.scientific ds x := by
  obtain ⟨d, ds, rfl⟩ := List.exists_cons_of_ne_nil hds
  unfold Number.ofScientific Layout.scientific
  cases ds <;> by_cases hx : x < 0 <;> simp [Number.text, fractionText, exponentText, numbers, hx]

theorem text_ofDouble (neg : Bool) (m : Nat) (e : Int) :
    (numbers.render (.finite neg m e)).toList =
      if neg then '-' :: (Number.ofDouble neg m e).text else (Number.ofDouble neg m e).text := by
  have hne : ∀ k, digitsOf k ≠ [] := fun k => Nat.toDigits_ne_nil
  have hbody : (Number.ofDouble neg m e).text =
      if m = 0 then ['0', '.', '0']
      else
        let (d, p) := Shortest.digits m e
        let ds := digitsOf d
        let point := (ds.length : Int) + p
        if numbers.minPoint < point ∧ point ≤ numbers.maxPoint then Layout.positional ds point
        else numbers.scientific ds (point - 1) := by
    unfold Number.ofDouble
    simp only
    split_ifs
    · rfl
    · exact text_ofPositional neg (hne _) _
    · exact text_ofScientific neg (hne _) _
  rw [Layout.render, String.toList_ofList, ← hbody]

/-! ## They have the grammar -/

theorem exists_whole (k : Nat) : ∃ d ds, digitsOf k = d :: ds ∧ (d = '0' → ds = []) ∧
    ∀ e ∈ d :: ds, e.isDigit = true := by
  obtain ⟨d, ds, hds, -⟩ := exists_digitsOf k
  refine ⟨d, ds, hds, ?_, fun e he => isDigit_of_mem_digitsOf (n := k) (hds ▸ he)⟩
  rintro rfl
  have hk : k = 0 := Decidable.byContradiction fun hk =>
    head_digitsOf hk (by rw [hds, List.head?_cons])
  rw [hk, digitsOf_of_lt (by omega), List.cons.injEq] at hds
  exact hds.2.symm

theorem formed_ofInt (k : Int) : (Number.ofInt k).Formed := ⟨exists_whole k.natAbs, nofun, nofun⟩

theorem isDigit_of_mem_zeros {k : Nat} {e : Char} (he : e ∈ List.replicate k '0') :
    e.isDigit = true := by
  rw [List.eq_of_mem_replicate he]
  rfl

/-- Digits of zero are only laid out behind a point. -/
theorem formed_ofPositional (neg : Bool) {k : Nat} {point : Int} (hk : k = 0 → point ≤ 0) :
    (Number.ofPositional neg (digitsOf k) point).Formed := by
  obtain ⟨d, ds, hds, hzero, hdigits⟩ := exists_whole k
  have hzero' : ¬point ≤ 0 → d ≠ '0' := by
    rintro hpoint rfl
    exact head_digitsOf (fun h => hpoint (hk h)) (by rw [hds, List.head?_cons])
  unfold Number.ofPositional
  split_ifs with hpoint hshort
  · refine ⟨⟨'0', [], rfl, fun _ => rfl, List.forall_mem_singleton.2 rfl⟩, fun e he => ?_, nofun⟩
    rcases List.mem_append.1 he with he | he
    · exact isDigit_of_mem_zeros he
    · exact isDigit_of_mem_digitsOf he
  · refine ⟨⟨d, ds ++ List.replicate (point.toNat - (digitsOf k).length) '0', ?_,
      fun h => absurd h (hzero' hpoint), ?_⟩, fun e he => ?_, nofun⟩
    · rw [hds]
      rfl
    · intro e he
      rw [← List.cons_append, ← hds] at he
      rcases List.mem_append.1 he with he | he
      · exact isDigit_of_mem_digitsOf he
      · exact isDigit_of_mem_zeros he
    · rw [List.mem_singleton.1 he]
      rfl
  · obtain ⟨j, hj⟩ : ∃ j, point.toNat = j + 1 := ⟨point.toNat - 1, by omega⟩
    refine ⟨⟨d, ds.take j, ?_, fun h => absurd h (hzero' hpoint), fun e he => hdigits e ?_⟩,
      fun e he => isDigit_of_mem_digitsOf (List.mem_of_mem_drop he), nofun⟩
    · rw [hj, hds, List.take_succ_cons]
    · exact List.mem_of_mem_take (i := j + 1) he

theorem formed_ofScientific (neg : Bool) (k : Nat) (x : Int) :
    (Number.ofScientific neg (digitsOf k) x).Formed := by
  obtain ⟨d, ds, hds, -, hdigits⟩ := exists_whole k
  refine ⟨⟨d, [], ?_, fun _ => rfl, fun e he => hdigits e ?_⟩,
    fun e he => isDigit_of_mem_digitsOf (List.mem_of_mem_drop he), ?_⟩
  · rw [Number.ofScientific, hds]
    rfl
  · exact List.mem_of_mem_take (i := 1) he
  · rintro neg ds ⟨⟩
    exact ⟨Nat.toDigits_ne_nil, fun e => isDigit_of_mem_digitsOf⟩

end Json

/-! ## The digits of a double -/

namespace Decimal.Shortest

theorem stripTens_ne_zero {fuel d : Nat} {p : Int} (hd : d ≠ 0) : (stripTens fuel d p).1 ≠ 0 := by
  induction fuel generalizing d p with
  | zero => exact hd
  | succ fuel ih =>
    unfold stripTens
    split_ifs with h
    · refine ih ?_
      rw [Bool.and_eq_true, decide_eq_true_eq] at h
      omega
    · exact hd

theorem onGrid?_ne_zero {i : Interval} {p : Int} {d : Nat} (h : i.onGrid? p = some d) : d ≠ 0 := by
  unfold Interval.onGrid? at h
  simp only at h
  split_ifs at h with hboth hup hlower
  all_goals cases h
  · exact Nat.succ_ne_zero _
  · simp only [Bool.and_eq_true, decide_eq_true_eq] at hboth
    omega
  · simp only [Bool.and_eq_true, decide_eq_true_eq] at hlower
    omega
  · exact Nat.succ_ne_zero _

/-- Digits of zero only come from a value below one, when the search has ended without a decimal. -/
theorem of_search_eq_zero {i : Interval} {fuel : Nat} {p : Int} (h : (search i fuel p).1 = 0) :
    i.value / i.den = 0 ∧ (search i fuel p).2 = p - fuel := by
  induction fuel generalizing p with
  | zero => exact ⟨h, (Int.sub_zero p).symm⟩
  | succ fuel ih =>
    unfold search at h ⊢
    cases hgrid : i.onGrid? p with
    | some d =>
      rw [hgrid] at h
      exact absurd h (stripTens_ne_zero (onGrid?_ne_zero hgrid))
    | none =>
      rw [hgrid] at h
      obtain ⟨hvalue, hpower⟩ := ih h
      refine ⟨hvalue, ?_⟩
      show (search i fuel (p - 1)).2 = _
      omega

theorem digits_of_eq_zero {m : Nat} {e : Int} (hm : m ≠ 0) (h : (digits m e).1 = 0) :
    (digits m e).2 < 0 := by
  obtain ⟨hvalue, hpower⟩ := of_search_eq_zero h
  have hlog : 2 ^ m.log2 ≤ m := Nat.log2_self_le hm
  have hsmall : (m.log2 : Int) + e < 0 := by
    unfold interval Binary64.ratio at hvalue
    simp only at hvalue
    split_ifs at hvalue with he
    · rw [Nat.mul_one, Nat.div_eq_zero_iff, Nat.one_shiftLeft] at hvalue
      have hpower : 2 ^ (m.log2 + 2) < 2 ^ (-(e - 2)).toNat := by
        have hpos := Nat.two_pow_pos (-(e - 2)).toNat
        rw [Nat.pow_add]
        omega
      have hexponent := (Nat.pow_lt_pow_iff_right (by omega)).1 hpower
      omega
    · rw [Nat.div_one, Nat.one_shiftLeft] at hvalue
      have hpos := Nat.mul_pos (show 0 < 4 * m by omega) (Nat.two_pow_pos (e - 2).toNat)
      exact absurd hvalue (Nat.ne_of_gt hpos)
  have hdigits : (digits m e).2 = magnitude m e + 2 - (24 : Nat) := hpower
  unfold magnitude at hdigits
  omega

end Decimal.Shortest

namespace Json

open Text.Utf8 Decimal

theorem formed_ofDouble (neg : Bool) (m : Nat) (e : Int) : (Number.ofDouble neg m e).Formed := by
  unfold Number.ofDouble
  split_ifs with hm
  · exact ⟨⟨'0', [], rfl, fun _ => rfl, List.forall_mem_singleton.2 rfl⟩, fun _ =>
      isDigit_of_mem_zeros (k := 1), nofun⟩
  · have hzero := Shortest.digits_of_eq_zero (e := e) hm
    generalize Shortest.digits m e = r at hzero
    obtain ⟨d, p⟩ := r
    simp only
    split_ifs with hpoint
    · refine formed_ofPositional neg fun hd => ?_
      have hp := hzero hd
      simp only at hp
      rw [hd, digitsOf_of_lt (by omega), List.length_singleton]
      omega
    · exact formed_ofScientific neg d _

theorem digitChar_value {i : Nat} (hi : i < 10) : i.digitChar.toNat - 48 = i := by
  rw [Nat.toNat_digitChar_of_lt_ten hi, Nat.add_sub_cancel_left]

theorem pushWhole_digitChar {v i : Nat} (hi : i < 10) (hv : v * 10 + i < wordLimit) :
    Significand.pushWhole ⟨v, 0, false⟩ i.digitChar = ⟨v * 10 + i, 0, false⟩ := by
  unfold Significand.pushWhole
  simp only [digitChar_value hi, Bool.false_or, decide_eq_true_eq, if_neg (Nat.not_le.2 hv)]

theorem foldl_pushWhole {k : Nat} (hk : k < wordLimit) :
    (digitsOf k).foldl Significand.pushWhole ⟨0, 0, false⟩ = ⟨k, 0, false⟩ := by
  induction k using digitsOf_induction with
  | first k hlt =>
    rw [digitsOf_of_lt hlt, List.foldl_cons, List.foldl_nil, pushWhole_digitChar hlt (by omega),
      Nat.zero_mul, Nat.zero_add]
  | push k i hne hi ih =>
    rw [digitsOf_push hne hi, List.foldl_append, ih (by omega), List.foldl_cons, List.foldl_nil,
      pushWhole_digitChar hi hk]

/-- **A count is read as itself.** -/
theorem value?_ofInt {k : Nat} (hk : k < wordLimit) : (Number.ofInt k).value? = some (.int k) := by
  have hneg : decide ((k : Int) < 0) = false := decide_eq_false (by omega)
  unfold Number.value? Number.ofInt
  simp only [Int.natAbs_natCast, foldl_pushWhole hk, hneg]
  rfl

theorem neg_ofDouble (neg : Bool) (m : Nat) (e : Int) : (Number.ofDouble neg m e).neg = neg := by
  unfold Number.ofDouble Number.ofPositional Number.ofScientific
  simp only
  split_ifs <;> rfl

end Json

end TestOrchestrator
