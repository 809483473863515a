import TestOrchestrator.Text.Split
import TestOrchestrator.Text.Utf8
import Mathlib.Tactic.SplitIfs
/-!
# Text from its own bytes

* `Text.Utf8.EncodedAs n bs` says that `bs` are the bytes of the character with the number `n`.
* `Text.Utf8.decode?_encode`: the bytes of a text are read as that text.
* `Text.Utf8.decode?_eq_some_iff`: no other bytes are read.
* `Text.Utf8.splitOn_encode`: at a character of one byte, a text and its bytes are cut alike.
-/

namespace TestOrchestrator.Text.Utf8

/-- The bytes of a character with a number. -/
inductive EncodedAs (n : Nat) : List UInt8 → Prop
  | one {a : UInt8} (small : n < 0x80) (first : a.toNat = n) : EncodedAs n [a]
  | two {a b : UInt8} (range : 0x80 ≤ n ∧ n < 0x800) (first : a.toNat = 0xC0 + n / 64)
      (second : b.toNat = 0x80 + n % 64) : EncodedAs n [a, b]
  | three {a b c : UInt8} (range : 0x800 ≤ n ∧ n < 0x10000) (first : a.toNat = 0xE0 + n / 4096)
      (second : b.toNat = 0x80 + n / 64 % 64) (third : c.toNat = 0x80 + n % 64) :
        EncodedAs n [a, b, c]
  | four {a b c d : UInt8} (range : 0x10000 ≤ n ∧ n < 0x110000)
      (first : a.toNat = 0xF0 + n / 262144)
      (second : b.toNat = 0x80 + n / 4096 % 64) (third : c.toNat = 0x80 + n / 64 % 64)
      (fourth : d.toNat = 0x80 + n % 64) : EncodedAs n [a, b, c, d]

theorem toNat_valid (d : Char) : d.toNat < 0xD800 ∨ (0xDFFF < d.toNat ∧ d.toNat < 0x110000) :=
  d.valid

theorem encodedAs (d : Char) : EncodedAs d.toNat (String.utf8EncodeChar d) := by
  have hvalid := toNat_valid d
  have hbyte : ∀ n, n < 256 → (UInt8.ofNat n).toNat = n := by
    intro n hn
    rw [UInt8.toNat_ofNat']
    omega
  have hval : d.val.toNat = d.toNat := rfl
  simp only [String.utf8EncodeChar, hval]
  split_ifs with h1 h2 h3
  · refine .one (by omega) ?_
    rw [hbyte _ (by omega)]
  · refine .two (by omega) ?_ ?_ <;>
      · rw [hbyte _ (by omega)]
        omega
  · refine .three (by omega) ?_ ?_ ?_ <;>
      · rw [hbyte _ (by omega)]
        omega
  · refine .four (by omega) ?_ ?_ ?_ ?_ <;>
      · rw [hbyte _ (by omega)]
        omega

/-! ## How many bytes a text has -/

theorem length_encode_pos (d : Char) : 0 < (String.utf8EncodeChar d).length :=
  List.length_pos_iff.2 (String.utf8EncodeChar_ne_nil)

theorem length_le_encode (cs : List Char) : cs.length ≤ (encode cs).length := by
  induction cs with
  | nil => exact Nat.le_refl 0
  | cons d cs ih =>
    have hd := length_encode_pos d
    rw [encode, List.flatMap_cons, ← encode, List.length_append, List.length_cons]
    omega

theorem length_encode_gt {d : Char} : (0x80 ≤ d.toNat → 2 ≤ (String.utf8EncodeChar d).length) ∧
    (0x10000 ≤ d.toNat → 4 ≤ (String.utf8EncodeChar d).length) := by
  have henc := encodedAs d
  generalize String.utf8EncodeChar d = bs at henc
  cases henc <;> simp only [List.length_cons, List.length_nil] <;> omega

/-! ## Reading -/

theorem isTail_iff {b : UInt8} : isTail b = true ↔ 0x80 ≤ b.toNat ∧ b.toNat ≤ 0xBF := by
  simp [isTail, UInt8.le_iff_toNat_le]

theorem secondOfThree_iff {a b : UInt8} : secondOfThree a b = true ↔
    isTail b = true ∧ (a.toNat = 0xE0 → 0xA0 ≤ b.toNat) ∧ (a.toNat = 0xED → b.toNat ≤ 0x9F) := by
  rw [isTail_iff, secondOfThree]
  split_ifs with h1 h2
  all_goals
    simp only [← UInt8.toNat_inj, UInt8.reduceToNat] at *
    simp only [UInt8.le_iff_toNat_le, UInt8.reduceToNat, Bool.and_eq_true, decide_eq_true_eq,
      isTail_iff]
    omega

theorem secondOfFour_iff {a b : UInt8} : secondOfFour a b = true ↔
    isTail b = true ∧ (a.toNat = 0xF0 → 0x90 ≤ b.toNat) ∧ (a.toNat = 0xF4 → b.toNat ≤ 0x8F) := by
  rw [isTail_iff, secondOfFour]
  split_ifs with h1 h2
  all_goals
    simp only [← UInt8.toNat_inj, UInt8.reduceToNat] at *
    simp only [UInt8.le_iff_toNat_le, UInt8.reduceToNat, Bool.and_eq_true, decide_eq_true_eq,
      isTail_iff]
    omega

theorem scan_two {a b : UInt8} {bs : List UInt8} (ha : 0xC2 ≤ a.toNat ∧ a.toNat ≤ 0xDF)
    (hb : isTail b = true) :
    scan (a :: b :: bs) = some (Char.ofNat (a.toNat % 32 * 64 + low b)) :: scan bs := by
  have hlarge : ¬a < 0x80 := by
    rw [UInt8.lt_iff_toNat_lt]
    simp only [UInt8.reduceToNat]
    omega
  have hrange : (0xC2 ≤ a && a ≤ 0xDF) = true := by simpa [UInt8.le_iff_toNat_le] using ha
  rw [scan.eq_def]
  simp only [if_neg hlarge, if_pos hrange, hb, if_true]

theorem scan_three {a b c : UInt8} {bs : List UInt8} (ha : 0xE0 ≤ a.toNat ∧ a.toNat ≤ 0xEF)
    (hb : secondOfThree a b = true) (hc : isTail c = true) :
    scan (a :: b :: c :: bs) =
      some (Char.ofNat ((a.toNat % 16 * 64 + low b) * 64 + low c)) :: scan bs := by
  have hlarge : ¬a < 0x80 := by
    rw [UInt8.lt_iff_toNat_lt]
    simp only [UInt8.reduceToNat]
    omega
  have htwo : (0xC2 ≤ a && a ≤ 0xDF) = false := by
    simp only [UInt8.le_iff_toNat_le, UInt8.reduceToNat, Bool.and_eq_false_iff,
      decide_eq_false_iff_not]
    omega
  have hrange : (0xE0 ≤ a && a ≤ 0xEF) = true := by simpa [UInt8.le_iff_toNat_le] using ha
  rw [scan.eq_def]
  simp only [if_neg hlarge, htwo, Bool.false_eq_true, if_false, if_pos hrange, hb, hc, if_true]

theorem scan_four {a b c d : UInt8} {bs : List UInt8} (ha : 0xF0 ≤ a.toNat ∧ a.toNat ≤ 0xF4)
    (hb : secondOfFour a b = true) (hc : isTail c = true) (hd : isTail d = true) :
    scan (a :: b :: c :: d :: bs) =
      some (Char.ofNat (((a.toNat % 8 * 64 + low b) * 64 + low c) * 64 + low d)) :: scan bs := by
  have hlarge : ¬a < 0x80 := by
    rw [UInt8.lt_iff_toNat_lt]
    simp only [UInt8.reduceToNat]
    omega
  have htwo : (0xC2 ≤ a && a ≤ 0xDF) = false := by
    simp only [UInt8.le_iff_toNat_le, UInt8.reduceToNat, Bool.and_eq_false_iff,
      decide_eq_false_iff_not]
    omega
  have hthree : (0xE0 ≤ a && a ≤ 0xEF) = false := by
    simp only [UInt8.le_iff_toNat_le, UInt8.reduceToNat, Bool.and_eq_false_iff,
      decide_eq_false_iff_not]
    omega
  have hrange : (0xF0 ≤ a && a ≤ 0xF4) = true := by simpa [UInt8.le_iff_toNat_le] using ha
  rw [scan, if_neg hlarge, htwo, if_neg Bool.false_ne_true, hthree, if_neg Bool.false_ne_true,
    if_pos hrange]
  simp only [hb, hc, hd, if_true]

/-- A character is read from its bytes. -/
theorem scan_utf8EncodeChar (d : Char) (bs : List UInt8) :
    scan (String.utf8EncodeChar d ++ bs) = some d :: scan bs := by
  have hvalid := toNat_valid d
  have hchar : ∀ n, n = d.toNat → Char.ofNat n = d := by
    rintro n rfl
    exact Char.ofNat_toNat d
  have henc := encodedAs d
  generalize String.utf8EncodeChar d = cs at henc
  cases henc with
  | @one a small first =>
    have hsmall : a < 0x80 := by
      rw [UInt8.lt_iff_toNat_lt]
      simp only [UInt8.reduceToNat]
      omega
    rw [List.singleton_append, scan.eq_def]
    simp only [if_pos hsmall, hchar _ first]
  | @two a b range first second =>
    have hb : isTail b = true := isTail_iff.2 (by omega)
    rw [List.cons_append, List.singleton_append, scan_two (by omega) hb, hchar]
    rw [low]
    omega
  | @three a b c range first second third =>
    have hb : secondOfThree a b = true :=
      secondOfThree_iff.2 ⟨isTail_iff.2 (by omega), by omega, by omega⟩
    have hc : isTail c = true := isTail_iff.2 (by omega)
    rw [List.cons_append, List.cons_append, List.singleton_append,
      scan_three (by omega) hb hc, hchar]
    rw [low, low]
    omega
  | @four a b c e range first second third fourth =>
    have hb : secondOfFour a b = true :=
      secondOfFour_iff.2 ⟨isTail_iff.2 (by omega), by omega, by omega⟩
    have hc : isTail c = true := isTail_iff.2 (by omega)
    have he : isTail e = true := isTail_iff.2 (by omega)
    rw [List.cons_append, List.cons_append, List.cons_append, List.singleton_append,
      scan_four (by omega) hb hc he, hchar]
    rw [low, low, low]
    omega

/-- **The bytes of a text are read as that text.** -/
theorem decode?_encode (cs : List Char) : decode? (encode cs) = some cs := by
  induction cs with
  | nil => rfl
  | cons d cs ih =>
    rw [decode?] at ih
    rw [encode, List.flatMap_cons, decode?, scan_utf8EncodeChar, List.mapM_cons, ← encode, ih]
    rfl

/-! ## Well-formed bytes -/

theorem toNat_ofNat {n : Nat} (h : n.isValidChar) : (Char.ofNat n).toNat = n := by
  rw [Char.ofNat, dif_pos h]
  rfl

/-- A character has no other bytes than its own. -/
theorem EncodedAs.unique {n : Nat} {bs bs' : List UInt8} (h : EncodedAs n bs)
    (h' : EncodedAs n bs') : bs = bs' := by
  cases h <;> cases h' <;> first
    | omega
    | simp only [List.cons.injEq, ← UInt8.toNat_inj, and_true]; omega

theorem utf8EncodeChar_ofNat {n : Nat} {bs : List UInt8} (h : EncodedAs n bs) (hn : n.isValidChar) :
    String.utf8EncodeChar (Char.ofNat n) = bs := by
  have hown := encodedAs (Char.ofNat n)
  rw [toNat_ofNat hn] at hown
  exact hown.unique h

/-- The bytes that are read as one character. -/
inductive Spells : List UInt8 → Nat → Prop
  | one {a : UInt8} (small : a < 0x80) : Spells [a] a.toNat
  | two {a b : UInt8} (first : (0xC2 ≤ a && a ≤ 0xDF) = true) (second : isTail b = true) :
    Spells [a, b] (a.toNat % 32 * 64 + low b)
  | three {a b c : UInt8} (first : (0xE0 ≤ a && a ≤ 0xEF) = true)
      (second : secondOfThree a b = true)
    (third : isTail c = true) : Spells [a, b, c] ((a.toNat % 16 * 64 + low b) * 64 + low c)
  | four {a b c d : UInt8} (first : (0xF0 ≤ a && a ≤ 0xF4) = true)
      (second : secondOfFour a b = true)
    (third : isTail c = true) (fourth : isTail d = true) :
    Spells [a, b, c, d] (((a.toNat % 8 * 64 + low b) * 64 + low c) * 64 + low d)

/-- What is read as one character is the bytes of a character. -/
theorem Spells.encodedAs {bs : List UInt8} {n : Nat} (h : Spells bs n) :
    EncodedAs n bs ∧ n.isValidChar := by
  cases h with
  | @one a small =>
    rw [UInt8.lt_iff_toNat_lt] at small
    exact ⟨.one small rfl, .inl (Nat.lt_trans small (by decide))⟩
  | @two a b first second =>
    simp only [UInt8.le_iff_toNat_le, UInt8.reduceToNat, Bool.and_eq_true,
      decide_eq_true_eq] at first
    rw [isTail_iff] at second
    refine ⟨.two ?_ ?_ ?_, .inl ?_⟩ <;> simp only [low] <;> omega
  | @three a b c first second third =>
    simp only [UInt8.le_iff_toNat_le, UInt8.reduceToNat, Bool.and_eq_true,
      decide_eq_true_eq] at first
    rw [secondOfThree_iff, isTail_iff] at second
    rw [isTail_iff] at third
    refine ⟨.three ?_ ?_ ?_ ?_, ?_⟩ <;> simp only [low, Nat.isValidChar] <;> omega
  | @four a b c d first second third fourth =>
    simp only [UInt8.le_iff_toNat_le, UInt8.reduceToNat, Bool.and_eq_true,
      decide_eq_true_eq] at first
    rw [secondOfFour_iff, isTail_iff] at second
    rw [isTail_iff] at third fourth
    refine ⟨.four ?_ ?_ ?_ ?_ ?_, ?_⟩ <;> simp only [low, Nat.isValidChar] <;> omega

theorem mapM_id_none (cs : List (Option Char)) : (none :: cs).mapM id = none := rfl

theorem encode_of_spells {bs rest : List UInt8} {n : Nat} {cs : List Char} (h : Spells bs n)
    (ih : ∀ {cs}, decode? rest = some cs → encode cs = rest)
    (hcs : (some (Char.ofNat n) :: scan rest).mapM id = some cs) : encode cs = bs ++ rest := by
  obtain ⟨hbytes, hvalid⟩ := h.encodedAs
  rw [List.mapM_cons, id, Option.bind_eq_bind, Option.bind_some, Option.bind_eq_bind,
    Option.bind_eq_some_iff] at hcs
  obtain ⟨ds, hds, hcs⟩ := hcs
  obtain rfl := Option.some.inj hcs
  rw [encode, List.flatMap_cons, utf8EncodeChar_ofNat hbytes hvalid, ← encode, ih hds]

/-- Induction along the bytes: each character takes the bytes that spell it, and no text comes from
what spells none. -/
theorem encode_of_decode? {bs : List UInt8} {cs : List Char} (h : decode? bs = some cs) :
    encode cs = bs := by
  rw [decode?] at h
  fun_induction scan bs generalizing cs with
  | case1 =>
    cases h
    rfl
  | case2 a bs small ih => exact encode_of_spells (.one small) ih h
  | case4 a _ first b bs second ih => exact encode_of_spells (.two first second) ih h
  | case8 a _ _ first b second c bs third ih =>
    exact encode_of_spells (.three first second third) ih h
  | case14 a _ _ _ first b second c third d bs fourth ih =>
    exact encode_of_spells (.four first second third fourth) ih h
  | _ =>
    rw [mapM_id_none] at h
    cases h

/-- **Bytes are read just when they are the bytes of a text**, and then as that text. -/
theorem decode?_eq_some_iff {bs : List UInt8} {cs : List Char} :
    decode? bs = some cs ↔ bs = encode cs := by
  constructor
  · intro h
    exact (encode_of_decode? h).symm
  · rintro rfl
    exact decode?_encode cs

/-! ## Characters of one byte -/

theorem encode_inj {cs ds : List Char} : encode cs = encode ds ↔ cs = ds := by
  refine ⟨fun h => ?_, congrArg encode⟩
  rw [← Option.some_inj, ← decode?_encode cs, ← decode?_encode ds, h]

theorem encode_cons (c : Char) (cs : List Char) :
    encode (c :: cs) = String.utf8EncodeChar c ++ encode cs := List.flatMap_cons

section

variable {c : Char} {b : UInt8} (h : String.utf8EncodeChar c = [b])
include h

/-- The byte of a character of one byte is in no other character: the bytes of longer ones are
large. -/
theorem mem_utf8EncodeChar_iff {d : Char} : b ∈ String.utf8EncodeChar d ↔ c = d := by
  constructor
  · intro hmem
    have hc := encodedAs c
    have hd := encodedAs d
    rw [h] at hc
    generalize String.utf8EncodeChar d = bs at hmem hd
    cases hc with
    | one small first =>
      cases hd <;> simp only [List.mem_cons, List.not_mem_nil, or_false, ← UInt8.toNat_inj] at hmem
      case one first' => exact Char.toNat_inj.1 (by omega)
      all_goals omega
  · rintro rfl
    simp [h]

theorem mem_encode_iff {cs : List Char} : b ∈ encode cs ↔ c ∈ cs := by
  rw [encode, List.mem_flatMap]
  constructor
  · rintro ⟨d, hd, hb⟩
    rwa [(mem_utf8EncodeChar_iff h).1 hb]
  · intro hc
    exact ⟨c, hc, (mem_utf8EncodeChar_iff h).2 rfl⟩

theorem encode_append_cons (cs ds : List Char) :
    encode (cs ++ c :: ds) = encode cs ++ b :: encode ds := by
  rw [encode_append, encode_cons, h, List.singleton_append]

theorem encode_join (ps : List (List Char)) : encode (join [c] ps) = join [b] (ps.map encode) := by
  induction ps with
  | nil => rfl
  | cons p ps ih =>
    cases ps with
    | nil => rfl
    | cons q ps =>
      show encode (p ++ [c] ++ join [c] (q :: ps)) =
        encode p ++ [b] ++ join [b] ((q :: ps).map encode)
      rw [List.append_assoc, List.singleton_append, encode_append_cons h, ih, List.append_assoc,
        List.singleton_append]

/-- **A text and its bytes are cut alike.** -/
theorem splitOn_encode (cs : List Char) : splitOn b (encode cs) = (splitOn c cs).map encode := by
  have hpieces : ∀ p ∈ (splitOn c cs).map encode, b ∉ p :=
    List.forall_mem_map.2 fun p hp => by
      rw [mem_encode_iff h]
      exact not_mem_of_mem_splitOn hp
  rw [← splitOn_join (by simpa using splitOn_ne_nil c cs) hpieces, ← encode_join h, join_splitOn]

/-- Joined pieces are a text just when they are the pieces of a text. -/
theorem decode?_join_eq_some_iff {ps : List (List UInt8)} (hne : ps ≠ []) (hps : ∀ p ∈ ps, b ∉ p)
    {cs : List Char} : decode? (join [b] ps) = some cs ↔ ps = (splitOn c cs).map encode := by
  rw [decode?_eq_some_iff]
  constructor
  · intro hjoin
    rw [← splitOn_encode h, ← hjoin, splitOn_join hne hps]
  · rintro rfl
    rw [← encode_join h, join_splitOn]

end

end TestOrchestrator.Text.Utf8
