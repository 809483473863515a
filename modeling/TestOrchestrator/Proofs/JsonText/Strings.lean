import TestOrchestrator.Json.Reader
import TestOrchestrator.Proofs.ReadBack.Encoding
/-!
# Strings in JSON texts

* `Spells text cs` says that characters between quotes are read as the text `cs`, whatever comes
  behind them.
* `spells_escapes` says so of what a text is written as between quotes, and `exists_pieces_quote` of
  the text with its quotes.
-/

namespace TestOrchestrator.Json

open Text.Utf8

variable {cs ds text more : List Char} {c : Char} {b : UInt8} {bs rest : List UInt8}

/-! ## Pieces -/

/-- Puts pieces before those that are read next. -/
def after (ps : List Piece) (r : List Piece × List UInt8) : List Piece × List UInt8 :=
  (ps ++ r.1, r.2)

theorem map_after_nil (r : Option (List Piece × List UInt8)) : r.map (after []) = r := by
  cases r <;> rfl

theorem pieces?_byte (hquote : b ≠ 0x22) (hslash : b ≠ 0x5C) (hlarge : ¬b < 0x20)
    (bs : List UInt8) :
    pieces? (b :: bs) = (pieces? bs).map (after [.byte b]) := by
  rw [pieces?.eq_def]
  simp only [if_neg hquote, if_neg hslash, if_neg hlarge]
  rfl

theorem pieces?_bytes (h : ∀ b ∈ bs, b ≠ 0x22 ∧ b ≠ 0x5C ∧ ¬b < 0x20) (rest : List UInt8) :
    pieces? (bs ++ rest) = (pieces? rest).map (after (bs.map .byte)) := by
  induction bs with
  | nil => exact (map_after_nil (pieces? rest)).symm
  | cons b bs ih =>
    obtain ⟨⟨hquote, hslash, hlarge⟩, hbs⟩ := List.forall_mem_cons.1 h
    rw [List.cons_append, pieces?_byte hquote hslash hlarge, ih hbs, Option.map_map]
    rfl

theorem bytes?_bytes (bs : List UInt8) (ps : List Piece) :
    Piece.bytes? (bs.map .byte ++ ps) = (Piece.bytes? ps).map (bs ++ ·) := by
  induction bs with
  | nil => exact Option.map_id'.symm
  | cons b bs ih =>
    rw [List.map_cons, List.cons_append, Piece.bytes?, ih, Option.map_map]
    rfl

/-! ## What characters between quotes spell -/

/-- Characters between quotes are read as a text. -/
def Spells (text cs : List Char) : Prop :=
  ∃ ps, (∀ rest, pieces? (encode text ++ rest) = (pieces? rest).map (after ps)) ∧
    ∀ qs, Piece.bytes? (ps ++ qs) = (Piece.bytes? qs).map (encode cs ++ ·)

theorem Spells.nil : Spells [] [] :=
  ⟨[], fun rest => (map_after_nil (pieces? rest)).symm, fun _ => Option.map_id'.symm⟩

theorem Spells.append (h : Spells text cs) (hmore : Spells more ds) :
    Spells (text ++ more) (cs ++ ds) := by
  obtain ⟨ps, hpieces, hbytes⟩ := h
  obtain ⟨qs, hpieces', hbytes'⟩ := hmore
  refine ⟨ps ++ qs, fun rest => ?_, fun rs => ?_⟩
  · rw [encode_append, List.append_assoc, hpieces, hpieces', Option.map_map]
    refine congrArg (Option.map · (pieces? rest)) (funext fun r => ?_)
    simp [after]
  · rw [List.append_assoc, hbytes, hbytes', Option.map_map, encode_append]
    refine congrArg (Option.map · (Piece.bytes? rs)) (funext fun r => ?_)
    simp

/-- A character that is written as it is. -/
theorem spells_self (hquote : c ≠ '"') (hslash : c ≠ '\\') (hlarge : ¬c.toNat < 0x20) :
    Spells [c] [c] := by
  have hquote' : c.toNat ≠ 34 := fun h => hquote (by rw [← Char.ofNat_toNat c, h])
  have hslash' : c.toNat ≠ 92 := fun h => hslash (by rw [← Char.ofNat_toNat c, h])
  have hplain : ∀ b ∈ String.utf8EncodeChar c, b ≠ 0x22 ∧ b ≠ 0x5C ∧ ¬b < 0x20 := by
    have hnumber : ∀ b : UInt8, b.toNat = c.toNat ∨ 0x80 ≤ b.toNat → b ≠ 0x22 ∧ b ≠ 0x5C ∧
        ¬b < 0x20 := by
      intro b hb
      refine ⟨?_, ?_, ?_⟩
      · rintro rfl
        simp only [UInt8.reduceToNat] at hb
        omega
      · rintro rfl
        simp only [UInt8.reduceToNat] at hb
        omega
      · rw [UInt8.lt_iff_toNat_lt]
        simp only [UInt8.reduceToNat]
        omega
    have henc := encodedAs c
    generalize String.utf8EncodeChar c = bs at henc
    cases henc with
    | one small first => exact List.forall_mem_singleton.2 (hnumber _ (.inl first))
    | two range first second =>
      simp only [List.forall_mem_cons]
      exact ⟨hnumber _ (.inr (by omega)), hnumber _ (.inr (by omega)), nofun⟩
    | three range first second third =>
      simp only [List.forall_mem_cons]
      exact ⟨hnumber _ (.inr (by omega)), hnumber _ (.inr (by omega)),
        hnumber _ (.inr (by omega)), nofun⟩
    | four range first second third fourth =>
      simp only [List.forall_mem_cons]
      exact ⟨hnumber _ (.inr (by omega)), hnumber _ (.inr (by omega)), hnumber _ (.inr (by omega)),
        hnumber _ (.inr (by omega)), nofun⟩
  have hencode : encode [c] = String.utf8EncodeChar c := List.append_nil _
  refine ⟨(String.utf8EncodeChar c).map .byte, fun rest => ?_, fun qs => ?_⟩
  · rw [hencode, pieces?_bytes hplain]
  · rw [hencode, bytes?_bytes]

theorem hexValue?_hexDigit : ∀ k < 16, (String.utf8EncodeChar (hexDigit k)).map hexValue? =
    [some k] := by
  decide

theorem exists_hexByte {k : Nat} (hk : k < 16) :
    ∃ b, (∀ cs, encode (hexDigit k :: cs) = b :: encode cs) ∧ hexValue? b = some k := by
  have hvalue := hexValue?_hexDigit k hk
  cases hbytes : String.utf8EncodeChar (hexDigit k) with
  | nil =>
    rw [hbytes] at hvalue
    cases hvalue
  | cons b bs =>
    rw [hbytes, List.map_cons, List.cons.injEq, List.map_eq_nil_iff] at hvalue
    obtain ⟨hb, rfl⟩ := hvalue
    exact ⟨b, fun cs => by rw [encode, List.flatMap_cons, hbytes]; rfl, hb⟩

/-- A character by a mark behind a backslash. -/
theorem spells_mark {d : Char} {e : UInt8} (hd : encode [d] = [e]) (hc : encode [c] = [b])
    (he : escape? e = some b) (hunit : e ≠ 0x75) : Spells ['\\', d] [c] := by
  have hencode : ∀ rest, encode ['\\', d] ++ rest = 0x5C :: e :: rest := by
    intro rest
    show 0x5C :: (encode [d] ++ rest) = _
    rw [hd]
    rfl
  refine ⟨[.byte b], fun rest => ?_, fun qs => ?_⟩
  · rw [hencode, pieces?.eq_def]
    simp only [if_neg hunit, he]
    rfl
  · rw [hc]
    rfl

/-- A control character by its number. -/
theorem spells_unit (h : c.toNat < 0x20) :
    Spells ['\\', 'u', '0', '0', hexDigit (c.toNat / 16), hexDigit c.toNat] [c] := by
  have hmod : hexDigit c.toNat = hexDigit (c.toNat % 16) := by
    rw [hexDigit, hexDigit, Nat.mod_mod]
  obtain ⟨x, hx, hxvalue⟩ := exists_hexByte (show c.toNat / 16 < 16 by omega)
  obtain ⟨y, hy, hyvalue⟩ := exists_hexByte (show c.toNat % 16 < 16 by omega)
  have hencode : ∀ rest, encode ['\\', 'u', '0', '0', hexDigit (c.toNat / 16), hexDigit c.toNat] ++
      rest =
      0x5C :: 0x75 :: 0x30 :: 0x30 :: x :: y :: rest := by
    intro rest
    show 0x5C :: 0x75 :: 0x30 :: 0x30 ::
      (encode [hexDigit (c.toNat / 16), hexDigit c.toNat] ++ rest) = _
    rw [hx, hmod, hy]
    rfl
  have hnumber : ((0 * 16 + 0) * 16 + c.toNat / 16) * 16 + c.toNat % 16 = c.toNat := by omega
  refine ⟨[.unit c.toNat], fun rest => ?_, fun qs => ?_⟩
  · have hzero : hexValue? 0x30 = some 0 := rfl
    rw [hencode, pieces?.eq_def]
    simp only [hzero, hxvalue, hyvalue, hnumber]
    rfl
  · have hlow : (decide (0xDC00 ≤ c.toNat) && decide (c.toNat ≤ 0xDFFF)) = false := by
      simp only [Bool.and_eq_false_iff, decide_eq_false_iff_not]
      omega
    have hhigh : (decide (0xD800 ≤ c.toNat) && decide (c.toNat ≤ 0xDBFF)) = false := by
      simp only [Bool.and_eq_false_iff, decide_eq_false_iff_not]
      omega
    rw [List.singleton_append, Piece.bytes?.eq_def]
    simp only [hlow, hhigh, Char.ofNat_toNat, encode, List.flatMap_cons, List.flatMap_nil,
      List.append_nil, Bool.false_eq_true, if_false]

theorem spells_escapeChar (c : Char) : Spells (escapeChar c) [c] := by
  have hchar : ∀ n, c.toNat = n → c = Char.ofNat n := by
    rintro n rfl
    exact (Char.ofNat_toNat c).symm
  rw [escapeChar]
  split_ifs with hquote hslash hsmall
  · rw [hquote]
    exact spells_mark rfl rfl rfl (by decide)
  · rw [hslash]
    exact spells_mark rfl rfl rfl (by decide)
  · split
    · rename_i h
      rw [hchar _ h]
      exact spells_mark rfl rfl rfl (by decide)
    · rename_i h
      rw [hchar _ h]
      exact spells_mark rfl rfl rfl (by decide)
    · rename_i h
      rw [hchar _ h]
      exact spells_mark rfl rfl rfl (by decide)
    · rename_i h
      rw [hchar _ h]
      exact spells_mark rfl rfl rfl (by decide)
    · rename_i h
      rw [hchar _ h]
      exact spells_mark rfl rfl rfl (by decide)
    · exact spells_unit hsmall
  · exact spells_self hquote hslash hsmall

theorem spells_escapes (cs : List Char) : Spells (cs.flatMap escapeChar) cs := by
  induction cs with
  | nil => exact .nil
  | cons c cs ih => exact (spells_escapeChar c).append ih

/-- **A text in quotes is read as that text.** -/
theorem exists_pieces_quote (s : String) :
    ∃ ps, Piece.text? ps = some s ∧
      ∀ rest, pieces? (encode (s.toList.flatMap escapeChar ++ ['"']) ++ rest) =
        some (ps, rest) := by
  obtain ⟨ps, hpieces, hbytes⟩ := spells_escapes s.toList
  refine ⟨ps, ?_, fun rest => ?_⟩
  · have hall := hbytes []
    rw [List.append_nil, Piece.bytes?, Option.map_some, List.append_nil] at hall
    rw [Piece.text?, hall, Option.bind_some, decode?_encode, Option.map_some, String.ofList_toList]
  · have hend : pieces? (encode ['"'] ++ rest) = some ([], rest) := by
      show pieces? (0x22 :: rest) = _
      rw [pieces?.eq_def]
      rfl
    rw [encode_append, List.append_assoc, hpieces, hend, Option.map_some, after, List.append_nil]

end TestOrchestrator.Json
