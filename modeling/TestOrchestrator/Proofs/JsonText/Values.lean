import TestOrchestrator.Proofs.JsonText.Numerals
import TestOrchestrator.Proofs.JsonText.Strings
/-!
# JSON values from their texts

* `Json.reread j` is the value that comes back from the text of `j`: doubles may have moved, all
  else is the same.
* `Reads cs j` says that a text is read as a value, whatever comes behind it.
* `Spacing` is the white space of a text, and `reads_array` and `reads_object` read texts with any
  white space.
* `read?_pretty` and `read?_render`: the text of any value is read, on many lines or on one.
-/

namespace TestOrchestrator.Json

open Text.Utf8 Decimal

variable {cs : List Char} {j k : Json} {js : List Json} {ms : List (String × Json)} {name : String}
  {fuel : Nat}
  {bs bs' rest : List UInt8} {n : Number}

/-- Induction over a value, with the claim for every item of an array and every member of an
object. -/
theorem induction {P : Json → Prop} (null : P .null) (bool : ∀ b, P (.bool b))
    (int : ∀ n, P (.int n))
    (float : ∀ x, P (.float x)) (str : ∀ s, P (.str s))
    (arr : ∀ items, (∀ j ∈ items, P j) → P (.arr items))
    (obj : ∀ members : List (String × Json), (∀ m ∈ members, P m.2) → P (.obj members))
    (unreadable : P .unreadable) (j : Json) : P j :=
  Json.rec (motive_1 := P) (motive_2 := fun items => ∀ j ∈ items, P j)
    (motive_3 := fun members => ∀ m ∈ members, P m.2) (motive_4 := fun m => P m.2)
    null bool int float str arr obj unreadable (by simp)
    (fun _ _ hj hjs => List.forall_mem_cons.2 ⟨hj, hjs⟩) (by simp)
    (fun _ _ hm hms => List.forall_mem_cons.2 ⟨hm, hms⟩) (fun _ _ hj => hj) j

/-! ## What comes back -/

/-- The value of a number as it is written. -/
def ofNumber (n : Number) : Json := n.value?.getD .unreadable

mutual

/-- The value that comes back from the text of a value. -/
def reread : Json → Json
  | int n => ofNumber (Number.ofInt n)
  | float (.finite neg m e) => ofNumber (Number.ofDouble neg m e)
  | arr items => .arr (rereadItems items)
  | obj members => .obj (rereadMembers members)
  | str s => .str s
  | bool b => .bool b
  | _ => .null

def rereadItems : List Json → List Json
  | [] => []
  | j :: js => reread j :: rereadItems js

def rereadMembers : List (String × Json) → List (String × Json)
  | [] => []
  | (name, j) :: ms => (name, reread j) :: rereadMembers ms

end

theorem rereadItems_eq (js : List Json) : rereadItems js = js.map reread := by
  induction js with
  | nil => rfl
  | cons j js ih => rw [rereadItems, ih, List.map_cons]

theorem rereadMembers_eq (ms : List (String × Json)) : rereadMembers ms = ms.map fun m =>
  (m.1, reread m.2) := by
  induction ms with
  | nil => rfl
  | cons m ms ih => rw [rereadMembers, ih, List.map_cons]

theorem reread_count {n : Nat} (h : n < wordLimit) : reread (.int n) = .int n := by
  rw [reread, ofNumber, value?_ofInt h, Option.getD_some]

/-! ## Leaves -/

/-- A text is read as a value, whatever comes behind it. -/
def Reads (cs : List Char) (j : Json) : Prop :=
  ∀ fuel rest, cs.length ≤ fuel → Stops rest → value? fuel (encode cs ++ rest) = some (j, rest)

/-- A text is read as soon as there is any fuel. -/
theorem reads_of_succ {c : Char}
    (h : ∀ fuel rest, Stops rest → value? (fuel + 1) (encode (c :: cs) ++ rest) = some (j, rest)) :
    Reads (c :: cs) j := by
  rintro fuel rest hfuel hrest
  obtain ⟨fuel, rfl⟩ : ∃ k, fuel = k + 1 := ⟨fuel - 1, by rw [List.length_cons] at hfuel; omega⟩
  exact h fuel rest hrest

theorem value?_digit {b : UInt8} {d : Char} (hb : isDigit b = true) (hascii : ascii b = d)
    (hd : d.isDigit = true) :
    value? (fuel + 1) (b :: bs) = (number? false (b :: bs)).map fun (n, rest) =>
      (ofNumber n, rest) := by
  have hspace : ¬isSpace b = true := by
    intro h
    simp only [isSpace, Bool.or_eq_true, decide_eq_true_eq] at h
    rcases h with ((rfl | rfl) | rfl) | rfl <;> cases hb
  rw [value?, List.dropWhile_cons_of_neg hspace]
  simp only [hascii]
  split
  all_goals first | rfl | cases hd

theorem reads_number (h : n.Formed) :
    Reads (if n.neg then '-' :: n.text else n.text) (ofNumber n) := by
  obtain ⟨d, ds, hwhole, -, hdigits⟩ := h.whole
  have htext : n.text = d :: (ds ++ (fractionText n.fraction ++ exponentText n.exponent)) := by
    rw [Number.text, hwhole, List.cons_append]
  cases hneg : n.neg with
  | true =>
    refine reads_of_succ fun fuel rest hrest => ?_
    have hnumber := number?_text h hrest
    rw [hneg] at hnumber
    show (number? true (encode n.text ++ rest)).map (fun r => (ofNumber r.1, r.2)) = _
    rw [hnumber, Option.map_some]
  | false =>
    rw [if_neg Bool.false_ne_true, htext]
    refine reads_of_succ fun fuel rest hrest => ?_
    have hnumber := number?_text h hrest
    have hd := hdigits d List.mem_cons_self
    obtain ⟨b, hb, hascii, hencode⟩ := exists_digit hd
    rw [hneg, htext, hencode, List.cons_append] at hnumber
    rw [hencode, List.cons_append, value?_digit hb hascii hd, hnumber, Option.map_some]

theorem reads_str (s : String) : Reads (quote s) (.str s) := by
  obtain ⟨ps, htext, hpieces⟩ := exists_pieces_quote s
  refine reads_of_succ fun fuel rest _ => ?_
  show (pieces? (encode (s.toList.flatMap escapeChar ++ ['"']) ++ rest)).map
    (fun r => ((Piece.text? r.1).elim Json.unreadable Json.str, r.2)) = _
  rw [hpieces, Option.map_some]
  simp only [htext, Option.elim_some]

theorem reads_null : Reads ['n', 'u', 'l', 'l'] .null := reads_of_succ fun _ _ _ => rfl

theorem reads_bool (b : Bool) : Reads (renderLeaf (.bool b)) (.bool b) := by
  cases b
  · exact reads_of_succ fun _ _ _ => rfl
  · exact reads_of_succ fun _ _ _ => rfl

theorem reads_int (n : Int) : Reads (renderLeaf (.int n)) (reread (.int n)) := by
  have hnumber := reads_number (formed_ofInt n)
  rw [text_ofInt] at hnumber
  have htext : renderLeaf (.int n) =
      if (Number.ofInt n).neg then '-' :: digitsOf n.natAbs else digitsOf n.natAbs := by
    rw [Number.ofInt]
    by_cases hn : n < 0 <;> simp [renderLeaf, hn]
  rw [htext]
  exact hnumber

theorem reads_float (x : Binary64) : Reads (renderLeaf (.float x)) (reread (.float x)) := by
  cases x with
  | finite neg m e =>
    have hnumber := reads_number (formed_ofDouble neg m e)
    rw [neg_ofDouble, ← text_ofDouble] at hnumber
    exact hnumber
  | infinite neg =>
    have htext : renderLeaf (.float (.infinite neg)) = ['n', 'u', 'l', 'l'] := by
      cases neg <;> rfl
    rw [htext]
    exact reads_null
  | nan => exact reads_null

/-! ## White space -/

theorem value?_congr (h : bs.dropWhile isSpace = bs'.dropWhile isSpace) :
    value? fuel bs = value? fuel bs' := by
  cases fuel with
  | zero => rfl
  | succ fuel => rw [value?, value?, h]

theorem items?_congr (h : bs.dropWhile isSpace = bs'.dropWhile isSpace) :
    items? fuel bs = items? fuel bs' := by
  cases fuel with
  | zero => rfl
  | succ fuel => rw [items?, items?, value?_congr h]

theorem members?_congr (h : bs.dropWhile isSpace = bs'.dropWhile isSpace) :
    members? fuel bs = members? fuel bs' := by
  cases fuel with
  | zero => rfl
  | succ fuel => rw [members?, members?, h]

theorem dropWhile_dropWhile (bs : List UInt8) :
    (bs.dropWhile isSpace).dropWhile isSpace = bs.dropWhile isSpace := by
  induction bs with
  | nil => rfl
  | cons b bs ih =>
    by_cases hb : isSpace b = true
    · rw [List.dropWhile_cons_of_pos hb, ih]
    · rw [List.dropWhile_cons_of_neg hb, List.dropWhile_cons_of_neg hb]

/-- White space that may stand in texts of values. -/
def Gap (cs : List Char) : Prop := ∀ c ∈ cs, c = ' ' ∨ c = '\n'

theorem gap_newLine (level : Nat) : Gap (newLine level) := by
  intro c hc
  rcases List.mem_cons.1 hc with rfl | hc
  · exact .inr rfl
  · exact .inl (List.eq_of_mem_replicate hc)

theorem Gap.dropWhile (h : Gap cs) (bs : List UInt8) :
    (encode cs ++ bs).dropWhile isSpace = bs.dropWhile isSpace := by
  induction cs with
  | nil => rfl
  | cons c cs ih =>
    obtain ⟨hc, hcs⟩ := List.forall_mem_cons.1 h
    rcases hc with rfl | rfl
    · exact ih hcs
    · exact ih hcs

theorem Gap.stops (h : Gap cs) (hrest : Stops rest) : Stops (encode cs ++ rest) := by
  cases cs with
  | nil => exact hrest
  | cons c cs =>
    rcases h c List.mem_cons_self with rfl | rfl
    · rintro b ⟨⟩
      decide
    · rintro b ⟨⟩
      decide

theorem Reads.gap {gap : List Char} (h : Reads cs j) (hgap : Gap gap) : Reads (gap ++ cs) j := by
  intro fuel rest hfuel hrest
  rw [List.length_append] at hfuel
  rw [encode_append, List.append_assoc, value?_congr (hgap.dropWhile _)]
  exact h fuel rest (by omega) hrest

/-! ## Collections -/

theorem value?_bracket (fuel : Nat) (bs : List UInt8) : value? (fuel + 1) (0x5B :: bs) =
    match bs.dropWhile isSpace with
    | 0x5D :: rest => some (.arr [], rest)
    | bs => (items? fuel bs).map fun r => (.arr r.1, r.2) := rfl

theorem value?_brace (fuel : Nat) (bs : List UInt8) : value? (fuel + 1) (0x7B :: bs) =
    match bs.dropWhile isSpace with
    | 0x7D :: rest => some (.obj [], rest)
    | bs => (members? fuel bs).map fun r => (ofMembers r.1, r.2) := rfl

theorem value?_of_items? (h : items? fuel bs = some (js, rest)) :
    value? (fuel + 1) (0x5B :: bs) = some (.arr js, rest) := by
  have hdrop : items? fuel (bs.dropWhile isSpace) = some (js, rest) := by
    rw [items?_congr (dropWhile_dropWhile bs), h]
  rw [value?_bracket]
  split
  · rename_i heq
    rw [heq] at hdrop
    obtain _ | _ | fuel := fuel <;> cases hdrop
  · rw [hdrop, Option.map_some]

theorem value?_of_members? {ms : List (Option String × Json)}
    (h : members? fuel bs = some (ms, rest)) :
    value? (fuel + 1) (0x7B :: bs) = some (ofMembers ms, rest) := by
  have hdrop : members? fuel (bs.dropWhile isSpace) = some (ms, rest) := by
    rw [members?_congr (dropWhile_dropWhile bs), h]
  rw [value?_brace]
  split
  · rename_i heq
    rw [heq] at hdrop
    obtain _ | fuel := fuel <;> cases hdrop
  · rw [hdrop, Option.map_some]

/-- The white space of a text: before every item or member, between a name and its value, and at the
end. -/
structure Spacing where
  item : List Char
  value : List Char
  close : List Char
  gap_item : Gap item
  gap_value : Gap value
  gap_close : Gap close

namespace Spacing

variable (s : Spacing) (text : Json → List Char)

/-- The items after the first one. -/
def moreItems (js : List Json) : List Char := js.flatMap fun j => ',' :: s.item ++ text j

/-- The members after the first one. -/
def moreMembers (ms : List (String × Json)) : List Char :=
  ms.flatMap fun m => ',' :: s.item ++ quote m.1 ++ ':' :: s.value ++ text m.2

/-- The text of an array, by the texts of its items. -/
def array (j : Json) (js : List Json) : List Char :=
  '[' :: s.item ++ text j ++ s.moreItems text js ++ s.close ++ [']']

/-- The text of an object, by the texts of its values. -/
def object (name : String) (j : Json) (ms : List (String × Json)) : List Char :=
  '\x7b' :: s.item ++ quote name ++ ':' :: s.value ++ text j ++ s.moreMembers text ms ++ s.close ++
    ['\x7d']

end Spacing

section Spaced

variable {s : Spacing} {text : Json → List Char}

/-- The items of an array from the first one on. -/
theorem items?_spaced (hjs : ∀ j ∈ js, Reads (text j) (reread j)) (h : Reads cs k)
    (hfuel : cs.length + (s.moreItems text js).length + 1 ≤ fuel) (rest : List UInt8) :
    items? fuel (encode (cs ++ s.moreItems text js) ++ (encode s.close ++ 0x5D :: rest)) =
      some (k :: js.map reread, rest) := by
  induction js generalizing cs k fuel with
  | nil =>
    obtain ⟨fuel, rfl⟩ : ∃ i, fuel = i + 1 := ⟨fuel - 1, by omega⟩
    have hend : Stops (0x5D :: rest) := by
      rintro b ⟨⟩
      decide
    rw [Spacing.moreItems, List.flatMap_nil, List.append_nil, items?,
      h fuel _ (by omega) (s.gap_close.stops hend)]
    simp only [Option.bind_eq_bind, Option.bind_some, s.gap_close.dropWhile]
    rfl
  | cons j js ih =>
    obtain ⟨hj, hjs⟩ := List.forall_mem_cons.1 hjs
    obtain ⟨fuel, rfl⟩ : ∃ i, fuel = i + 1 := ⟨fuel - 1, by omega⟩
    have hmore : s.moreItems text (j :: js) =
        ',' :: ((s.item ++ text j) ++ s.moreItems text js) := by
      simp only [Spacing.moreItems, List.flatMap_cons, List.cons_append]
    rw [hmore] at hfuel ⊢
    simp only [List.length_cons, List.length_append] at hfuel
    have hsplit : encode (cs ++ ',' :: ((s.item ++ text j) ++ s.moreItems text js)) ++
        (encode s.close ++ 0x5D :: rest) =
        encode cs ++ 0x2C :: (encode ((s.item ++ text j) ++ s.moreItems text js) ++
          (encode s.close ++ 0x5D :: rest)) := by
      rw [encode_append, List.append_assoc]
      rfl
    rw [hsplit, items?, h fuel _ (by omega) (by rintro b ⟨⟩; decide)]
    show (items? fuel _).map (fun r => (k :: r.1, r.2)) = _
    rw [ih hjs (hj.gap s.gap_item) (by rw [List.length_append]; omega), Option.map_some,
      List.map_cons]

/-- A member with its name. -/
theorem members?_member (s : Spacing) (name : String) (fuel : Nat) (bs : List UInt8) :
    members? (fuel + 1) (encode (s.item ++ quote name) ++ 0x3A :: (encode s.value ++ bs)) =
      (value? fuel bs).bind fun (j, bs) =>
        match bs.dropWhile isSpace with
        | 0x2C :: bs => (members? fuel bs).map fun (ms, rest) => ((some name, j) :: ms, rest)
        | 0x7D :: rest => some ([(some name, j)], rest)
        | _ => none := by
  obtain ⟨ps, htext, hpieces⟩ := exists_pieces_quote name
  have hdrop : (encode (s.item ++ quote name) ++ 0x3A :: (encode s.value ++ bs)).dropWhile isSpace =
      0x22 :: (encode (name.toList.flatMap escapeChar ++ ['"']) ++
        0x3A :: (encode s.value ++ bs)) := by
    rw [encode_append, List.append_assoc, s.gap_item.dropWhile]
    rfl
  have hvalue : value? fuel (encode s.value ++ bs) = value? fuel bs :=
    value?_congr (s.gap_value.dropWhile bs)
  rw [members?, hdrop]
  simp only [Option.bind_eq_bind, hpieces, Option.bind_some, htext]
  exact congrArg (Option.bind · _) hvalue

/-- The members of an object from the first one on. -/
theorem members?_spaced (hms : ∀ m ∈ ms, Reads (text m.2) (reread m.2)) (h : Reads cs k)
    (hfuel : cs.length + (s.moreMembers text ms).length + 1 ≤ fuel) (rest : List UInt8) :
    members? fuel (encode (s.item ++ quote name) ++ 0x3A :: (encode s.value ++
        (encode (cs ++ s.moreMembers text ms) ++ (encode s.close ++ 0x7D :: rest)))) =
      some ((some name, k) :: ms.map fun m => (some m.1, reread m.2), rest) := by
  induction ms generalizing cs k name fuel with
  | nil =>
    obtain ⟨fuel, rfl⟩ : ∃ i, fuel = i + 1 := ⟨fuel - 1, by omega⟩
    have hend : Stops (0x7D :: rest) := by
      rintro b ⟨⟩
      decide
    rw [members?_member, Spacing.moreMembers, List.flatMap_nil, List.append_nil,
      h fuel _ (by omega) (s.gap_close.stops hend)]
    simp only [Option.bind_some, s.gap_close.dropWhile]
    rfl
  | cons m ms ih =>
    obtain ⟨next, j⟩ := m
    obtain ⟨hj, hms⟩ := List.forall_mem_cons.1 hms
    replace hj : Reads (text j) (reread j) := hj
    obtain ⟨fuel, rfl⟩ : ∃ i, fuel = i + 1 := ⟨fuel - 1, by omega⟩
    have hmore : s.moreMembers text ((next, j) :: ms) =
        ',' :: ((s.item ++ quote next) ++ ':' :: (s.value ++
        (text j ++ s.moreMembers text ms))) := by
      simp only [Spacing.moreMembers, List.flatMap_cons, List.cons_append, List.append_assoc]
    rw [hmore] at hfuel ⊢
    simp only [List.length_cons, List.length_append] at hfuel
    have hsplit :
        encode (cs ++ ',' :: ((s.item ++ quote next) ++
          ':' :: (s.value ++ (text j ++ s.moreMembers text ms)))) ++
        (encode s.close ++ 0x7D :: rest) =
        encode cs ++ 0x2C :: (encode (s.item ++ quote next) ++ 0x3A :: (encode s.value ++
          (encode (text j ++ s.moreMembers text ms) ++ (encode s.close ++ 0x7D :: rest)))) := by
      rw [encode_append, List.append_assoc]
      show encode cs ++ 0x2C :: (encode ((s.item ++ quote next) ++ _) ++ _) = _
      rw [encode_append, List.append_assoc]
      show encode cs ++ 0x2C :: (encode _ ++ 0x3A :: (encode (s.value ++ _) ++ _)) = _
      rw [encode_append s.value, List.append_assoc]
    rw [members?_member, hsplit, h fuel _ (by omega) (by rintro b ⟨⟩; decide)]
    show (members? fuel _).map (fun r => ((some name, k) :: r.1, r.2)) = _
    rw [ih hms hj (by omega), Option.map_some, List.map_cons]

/-- Members that have their names are all there. -/
theorem mapM_named (ms : List (String × Json)) :
    (ms.map fun m => (some m.1, m.2)).mapM (fun (name, j) => name.map (·, j)) = some ms := by
  induction ms with
  | nil => rfl
  | cons m ms ih =>
    rw [List.map_cons, List.mapM_cons, ih]
    rfl

theorem ofMembers_map (ms : List (String × Json)) :
    ofMembers (ms.map fun m => (some m.1, m.2)) = .obj ms := by
  rw [ofMembers, mapM_named]

theorem reads_array (hj : Reads (text j) (reread j)) (hjs : ∀ j ∈ js, Reads (text j) (reread j)) :
    Reads (s.array text j js) (reread (.arr (j :: js))) := by
  have htext : s.array text j js =
      '[' :: (((s.item ++ text j) ++ s.moreItems text js) ++ (s.close ++ [']'])) := by
    simp only [Spacing.array, List.append_assoc, List.cons_append]
  intro fuel rest hfuel _
  rw [htext] at hfuel ⊢
  simp only [List.length_cons, List.length_append] at hfuel
  obtain ⟨fuel, rfl⟩ : ∃ i, fuel = i + 1 := ⟨fuel - 1, by omega⟩
  have hroom : (s.item ++ text j).length + (s.moreItems text js).length + 1 ≤ fuel := by
    rw [List.length_append]
    omega
  have hitems := items?_spaced hjs (hj.gap s.gap_item) hroom rest
  rw [reread, rereadItems, rereadItems_eq, ← value?_of_items? hitems]
  show value? (fuel + 1) (0x5B :: (encode (_ ++ (s.close ++ [']'])) ++ rest)) = _
  rw [encode_append, encode_append s.close, List.append_assoc, List.append_assoc (encode s.close)]
  rfl

theorem reads_object (hj : Reads (text j) (reread j))
    (hms : ∀ m ∈ ms, Reads (text m.2) (reread m.2)) :
    Reads (s.object text name j ms) (reread (.obj ((name, j) :: ms))) := by
  have htext : s.object text name j ms = '\x7b' :: ((s.item ++ quote name) ++ ':' :: (s.value ++
      ((text j ++ s.moreMembers text ms) ++ (s.close ++ ['\x7d'])))) := by
    simp only [Spacing.object, List.append_assoc, List.cons_append]
  have hmembers : reread (.obj ((name, j) :: ms)) =
      ofMembers ((some name, reread j) :: ms.map fun m => (some m.1, reread m.2)) := by
    rw [reread, rereadMembers, rereadMembers_eq, ← ofMembers_map, List.map_cons, List.map_map]
    rfl
  intro fuel rest hfuel _
  rw [htext] at hfuel ⊢
  simp only [List.length_cons, List.length_append] at hfuel
  obtain ⟨fuel, rfl⟩ : ∃ i, fuel = i + 1 := ⟨fuel - 1, by omega⟩
  have hroom : (text j).length + (s.moreMembers text ms).length + 1 ≤ fuel := by omega
  have hread : members? fuel (encode (s.item ++ quote name) ++ _) = _ :=
    members?_spaced hms hj hroom rest
  rw [hmembers, ← value?_of_members? hread]
  show value? (fuel + 1) (0x7B :: (encode ((s.item ++ quote name) ++ _) ++ rest)) = _
  rw [encode_append, List.append_assoc]
  show value? (fuel + 1) (0x7B :: (encode _ ++ 0x3A :: (encode (s.value ++ _) ++ rest))) = _
  rw [encode_append s.value, encode_append (text j ++ _), encode_append s.close]
  simp only [List.append_assoc]
  rfl

end Spaced

/-! ## Texts on many lines -/

/-- The white space of a text on many lines. -/
def Spacing.pretty (level : Nat) : Spacing where
  item := newLine (level + 1)
  value := [' ']
  close := newLine level
  gap_item := gap_newLine (level + 1)
  gap_value := List.forall_mem_singleton.2 (.inl rfl)
  gap_close := gap_newLine level

theorem prettyChars_arr (level : Nat) (j : Json) (js : List Json) :
    prettyChars level (.arr (j :: js)) =
      (Spacing.pretty level).array (prettyChars (level + 1)) j js := by
  have hmore : prettyItems (level + 1) js =
      (Spacing.pretty level).moreItems (prettyChars (level + 1)) js := by
    induction js with
    | nil => rfl
    | cons j js ih =>
      rw [prettyItems, ih]
      rfl
  rw [prettyChars, hmore]
  rfl

theorem prettyChars_obj (level : Nat) (name : String) (j : Json) (ms : List (String × Json)) :
    prettyChars level (.obj ((name, j) :: ms)) =
      (Spacing.pretty level).object (prettyChars (level + 1)) name j ms := by
  have hmore : prettyMembers (level + 1) ms =
      (Spacing.pretty level).moreMembers (prettyChars (level + 1)) ms := by
    induction ms with
    | nil => rfl
    | cons m ms ih =>
      rw [prettyMembers, ih]
      simp [Spacing.moreMembers, Spacing.pretty]
  rw [prettyChars, hmore]
  simp [Spacing.object, Spacing.pretty]

/-- **The text of a value is read, whatever comes behind it.** -/
theorem reads_pretty (j : Json) (level : Nat) : Reads (prettyChars level j) (reread j) := by
  induction j using induction generalizing level with
  | null => exact reads_null
  | bool b => exact reads_bool b
  | int n => exact reads_int n
  | float x => exact reads_float x
  | str s => exact reads_str s
  | unreadable => exact reads_null
  | arr items ih =>
    cases items with
    | nil => exact reads_of_succ fun _ _ _ => rfl
    | cons j js =>
      obtain ⟨hj, hjs⟩ := List.forall_mem_cons.1 ih
      rw [prettyChars_arr]
      exact reads_array (hj (level + 1)) fun j hj => hjs j hj (level + 1)
  | obj members ih =>
    cases members with
    | nil => exact reads_of_succ fun _ _ _ => rfl
    | cons m ms =>
      obtain ⟨hj, hms⟩ := List.forall_mem_cons.1 ih
      rw [prettyChars_obj]
      exact reads_object (hj (level + 1)) fun m hm => hms m hm (level + 1)

/-! ## Texts on one line -/

/-- No white space. -/
def Spacing.none : Spacing := ⟨[], [], [], List.forall_mem_nil _, List.forall_mem_nil _,
    List.forall_mem_nil _⟩

theorem renderChars_arr (j : Json) (js : List Json) :
    renderChars (.arr (j :: js)) = Spacing.none.array renderChars j js := by
  have hitems : ∀ j, renderItems (j :: js) =
      renderChars j ++ Spacing.none.moreItems renderChars js := by
    induction js with
    | nil => exact fun j => (List.append_nil _).symm
    | cons k js ih =>
      intro j
      rw [renderItems, ih k]
      rfl
  rw [renderChars, hitems]
  simp [Spacing.array, Spacing.none]

theorem renderChars_obj (name : String) (j : Json) (ms : List (String × Json)) :
    renderChars (.obj ((name, j) :: ms)) = Spacing.none.object renderChars name j ms := by
  have hmembers : ∀ name j, renderMembers ((name, j) :: ms) =
      quote name ++ ':' :: renderChars j ++ Spacing.none.moreMembers renderChars ms := by
    induction ms with
    | nil => exact fun _ _ => (List.append_nil _).symm
    | cons m ms ih =>
      intro name j
      rw [renderMembers, ih m.1 m.2]
      simp [Spacing.moreMembers, Spacing.none]
  rw [renderChars, hmembers]
  simp [Spacing.object, Spacing.none]

/-- The text of a value on one line is read, whatever comes behind it. -/
theorem reads_render (j : Json) : Reads (renderChars j) (reread j) := by
  induction j using induction with
  | null => exact reads_null
  | bool b => exact reads_bool b
  | int n => exact reads_int n
  | float x => exact reads_float x
  | str s => exact reads_str s
  | unreadable => exact reads_null
  | arr items ih =>
    cases items with
    | nil => exact reads_of_succ fun _ _ _ => rfl
    | cons j js =>
      obtain ⟨hj, hjs⟩ := List.forall_mem_cons.1 ih
      rw [renderChars_arr]
      exact reads_array hj hjs
  | obj members ih =>
    cases members with
    | nil => exact reads_of_succ fun _ _ _ => rfl
    | cons m ms =>
      obtain ⟨hj, hms⟩ := List.forall_mem_cons.1 ih
      rw [renderChars_obj]
      exact reads_object hj hms

/-! ## Whole texts -/

theorem Reads.read?_eq (h : Reads cs j) : read? (encode cs) = some j := by
  have hlength := length_le_encode cs
  have hread := h (2 * (encode cs).length + 2) [] (by omega) nofun
  rw [List.append_nil] at hread
  rw [read?, hread]
  rfl

/-- **A value on many lines is read from its bytes.** -/
theorem read?_pretty (j : Json) : read? (encode j.pretty.toList) = some (reread j) := by
  rw [pretty, String.toList_ofList]
  exact (reads_pretty j 0).read?_eq

/-- **A value on one line is read from its bytes.** -/
theorem read?_render (j : Json) : read? (encode j.render.toList) = some (reread j) := by
  rw [render, String.toList_ofList]
  exact (reads_render j).read?_eq

end TestOrchestrator.Json
