import TestOrchestrator.Yaml.Value.Quoting
/-!
# The place behind a text

* `Cursor.past c cs` is the place reached from `c` behind the text `cs`; every break goes to a new
  line.
* `Gap.over g s` is a gap with the spaces and breaks `s` behind it; `gap?_eq` says how it is read.
-/

namespace TestOrchestrator.Yaml

namespace Cursor

/-- The place behind a line break. -/
def newLine (c : Cursor) : Cursor :=
  { rest := c.rest.drop 1, line := c.line + 1, index := c.index + 1 }

/-- The place behind a text. -/
def past (c : Cursor) : List Char → Cursor
  | [] => c
  | d :: ds => (if isBreak d then c.newLine else c.skip 1).past ds

variable {c : Cursor} {d : Char} {cs ds rest : List Char}

@[simp] theorem past_nil : c.past [] = c := rfl

theorem past_cons : c.past (d :: ds) = (if isBreak d then c.newLine else c.skip 1).past ds := rfl

theorem past_append : c.past (cs ++ ds) = (c.past cs).past ds := by
  induction cs generalizing c with
  | nil => rfl
  | cons d cs ih => exact ih

theorem rest_past : (c.past cs).rest = c.rest.drop cs.length := by
  induction cs generalizing c with
  | nil => rfl
  | cons d cs ih =>
    rw [past_cons, ih]
    split <;> simp [newLine, skip]

theorem rest_past_of (h : c.rest = cs ++ rest) : (c.past cs).rest = rest := by simp [rest_past, h]

theorem line_past : (c.past cs).line = c.line + cs.countP isBreak := by
  induction cs generalizing c with
  | nil => rfl
  | cons d cs ih =>
    rw [past_cons, ih, List.countP_cons]
    split <;> simp only [newLine, skip] <;> omega

@[simp] theorem skip_zero : c.skip 0 = c := by simp [skip]

theorem skip_add (m n : Nat) : (c.skip m).skip n = c.skip (m + n) := by simp [skip, Nat.add_assoc]

/-- On one line, every character is one column. -/
theorem past_eq_skip (h : cs.any isBreak = false) : c.past cs = c.skip cs.length := by
  induction cs generalizing c with
  | nil => simp
  | cons d cs ih =>
    simp only [List.any_cons, Bool.or_eq_false_iff] at h
    rw [past_cons, if_neg (by simp [h.1]), ih h.2, List.length_cons, Nat.add_comm]
    exact skip_add ..

/-- All breaks but the carriage return are one character long. -/
theorem skipBreak_eq (h : c.rest = d :: rest) (hd : d ≠ '\r') : c.skipBreak = c.newLine := by
  unfold skipBreak newLine
  rw [h]
  split <;> simp_all

theorem past_pad (n : Nat) : c.past (Quoting.pad n) = c.skip n := by
  rw [past_eq_skip (by simp [Quoting.pad, isBreak]), Quoting.pad, List.length_replicate]

/-- The column behind the indentation of a new line. -/
theorem column_past {b : Char} {k : Nat} (hb : isBreak b = true) :
    (c.past (cs ++ (b :: Quoting.pad k))).column = k := by
  rw [past_append, past_cons, if_pos hb, past_pad]
  simp [skip, newLine]

theorem breakText_eq (h : c.rest = d :: rest) :
    c.breakText = if d.toNat = 0x2028 || d.toNat = 0x2029 then [d] else ['\n'] := by
  simp [breakText, h]

end Cursor

/-! ## Gaps -/

/-- Spaces and breaks. -/
def Blank (s : List Char) : Prop := ∀ d ∈ s, d = ' ' ∨ (isBreak d = true ∧ d ≠ '\r')

/-- A text that does not begin with a space, a tab or a break. -/
def Solid (rest : List Char) : Prop := ∀ d ∈ rest.head?, isSpace d = false ∧ isBreak d = false

namespace Scalar

/-- A gap with one more space or break behind it. -/
def Gap.then (g : Gap) (d : Char) : Gap :=
  if isBreak d then g.takeBreak (if d.toNat = 0x2028 || d.toNat = 0x2029 then [d] else ['\n'])
  else if g.broken then g
  else { g with spaces := g.spaces ++ [d] }

/-- A gap with spaces and breaks behind it. -/
def Gap.over (g : Gap) (s : List Char) : Gap := s.foldl Gap.then g

variable {c : Cursor} {d : Char} {s rest : List Char} {g : Gap} {floor fuel : Nat}

theorem Gap.over_cons : g.over (d :: s) = (g.then d).over s := rfl

/-- How a gap is read, up to something else. -/
theorem gap?_eq (hs : Blank s) (hrest : Solid rest) (hc : c.rest = s ++ rest)
    (hfuel : s.length < fuel) :
    gap? floor fuel g c = some (g.over s, c.past s) := by
  induction s generalizing c g fuel with
  | nil =>
    obtain ⟨fuel, rfl⟩ : ∃ k, fuel = k + 1 := ⟨fuel - 1, by omega⟩
    rw [List.nil_append] at hc
    cases rest with
    | nil => simp [gap?, Cursor.head, hc, Gap.over]
    | cons d rest =>
      obtain ⟨hspace, hbreak⟩ := hrest d rfl
      simp [gap?, Cursor.head, hc, hspace, hbreak, Gap.over]
  | cons d s ih =>
    rw [List.length_cons] at hfuel
    obtain ⟨fuel, rfl⟩ : ∃ k, fuel = k + 1 := ⟨fuel - 1, by omega⟩
    have hs' : Blank s := fun e he => hs e (List.mem_cons_of_mem _ he)
    have hhead : c.head = some d := by simp [Cursor.head, hc]
    have hfuel' : s.length < fuel := by omega
    rw [Gap.over_cons, Cursor.past_cons, gap?, hhead]
    rcases hs d List.mem_cons_self with rfl | ⟨hbreak, hreturn⟩
    · have hnext : (c.skip 1).rest = s ++ rest := by simp [Cursor.skip, hc]
      rw [if_neg (by decide), ← ih hs' hnext hfuel']
      cases hbroken : g.broken <;> simp [Gap.then, hbroken, isSpace, isBreak]
    · have hspace : isSpace d = false := by
        unfold isSpace
        rw [Bool.or_eq_false_iff]
        constructor <;> (apply decide_eq_false; rintro rfl; simp [isBreak] at hbreak)
      have hnext : c.newLine.rest = s ++ rest := by simp [Cursor.newLine, hc]
      rw [if_pos hbreak, ← ih hs' hnext hfuel']
      simp [Gap.then, hspace, hbreak, Cursor.skipBreak_eq hc hreturn, Cursor.breakText_eq hc]

end Scalar

end TestOrchestrator.Yaml
