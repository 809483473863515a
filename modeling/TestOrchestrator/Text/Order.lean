/-!
# The order of names

* `Precedes s t` says that `s` comes before `t`: by their first characters that differ, and a text
  before those that it begins.
* It is a strict linear order: `Precedes.irrefl`, `Precedes.trans`, `Precedes.of_not_of_ne`.
-/

namespace TestOrchestrator.Text

/-- The order of lists of characters. -/
def precedes : List Char → List Char → Bool
  | _, [] => false
  | [], _ :: _ => true
  | c :: cs, d :: ds =>
    if c.toNat < d.toNat then true
    else if d.toNat < c.toNat then false
    else precedes cs ds

theorem precedes_irrefl (cs : List Char) : precedes cs cs = false := by
  induction cs with
  | nil => rfl
  | cons c cs ih => simp [precedes, ih]

theorem precedes_trans {cs ds es : List Char} (h₁ : precedes cs ds = true)
    (h₂ : precedes ds es = true) : precedes cs es = true := by
  induction ds generalizing cs es with
  | nil => cases cs <;> simp [precedes] at h₁
  | cons d ds ih =>
    cases es with
    | nil => simp [precedes] at h₂
    | cons e es =>
      cases cs with
      | nil => rfl
      | cons c cs =>
        rw [precedes] at h₁ h₂ ⊢
        split at h₁
        · split at h₂
          · rw [if_pos (by omega)]
          · split at h₂
            · simp at h₂
            · rw [if_pos (by omega)]
        · split at h₁
          · simp at h₁
          · split at h₂
            · rw [if_pos (by omega)]
            · split at h₂
              · simp at h₂
              · rw [if_neg (by omega), if_neg (by omega)]
                exact ih h₁ h₂

theorem precedes_append_cons (cs : List Char) (d : Char) (ds : List Char) :
    precedes cs (cs ++ d :: ds) = true := by
  induction cs with
  | nil => rfl
  | cons c cs ih => simp [precedes, ih]

theorem eq_of_not_precedes {cs ds : List Char} (h₁ : precedes cs ds = false)
    (h₂ : precedes ds cs = false) : cs = ds := by
  induction cs generalizing ds with
  | nil => cases ds <;> simp_all [precedes]
  | cons c cs ih =>
    cases ds with
    | nil => simp [precedes] at h₂
    | cons d ds =>
      rw [precedes] at h₁ h₂
      split at h₁
      · simp at h₁
      · split at h₁
        · rename_i h
          rw [if_pos h] at h₂
          simp at h₂
        · rename_i hc hd
          rw [if_neg hd, if_neg hc] at h₂
          have h : c = d := Char.toNat_inj.1 (by omega)
          rw [h, ih h₁ h₂]

/-- The order of texts by their characters. -/
def Precedes (s t : String) : Prop := precedes s.toList t.toList = true

instance (s t : String) : Decidable (Precedes s t) := inferInstanceAs (Decidable (_ = _))

namespace Precedes

variable {s t u : String}

theorem irrefl (s : String) : ¬Precedes s s := by simp [Precedes, precedes_irrefl]

theorem trans (h₁ : Precedes s t) (h₂ : Precedes t u) : Precedes s u := precedes_trans h₁ h₂

theorem of_not_of_ne (h : ¬Precedes s t) (hne : s ≠ t) : Precedes t s := by
  by_cases h' : Precedes t s
  · exact h'
  · have := eq_of_not_precedes (Bool.eq_false_iff.2 h) (Bool.eq_false_iff.2 h')
    exact absurd (String.toList_inj.1 this) hne

end Precedes

end TestOrchestrator.Text
