import TestOrchestrator.Decimal.Layout
import TestOrchestrator.Decimal.Numeral
/-!
# Decimal digits

* `digitsOf_of_lt` and `digitsOf_push` build the digits of a number from its first digit to its
  last, and `digitsOf_induction` is induction along them.
* `natural?_digitsOf`: the digits of a number are read as that number.
-/

namespace TestOrchestrator.Decimal

variable {n k : Nat}

theorem toNat_of_isDigit {d : Char} (h : d.isDigit = true) : 48 ≤ d.toNat ∧ d.toNat ≤ 57 := by
  simp only [Char.isDigit, Bool.and_eq_true, decide_eq_true_eq, ge_iff_le,
    UInt32.le_iff_toNat_le] at h
  exact h

theorem isDigit_of_mem_digitsOf {n : Nat} {d : Char} (h : d ∈ digitsOf n) : d.isDigit = true :=
  Nat.isDigit_of_mem_toDigits (by omega) (by omega) h

theorem exists_digitsOf (n : Nat) : ∃ d ds, digitsOf n = d :: ds ∧ d.isDigit = true := by
  obtain ⟨d, ds, hds⟩ := List.exists_cons_of_ne_nil (show digitsOf n ≠ [] from Nat.toDigits_ne_nil)
  refine ⟨d, ds, hds, isDigit_of_mem_digitsOf (n := n) ?_⟩
  rw [hds]
  exact List.mem_cons_self

theorem digitsOf_of_lt (h : n < 10) : digitsOf n = [n.digitChar] := Nat.toDigits_of_lt_base h

theorem digitsOf_push (hn : n ≠ 0) (hk : k < 10) :
    digitsOf (n * 10 + k) = digitsOf n ++ [k.digitChar] := by
  have hdiv : (n * 10 + k) / 10 = n := by omega
  have hmod : (n * 10 + k) % 10 = k := by omega
  rw [digitsOf, Nat.toDigits_of_base_le (by omega) (by omega), hdiv, hmod, digitsOf]

/-- Induction along the digits of a number. -/
theorem digitsOf_induction {motive : Nat → Prop} (first : ∀ n < 10, motive n)
    (push : ∀ n k, n ≠ 0 → k < 10 → motive n → motive (n * 10 + k)) (n : Nat) : motive n := by
  induction n using Nat.strongRecOn with
  | ind n ih =>
    by_cases hn : n < 10
    · exact first n hn
    · have hsplit : n / 10 * 10 + n % 10 = n := by omega
      rw [← hsplit]
      exact push (n / 10) (n % 10) (by omega) (by omega) (ih (n / 10) (by omega))

/-- Only zero begins with the digit zero. -/
theorem head_digitsOf (hn : n ≠ 0) : (digitsOf n).head? ≠ some '0' := by
  induction n using digitsOf_induction with
  | first n hlt =>
    rw [digitsOf_of_lt hlt, List.head?_cons]
    decide +revert
  | push n k hn' hk ih =>
    obtain ⟨d, ds, hds, -⟩ := exists_digitsOf n
    rw [digitsOf_push hn' hk, hds]
    rw [hds] at ih
    exact ih hn'

theorem digit?_digitChar : ∀ k < 10, digit? 10 k.digitChar = some k := by decide

/-- **The digits of a number are read as that number.** -/
theorem natural?_digitsOf (n : Nat) : natural? 10 (digitsOf n) = some n := by
  have hne : digitsOf n ≠ [] := Nat.toDigits_ne_nil
  rw [natural?, if_neg hne]
  clear hne
  induction n using digitsOf_induction with
  | first n hlt =>
    rw [digitsOf_of_lt hlt, List.foldlM_cons, digit?_digitChar n hlt, Option.map_some, Nat.zero_mul,
      Nat.zero_add]
    rfl
  | push n k hn hk ih =>
    rw [digitsOf_push hn hk, List.foldlM_append, ih, Option.bind_eq_bind, Option.bind_some,
      List.foldlM_cons, digit?_digitChar k hk]
    rfl

end TestOrchestrator.Decimal
