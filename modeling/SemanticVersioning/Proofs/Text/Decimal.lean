import Mathlib.Data.List.Basic

/-!
# Decimal digits without needless zeros

A number has one text of decimal digits that does not begin with a needless zero, and `Nat.toDigits`
gives it. The library has the way from a number to its digits and back. Here is the way from digits
to their number and back (`Decimal.toDigits_ofDigitChars`), on which nothing may be lost in front.
-/

namespace SemanticVersioning
namespace Decimal

/-- A digit is that of its own value. -/
theorem digitChar_of_isDigit {c : Char} (h : c.isDigit = true) :
    c.toNat - '0'.toNat < 10 ∧ (c.toNat - '0'.toNat).digitChar = c := by
  have hzero : '0'.toNat = 48 := rfl
  have hbounds : 48 ≤ c.toNat ∧ c.toNat ≤ 57 := Char.isDigit_iff_toNat.1 h
  have hlt : c.toNat - '0'.toNat < 10 := by omega
  refine ⟨hlt, Char.toNat_inj.1 ?_⟩
  rw [Nat.toNat_digitChar_of_lt_ten hlt]
  omega

/-- The digits of a number other than zero do not begin with a zero. -/
theorem head?_toDigits_ne {n : Nat} (h : 0 < n) : (Nat.toDigits 10 n).head? ≠ some '0' := by
  induction n using Nat.strongRecOn with
  | ind n ih =>
    by_cases hlt : n < 10
    · rw [Nat.toDigits_of_lt_base hlt, List.head?_cons]
      intro hzero
      have hn : n = 0 := Nat.digitChar_eq_zero.1 (Option.some.inj hzero)
      omega
    · rw [Nat.toDigits_of_base_le (by decide) (Nat.not_lt.1 hlt),
        List.head?_append_of_ne_nil _ Nat.toDigits_ne_nil]
      exact ih (n / 10) (by omega) (by omega)

/-- Digits after a number other than zero are the last ones of the number that they continue. -/
theorem toDigits_append {n : Nat} (hn : 0 < n) {t : List Char} (ht : ∀ c ∈ t, c.isDigit = true) :
    Nat.toDigits 10 n ++ t = Nat.toDigits 10 (Nat.ofDigitChars 10 t n) := by
  induction t generalizing n with
  | nil => rw [List.append_nil, Nat.ofDigitChars_nil]
  | cons c t ih =>
    obtain ⟨hdigit, hc⟩ := digitChar_of_isDigit (ht c (by simp))
    have hstep : Nat.toDigits 10 n ++ [c] =
        Nat.toDigits 10 (10 * n + (c.toNat - '0'.toNat)) := by
      rw [← Nat.toDigits_append_toDigits (by decide) hn hdigit, Nat.toDigits_of_lt_base hdigit, hc]
    rw [Nat.ofDigitChars_cons, ← ih (by omega) fun d hd => ht d (List.mem_cons_of_mem c hd),
      ← hstep, List.append_assoc, List.singleton_append]

/-- **Digits are those of their value**, unless they begin with a zero and go on. -/
theorem toDigits_ofDigitChars {t : List Char} (hne : t ≠ []) (ht : ∀ c ∈ t, c.isDigit = true)
    (hlead : t = ['0'] ∨ t.head? ≠ some '0') : Nat.toDigits 10 (Nat.ofDigitChars 10 t 0) = t := by
  rcases hlead with rfl | hlead
  · rfl
  · obtain ⟨c, r, rfl⟩ := List.exists_cons_of_ne_nil hne
    obtain ⟨hdigit, hc⟩ := digitChar_of_isDigit (ht c (by simp))
    have hpos : 0 < c.toNat - '0'.toNat := by
      refine Nat.pos_of_ne_zero fun hzero => hlead ?_
      rw [List.head?_cons, ← hc, hzero]
      rfl
    rw [Nat.ofDigitChars_cons, Nat.mul_zero, Nat.zero_add,
      ← toDigits_append hpos fun d hd => ht d (List.mem_cons_of_mem c hd),
      Nat.toDigits_of_lt_base hdigit, hc, List.singleton_append]

/-- Digits end with those of their value. -/
theorem toDigits_isSuffix {t : List Char} (hne : t ≠ []) (ht : ∀ c ∈ t, c.isDigit = true) :
    Nat.toDigits 10 (Nat.ofDigitChars 10 t 0) <:+ t := by
  induction t with
  | nil => exact absurd rfl hne
  | cons c r ih =>
    by_cases hzero : c = '0' ∧ r ≠ []
    · obtain ⟨rfl, hr⟩ := hzero
      have hrest := ih hr fun d hd => ht d (List.mem_cons_of_mem _ hd)
      rw [Nat.ofDigitChars_cons]
      exact hrest.trans (List.suffix_cons '0' r)
    · have hlead : c :: r = ['0'] ∨ (c :: r).head? ≠ some '0' := by
        by_cases hc : c = '0'
        · exact Or.inl (by simp_all)
        · exact Or.inr (by simpa using hc)
      exact ⟨[], toDigits_ofDigitChars hne ht hlead⟩

end Decimal
end SemanticVersioning
