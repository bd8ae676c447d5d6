import Mathlib
import LuaSugar.Double.Decimal
/-!
# Doubles read back

The text of a finite double reads as the same double. The search for the
shortest decimal tests its candidates by reading them, so all that is left
is that the exact expansion reads back: rounding depends on a quotient
only, not on how it is written, and the quotient of a double is exact.
-/

namespace LuaSugar

/-! ## Rounding a quotient -/

namespace Double

variable {num den k : ℕ}

/-- Rounding looks at the value of a quotient. -/
theorem roundQuotient_mul (hk : 0 < k) :
    roundQuotient (k * num) (k * den) = roundQuotient num den := by
  have hlt (m n : ℕ) : 2 * (k * m) < k * n ↔ 2 * m < n := by
    rw [Nat.mul_left_comm]
    exact Nat.mul_lt_mul_left hk
  have hgt (m n : ℕ) : k * n < 2 * (k * m) ↔ n < 2 * m := by
    rw [Nat.mul_left_comm 2]
    exact Nat.mul_lt_mul_left hk
  simp only [roundQuotient, Nat.mul_div_mul_left num den hk, Nat.mul_mod_mul_left, hlt, hgt]

theorem binade_mul (hk : 0 < k) (hden : 0 < den) :
    binade (k * num) (k * den) = binade num den := by
  have hpred : (k * den - 1) / k = den - 1 := by
    have hpos : 0 < k * den := Nat.mul_pos hk hden
    have hle : k ≤ k * den := Nat.le_mul_of_pos_right k hden
    rw [Nat.div_eq_iff hk, Nat.sub_one_mul, Nat.mul_comm den k]
    omega
  have hquotient : (k * den - 1) / (k * num) = (den - 1) / num := by
    rw [← Nat.div_div_eq_div_mul, hpred]
  unfold binade
  rw [Nat.mul_div_mul_left num den hk, hquotient]
  simp only [Nat.mul_le_mul_left_iff hk]

theorem ofRatio_mul (hk : 0 < k) (hden : 0 < den) :
    ofRatio (k * num) (k * den) = ofRatio num den := by
  unfold ofRatio
  by_cases hnum : num = 0
  · simp [hnum]
  · have hne : k * num ≠ 0 := Nat.mul_ne_zero hk.ne' hnum
    rw [if_neg hne, if_neg hnum, binade_mul hk hden]
    simp only [Nat.mul_assoc k, roundQuotient_mul hk]

/-- **Equal quotients round to the same double.** -/
theorem ofRatio_congr {num' den' : ℕ} (h : num * den' = num' * den) (hden : 0 < den)
    (hden' : 0 < den') : ofRatio num den = ofRatio num' den' := by
  calc ofRatio num den
    _ = ofRatio (den' * num) (den' * den) := (ofRatio_mul hden' hden).symm
    _ = ofRatio (den * num') (den * den') := by
      rw [Nat.mul_comm den' num, h, Nat.mul_comm den' den, Nat.mul_comm num' den]
    _ = ofRatio num' den' := ofRatio_mul hden hden'

/-! ## Exact quotients -/

/-- The binade of a scaled integer. -/
theorem binade_eq {s : ℕ} (hs : s ≠ 0) (e : ℤ) :
    binade (s * 2 ^ e.toNat) (2 ^ (-e).toNat) = s.log2 + e := by
  have hlow := Nat.log2_self_le hs
  have hhigh := Nat.lt_log2_self (n := s)
  generalize s.log2 = l at hlow hhigh ⊢
  unfold binade
  rcases Int.le_total 0 e with he | he
  · obtain ⟨k, rfl⟩ := Int.eq_ofNat_of_zero_le he
    have hpos : 1 ≤ s * 2 ^ k := Nat.one_le_iff_ne_zero.2 (Nat.mul_ne_zero hs (by positivity))
    have hlog : (s * 2 ^ k).log2 = l + k := by
      rw [Nat.log2_eq_iff (by omega), Nat.pow_add, Nat.add_right_comm, Nat.pow_add 2 (l + 1)]
      exact ⟨Nat.mul_le_mul_right _ hlow, Nat.mul_lt_mul_of_pos_right hhigh (by positivity)⟩
    have hneg : (-(k : ℤ)).toNat = 0 := by omega
    rw [hneg, Int.toNat_natCast, Nat.pow_zero, if_pos hpos, Nat.div_one, hlog]
    push_cast
    rfl
  · obtain ⟨k, hk⟩ : ∃ k : ℕ, e = -(k : ℤ) := ⟨(-e).toNat, by omega⟩
    subst hk
    have hzero : (-(k : ℤ)).toNat = 0 := by omega
    rw [hzero, neg_neg, Int.toNat_natCast, Nat.pow_zero, Nat.mul_one]
    have hpow : 0 < 2 ^ k := by positivity
    -- a quotient below one has its binade from the inverse, rounded up
    by_cases hle : 2 ^ k ≤ s
    · have hkl : k ≤ l := by
        have := (Nat.pow_lt_pow_iff_right (a := 2) (by omega)).1 (hle.trans_lt hhigh)
        omega
      obtain ⟨m, rfl⟩ := Nat.exists_eq_add_of_le hkl
      have hlog : (s / 2 ^ k).log2 = m := by
        rw [Nat.log2_eq_iff (by have := Nat.div_pos hle hpow; omega), Nat.le_div_iff_mul_le hpow,
          Nat.div_lt_iff_lt_mul hpow, ← Nat.pow_add, ← Nat.pow_add]
        exact ⟨by rwa [Nat.add_comm m k], by rwa [show m + 1 + k = k + m + 1 by omega]⟩
      rw [if_pos hle, hlog]
      push_cast
      ring
    · have hlk : l < k := (Nat.pow_lt_pow_iff_right (a := 2) (by omega)).1
        (hlow.trans_lt (by omega))
      obtain ⟨m, rfl⟩ : ∃ m, k = l + 1 + m := Nat.exists_eq_add_of_le hlk
      have hspos : 0 < s := by omega
      have hsplit : 2 ^ (l + 1 + m) = 2 ^ (l + 1) * 2 ^ m := Nat.pow_add 2 (l + 1) m
      have hm : 0 < 2 ^ m := by positivity
      have hge : 2 ^ m * s ≤ 2 ^ (l + 1 + m) - 1 := by
        have hmul : 2 ^ m * s ≤ 2 ^ m * (2 ^ (l + 1) - 1) := Nat.mul_le_mul_left _ (by omega)
        rw [Nat.mul_sub, Nat.mul_one, Nat.mul_comm (2 ^ m) (2 ^ (l + 1)), ← hsplit] at hmul
        omega
      have hlt : 2 ^ (l + 1 + m) - 1 < 2 ^ (m + 1) * s := by
        have hmul : 2 ^ (m + 1) * 2 ^ l ≤ 2 ^ (m + 1) * s := Nat.mul_le_mul_left _ hlow
        rw [← Nat.pow_add, show m + 1 + l = l + 1 + m by omega] at hmul
        omega
      have hlog : ((2 ^ (l + 1 + m) - 1) / s).log2 = m := by
        have hquotient : 2 ^ m ≤ (2 ^ (l + 1 + m) - 1) / s := (Nat.le_div_iff_mul_le hspos).2 hge
        rw [Nat.log2_eq_iff (by omega)]
        exact ⟨hquotient, (Nat.div_lt_iff_lt_mul hspos).2 hlt⟩
      rw [if_neg hle, hlog]
      push_cast
      ring

theorem denominator_pos (x : Double) : 0 < x.denominator := by
  unfold denominator
  positivity

/-- An integer rounds to itself. -/
theorem roundQuotient_self {s : ℕ} (hden : 0 < den) : roundQuotient (s * den) den = s := by
  simp [roundQuotient, Nat.mul_div_cancel s hden, hden]

/-- **The quotient of a finite double is exact.** -/
theorem ofRatio_numerator {x : Double} (hx : x.isFinite) :
    ofRatio x.numerator x.denominator = ofMagnitude x.magnitude := by
  have hfinite : x.magnitude < 2047 * 2 ^ 52 := of_decide_eq_true hx
  unfold ofRatio numerator denominator
  by_cases hzero : x.magnitude = 0
  · simp [significand, hzero, zero]
  · have hs : x.significand ≠ 0 := by
      unfold significand
      split <;> omega
    have hlow : -1074 ≤ x.exponent := by
      unfold exponent
      split <;> omega
    have hlog : x.significand.log2 < 53 := by
      rw [Nat.log2_lt hs]
      unfold significand
      split <;> omega
    -- the exponent of the last bit is the one that rounding goes for
    have hexponent : max ((x.significand.log2 : ℤ) + x.exponent - 52) (-1074) = x.exponent := by
      by_cases hm : x.magnitude < 2 ^ 52
      · have he : x.exponent = -1074 := if_pos hm
        omega
      · have hlog' : 52 ≤ x.significand.log2 := by
          rw [Nat.le_log2 hs]
          simp only [significand, if_neg hm]
          omega
        omega
    have hnum : x.significand * 2 ^ x.exponent.toNat ≠ 0 := Nat.mul_ne_zero hs (by positivity)
    rw [if_neg hnum, binade_eq hs, hexponent]
    dsimp only
    have hround : roundQuotient (x.significand * 2 ^ x.exponent.toNat * 2 ^ (-x.exponent).toNat)
        (2 ^ (-x.exponent).toNat * 2 ^ x.exponent.toNat) = x.significand := by
      rw [Nat.mul_assoc, Nat.mul_comm (2 ^ x.exponent.toNat)]
      exact roundQuotient_self (by positivity)
    rw [hround]
    congr 1
    unfold exponent significand
    split <;> omega

end Double

end LuaSugar
