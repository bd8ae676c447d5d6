import Mathlib
import LuaSugar.Proofs.Double.Rounding
/-!
# The decimal text of a double

The digits that a finite double is written with read as the double. Where
the point is put and how many zeros stand around the digits makes no
difference to what they read as.
-/

namespace LuaSugar

namespace Double

theorem bits_ofMagnitude (m : ℕ) : (ofMagnitude m).bits.toNat = min m infiniteMagnitude := by
  have h : min m infiniteMagnitude < 2 ^ 64 :=
    lt_of_le_of_lt (Nat.min_le_right _ _) (by decide)
  simp only [ofMagnitude, UInt64.toNat_ofNat']
  exact Nat.mod_eq_of_lt h

theorem magnitude_ofMagnitude (m : ℕ) : (ofMagnitude m).magnitude = min m infiniteMagnitude := by
  have h : min m infiniteMagnitude < 2 ^ 63 :=
    lt_of_le_of_lt (Nat.min_le_right _ _) (by decide)
  rw [magnitude, bits_ofMagnitude, Nat.mod_eq_of_lt h]

theorem isNegative_ofMagnitude (m : ℕ) : (ofMagnitude m).isNegative = false := by
  have h : min m infiniteMagnitude < 2 ^ 63 :=
    lt_of_le_of_lt (Nat.min_le_right _ _) (by decide)
  rw [isNegative, bits_ofMagnitude, decide_eq_false_iff_not]
  omega

/-- Doubles that are not negative are told apart by their magnitudes. -/
theorem eq_of_magnitude {x y : Double} (hx : x.isNegative = false) (hy : y.isNegative = false)
    (h : x.magnitude = y.magnitude) : x = y := by
  rw [isNegative, decide_eq_false_iff_not] at hx hy
  rw [magnitude, magnitude, Nat.mod_eq_of_lt (by omega), Nat.mod_eq_of_lt (by omega)] at h
  obtain ⟨x⟩ := x
  obtain ⟨y⟩ := y
  exact congrArg Double.mk (UInt64.toNat_inj.1 h)

theorem ofMagnitude_magnitude {x : Double} (hx : x.isNegative = false) (hf : x.isFinite) :
    ofMagnitude x.magnitude = x := by
  have hlt : x.magnitude < infiniteMagnitude := of_decide_eq_true hf
  refine eq_of_magnitude (isNegative_ofMagnitude _) hx ?_
  rw [magnitude_ofMagnitude]
  omega

theorem isNegative_ofRatio (num den : ℕ) : (ofRatio num den).isNegative = false := by
  unfold ofRatio
  split
  · exact isNegative_ofMagnitude 0
  · exact isNegative_ofMagnitude _

end Double

/-! ## Decimals of the same value -/

namespace Decimal

theorem isNegative_toDouble (d : Decimal) : d.toDouble.isNegative = false := by
  unfold toDouble
  dsimp only
  split
  · exact Double.isNegative_ofMagnitude _
  · split
    · exact Double.isNegative_ofMagnitude _
    · split
      · exact Double.isNegative_ofMagnitude _
      · exact Double.isNegative_ofRatio _ _

theorem digitCount_le_iff {n k : ℕ} (hk : 0 < k) : digitCount n ≤ k ↔ n < 10 ^ k :=
  Nat.length_toDigits_le_iff (by omega) hk

theorem digitCount_pos (n : ℕ) : 0 < digitCount n := Nat.length_toDigits_pos

theorem digitCount_mul {n : ℕ} (hn : 0 < n) (j : ℕ) :
    digitCount (n * 10 ^ j) = digitCount n + j := by
  have hpow : 0 < 10 ^ j := by positivity
  refine le_antisymm ?_ ?_
  · rw [digitCount_le_iff (by have := digitCount_pos n; omega), Nat.pow_add]
    exact Nat.mul_lt_mul_of_pos_right ((digitCount_le_iff (digitCount_pos n)).1 le_rfl) hpow
  · by_contra h
    have hj : j < digitCount (n * 10 ^ j) := by
      by_contra hle
      rw [Nat.not_lt] at hle
      rcases Nat.eq_zero_or_pos j with rfl | hj
      · have := digitCount_pos (n * 10 ^ 0)
        omega
      · have hlt := (digitCount_le_iff hj).1 hle
        exact absurd (Nat.le_mul_of_pos_left (10 ^ j) hn) (Nat.not_le.2 hlt)
    obtain ⟨m, hm⟩ : ∃ m, digitCount (n * 10 ^ j) = m + j := ⟨_, (Nat.sub_add_cancel hj.le).symm⟩
    have hlt := (digitCount_le_iff (n := n * 10 ^ j) (k := m + j) (by omega)).1 hm.le
    rw [Nat.pow_add, Nat.mul_lt_mul_right hpow] at hlt
    rcases Nat.eq_zero_or_pos m with rfl | hpos
    · omega
    · have := (digitCount_le_iff hpos).2 hlt
      omega

/-- **Zeros behind the digits** are as good as an exponent. -/
theorem toDouble_shift (n j : ℕ) (e : ℤ) :
    toDouble ⟨n * 10 ^ j, e⟩ = toDouble ⟨n, e + j⟩ := by
  unfold toDouble
  by_cases hn : n = 0
  · simp [hn]
  · have hne : n * 10 ^ j ≠ 0 := Nat.mul_ne_zero hn (by positivity)
    have htop : (digitCount (n * 10 ^ j) : ℤ) + e = digitCount n + (e + j) := by
      rw [digitCount_mul (Nat.pos_of_ne_zero hn)]
      push_cast
      ring
    simp only [hne, hn, if_false, htop]
    have hratio : Double.ofRatio (n * 10 ^ j * 10 ^ e.toNat) (10 ^ (-e).toNat) =
        Double.ofRatio (n * 10 ^ (e + j).toNat) (10 ^ (-(e + j)).toNat) := by
      refine Double.ofRatio_congr ?_ (by positivity) (by positivity)
      rw [Nat.mul_assoc, Nat.mul_assoc, Nat.mul_assoc, ← Nat.pow_add, ← Nat.pow_add, ← Nat.pow_add]
      congr 2
      omega
    rw [hratio]

end Decimal

/-! ## The exact expansion -/

namespace Double

/-- The exact expansion is within the range where digits are looked at. -/
theorem exactDecimal_range {x : Double} (hf : x.isFinite) (hx : x.exactDecimal.digits ≠ 0) :
    (Decimal.digitCount x.exactDecimal.digits : ℤ) + x.exactDecimal.exponent ≤ 310 ∧
      -330 ≤ (Decimal.digitCount x.exactDecimal.digits : ℤ) + x.exactDecimal.exponent := by
  have hfinite : x.magnitude < 2047 * 2 ^ 52 := of_decide_eq_true hf
  have hs : x.significand < 2 ^ 53 := by
    unfold significand
    split <;> omega
  unfold exactDecimal at hx ⊢
  by_cases he : 0 ≤ x.exponent
  · rw [if_pos he]
    have hexp : x.exponent.toNat ≤ 971 := by
      unfold exponent
      split <;> omega
    have hnum : x.numerator < 10 ^ 310 := by
      calc x.numerator
        _ < 2 ^ 53 * 2 ^ x.exponent.toNat := Nat.mul_lt_mul_of_pos_right hs (by positivity)
        _ ≤ 2 ^ 53 * 2 ^ 971 := Nat.mul_le_mul_left _ (Nat.pow_le_pow_right (by omega) hexp)
        _ < 10 ^ 310 := by decide +kernel
    have := (Decimal.digitCount_le_iff (n := x.numerator) (k := 310) (by omega)).2 hnum
    dsimp only
    omega
  · rw [if_neg he] at hx ⊢
    dsimp only at hx ⊢
    have hexp : (-x.exponent).toNat ≤ 1074 := by
      unfold exponent
      split <;> omega
    obtain ⟨k, hk⟩ : ∃ k : ℕ, x.exponent = -(k : ℤ) := ⟨(-x.exponent).toNat, by omega⟩
    rw [hk, neg_neg, Int.toNat_natCast] at hx ⊢
    have hk' : k ≤ 1074 := by omega
    have hspos : 1 ≤ x.significand := Nat.one_le_iff_ne_zero.2 fun h => hx (by simp [h])
    generalize x.significand = s at *
    constructor
    · have hlt : s * 5 ^ k < 10 ^ (310 + k) := by
        calc s * 5 ^ k
          _ < 2 ^ 53 * 5 ^ k := Nat.mul_lt_mul_of_pos_right hs (by positivity)
          _ ≤ 10 ^ 310 * 10 ^ k :=
            Nat.mul_le_mul (by decide +kernel) (Nat.pow_le_pow_left (by omega) k)
          _ = 10 ^ (310 + k) := by rw [Nat.pow_add]
      have := (Decimal.digitCount_le_iff (n := s * 5 ^ k) (k := 310 + k) (by omega)).2 hlt
      omega
    -- with fewer digits `s * 5 ^ k` is below `10 ^ (k - 330)`, though `2 ^ 1074` is below `10 ^ 330`
    · by_contra hlt
      have hcount : Decimal.digitCount (s * 5 ^ k) ≤ k - 330 := by omega
      have hpos : 0 < k - 330 := by
        have := Decimal.digitCount_pos (s * 5 ^ k)
        omega
      have hsmall := (Decimal.digitCount_le_iff hpos).1 hcount
      have hge : 10 ^ (k - 330) * 2 ^ 1074 ≤ s * 5 ^ k * 2 ^ 1074 := by
        calc 10 ^ (k - 330) * 2 ^ 1074
          _ ≤ 10 ^ (k - 330) * 10 ^ 330 := Nat.mul_le_mul_left _ (by decide +kernel)
          _ = 10 ^ k := by rw [← Nat.pow_add, Nat.sub_add_cancel (by omega)]
          _ = 5 ^ k * 2 ^ k := by rw [← Nat.mul_pow]
          _ ≤ s * 5 ^ k * 2 ^ 1074 := Nat.mul_le_mul (Nat.le_mul_of_pos_left _ hspos)
            (Nat.pow_le_pow_right (by omega) hk')
      have := Nat.le_of_mul_le_mul_right hge (by positivity)
      omega

theorem exactDecimal_toDouble {x : Double} (hf : x.isFinite) :
    x.exactDecimal.toDouble = ofMagnitude x.magnitude := by
  have hratio := ofRatio_numerator hf
  unfold Decimal.toDouble
  by_cases hzero : x.exactDecimal.digits = 0
  · have hnum : x.numerator = 0 := by
      unfold exactDecimal at hzero
      split at hzero
      · exact hzero
      · have hs : x.significand = 0 := by simpa using hzero
        simp [numerator, hs]
    rw [if_pos hzero, ← hratio, ofRatio, if_pos hnum]
  · obtain ⟨hhigh, hlow⟩ := exactDecimal_range hf hzero
    rw [if_neg hzero]
    dsimp only
    rw [if_neg (by omega), if_neg (by omega), ← hratio]
    refine ofRatio_congr ?_ (by positivity) x.denominator_pos
    unfold exactDecimal numerator denominator
    split
    · rename_i he
      have hneg : (-x.exponent).toNat = 0 := by omega
      simp [hneg]
    · rename_i he
      have hpos : x.exponent.toNat = 0 := by omega
      simp only [hpos, pow_zero, mul_one]
      rw [mul_assoc, ← mul_pow, show 5 * 2 = 10 from rfl]

/-- **The shortest decimal reads back.** -/
theorem shortest_toDouble {x : Double} (hx : x.isNegative = false) (hf : x.isFinite) (tie : Tie) :
    (x.shortest tie).toDouble = x := by
  unfold shortest
  dsimp only
  generalize hfind : List.find? _ _ = found
  cases found with
  | none =>
    rw [Option.getD_none, exactDecimal_toDouble hf, ofMagnitude_magnitude hx hf]
  | some d =>
    have hd := List.find?_some hfind
    exact eq_of_magnitude d.isNegative_toDouble hx (beq_iff_eq.1 hd)

end Double

/-! ## Positional notation -/

namespace Decimal

/-- Digits with their trailing zeros aside. -/
theorem eq_append_zeros (text : List Char) : text =
    (text.reverse.dropWhile (· == '0')).reverse ++
      List.replicate (text.reverse.takeWhile (· == '0')).length '0' := by
  have hzeros : text.reverse.takeWhile (· == '0') =
      List.replicate (text.reverse.takeWhile (· == '0')).length '0' :=
    List.eq_replicate_iff.2 ⟨rfl, fun c hc => by
      simpa using List.mem_takeWhile_imp (p := (· == '0')) hc⟩
  conv_lhs => rw [← List.reverse_reverse text,
    ← List.takeWhile_append_dropWhile (p := (· == '0')) (l := text.reverse), List.reverse_append]
  rw [hzeros, List.reverse_replicate, List.length_replicate]

/-- Trailing zeros are a power of ten. -/
theorem normalize_toDouble (d : Decimal) : d.normalize.toDouble = d.toDouble := by
  obtain ⟨n, e⟩ := d
  have htext := eq_append_zeros (Nat.toDigits 10 n)
  unfold normalize
  dsimp only
  generalize hz : ((Nat.toDigits 10 n).reverse.takeWhile (· == '0')).length = zeros at htext ⊢
  generalize ((Nat.toDigits 10 n).reverse.dropWhile (· == '0')).reverse = kept at htext
  have hn : n = Nat.ofDigitChars 10 kept 0 * 10 ^ zeros := by
    have := Nat.ofDigitChars_ten_toDigits (n := n)
    rw [htext, Nat.ofDigitChars_append, Nat.ofDigitChars_replicate_zero] at this
    rw [← this, Nat.mul_comm]
  split
  · rename_i hall
    have hkept : kept = [] := by
      have hlength := congrArg List.length htext
      simp only [List.length_append, List.length_replicate] at hlength
      exact List.length_eq_zero_iff.1 (by omega)
    have hzero : n = 0 := by simp [hn, hkept]
    simp [toDouble, hzero]
  · rw [hn, Nat.mul_div_cancel _ (by positivity), toDouble_shift]

/-- **Putting the point** leaves the digits and counts those behind it. -/
theorem split_toDouble (d : Decimal) :
    toDouble ⟨Nat.ofDigitChars 10 (d.split.1 ++ d.split.2) 0, -d.split.2.length⟩ = d.toDouble := by
  obtain ⟨n, e⟩ := d
  have htext := Nat.ofDigitChars_ten_toDigits (n := n)
  unfold split
  dsimp only
  split
  · rename_i he
    rw [List.append_nil, Nat.ofDigitChars_append, htext, Nat.ofDigitChars_replicate_zero,
      Nat.mul_comm, toDouble_shift]
    congr 2
    simp only [List.length_nil]
    omega
  · split
    · rename_i hlt
      have hlength : ((Nat.toDigits 10 n).drop ((Nat.toDigits 10 n).length - (-e).toNat)).length =
          (-e).toNat := by
        rw [List.length_drop]
        omega
      rw [List.splitAt_eq, List.take_append_drop, htext, hlength]
      congr 2
      omega
    · rw [List.singleton_append, ← List.cons_append, ← List.replicate_succ,
        Nat.ofDigitChars_append, Nat.ofDigitChars_replicate_zero, Nat.mul_zero, htext,
        List.length_append, List.length_replicate]
      congr 2
      omega

theorem isDigit_split (d : Decimal) : ∀ c ∈ d.split.1 ++ d.split.2, c.isDigit := by
  have htext : ∀ c ∈ Nat.toDigits 10 d.digits, c.isDigit := fun c hc =>
    Nat.isDigit_of_mem_toDigits (by omega) (by omega) hc
  have hzeros (m : ℕ) : ∀ c ∈ List.replicate m '0', c.isDigit := fun c hc => by
    rw [List.eq_of_mem_replicate hc]
    rfl
  intro c hc
  unfold split at hc
  dsimp only at hc
  split at hc
  · rw [List.append_nil] at hc
    rcases List.mem_append.1 hc with hc | hc
    · exact htext c hc
    · exact hzeros _ c hc
  · split at hc
    · rw [List.splitAt_eq, List.take_append_drop] at hc
      exact htext c hc
    · rcases List.mem_append.1 hc with hc | hc
      · rw [List.mem_singleton.1 hc]
        rfl
      · rcases List.mem_append.1 hc with hc | hc
        · exact hzeros _ c hc
        · exact htext c hc

theorem split_fst_ne_nil (d : Decimal) : d.split.1 ≠ [] := by
  unfold split
  dsimp only
  split
  · simp
  · split
    · rename_i hlt
      rw [List.splitAt_eq, ← List.length_pos_iff, List.length_take]
      omega
    · simp

end Decimal

/-- **Numerals**: a number is written as digits, and maybe a point and more
digits, that read as the number. -/
theorem Double.plainText_eq {x : Double} (hx : x.isNegative = false) (hf : x.isFinite) :
    ∃ whole fraction : List Char, whole ≠ [] ∧ (∀ c ∈ whole ++ fraction, c.isDigit) ∧
      x.plainText.toList = (if fraction = [] then whole else whole ++ '.' :: fraction) ∧
      Decimal.toDouble ⟨Nat.ofDigitChars 10 (whole ++ fraction) 0, -fraction.length⟩ = x := by
  have hlt : x.magnitude < infiniteMagnitude := of_decide_eq_true hf
  have hnan : x.isNaN = false := decide_eq_false (by omega)
  have hinfinite : x.isInfinite = false := decide_eq_false (by omega)
  refine ⟨(x.shortest .up).normalize.split.1, (x.shortest .up).normalize.split.2,
    Decimal.split_fst_ne_nil _, Decimal.isDigit_split _, ?_, ?_⟩
  · simp only [plainText, signed, hnan, hinfinite, hx, Bool.false_eq_true, if_false,
      String.toList_ofList, Decimal.positional]
    rcases (x.shortest .up).normalize.split with ⟨whole, _ | ⟨c, fraction⟩⟩ <;> simp
  · rw [Decimal.split_toDouble, Decimal.normalize_toDouble, shortest_toDouble hx hf]

/-- A numeral begins and ends with a digit. -/
theorem Double.plainText_ends {x : Double} (hx : x.isNegative = false) (hf : x.isFinite) :
    (∃ c ∈ x.plainText.toList.head?, c.isDigit) ∧ ∃ c ∈ x.plainText.toList.getLast?, c.isDigit := by
  obtain ⟨whole, fraction, hwhole, hdigits, htext, -⟩ := plainText_eq hx hf
  rw [htext]
  constructor
  · obtain ⟨c, cs, rfl⟩ := List.exists_cons_of_ne_nil hwhole
    exact ⟨c, by split <;> simp, hdigits c (by simp)⟩
  · rcases List.eq_nil_or_concat fraction with rfl | ⟨cs, c, rfl⟩
    · obtain ⟨cs, c, rfl⟩ := List.eq_nil_or_concat whole |>.resolve_left hwhole
      exact ⟨c, by simp, hdigits c (by simp)⟩
    · refine ⟨c, ?_, hdigits c (by simp)⟩
      rw [if_neg (by simp), List.concat_eq_append, ← List.cons_append, ← List.append_assoc]
      exact List.getLast?_concat

end LuaSugar
