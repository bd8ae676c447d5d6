import Mathlib
import LuaSugar.Proofs.Token.Bytes
/-!
# Number literals read again

A decimal literal is found part by part: digits, a fraction, an exponent. Cut
out of its text and read by itself it falls into the same parts, since no part
goes on where the one behind it begins (`decimalParts_text`).
-/

namespace LuaSugar

namespace Lexer

variable {cs : List Char}

/-! ## Marks -/

/-- An exponent is missing or begins with its mark. -/
theorem exponentPart_cases (cs : List Char) : exponentPart cs = [] ∨
    ∃ mark more, (mark = 'e' ∨ mark = 'E') ∧ exponentPart cs = mark :: more := by
  cases cs with
  | nil => exact .inl rfl
  | cons mark cs =>
    rw [exponentPart_cons]
    split
    · rename_i hmark
      exact .inr ⟨mark, _, by simpa using hmark, rfl⟩
    · exact .inl rfl

/-- A numeral in another base begins with a zero and the letter of the base. -/
theorem radix?_eq (c : Char) (cs : List Char) : radix? c cs =
    if c = '0' then
      if cs.head? = some 'x' ∨ cs.head? = some 'X' then some 16
      else if cs.head? = some 'b' ∨ cs.head? = some 'B' then some 2
      else none
    else none := by
  unfold radix?
  split
  iterate 4 rfl
  rename_i hx hX hb hB
  by_cases hc : c = '0'
  · have hsixteen : ¬ (cs.head? = some 'x' ∨ cs.head? = some 'X') :=
      not_or.2 ⟨head?_ne fun rest => hx rest hc, head?_ne fun rest => hX rest hc⟩
    have htwo : ¬ (cs.head? = some 'b' ∨ cs.head? = some 'B') :=
      not_or.2 ⟨head?_ne fun rest => hb rest hc, head?_ne fun rest => hB rest hc⟩
    rw [if_pos hc, if_neg hsixteen, if_neg htwo]
  · rw [if_neg hc]

/-- A radix is announced by a zero and a letter. -/
theorem radix?_eq_some {c : Char} {radix : ℕ} (h : radix? c cs = some radix) :
    c = '0' ∧ ∃ d rest, cs = d :: rest ∧ d ∈ ['x', 'X', 'b', 'B'] := by
  rw [radix?_eq] at h
  split_ifs at h with hc hmark hmark
  all_goals
    refine ⟨hc, ?_⟩
    rcases hmark with hmark | hmark <;> obtain ⟨rest, rfl⟩ := List.head?_eq_some_iff.1 hmark <;>
      exact ⟨_, rest, rfl, by decide⟩

/-! ## Parts -/

theorem takeWhile_takeWhile (p : Char → Bool) (cs : List Char) :
    (cs.takeWhile p).takeWhile p = cs.takeWhile p :=
  List.takeWhile_eq_self_iff.2 fun _ => List.mem_takeWhile_imp

/-- A sign is found again in front of digits. -/
theorem signPart_signPart_append (cs : List Char) :
    signPart (signPart cs ++ (cs.drop (signPart cs).length).takeWhile isDigitOrSeparator) =
      signPart cs := by
  cases cs with
  | nil => rfl
  | cons c cs =>
    by_cases hsign : (c == '+' || c == '-') = true
    · simp [signPart, hsign]
    · simp only [signPart, if_neg hsign, List.length_nil, List.drop_zero, List.nil_append]
      by_cases hc : isDigitOrSeparator c = true
      · rw [List.takeWhile_cons_of_pos hc]
        exact if_neg hsign
      · rw [List.takeWhile_cons_of_neg hc]

/-- An exponent that is cut off is found again. -/
theorem exponentPart_exponentPart (cs : List Char) :
    exponentPart (exponentPart cs) = exponentPart cs := by
  cases cs with
  | nil => rfl
  | cons mark cs =>
    rw [exponentPart_cons]
    split
    · rename_i hmark
      rw [exponentPart_cons, if_pos hmark, signPart_signPart_append, List.drop_left,
        takeWhile_takeWhile]
    · rfl

/-- No exponent begins with a digit or a point. -/
theorem exponentPart_head (cs : List Char) :
    ∀ c ∈ (exponentPart cs).head?, isDigitOrSeparator c = false ∧ c ≠ '.' := by
  rcases exponentPart_cases cs with hnil | ⟨mark, more, hmark, heq⟩
  · simp [hnil]
  · rw [heq]
    rintro c ⟨⟩
    rcases hmark with rfl | rfl <;> decide

/-- Digits end where an exponent begins. -/
theorem takeWhile_append_exponentPart (cs ds : List Char) :
    (cs.takeWhile isDigitOrSeparator ++ exponentPart ds).takeWhile isDigitOrSeparator =
      cs.takeWhile isDigitOrSeparator := by
  rw [List.takeWhile_append_of_pos fun _ => List.mem_takeWhile_imp,
    takeWhile_eq_nil fun c hc => (exponentPart_head ds c hc).1, List.append_nil]

/-- A fraction is found again in front of an exponent. -/
theorem fractionPart_fractionPart_append (cs ds : List Char) :
    fractionPart (fractionPart cs ++ exponentPart ds) = fractionPart cs := by
  have hpoint : (exponentPart ds).head? ≠ some '.' := fun h => (exponentPart_head ds _ h).2 rfl
  rw [fractionPart_eq cs]
  split
  · have hnext : (cs.tail.takeWhile isDigitOrSeparator ++ exponentPart ds).head? ≠ some '.' := by
      cases hrun : cs.tail.takeWhile isDigitOrSeparator with
      | nil => exact hpoint
      | cons d run =>
        have hd : d ∈ cs.tail.takeWhile isDigitOrSeparator := hrun ▸ List.mem_cons_self
        rintro ⟨⟩
        exact absurd (List.mem_takeWhile_imp hd) (by decide)
    rw [fractionPart_eq, List.cons_append, if_pos ⟨List.head?_cons .., hnext⟩, List.tail_cons,
      takeWhile_append_exponentPart]
  · rw [List.nil_append, fractionPart_eq, if_neg fun h => hpoint h.1]

/-- No digit stands where a fraction or an exponent begins. -/
theorem takeWhile_fractionPart_append (cs ds : List Char) :
    (fractionPart cs ++ exponentPart ds).takeWhile isDigitOrSeparator = [] := by
  rw [fractionPart_eq]
  split
  · rfl
  · exact takeWhile_eq_nil fun c hc => (exponentPart_head ds c hc).1

/-- **What is read** of a decimal literal is read the same by itself. -/
theorem decimalParts_text (cs : List Char) :
    decimalParts (decimalParts cs).text = decimalParts cs := by
  let whole := cs.takeWhile isDigitOrSeparator
  let fraction := fractionPart (cs.drop whole.length)
  let exponent := exponentPart ((cs.drop whole.length).drop fraction.length)
  have hwhole : (whole ++ (fraction ++ exponent)).takeWhile isDigitOrSeparator = whole := by
    have hdigits : ∀ c ∈ whole, isDigitOrSeparator c := fun _ => List.mem_takeWhile_imp
    rw [List.takeWhile_append_of_pos hdigits, takeWhile_fractionPart_append, List.append_nil]
  show decimalParts (whole ++ fraction ++ exponent) = ⟨whole, fraction, exponent⟩
  unfold decimalParts
  simp only [List.append_assoc, hwhole, List.drop_left]
  rw [fractionPart_fractionPart_append, List.drop_left, exponentPart_exponentPart]

/-- A number is on one line. -/
theorem lineFeeds_decimalParts (cs : List Char) : lineFeeds (decimalParts cs).text = 0 := by
  have hrun (cs : List Char) : lineFeeds (cs.takeWhile isDigitOrSeparator) = 0 :=
    lineFeeds_takeWhile rfl
  have hfraction (cs : List Char) : lineFeeds (fractionPart cs) = 0 := by
    rw [fractionPart_eq]
    split
    · exact hrun _
    · rfl
  have hsign (cs : List Char) : lineFeeds (signPart cs) = 0 := by
    cases cs with
    | nil => rfl
    | cons c cs =>
      unfold signPart
      dsimp only
      split_ifs with hc
      · refine lineFeeds_cons_of_ne ?_
        rintro rfl
        exact absurd hc (by decide)
      · rfl
  have hexponent (cs : List Char) : lineFeeds (exponentPart cs) = 0 := by
    cases cs with
    | nil => rfl
    | cons mark cs =>
      rw [exponentPart_cons]
      split_ifs with hmark
      · rw [lineFeeds_cons_of_ne, lineFeeds_append, hsign, hrun]
        rintro rfl
        exact absurd hmark (by decide)
      · rfl
  simp only [DecimalParts.text, decimalParts, lineFeeds_append, hrun, hfraction, hexponent]

end Lexer

end LuaSugar
