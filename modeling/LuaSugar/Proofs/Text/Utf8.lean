import Mathlib
import LuaSugar.Text.Utf8
/-!
# Pieces of byte strings

The pieces of a byte string make up the byte string: a character stands
for the bytes of its encoding, and an invalid piece for its own. So what is
written piece by piece may be read piece by piece.
-/

namespace LuaSugar.Utf8

/-- The bytes that a piece stands for. -/
def Piece.bytes : Piece → List UInt8
  | .char c => String.utf8EncodeChar c
  | .invalid bytes => bytes

/-! ## Encodings of several bytes -/

section Encode

variable {b c d e : UInt8}

theorem toNat_val_ofNat {n : ℕ} (h : n.isValidChar) : (Char.ofNat n).val.toNat = n :=
  (Char.toNat_ofNat n).trans (if_pos h)

theorem ofNat_eq {n : ℕ} (h : n = b.toNat) : UInt8.ofNat n = b := by
  rw [h, UInt8.ofNat_toNat]

/-- An encoding of two bytes. -/
theorem encode_two (hb : 0xC2 ≤ b.toNat ∧ b.toNat < 0xE0) (hc : 0x80 ≤ c.toNat ∧ c.toNat ≤ 0xBF) :
    String.utf8EncodeChar (Char.ofNat (64 * (b.toNat - 0xC0) + c.toNat % 64)) = [b, c] := by
  have hvalid : (64 * (b.toNat - 0xC0) + c.toNat % 64).isValidChar := .inl (by omega)
  unfold String.utf8EncodeChar
  dsimp only
  rw [toNat_val_ofNat hvalid, if_neg (by omega), if_pos (by omega)]
  rw [ofNat_eq (b := b) (by omega), ofNat_eq (b := c) (by omega)]

/-- An encoding of three bytes, neither overlong nor a surrogate. -/
theorem encode_three (hb : 0xE0 ≤ b.toNat ∧ b.toNat < 0xF0)
    (hc : 0x80 ≤ c.toNat ∧ c.toNat ≤ 0xBF) (hd : 0x80 ≤ d.toNat ∧ d.toNat ≤ 0xBF)
    (hlow : b.toNat = 0xE0 → 0xA0 ≤ c.toNat) (hsurrogate : b.toNat = 0xED → c.toNat ≤ 0x9F) :
    String.utf8EncodeChar (Char.ofNat
      (64 * (64 * (b.toNat - 0xE0) + c.toNat % 64) + d.toNat % 64)) = [b, c, d] := by
  have hvalid : (64 * (64 * (b.toNat - 0xE0) + c.toNat % 64) + d.toNat % 64).isValidChar := by
    unfold Nat.isValidChar
    omega
  unfold String.utf8EncodeChar
  dsimp only
  rw [toNat_val_ofNat hvalid, if_neg (by omega), if_neg (by omega), if_pos (by omega)]
  rw [ofNat_eq (b := b) (by omega), ofNat_eq (b := c) (by omega), ofNat_eq (b := d) (by omega)]

/-- An encoding of four bytes, neither overlong nor past the last code
point. -/
theorem encode_four (hb : 0xF0 ≤ b.toNat ∧ b.toNat ≤ 0xF4)
    (hc : 0x80 ≤ c.toNat ∧ c.toNat ≤ 0xBF) (hd : 0x80 ≤ d.toNat ∧ d.toNat ≤ 0xBF)
    (he : 0x80 ≤ e.toNat ∧ e.toNat ≤ 0xBF) (hlow : b.toNat = 0xF0 → 0x90 ≤ c.toNat)
    (hhigh : b.toNat = 0xF4 → c.toNat ≤ 0x8F) :
    String.utf8EncodeChar (Char.ofNat (64 * (64 * (64 * (b.toNat - 0xF0) + c.toNat % 64) +
      d.toNat % 64) + e.toNat % 64)) = [b, c, d, e] := by
  have hvalid : (64 * (64 * (64 * (b.toNat - 0xF0) + c.toNat % 64) + d.toNat % 64) +
      e.toNat % 64).isValidChar := by
    unfold Nat.isValidChar
    omega
  unfold String.utf8EncodeChar
  dsimp only
  rw [toNat_val_ofNat hvalid, if_neg (by omega), if_neg (by omega), if_neg (by omega)]
  rw [ofNat_eq (b := b) (by omega), ofNat_eq (b := c) (by omega), ofNat_eq (b := d) (by omega),
    ofNat_eq (b := e) (by omega)]

end Encode

/-! ## Pieces -/

/-- A continuation is the front of the bytes. -/
theorem continuation_eq_take (low high : UInt8) : ∀ (count : ℕ) (rest : List UInt8),
    continuation low high count rest = rest.take (continuation low high count rest).length
  | 0, _ => rfl
  | _ + 1, [] => rfl
  | count + 1, b :: rest => by
    rw [continuation]
    split
    · rw [List.length_cons, List.take_succ_cons, ← continuation_eq_take]
    · rfl

/-- Bytes of a whole continuation are in range, the first in a narrow
one. -/
theorem continuation_cons {low high : UInt8} {count : ℕ} {rest : List UInt8}
    (h : (continuation low high (count + 1) rest).length = count + 1) :
    ∃ b tail, continuation low high (count + 1) rest = b :: continuation 0x80 0xBF count tail ∧
      (continuation 0x80 0xBF count tail).length = count ∧
      low.toNat ≤ b.toNat ∧ b.toNat ≤ high.toNat := by
  cases rest with
  | nil => simp [continuation] at h
  | cons b tail =>
    rw [continuation] at h ⊢
    split at h
    · rename_i hrange
      rw [if_pos hrange]
      exact ⟨b, tail, rfl, by simpa using h, UInt8.le_iff_toNat_le.1 hrange.1,
        UInt8.le_iff_toNat_le.1 hrange.2⟩
    · simp at h

/-- What first bytes say. -/
theorem lead?_eq {b : UInt8} {lead : Lead} (h : lead? b = some lead) :
    (lead.following = 1 ∧ (0xC2 ≤ b.toNat ∧ b.toNat < 0xE0) ∧ lead.bits = b.toNat - 0xC0 ∧
      lead.low = 0x80 ∧ lead.high = 0xBF) ∨
    (lead.following = 2 ∧ (0xE0 ≤ b.toNat ∧ b.toNat < 0xF0) ∧ lead.bits = b.toNat - 0xE0 ∧
      lead.low = (if b.toNat = 0xE0 then 0xA0 else 0x80) ∧
      lead.high = if b.toNat = 0xED then 0x9F else 0xBF) ∨
    (lead.following = 3 ∧ (0xF0 ≤ b.toNat ∧ b.toNat ≤ 0xF4) ∧ lead.bits = b.toNat - 0xF0 ∧
      lead.low = (if b.toNat = 0xF0 then 0x90 else 0x80) ∧
      lead.high = if b.toNat = 0xF4 then 0x8F else 0xBF) := by
  unfold lead? at h
  dsimp only at h
  split_ifs at h with h₁ h₂ h₃ h₄ h₅ h₆ h₇ h₈ <;> obtain rfl := Option.some.inj h
  · exact .inl ⟨rfl, ⟨by omega, h₂⟩, rfl, rfl, rfl⟩
  · exact .inr (.inl ⟨rfl, by omega, by simp [h₃], by simp [h₃], by simp [h₃]⟩)
  · exact .inr (.inl ⟨rfl, by omega, by simp [h₄], by simp [h₄], by simp [h₄]⟩)
  · exact .inr (.inl ⟨rfl, by omega, rfl, by simp [h₃], by simp [h₄]⟩)
  · exact .inr (.inr ⟨rfl, by omega, by simp [h₆], by simp [h₆], by simp [h₆]⟩)
  · have h₈ : b.toNat ≠ 0xF4 := by omega
    exact .inr (.inr ⟨rfl, by omega, rfl, by simp [h₆], by simp [h₈]⟩)
  · exact .inr (.inr ⟨rfl, by omega, by simp [h₈], by simp [h₈], by simp [h₈]⟩)

/-- A whole continuation completes the encoding of a character. -/
theorem encode_continuation {b : UInt8} {lead : Lead} (hlead : lead? b = some lead)
    {rest : List UInt8}
    (h : (continuation lead.low lead.high lead.following rest).length = lead.following) :
    String.utf8EncodeChar (Char.ofNat ((continuation lead.low lead.high lead.following rest).foldl
      (fun n b => 64 * n + b.toNat % 64) lead.bits)) =
      b :: continuation lead.low lead.high lead.following rest := by
  rcases lead?_eq hlead with ⟨hf, hb, hbits, hl, hh⟩ | ⟨hf, hb, hbits, hl, hh⟩ |
      ⟨hf, hb, hbits, hl, hh⟩ <;> rw [hf, hl, hh] at h <;> rw [hf, hbits, hl, hh]
  · obtain ⟨c, tail, heq, -, hlow, hhigh⟩ := continuation_cons h
    rw [heq]
    simp only [continuation, List.foldl_cons, List.foldl_nil]
    exact encode_two hb ⟨by simpa using hlow, by simpa using hhigh⟩
  · obtain ⟨c, tail, heq, h₁, hlow, hhigh⟩ := continuation_cons h
    obtain ⟨d, tail', heq', -, hd, hd'⟩ := continuation_cons h₁
    rw [heq, heq']
    simp only [continuation, List.foldl_cons, List.foldl_nil]
    refine encode_three hb ?_ ⟨by simpa using hd, by simpa using hd'⟩ (fun h => ?_) fun h => ?_
    · split_ifs at hlow hhigh <;> simp at hlow hhigh <;> omega
    · simpa [h] using hlow
    · simpa [h] using hhigh
  · obtain ⟨c, tail, heq, h₁, hlow, hhigh⟩ := continuation_cons h
    obtain ⟨d, tail', heq', h₂, hd, hd'⟩ := continuation_cons h₁
    obtain ⟨e, tail'', heq'', -, he, he'⟩ := continuation_cons h₂
    rw [heq, heq', heq'']
    simp only [continuation, List.foldl_cons, List.foldl_nil]
    refine encode_four hb ?_ ⟨by simpa using hd, by simpa using hd'⟩
      ⟨by simpa using he, by simpa using he'⟩ (fun h => ?_) fun h => ?_
    · split_ifs at hlow hhigh <;> simp at hlow hhigh <;> omega
    · simpa [h] using hlow
    · simpa [h] using hhigh

/-- **A piece stands for the bytes it was read from.** -/
theorem firstPiece_bytes (b : UInt8) (rest : List UInt8) :
    (firstPiece b rest).1.bytes = b :: rest.take (firstPiece b rest).2 := by
  unfold firstPiece
  split
  · rename_i hb
    have hlt : b.toNat < 0x80 := UInt8.lt_iff_toNat_lt.1 hb
    have hvalid : b.toNat.isValidChar := .inl (by omega)
    show String.utf8EncodeChar (Char.ofNat b.toNat) = _
    unfold String.utf8EncodeChar
    dsimp only
    rw [toNat_val_ofNat hvalid, if_pos (by omega), ofNat_eq rfl, List.take_zero]
  · cases hlead : lead? b with
    | none => rfl
    | some lead =>
      dsimp only
      have htake := continuation_eq_take lead.low lead.high lead.following rest
      split
      · rename_i hlength
        rw [← htake]
        exact encode_continuation hlead hlength
      · rw [← htake]
        rfl

/-! ## Encodings are found -/

section Find

variable {b x y z : UInt8} {rest : List UInt8}

theorem firstPiece_of_lead {lead : Lead} (hb : 0x80 ≤ b.toNat) (hlead : lead? b = some lead)
    (hlength : (continuation lead.low lead.high lead.following rest).length = lead.following) :
    ∃ d, (firstPiece b rest).1 = .char d := by
  have hlarge : ¬ b < 0x80 := fun hlt => absurd (UInt8.lt_iff_toNat_lt.1 hlt) (Nat.not_lt.2 hb)
  rw [firstPiece, if_neg hlarge, hlead]
  dsimp only
  rw [if_pos hlength]
  exact ⟨_, rfl⟩

theorem continuation_of_mem {low high : UInt8} (count : ℕ) (hlow : low.toNat ≤ x.toNat)
    (hhigh : x.toNat ≤ high.toNat) :
    continuation low high (count + 1) (x :: rest) = x :: continuation 0x80 0xBF count rest := by
  rw [continuation, if_pos ⟨UInt8.le_iff_toNat_le.2 hlow, UInt8.le_iff_toNat_le.2 hhigh⟩]

theorem continuation_of_tail (count : ℕ) (hx : 0x80 ≤ x.toNat ∧ x.toNat ≤ 0xBF) :
    continuation 0x80 0xBF (count + 1) (x :: rest) = x :: continuation 0x80 0xBF count rest :=
  continuation_of_mem count hx.1 hx.2

/-- Two bytes. -/
theorem firstPiece_two (hb : 0xC2 ≤ b.toNat ∧ b.toNat < 0xE0)
    (hx : 0x80 ≤ x.toNat ∧ x.toNat ≤ 0xBF) : ∃ d, (firstPiece b (x :: rest)).1 = .char d := by
  have hlead : lead? b = some ⟨1, 0x80, 0xBF, b.toNat - 0xC0⟩ := by
    unfold lead?
    dsimp only
    rw [if_neg (by omega), if_pos (by omega)]
  refine firstPiece_of_lead (by omega) hlead ?_
  dsimp only
  rw [continuation_of_tail 0 hx]
  rfl

theorem firstPiece_three (hb : 0xE0 ≤ b.toNat ∧ b.toNat < 0xF0)
    (hx : 0x80 ≤ x.toNat ∧ x.toNat ≤ 0xBF) (hy : 0x80 ≤ y.toNat ∧ y.toNat ≤ 0xBF)
    (hlow : b.toNat = 0xE0 → 0xA0 ≤ x.toNat) (hsurrogate : b.toNat = 0xED → x.toNat ≤ 0x9F) :
    ∃ d, (firstPiece b (x :: y :: rest)).1 = .char d := by
  have hlead : ∃ lead, lead? b = some lead := by
    unfold lead?
    dsimp only
    split_ifs <;> first | exact ⟨_, rfl⟩ | omega
  obtain ⟨lead, hlead⟩ := hlead
  refine firstPiece_of_lead (by omega) hlead ?_
  rcases lead?_eq hlead with ⟨_, h, _⟩ | ⟨hf, -, -, hl, hh⟩ | ⟨_, h, _⟩
  · omega
  · rw [hf, hl, hh, continuation_of_mem, continuation_of_tail 0 hy]
    · rfl
    · split_ifs with h
      · exact hlow h
      · exact hx.1
    · split_ifs with h
      · exact hsurrogate h
      · exact hx.2
  · omega

theorem firstPiece_four (hb : 0xF0 ≤ b.toNat ∧ b.toNat ≤ 0xF4)
    (hx : 0x80 ≤ x.toNat ∧ x.toNat ≤ 0xBF) (hy : 0x80 ≤ y.toNat ∧ y.toNat ≤ 0xBF)
    (hz : 0x80 ≤ z.toNat ∧ z.toNat ≤ 0xBF) (hlow : b.toNat = 0xF0 → 0x90 ≤ x.toNat)
    (hhigh : b.toNat = 0xF4 → x.toNat ≤ 0x8F) :
    ∃ d, (firstPiece b (x :: y :: z :: rest)).1 = .char d := by
  have hlead : ∃ lead, lead? b = some lead := by
    unfold lead?
    dsimp only
    split_ifs <;> first | exact ⟨_, rfl⟩ | omega
  obtain ⟨lead, hlead⟩ := hlead
  refine firstPiece_of_lead (by omega) hlead ?_
  rcases lead?_eq hlead with ⟨_, h, _⟩ | ⟨_, h, _⟩ | ⟨hf, -, -, hl, hh⟩
  · omega
  · omega
  · rw [hf, hl, hh, continuation_of_mem, continuation_of_tail 1 hy,
      continuation_of_tail 0 hz]
    · rfl
    · split_ifs with h
      · exact hlow h
      · exact hx.1
    · split_ifs with h
      · exact hhigh h
      · exact hx.2

/-- **An encoding is found**, whatever is behind it. Its first byte is none
of those that continue one. -/
theorem firstPiece_encode (c : Char) (rest : List UInt8) : ∃ b more,
    String.utf8EncodeChar c = b :: more ∧ (0x80 ≤ b.toNat → 0xC2 ≤ b.toNat) ∧
      ∃ d, (firstPiece b (more ++ rest)).1 = .char d := by
  have hvalid : c.val.toNat < 0xD800 ∨ 0xDFFF < c.val.toNat ∧ c.val.toNat < 0x110000 := c.valid
  -- every byte of an encoding is given by its value
  have byte {n : ℕ} (hn : n < 256) : (UInt8.ofNat n).toNat = n := by
    rw [UInt8.toNat_ofNat', Nat.mod_eq_of_lt hn]
  have last : (UInt8.ofNat (c.val.toNat % 64 + 128)).toNat = c.val.toNat % 64 + 128 :=
    byte (by omega)
  have middle : (UInt8.ofNat (c.val.toNat / 64 % 64 + 128)).toNat = c.val.toNat / 64 % 64 + 128 :=
    byte (by omega)
  unfold String.utf8EncodeChar
  dsimp only
  split_ifs with h₁ h₂ h₃
  -- one byte, then two, three and four
  · have first : (UInt8.ofNat c.val.toNat).toNat = c.val.toNat := byte (by omega)
    refine ⟨_, _, rfl, fun h => by omega, ?_⟩
    have hlt : UInt8.ofNat c.val.toNat < 0x80 := by
      rw [UInt8.lt_iff_toNat_lt, first]
      exact Nat.lt_succ_of_le h₁
    rw [firstPiece, if_pos hlt]
    exact ⟨_, rfl⟩
  · have first : (UInt8.ofNat (c.val.toNat / 64 % 32 + 192)).toNat = c.val.toNat / 64 % 32 + 192 :=
      byte (by omega)
    refine ⟨_, _, rfl, ?_, firstPiece_two ?_ ?_⟩ <;> simp only [first, last] <;> omega
  · have first : (UInt8.ofNat (c.val.toNat / 4096 % 16 + 224)).toNat =
        c.val.toNat / 4096 % 16 + 224 := byte (by omega)
    refine ⟨_, _, rfl, ?_, firstPiece_three ?_ ?_ ?_ ?_ ?_⟩ <;>
      simp only [first, middle, last] <;> omega
  · have first : (UInt8.ofNat (c.val.toNat / 262144 % 8 + 240)).toNat =
        c.val.toNat / 262144 % 8 + 240 := byte (by omega)
    have second : (UInt8.ofNat (c.val.toNat / 4096 % 64 + 128)).toNat =
        c.val.toNat / 4096 % 64 + 128 := byte (by omega)
    refine ⟨_, _, rfl, ?_, firstPiece_four ?_ ?_ ?_ ?_ ?_ ?_⟩ <;>
      simp only [first, second, middle, last] <;> omega

/-- Below `0x80` a byte of an encoding is the character's code. -/
theorem encode_ascii {c : Char} {b : UInt8} (hb : b ∈ String.utf8EncodeChar c)
    (hlt : b.toNat < 0x80) : b.toNat = c.toNat := by
  have byte {n : ℕ} (hn : n < 256) : (UInt8.ofNat n).toNat = n := by
    rw [UInt8.toNat_ofNat', Nat.mod_eq_of_lt hn]
  unfold String.utf8EncodeChar at hb
  dsimp only at hb
  split_ifs at hb with h₁ h₂ h₃ <;>
    simp only [List.mem_cons, List.not_mem_nil, or_false] at hb
  · rw [hb]
    exact byte (by omega)
  all_goals
    rcases hb with rfl | hb
    · rw [byte (by omega)] at hlt
      omega
    · rcases hb with rfl | rfl | rfl <;> rw [byte (by omega)] at hlt <;> omega

/-! ## Strays -/

/-- No character is encoded at the front of some bytes. -/
def Stray (bytes : List UInt8) : Prop := ∀ c rest, bytes ≠ String.utf8EncodeChar c ++ rest

/-- A byte that continues an encoding begins none. -/
theorem stray_of_tail {rest : List UInt8} (hb : 0x80 ≤ b.toNat ∧ b.toNat ≤ 0xBF) :
    Stray (b :: rest) := by
  intro c tail h
  obtain ⟨b', more, hencode, hfirst, -⟩ := firstPiece_encode c tail
  rw [hencode] at h
  obtain rfl := (List.cons.inj h).1
  have := hfirst hb.1
  omega

theorem mem_continuation {low high : UInt8} (hlow : 0x80 ≤ low.toNat) (hhigh : high.toNat ≤ 0xBF) :
    ∀ {count : ℕ} {rest : List UInt8}, ∀ b ∈ continuation low high count rest,
      0x80 ≤ b.toNat ∧ b.toNat ≤ 0xBF
  | 0, _, b, hb => by simp [continuation] at hb
  | _ + 1, [], b, hb => by simp [continuation] at hb
  | count + 1, c :: rest, b, hb => by
    rw [continuation] at hb
    split at hb
    · rename_i hrange
      rcases List.mem_cons.1 hb with rfl | hb
      · exact ⟨hlow.trans (UInt8.le_iff_toNat_le.1 hrange.1),
          (UInt8.le_iff_toNat_le.1 hrange.2).trans hhigh⟩
      · have hbytes : 0x80 ≤ (0x80 : UInt8).toNat ∧ (0xBF : UInt8).toNat ≤ 0xBF := by decide
        exact mem_continuation hbytes.1 hbytes.2 b hb
    · simp at hb

/-- **An invalid piece** begins where no character is encoded, and goes on
with bytes that begin none. -/
theorem firstPiece_invalid {b : UInt8} {rest bytes : List UInt8}
    (h : (firstPiece b rest).1 = .invalid bytes) : Stray (b :: rest) ∧
      ∃ tail, bytes = b :: tail ∧ ∀ x ∈ tail, 0x80 ≤ x.toNat ∧ x.toNat ≤ 0xBF := by
  refine ⟨fun c tail hencode => ?_, ?_⟩
  · obtain ⟨b', more, hfirst, -, d, hd⟩ := firstPiece_encode c tail
    rw [hfirst, List.cons_append] at hencode
    obtain ⟨rfl, rfl⟩ := List.cons.inj hencode
    rw [hd] at h
    cases h
  · unfold firstPiece at h
    split at h
    · cases h
    · split at h
      · obtain rfl := Piece.invalid.inj h
        exact ⟨[], rfl, by simp⟩
      · rename_i lead hlead
        dsimp only at h
        split at h
        · cases h
        · obtain rfl := Piece.invalid.inj h
          refine ⟨_, rfl, mem_continuation ?_ ?_⟩ <;>
            rcases lead?_eq hlead with ⟨-, -, -, hl, hh⟩ | ⟨-, -, -, hl, hh⟩ | ⟨-, -, -, hl, hh⟩
          all_goals
            first | rw [hl] | rw [hh]
            first | decide | (split <;> decide)

end Find

theorem pieces_bytes (bytes : List UInt8) : (pieces bytes).flatMap Piece.bytes = bytes := by
  induction bytes using pieces.induct with
  | case1 => simp [pieces]
  | case2 b rest piece more hfirst ih =>
    have hbytes := firstPiece_bytes b rest
    rw [hfirst] at hbytes
    rw [pieces, hfirst]
    dsimp only at hbytes ⊢
    rw [List.flatMap_cons, hbytes, ih, List.cons_append, List.take_append_drop]

theorem flatMap_of_mapM_char? : ∀ {pieces : List Piece} {cs : List Char},
    pieces.mapM Piece.char? = some cs → cs.flatMap String.utf8EncodeChar = pieces.flatMap Piece.bytes
  | [], cs, h => by
    obtain rfl : [] = cs := by simpa using h
    rfl
  | piece :: pieces, cs, h => by
    rw [List.mapM_cons] at h
    obtain ⟨c, hc, h⟩ := Option.bind_eq_some_iff.1 h
    obtain ⟨rest, hrest, h⟩ := Option.bind_eq_some_iff.1 h
    obtain rfl := Option.some.inj h
    cases piece with
    | invalid bytes => cases hc
    | char d =>
      obtain rfl := Option.some.inj hc
      rw [List.flatMap_cons, List.flatMap_cons, flatMap_of_mapM_char? hrest]
      rfl

/-- **What was decoded is encoded as it was.** -/
theorem encode_of_decode? {bytes : List UInt8} {text : String} (h : decode? bytes = some text) :
    encode text = bytes := by
  obtain ⟨cs, hcs, rfl⟩ := Option.map_eq_some_iff.1 h
  rw [encode, String.toList_ofList, flatMap_of_mapM_char? hcs, pieces_bytes]

/-! ## Texts are read back -/

/-- Bytes begin with the encoding of one character at most. -/
theorem encodeChar_append_inj {c d : Char} {l l' : List UInt8}
    (h : String.utf8EncodeChar c ++ l = String.utf8EncodeChar d ++ l') : c = d ∧ l = l' := by
  have hdecoded := congrArg (fun l => l.toByteArray.utf8DecodeChar? 0) h
  simp only [List.toByteArray_append, ByteArray.utf8DecodeChar?_utf8EncodeChar_append] at hdecoded
  obtain rfl := Option.some.inj hdecoded
  exact ⟨rfl, List.append_cancel_left h⟩

theorem pieces_encodeChar (c : Char) (rest : List UInt8) :
    pieces (String.utf8EncodeChar c ++ rest) = .char c :: pieces rest := by
  obtain ⟨b, more, hencode, -, d, hfirst⟩ := firstPiece_encode c rest
  have hbytes := firstPiece_bytes b (more ++ rest)
  rw [hfirst] at hbytes
  have hall : String.utf8EncodeChar d ++ (more ++ rest).drop (firstPiece b (more ++ rest)).2 =
      String.utf8EncodeChar c ++ rest := by
    rw [hencode, show String.utf8EncodeChar d = _ from hbytes, List.cons_append, List.take_append_drop]
    rfl
  obtain ⟨rfl, hrest⟩ := encodeChar_append_inj hall
  rw [hencode, List.cons_append, pieces]
  dsimp only
  rw [hfirst, hrest]

/-- **What was encoded is decoded as it was.** -/
theorem decode?_encode (text : String) : decode? (encode text) = some text := by
  have hpieces : ∀ cs : List Char,
      (pieces (cs.flatMap String.utf8EncodeChar)).mapM Piece.char? = some cs := by
    intro cs
    induction cs with
    | nil => simp [pieces]
    | cons c cs ih =>
      rw [List.flatMap_cons, pieces_encodeChar, List.mapM_cons, ih]
      rfl
  rw [decode?, encode, hpieces, Option.map_some, String.ofList_toList]

theorem decode?_eq_some_iff {bytes : List UInt8} {text : String} :
    decode? bytes = some text ↔ bytes = encode text :=
  ⟨fun h => (encode_of_decode? h).symm, fun h => h ▸ decode?_encode text⟩

end LuaSugar.Utf8
