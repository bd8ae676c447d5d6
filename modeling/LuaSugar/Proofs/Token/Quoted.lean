import Mathlib
import LuaSugar.Proofs.Token.Written
/-!
# Byte strings between quotes

What stands between the quotes of a written byte string, and what is read
of it. Bytes are written character by character where they encode text;
there, only ASCII control characters, the quote and the backslash are
escaped. A byte at which no character is encoded is escaped as a number.
Hence a written byte string is one line of visible text, and it is read
back as the same bytes, whether they are text or not.
-/

namespace LuaSugar

open Lexer

/-- The characters that are escaped between quotes. -/
def Char.IsEscaped (c : Char) : Prop := c.toNat < 0x20 ∨ c.toNat = 0x7F ∨ c = '"' ∨ c = '\\'

/-- **What is written between quotes** for a byte string. Characters are
read off from the front, and where there is none a byte is. -/
inductive Quoting : List UInt8 → List Char → Prop
  | nil : Quoting [] []
  /-- A character that stands for itself. -/
  | plain {c rest text} : ¬ Char.IsEscaped c → Quoting rest text →
      Quoting (String.utf8EncodeChar c ++ rest) (c :: text)
  /-- A control character, a quote or a backslash. -/
  | escaped {c rest text} : Char.IsEscaped c → Quoting rest text →
      Quoting (String.utf8EncodeChar c ++ rest) (quoteChar c ++ text)
  /-- A byte at which no character is encoded. -/
  | stray {b rest text} : Utf8.Stray (b :: rest) → Quoting rest text →
      Quoting (b :: rest) (decimalEscape b.toNat ++ text)

/-- Other characters stand for themselves. -/
theorem quoteChar_of_not_isEscaped {c : Char} (h : ¬ Char.IsEscaped c) : quoteChar c = [c] := by
  simp only [Char.IsEscaped, not_or] at h
  unfold quoteChar
  split
  · exact absurd rfl h.2.2.1
  · exact absurd rfl h.2.2.2
  · exact absurd (by decide) h.1
  · exact absurd (by decide) h.1
  · exact absurd (by decide) h.1
  · exact if_neg (by omega)

theorem Quoting.char (c : Char) {rest : List UInt8} {text : List Char} (h : Quoting rest text) :
    Quoting (String.utf8EncodeChar c ++ rest) (quoteChar c ++ text) := by
  by_cases hc : Char.IsEscaped c
  · exact .escaped hc h
  · rw [quoteChar_of_not_isEscaped hc]
    exact .plain hc h

/-- Bytes that continue an encoding, where none has begun. -/
theorem Quoting.tail {tail rest : List UInt8} {text : List Char}
    (htail : ∀ x ∈ tail, 0x80 ≤ x.toNat ∧ x.toNat ≤ 0xBF) (h : Quoting rest text) :
    Quoting (tail ++ rest) ((tail.flatMap fun b => decimalEscape b.toNat) ++ text) := by
  induction tail with
  | nil => exact h
  | cons b tail ih =>
    rw [List.forall_mem_cons] at htail
    rw [List.cons_append, List.flatMap_cons, List.append_assoc]
    exact .stray (Utf8.stray_of_tail htail.1) (ih htail.2)

/-- **Pieces are written as they are told apart.** -/
theorem quoting_pieces (bytes : List UInt8) :
    Quoting bytes ((Utf8.pieces bytes).flatMap quotePiece) := by
  induction bytes using Utf8.pieces.induct with
  | case1 =>
    rw [Utf8.pieces]
    exact .nil
  | case2 b rest piece more hfirst ih =>
    have hbytes := Utf8.firstPiece_bytes b rest
    rw [hfirst] at hbytes
    have hsplit : b :: rest = piece.bytes ++ rest.drop more := by
      rw [hbytes, List.cons_append, List.take_append_drop]
    rw [Utf8.pieces, hfirst, List.flatMap_cons]
    cases piece with
    | char c =>
      rw [hsplit]
      exact .char c ih
    | invalid bytes =>
      obtain ⟨hstray, tail, rfl, htail⟩ := Utf8.firstPiece_invalid (congrArg Prod.fst hfirst)
      have hrest : rest = tail ++ rest.drop more := (List.cons.inj hsplit).2
      have htail := ih.tail htail
      rw [← hrest] at htail
      rw [quotePiece, List.flatMap_cons, List.append_assoc]
      exact .stray hstray htail

/-! ## Visible text -/

/-- No control character of ASCII. -/
def Char.IsVisible (c : Char) : Prop := 0x20 ≤ c.toNat ∧ c.toNat ≠ 0x7F

theorem isVisible_of_isDigit {c : Char} (h : c.isDigit) : Char.IsVisible c := by
  simp only [Char.isDigit, Bool.and_eq_true, decide_eq_true_eq, UInt32.le_iff_toNat_le] at h
  have hlow : 48 ≤ c.toNat := h.1
  have hhigh : c.toNat ≤ 57 := h.2
  exact ⟨by omega, by omega⟩

theorem isVisible_decimalEscape (b : UInt8) : ∀ c ∈ decimalEscape b.toNat, Char.IsVisible c := by
  obtain ⟨x, y, z, htext, ⟨hx, hy, hz⟩, -⟩ := decimalEscape_eq b.toNat b.toNat_lt
  rw [htext]
  simp only [List.forall_mem_cons]
  exact ⟨⟨by decide, by decide⟩, isVisible_of_isDigit hx, isVisible_of_isDigit hy,
    isVisible_of_isDigit hz, by simp⟩

theorem isVisible_quoteChar (c : Char) : ∀ d ∈ quoteChar c, Char.IsVisible d := by
  unfold quoteChar
  split
  any_goals
    simp only [List.forall_mem_cons]
    exact ⟨⟨by decide, by decide⟩, ⟨by decide, by decide⟩, by simp⟩
  split
  · have hbyte : (UInt8.ofNat c.toNat).toNat = c.toNat := by
      rw [UInt8.toNat_ofNat', Nat.mod_eq_of_lt (by omega)]
    rw [← hbyte]
    exact isVisible_decimalEscape _
  · rw [List.forall_mem_singleton]
    exact ⟨by omega, by omega⟩

theorem Quoting.isVisible {bytes : List UInt8} {text : List Char} (h : Quoting bytes text) :
    ∀ c ∈ text, Char.IsVisible c := by
  induction h with
  | nil => simp
  | plain hc _ ih =>
    simp only [Char.IsEscaped, not_or] at hc
    exact List.forall_mem_cons.2 ⟨⟨by omega, hc.2.1⟩, ih⟩
  | escaped _ _ ih => exact List.forall_mem_append.2 ⟨isVisible_quoteChar _, ih⟩
  | stray _ _ ih => exact List.forall_mem_append.2 ⟨isVisible_decimalEscape _, ih⟩

/-- The bytes of visible text are visible. -/
theorem visible_of_mem_encode {text : String} (h : ∀ c ∈ text.toList, Char.IsVisible c) :
    ∀ b ∈ Utf8.encode text, 0x20 ≤ b.toNat ∧ b.toNat ≠ 0x7F := by
  intro b hb
  obtain ⟨c, hc, hb⟩ := List.mem_flatMap.1 hb
  by_cases hlt : b.toNat < 0x80
  · rw [Utf8.encode_ascii hb hlt]
    exact h c hc
  · exact ⟨by omega, by omega⟩

/-! ## Reading -/

/-- White space is scanned up to its end. -/
theorem scan_space {line : ℕ} {c : Char} {cs more : List Char} (hc : isSpace c)
    (hmore : cs.takeWhile isSpace = more) : scan line c cs =
      .ok ⟨.whitespace (String.ofList (c :: more)), .plain, more.length, lineFeeds (c :: more)⟩ := by
  rw [scan, if_pos hc, scanWhitespace, List.takeWhile_cons_of_pos hc, hmore]
  rfl

/-- **A blank in front** of some text is white space of its own, or part of
the white space that the text begins with. -/
theorem tokensFrom_blank {line : ℕ} {cs : List Char} {tokens : List Token}
    (h : tokensFrom line cs = .ok tokens) : ∃ blank rest,
    tokensFrom line (' ' :: cs) = .ok (⟨.whitespace (" " ++ blank), line, .plain⟩ :: rest) ∧
      if blank = "" then tokens = rest
      else tokens = ⟨.whitespace blank, line, .plain⟩ :: rest := by
  cases hspace : cs.takeWhile isSpace with
  | nil =>
    refine ⟨"", tokens, ?_, by simp⟩
    rw [tokensFrom, scan_space (by decide) hspace]
    simp [bind, Except.bind, lineFeeds, h]
  | cons c more =>
    obtain ⟨cs, rfl⟩ : ∃ cs', cs = c :: cs' := by
      cases cs with
      | nil => simp at hspace
      | cons d cs =>
        by_cases hd : isSpace d
        · rw [List.takeWhile_cons_of_pos hd] at hspace
          exact ⟨cs, by rw [(List.cons.inj hspace).1]⟩
        · simp [hd] at hspace
    have hc : isSpace c := List.mem_takeWhile_imp (hspace ▸ List.mem_cons_self)
    have hmore : cs.takeWhile isSpace = more := by
      rw [List.takeWhile_cons_of_pos hc] at hspace
      exact (List.cons.inj hspace).2
    -- what is behind the white space is the same in both readings
    rw [tokensFrom, scan_space hc hmore] at h
    simp only [bind, Except.bind] at h
    split at h
    · cases h
    · rename_i rest hrest
      obtain rfl := Except.ok.inj h
      refine ⟨String.ofList (c :: more), rest, ?_, ?_⟩
      · rw [tokensFrom, scan_space (by decide) hspace]
        have hfeeds : lineFeeds (' ' :: c :: more) = lineFeeds (c :: more) := by
          rw [lineFeeds, List.count_cons_of_ne (by decide)]
          rfl
        have hblank : String.ofList (' ' :: c :: more) = " " ++ String.ofList (c :: more) := by
          simp
        simp only [bind, Except.bind, hfeeds, hblank, List.length_cons, List.drop_succ_cons, hrest]
      · rw [if_neg (by simp)]

/-- **Byte strings round-trip.** A byte string in quotes, with a blank and
any text that has tokens behind it, is read as one string of those bytes on
the first line, white space on the first line, and the tokens of the text,
of which leading white space is joined to the blank. There is no control
character in what is written, and what is escaped are the ASCII control
characters, quotes and backslashes of the characters that the bytes encode,
and the bytes that encode none. -/
theorem tokenize_quoteBytes (bytes : List UInt8) {source : String} {tokens : List Token}
    (h : tokenize source = .ok tokens) :
    (∃ blank rest, tokenize (quoteBytes bytes ++ " " ++ source) =
        .ok (⟨.string bytes, 1, .quoted '"'⟩ :: ⟨.whitespace (" " ++ blank), 1, .plain⟩ :: rest) ∧
      if blank = "" then tokens = rest else tokens = ⟨.whitespace blank, 1, .plain⟩ :: rest) ∧
    (∀ b ∈ Utf8.encode (quoteBytes bytes), 0x20 ≤ b.toNat ∧ b.toNat ≠ 0x7F) ∧
    ∃ text, quoteBytes bytes = String.ofList ('"' :: text ++ ['"']) ∧ Quoting bytes text := by
  refine ⟨?_, visible_of_mem_encode ?_, _, rfl, quoting_pieces bytes⟩
  · obtain ⟨cs, htext, hscan⟩ := scan_quoteBytes bytes
    obtain ⟨blank, rest, hblank, hrest⟩ := tokensFrom_blank h
    refine ⟨blank, rest, ?_, hrest⟩
    have hsource : (quoteBytes bytes ++ " " ++ source).toList =
        '"' :: (cs ++ ' ' :: source.toList) := by
      simp [htext]
    rw [tokenize, hsource, tokensFrom, hscan]
    simp [bind, Except.bind, hblank]
  · rw [quoteBytes, String.toList_ofList]
    simp only [List.cons_append, List.forall_mem_cons, List.forall_mem_append]
    exact ⟨⟨by decide, by decide⟩, (quoting_pieces bytes).isVisible,
      ⟨by decide, by decide⟩, by simp⟩

/-- An encoding that breaks off before a digit. -/
theorem tokenize_quoteBytes_truncated :
    quoteBytes [0xE2, 0x82, 0x31] = "\"\\226\\1301\"" ∧
      tokenize (quoteBytes [0xE2, 0x82, 0x31] ++ " " ++ "x") =
        .ok [⟨.string [0xE2, 0x82, 0x31], 1, .quoted '"'⟩, ⟨.whitespace " ", 1, .plain⟩,
          ⟨.name "x", 1, .plain⟩] := by
  have htokens : tokenize "x" = .ok [⟨.name "x", 1, .plain⟩] := by
    decide +kernel
  obtain ⟨⟨blank, rest, hread, hrest⟩, -⟩ := tokenize_quoteBytes [0xE2, 0x82, 0x31] htokens
  refine ⟨by decide +kernel, ?_⟩
  rw [hread]
  split at hrest
  · rename_i hblank
    rw [hblank, ← hrest]
    rfl
  · simp at hrest

end LuaSugar
