import Mathlib
import LuaSugar.Proofs.Text.Utf8
import LuaSugar.Proofs.Token.Lines
/-!
# A text byte by byte

A text may be read one byte at a time, each byte taken for the character
with its value. Characters of one byte are read as they are, and of any
other character there is no byte that looks like one of them. So whoever
looks only for characters of one byte finds the same either way, and stops
between characters.
-/

namespace LuaSugar

namespace Lexer

variable {line level : ℕ} {c d : Char} {cs front rest : List Char} {p : Char → Bool}

/-! ## Bytes as characters -/

/-- The bytes of a text, each read as the character with its value. -/
def bytewise (cs : List Char) : List Char := (cs.flatMap String.utf8EncodeChar).map Char.ofUInt8

/-- Characters of one byte. -/
def IsAscii (c : Char) : Prop := c.toNat < 0x80

instance (c : Char) : Decidable (IsAscii c) := inferInstanceAs (Decidable (_ < _))

/-- A byte is found again in its character. -/
theorem toUInt8_ofUInt8 (b : UInt8) : (Char.ofUInt8 b).toUInt8 = b := by
  simp [Char.toUInt8, Char.ofUInt8]

theorem toNat_ofUInt8 (b : UInt8) : (Char.ofUInt8 b).toNat = b.toNat := by
  simp [Char.toNat, Char.ofUInt8]

/-- A text without characters has no bytes. -/
@[simp] theorem bytewise_nil : bytewise [] = [] := rfl

/-- Bytes of texts stand behind each other as the texts do. -/
theorem bytewise_append (cs ds : List Char) : bytewise (cs ++ ds) = bytewise cs ++ bytewise ds := by
  simp [bytewise]

theorem bytewise_cons (c : Char) (cs : List Char) :
    bytewise (c :: cs) = bytewise [c] ++ bytewise cs :=
  bytewise_append [c] cs

/-- A character of one byte is that byte. -/
theorem bytewise_ascii (h : IsAscii c) (cs : List Char) :
    bytewise (c :: cs) = c :: bytewise cs := by
  have hone : c.utf8Size = 1 := Char.utf8Size_eq_one_iff.2 (by
    rw [UInt32.le_iff_toNat_le]
    exact Nat.le_of_lt_succ h)
  have hself : Char.ofUInt8 c.val.toUInt8 = c := by
    refine Char.toNat_inj.1 ?_
    rw [toNat_ofUInt8, UInt32.toNat_toUInt8]
    exact Nat.mod_eq_of_lt (h.trans (by decide))
  rw [bytewise, List.flatMap_cons, String.utf8EncodeChar_eq_singleton hone, List.map_append,
    List.map_singleton, hself]
  rfl

/-- The bytes of any other character look like none of one byte. -/
theorem not_isAscii_of_mem (h : ¬ IsAscii c) (hd : d ∈ bytewise [c]) : ¬ IsAscii d := by
  obtain ⟨b, hb, rfl⟩ := List.mem_map.1 hd
  rw [List.flatMap_singleton] at hb
  intro hlt
  rw [IsAscii, toNat_ofUInt8] at hlt
  exact h ((Utf8.encode_ascii hb hlt).symm.trans_lt hlt)

/-- Every character has a byte at least. -/
theorem bytewise_singleton_ne_nil (c : Char) : bytewise [c] ≠ [] := by
  simp [bytewise]

/-- An ASCII text is its bytes. -/
theorem bytewise_of_ascii (h : ∀ c ∈ cs, IsAscii c) : bytewise cs = cs := by
  induction cs with
  | nil => rfl
  | cons c cs ih =>
    obtain ⟨hc, hcs⟩ := List.forall_mem_cons.1 h
    rw [bytewise_ascii hc, ih hcs]

/-- **The bytes are those of UTF-8.** -/
theorem map_toUInt8_bytewise (cs : List Char) :
    (bytewise cs).map Char.toUInt8 = cs.flatMap String.utf8EncodeChar := by
  rw [bytewise, List.map_map]
  exact (List.map_congr_left fun b _ => toUInt8_ofUInt8 b).trans (List.map_id _)

/-- **What is at the front** of a text, and of its bytes. -/
theorem bytewise_cases (cs : List Char) : cs = [] ∨
    (∃ c rest, IsAscii c ∧ cs = c :: rest ∧ bytewise cs = c :: bytewise rest) ∨
    ∃ c d more rest, ¬ IsAscii c ∧ cs = c :: rest ∧ (∀ b ∈ d :: more, ¬ IsAscii b) ∧
      bytewise [c] = d :: more ∧ bytewise cs = d :: (more ++ bytewise rest) := by
  cases cs with
  | nil => exact .inl rfl
  | cons c rest =>
    by_cases hc : IsAscii c
    · exact .inr (.inl ⟨c, rest, hc, rfl, bytewise_ascii hc rest⟩)
    · obtain ⟨d, more, hbytes⟩ := List.exists_cons_of_ne_nil (bytewise_singleton_ne_nil c)
      refine .inr (.inr ⟨c, d, more, rest, hc, rfl, fun b hb => ?_, hbytes, ?_⟩)
      · exact not_isAscii_of_mem hc (hbytes ▸ hb)
      · rw [bytewise_cons, hbytes]
        rfl

/-! ## Looking for characters of one byte -/

/-- An ASCII character stands in front of the text if it does of the bytes. -/
theorem head?_bytewise (hd : IsAscii d) (cs : List Char) :
    (bytewise cs).head? = some d ↔ cs.head? = some d := by
  rcases bytewise_cases cs with rfl | ⟨c, rest, -, rfl, hbytes⟩ |
    ⟨c, b, more, rest, hc, rfl, hmore, -, hbytes⟩
  · rfl
  · rw [hbytes]
    rfl
  · rw [hbytes, List.head?_cons, List.head?_cons]
    refine ⟨fun h => ?_, fun h => ?_⟩
    · exact absurd (Option.some.inj h ▸ hd) (hmore b List.mem_cons_self)
    · exact absurd (Option.some.inj h ▸ hd) hc

/-- A class of characters that has all bytes of a character or none. -/
def Whole (p : Char → Bool) : Prop := ∀ c, ∀ d ∈ bytewise [c], p d = p c

/-- A class of ASCII characters has no part of a longer one. -/
theorem whole_of_ascii (h : ∀ c, p c → IsAscii c) : Whole p := by
  intro c d hd
  by_cases hc : IsAscii c
  · rw [bytewise_ascii hc] at hd
    rw [List.mem_singleton.1 hd]
  · have hd := not_isAscii_of_mem hc hd
    rw [Bool.eq_false_iff.2 fun hp => hc (h c hp), Bool.eq_false_iff.2 fun hp => hd (h d hp)]

/-- A whole class is seen at the front of either. -/
theorem any_head?_bytewise (h : Whole p) (cs : List Char) :
    (bytewise cs).head?.any p = cs.head?.any p := by
  rcases bytewise_cases cs with rfl | ⟨c, rest, -, rfl, hbytes⟩ |
    ⟨c, b, more, rest, -, rfl, -, hself, hbytes⟩
  · rfl
  · rw [hbytes]
    rfl
  · rw [hbytes]
    exact h c b (hself ▸ List.mem_cons_self)

/-- **A run** of such a class is a run of whole characters. -/
theorem takeWhile_bytewise (h : Whole p) (cs : List Char) :
    (bytewise cs).takeWhile p = bytewise (cs.takeWhile p) := by
  induction cs with
  | nil => rfl
  | cons c cs ih =>
    rw [bytewise_cons]
    by_cases hc : p c = true
    · rw [List.takeWhile_append_of_pos fun d hd => (h c d hd).trans hc, ih,
        List.takeWhile_cons_of_pos hc, ← bytewise_cons]
    · obtain ⟨d, more, hbytes⟩ := List.exists_cons_of_ne_nil (bytewise_singleton_ne_nil c)
      have hd : p d = p c := h c d (hbytes ▸ List.mem_cons_self)
      rw [List.takeWhile_cons_of_neg hc, hbytes, List.cons_append,
        List.takeWhile_cons_of_neg (hd ▸ hc)]
      rfl

/-- A run, and what is behind it. -/
theorem run_split (p : Char → Bool) (cs : List Char) :
    cs = cs.takeWhile p ++ cs.drop (cs.takeWhile p).length :=
  (List.prefix_iff_eq_append.1 (List.takeWhile_prefix p)).symm

theorem isAscii_of_mem_takeWhile (h : ∀ c, p c → IsAscii c) : ∀ c ∈ cs.takeWhile p, IsAscii c :=
  fun c hc => h c (List.mem_takeWhile_imp hc)

/-- A run of ASCII characters is the same in both. -/
theorem takeWhile_bytewise_ascii (h : ∀ c, p c → IsAscii c) (cs : List Char) :
    (bytewise cs).takeWhile p = cs.takeWhile p := by
  rw [takeWhile_bytewise (whole_of_ascii h), bytewise_of_ascii (isAscii_of_mem_takeWhile h)]

/-- What is behind some characters of one byte. -/
theorem drop_bytewise (hfront : front <+: cs) (h : ∀ c ∈ front, IsAscii c) :
    (bytewise cs).drop front.length = bytewise (cs.drop front.length) := by
  obtain ⟨rest, rfl⟩ := hfront
  rw [bytewise_append, bytewise_of_ascii h, List.drop_left, List.drop_left]

/-- An ASCII front of the bytes is one of the text. -/
theorem front_bytewise_iff (h : ∀ c ∈ front, IsAscii c) : front <+: bytewise cs ↔ front <+: cs := by
  induction front generalizing cs with
  | nil => simp
  | cons d front ih =>
    obtain ⟨hd, hfront⟩ := List.forall_mem_cons.1 h
    rcases bytewise_cases cs with rfl | ⟨c, rest, -, rfl, hbytes⟩ |
      ⟨c, b, more, rest, hc, rfl, hmore, -, hbytes⟩
    · rfl
    · rw [hbytes, List.cons_prefix_cons, List.cons_prefix_cons, ih hfront]
    · rw [hbytes, List.cons_prefix_cons, List.cons_prefix_cons]
      refine ⟨fun h => ?_, fun h => ?_⟩
      · exact absurd (h.1 ▸ hd) (hmore b List.mem_cons_self)
      · exact absurd (h.1 ▸ hd) hc

/-- There are as many line feeds among the bytes. -/
theorem lineFeeds_bytewise (cs : List Char) : lineFeeds (bytewise cs) = lineFeeds cs := by
  induction cs with
  | nil => rfl
  | cons c cs ih =>
    rw [bytewise_cons, lineFeeds_append, ih, ← List.singleton_append (l := cs), lineFeeds_append]
    congr 1
    by_cases hc : IsAscii c
    · rw [bytewise_ascii hc]
      rfl
    · rw [lineFeeds, lineFeeds, List.count_eq_zero.2, List.count_eq_zero.2]
      · exact fun h => hc (List.mem_singleton.1 h ▸ by decide)
      · exact fun h => not_isAscii_of_mem hc h (by decide)

theorem isAscii_of_isSpace (h : isSpace c = true) : IsAscii c := by
  simp only [isSpace, Bool.or_eq_true, beq_iff_eq] at h
  rcases h with ((((rfl | rfl) | rfl) | rfl) | rfl) | rfl <;> decide

/-- Below an ASCII character there are only others. -/
theorem isAscii_of_le (hd : IsAscii d) (h : c.val ≤ d.val) : IsAscii c :=
  (UInt32.le_iff_toNat_le.1 h).trans_lt hd

theorem isAscii_of_isPart (h : Word.isPart c = true) : IsAscii c := by
  simp only [Word.isPart, Char.isAlphanum, Char.isAlpha, Char.isUpper, Char.isLower, Char.isDigit,
    Bool.or_eq_true, Bool.and_eq_true, decide_eq_true_eq, beq_iff_eq] at h
  rcases h with ((⟨-, h⟩ | ⟨-, h⟩) | ⟨-, h⟩) | rfl
  · exact isAscii_of_le (d := 'Z') (by decide) h
  · exact isAscii_of_le (d := 'z') (by decide) h
  · exact isAscii_of_le (d := '9') (by decide) h
  · decide

theorem isAscii_of_isDigit (h : c.isDigit = true) : IsAscii c :=
  isAscii_of_isPart (by simp [Word.isPart, Char.isAlphanum, h])

theorem isAscii_of_isDigitOrSeparator (h : isDigitOrSeparator c = true) : IsAscii c := by
  rw [isDigitOrSeparator, Bool.or_eq_true, beq_iff_eq] at h
  rcases h with h | rfl
  · exact isAscii_of_isDigit h
  · decide

/-- Hexadecimal digits are ASCII. -/
theorem isAscii_of_hexValue? (h : (hexValue? c).isSome = true) : IsAscii c := by
  unfold hexValue? at h
  split_ifs at h with hdigit hlower hupper
  · exact isAscii_of_isDigit hdigit
  · exact isAscii_of_le (d := 'f') (by decide) hlower.2
  · exact isAscii_of_le (d := 'F') (by decide) hupper.2
  · cases h

theorem isAscii_of_beq (hd : IsAscii d) : ∀ c, (c == d) = true → IsAscii c := by
  rintro c h
  rwa [beq_iff_eq.1 h]

/-! ## Scanners that look for characters of one byte -/

/-- Behind an ASCII character the text goes on as its bytes do. -/
theorem tail_bytewise (h : cs.head? = some d) (hd : IsAscii d) :
    (bytewise cs).tail = bytewise cs.tail := by
  obtain ⟨rest, rfl⟩ := List.head?_eq_some_iff.1 h
  rw [bytewise_ascii hd]
  rfl

/-- What is behind a run of characters of one byte. -/
theorem drop_takeWhile_bytewise (h : ∀ c, p c → IsAscii c) (cs : List Char) :
    (bytewise cs).drop (cs.takeWhile p).length = bytewise (cs.drop (cs.takeWhile p).length) :=
  drop_bytewise (List.takeWhile_prefix _) (isAscii_of_mem_takeWhile h)

theorem head?_ne (h : ∀ rest, cs = d :: rest → False) : cs.head? ≠ some d := fun hd =>
  have ⟨rest, hrest⟩ := List.head?_eq_some_iff.1 hd
  h rest hrest

/-- The level of a long opening, read off the run of equals signs. -/
theorem longLevel?_eq (cs : List Char) : longLevel? cs =
    if (cs.drop (cs.takeWhile (· == '=')).length).head? = some '[' then
      some (cs.takeWhile (· == '=')).length
    else none := by
  unfold longLevel?
  dsimp only
  split
  · rename_i hdrop
    simp [hdrop]
  · rename_i hopen
    rw [if_neg (head?_ne hopen)]

/-- A long opening is seen among the bytes. -/
theorem longLevel?_bytewise (cs : List Char) : longLevel? (bytewise cs) = longLevel? cs := by
  have hsign := isAscii_of_beq (d := '=') (by decide)
  rw [longLevel?_eq, longLevel?_eq, takeWhile_bytewise_ascii hsign, drop_takeWhile_bytewise hsign]
  simp only [head?_bytewise (d := '[') (by decide)]

theorem commentLevel?_eq (cs : List Char) : commentLevel? cs =
    if cs.head? = some '[' then longLevel? cs.tail else none := by
  unfold commentLevel?
  split
  · rfl
  · rename_i hopen
    rw [if_neg (head?_ne hopen)]

/-- So is the opening of a long comment. -/
theorem commentLevel?_bytewise (cs : List Char) :
    commentLevel? (bytewise cs) = commentLevel? cs := by
  rw [commentLevel?_eq, commentLevel?_eq]
  simp only [head?_bytewise (d := '[') (by decide)]
  split
  · rename_i hopen
    rw [tail_bytewise hopen (by decide), longLevel?_bytewise]
  · rfl

theorem closesLong_bytewise (level : ℕ) (cs : List Char) :
    closesLong level (bytewise cs) = closesLong level cs := by
  refine Bool.eq_iff_iff.2 ?_
  rw [closesLong, closesLong, List.isPrefixOf_iff_prefix, List.isPrefixOf_iff_prefix]
  refine front_bytewise_iff fun c hc => ?_
  rcases List.mem_append.1 hc with hc | hc
  · rw [List.eq_of_mem_replicate hc]
    decide
  · rw [List.mem_singleton.1 hc]
    decide

/-- Bytes that cannot close a bracket belong to its body. -/
theorem longBody?_append_of_not_mem {bytes : List Char} (h : ']' ∉ bytes) (cs : List Char) :
    longBody? level (bytes ++ cs) = (longBody? level cs).map (bytes ++ ·) := by
  induction bytes with
  | nil => simp
  | cons b bytes ih =>
    obtain ⟨hb, hbytes⟩ := List.ne_and_not_mem_of_not_mem_cons h
    rw [List.cons_append, longBody?, if_neg (by simp [Ne.symm hb]), ih hbytes, Option.map_map]
    rfl

/-- **The body of a long string** ends among the bytes where it ends in the
text: the bracket that closes it is ASCII. -/
theorem longBody?_bytewise (level : ℕ) (cs : List Char) :
    longBody? level (bytewise cs) = (longBody? level cs).map bytewise := by
  induction cs with
  | nil => rfl
  | cons c cs ih =>
    rw [longBody?]
    by_cases hc : IsAscii c
    · rw [bytewise_ascii hc, longBody?, closesLong_bytewise, ih]
      split
      · rfl
      · rw [Option.map_map, Option.map_map]
        refine congrArg (Option.map · _) (funext fun body => ?_)
        exact (bytewise_ascii hc body).symm
    · have hclose : ¬ (c == ']' && closesLong level cs) = true := by
        rw [Bool.and_eq_true, beq_iff_eq]
        rintro ⟨rfl, -⟩
        exact hc (by decide)
      rw [bytewise_cons, longBody?_append_of_not_mem, ih, if_neg hclose, Option.map_map,
        Option.map_map]
      · exact congrArg (Option.map · _) (funext fun body => (bytewise_cons c body).symm)
      · exact fun h => not_isAscii_of_mem hc h (by decide)

theorem leadingBreak_eq (cs : List Char) : leadingBreak cs =
    if cs.head? = some '\r' then
      if cs.tail.head? = some '\n' then ['\r', '\n'] else ['\r']
    else if cs.head? = some '\n' then ['\n'] else [] := by
  unfold leadingBreak
  split
  · rfl
  · rename_i rest hbreak
    have hnext : rest.head? ≠ some '\n' := head?_ne fun more heq => hbreak more (by rw [heq])
    simp [hnext]
  · rfl
  · rename_i hboth hreturn hfeed
    rw [if_neg (head?_ne hreturn), if_neg (head?_ne hfeed)]

/-- A line break in front is the same in both. -/
theorem leadingBreak_bytewise (cs : List Char) : leadingBreak (bytewise cs) = leadingBreak cs := by
  rw [leadingBreak_eq, leadingBreak_eq]
  simp only [head?_bytewise (d := '\r') (by decide), head?_bytewise (d := '\n') (by decide)]
  split
  · rename_i hreturn
    simp only [tail_bytewise hreturn (by decide), head?_bytewise (d := '\n') (by decide)]
  · rfl

theorem isAscii_of_mem_leadingBreak : ∀ c ∈ leadingBreak cs, IsAscii c := by
  rw [leadingBreak_eq]
  split_ifs <;> simp [IsAscii]

/-! ## Escapes -/

theorem hexValue?_eq_none (h : ¬ IsAscii c) : hexValue? c = none := by
  by_contra hvalue
  exact h (isAscii_of_hexValue? (Option.isSome_iff_ne_none.2 hvalue))

/-- Without a first digit there is no escape. -/
theorem hexEscape_eq_error (h : hexValue? c = none) (cs : List Char) :
    hexEscape line (c :: cs) = .error ⟨line, .hexDigitExpected⟩ := by
  rw [hexEscape_eq]
  cases cs with
  | nil => rfl
  | cons d cs => simp [h]

/-- Two digits are read, or their lack is noticed at the same character. -/
theorem hexEscape_bytewise (line : ℕ) (cs : List Char) :
    hexEscape line (bytewise cs) = hexEscape line cs := by
  rcases bytewise_cases cs with rfl | ⟨a, rest, -, rfl, hbytes⟩ |
    ⟨a, d, more, rest, ha, rfl, hmore, -, hbytes⟩
  · rfl
  · rw [hbytes, hexEscape_eq, hexEscape_eq]
    rcases bytewise_cases rest with rfl | ⟨b, rest, -, rfl, hrest⟩ |
      ⟨b, d, more, rest, hb, rfl, hmore, -, hrest⟩
    · rfl
    · rw [hrest]
    · rw [hrest]
      simp [hexValue?_eq_none hb, hexValue?_eq_none (hmore d List.mem_cons_self)]
  · rw [hbytes, hexEscape_eq_error (hexValue?_eq_none ha),
      hexEscape_eq_error (hexValue?_eq_none (hmore d List.mem_cons_self))]

/-- The code point of an escape, behind the opening brace. -/
theorem codePointEscape_eq (line : ℕ) (cs : List Char) : codePointEscape line cs =
    if cs.head? = some '{' then
      let digits := cs.tail.takeWhile fun c => (hexValue? c).isSome
      let value := (digits.filterMap hexValue?).foldl (fun n d => 16 * n + d) 0
      if 2 ^ (32 : ℕ) ≤ value then .error ⟨line, .codePointTooLarge⟩
      else if digits.isEmpty then .error ⟨line, .hexDigitExpected⟩
      else if (cs.tail.drop digits.length).head? = some '}' then
        if value.isValidChar then
          .ok ⟨String.utf8EncodeChar (Char.ofNat value), digits.length + 3, 0⟩
        else .error ⟨line, .codePointTooLarge⟩
      else .error ⟨line, .codePointNotClosed⟩
    else .error ⟨line, .codePointNotOpened⟩ := by
  unfold codePointEscape
  split
  · rename_i cs
    rw [if_pos (List.head?_cons ..), List.tail_cons]
    dsimp only
    refine if_congr Iff.rfl rfl (if_congr Iff.rfl rfl ?_)
    split
    · rename_i rest hdrop
      rw [hdrop, if_pos (List.head?_cons ..)]
    · rename_i hclose
      rw [if_neg (head?_ne hclose)]
  · rename_i hopen
    rw [if_neg (head?_ne hopen)]

/-- A code point is read to its closing brace. -/
theorem codePointEscape_bytewise (line : ℕ) (cs : List Char) :
    codePointEscape line (bytewise cs) = codePointEscape line cs := by
  have hhex : ∀ c, (hexValue? c).isSome → IsAscii c := fun _ => isAscii_of_hexValue?
  rw [codePointEscape_eq, codePointEscape_eq]
  by_cases hopen : cs.head? = some '{'
  · simp only [head?_bytewise (d := '{') (by decide), tail_bytewise hopen (by decide),
      takeWhile_bytewise_ascii hhex, drop_takeWhile_bytewise hhex,
      head?_bytewise (d := '}') (by decide)]
  · simp only [head?_bytewise (d := '{') (by decide), if_neg hopen]

/-- Up to three digits are read. -/
theorem decimalEscape_bytewise (line : ℕ) (cs : List Char) :
    decimalEscape line (bytewise cs) = decimalEscape line cs := by
  have hdigit : ∀ c : Char, c.isDigit → IsAscii c := fun _ => isAscii_of_isDigit
  unfold decimalEscape
  rw [← List.take_takeWhile, ← List.take_takeWhile, takeWhile_bytewise_ascii hdigit]

end Lexer
end LuaSugar