import Mathlib
import LuaSugar.Proofs.Token.Scanner
/-!
# Quoted strings from bytes

In a quoted string any byte may be taken alone, also one from the middle of a
character, and behind a backslash too. What comes out is the same string:
the bytes of a character are taken one after the other, since none of them
looks like a quote, a backslash or a line feed, and a string is bytes anyway.
-/

namespace LuaSugar

open Lexer

namespace Scanner

variable {line : ℕ} {b c d quote : Char} {cs bytes more : List Char} {e : Escaped}

/-! ## Escapes -/

/-- An ASCII character is one byte. -/
theorem utf8EncodeChar_ascii (h : IsAscii c) : String.utf8EncodeChar c = [c.toUInt8] := by
  have hbytes := map_toUInt8_bytewise [c]
  rw [bytewise_ascii h, List.flatMap_singleton] at hbytes
  exact hbytes.symm

theorem escape_short (h : b ∉ ['\n', '\r', 'z', 'x', 'u']) (bytes : List Char) :
    escape line (b :: bytes) =
      if b.isDigit then Lexer.decimalEscape line (b :: bytes)
      else match letterEscape? b with
        | some byte => .ok ⟨[byte], 1, 0⟩
        | none => .ok ⟨[b.toUInt8], 1, 0⟩ := by
  simp only [List.mem_cons, List.not_mem_nil, or_false, not_or] at h
  unfold escape
  split
  case h_8 =>
    rename_i heq
    obtain ⟨rfl, rfl⟩ := List.cons_eq_cons.1 heq
    rfl
  all_goals simp_all

/-- An escaped carriage return takes a line feed behind it, and is one line. -/
theorem escape_return (line : ℕ) (cs : List Char) : escape line ('\r' :: cs) =
    .ok ⟨[0x0A], if cs.head? = some '\n' then 2 else 1, 1⟩ := by
  cases cs with
  | nil => rfl
  | cons d cs =>
    by_cases hd : d = '\n'
    · subst hd
      rfl
    · simp [escape, hd]

theorem lexer_escape_return (line : ℕ) (cs : List Char) : Lexer.escape line ('\r' :: cs) =
    .ok ⟨[0x0A], if cs.head? = some '\n' then 2 else 1, 1⟩ := by
  cases cs with
  | nil => rfl
  | cons d cs =>
    by_cases hd : d = '\n'
    · subst hd
      rfl
    · simp [Lexer.escape, hd]

/-- **An escape** that begins with a character of one byte is read the same
from bytes. -/
theorem escape_bytewise (hc : IsAscii c) (cs : List Char) :
    escape line (bytewise (c :: cs)) = Lexer.escape line (c :: cs) := by
  by_cases hmark : c ∈ ['\n', '\r', 'z', 'x', 'u']
  · rw [bytewise_ascii hc]
    simp only [List.mem_cons, List.not_mem_nil, or_false] at hmark
    rcases hmark with rfl | rfl | rfl | rfl | rfl
    · rfl
    · rw [escape_return, lexer_escape_return]
      simp only [head?_bytewise (d := '\n') (by decide)]
    · simp only [escape, Lexer.escape, takeWhile_bytewise_ascii fun _ => isAscii_of_isSpace]
    · exact hexEscape_bytewise line cs
    · exact codePointEscape_bytewise line cs
  · have hshort : Lexer.escape line (c :: cs) = _ := Lexer.escape_short hmark
    rw [utf8EncodeChar_ascii hc, ← decimalEscape_bytewise, bytewise_ascii hc] at hshort
    rw [bytewise_ascii hc]
    exact (escape_short hmark _).trans hshort.symm

/-- An escape of two digits is ASCII. -/
theorem isAscii_of_mem_hexEscape (h : hexEscape line cs = .ok e) :
    ∀ d ∈ ('x' :: cs).take e.length, IsAscii d := by
  rw [hexEscape_eq] at h
  split at h
  · rename_i a b rest
    split at h
    · rename_i high low ha hb
      obtain rfl := Except.ok.inj h
      simp only [List.take_succ_cons, List.take_zero, List.forall_mem_cons]
      have hhigh := isAscii_of_hexValue? (c := a) (by rw [ha]; rfl)
      have hlow := isAscii_of_hexValue? (c := b) (by rw [hb]; rfl)
      exact ⟨by decide, hhigh, hlow, by simp⟩
    · cases h
  · cases h

/-- So is one of a code point. -/
theorem isAscii_of_mem_codePointEscape (h : codePointEscape line cs = .ok e) :
    ∀ d ∈ ('u' :: cs).take e.length, IsAscii d := by
  unfold codePointEscape at h
  split at h
  · rename_i cs
    dsimp only at h
    split at h
    · cases h
    split at h
    · cases h
    split at h
    · rename_i rest hdrop
      split at h
      · obtain rfl := Except.ok.inj h
        let digits := cs.takeWhile fun c => (hexValue? c).isSome
        have hsplit : 'u' :: '{' :: cs = 'u' :: '{' :: (digits ++ ['}']) ++ rest := by
          rw [List.cons_append, List.cons_append, List.append_assoc, List.singleton_append, ← hdrop,
            ← run_split]
        have hdigits : ∀ d ∈ digits, IsAscii d :=
          isAscii_of_mem_takeWhile fun _ => isAscii_of_hexValue?
        rw [hsplit, List.take_left' (by simp [digits])]
        simp only [List.forall_mem_cons, List.forall_mem_append]
        exact ⟨by decide, by decide, hdigits, by decide, by simp⟩
      · cases h
    · cases h
  · cases h

/-- So is one of decimal digits. -/
theorem isAscii_of_mem_decimalEscape (h : Lexer.decimalEscape line cs = .ok e) :
    ∀ d ∈ cs.take e.length, IsAscii d := by
  unfold Lexer.decimalEscape at h
  dsimp only at h
  split at h
  · obtain rfl := Except.ok.inj h
    have hfront : (cs.take 3).takeWhile Char.isDigit <+: cs :=
      (List.takeWhile_prefix _).trans (List.take_prefix _ _)
    rw [← List.prefix_iff_eq_take.1 hfront]
    exact isAscii_of_mem_takeWhile fun _ => isAscii_of_isDigit
  · cases h

/-- Of such an escape all characters are of one byte. -/
theorem isAscii_of_mem_escape (hc : IsAscii c) (h : Lexer.escape line (c :: cs) = .ok e) :
    ∀ d ∈ (c :: cs).take e.length, IsAscii d := by
  by_cases hmark : c ∈ ['\n', '\r', 'z', 'x', 'u']
  · simp only [List.mem_cons, List.not_mem_nil, or_false] at hmark
    rcases hmark with rfl | rfl | rfl | rfl | rfl
    · obtain rfl := Except.ok.inj h
      simpa using hc
    · rw [lexer_escape_return] at h
      obtain rfl := Except.ok.inj h
      dsimp only
      split
      · rename_i hbreak
        obtain ⟨rest, rfl⟩ := List.head?_eq_some_iff.1 hbreak
        exact List.forall_mem_cons.2 ⟨hc, List.forall_mem_singleton.2 (by decide)⟩
      · exact List.forall_mem_cons.2 ⟨hc, by simp⟩
    · obtain rfl := Except.ok.inj h
      rw [List.take_succ_cons, ← List.prefix_iff_eq_take.1 (List.takeWhile_prefix _)]
      exact List.forall_mem_cons.2 ⟨hc, isAscii_of_mem_takeWhile fun _ => isAscii_of_isSpace⟩
    · exact isAscii_of_mem_hexEscape h
    · exact isAscii_of_mem_codePointEscape h
  · rw [Lexer.escape_short hmark] at h
    split at h
    · exact isAscii_of_mem_decimalEscape h
    · split at h <;> obtain rfl := Except.ok.inj h <;> simpa using hc

/-- No wide character is the letter of an escape. -/
theorem isNone_letterEscape? (hc : ¬ IsAscii c) : letterEscape? c = none := by
  unfold letterEscape?
  split
  iterate 7 exact absurd (by decide) hc
  rfl

/-- Any other character stands for itself, and so does each of its bytes. -/
theorem escape_wide (hb : ¬ IsAscii b) (bytes : List Char) :
    escape line (b :: bytes) = .ok ⟨[b.toUInt8], 1, 0⟩ := by
  have hdigit : ¬ b.isDigit = true := fun h => hb (isAscii_of_isDigit h)
  rw [escape_short, if_neg hdigit, isNone_letterEscape? hb]
  intro hmark
  simp only [List.mem_cons, List.not_mem_nil, or_false] at hmark
  rcases hmark with rfl | rfl | rfl | rfl | rfl <;> exact hb (by decide)

/-- A wide character behind a backslash stands for its bytes. -/
theorem lexer_escape_wide (hc : ¬ IsAscii c) (cs : List Char) :
    Lexer.escape line (c :: cs) = .ok ⟨String.utf8EncodeChar c, 1, 0⟩ := by
  have hdigit : ¬ c.isDigit = true := fun h => hc (isAscii_of_isDigit h)
  rw [Lexer.escape_short, if_neg hdigit, isNone_letterEscape? hc]
  intro hmark
  simp only [List.mem_cons, List.not_mem_nil, or_false] at hmark
  rcases hmark with rfl | rfl | rfl | rfl | rfl <;> exact hc (by decide)

/-! ## Strings -/

/-- A quoted string by its first byte: its end, an escape, or the byte itself. -/
theorem quotedRest_cons (quote : Char) (line : ℕ) (b : Char) (bytes : List Char) :
    quotedRest quote line (b :: bytes) =
      if b = '\n' then .ok ⟨[], 0, 0⟩
      else if b = quote then .ok ⟨[], 1, 0⟩
      else if b = '\\' then
        (escape line bytes).bind fun e =>
          (quotedRest quote (line + e.lines) (bytes.drop e.length)).map fun rest =>
            ⟨e.bytes ++ rest.bytes, 1 + e.length + rest.length, e.lines + rest.lines⟩
      else (quotedRest quote line bytes).map fun rest =>
        ⟨b.toUInt8 :: rest.bytes, 1 + rest.length, rest.lines⟩ := by
  rw [quotedRest]
  rfl

/-- Bytes that belong to characters of several bytes are taken as they
are. -/
theorem quotedRest_append_of_wide (hquote : IsAscii quote) (hmore : ∀ b ∈ more, ¬ IsAscii b)
    (bytes : List Char) : quotedRest quote line (more ++ bytes) =
      (quotedRest quote line bytes).map fun rest =>
        ⟨more.map Char.toUInt8 ++ rest.bytes, more.length + rest.length, rest.lines⟩ := by
  induction more with
  | nil =>
    rw [List.nil_append]
    cases quotedRest quote line bytes <;> simp [Except.map]
  | cons b more ih =>
    obtain ⟨hb, hmore⟩ := List.forall_mem_cons.1 hmore
    have hne {d : Char} (hd : IsAscii d) : b ≠ d := fun h => hb (h ▸ hd)
    rw [List.cons_append, quotedRest_cons, if_neg (hne (by decide)), if_neg (hne hquote),
      if_neg (hne (by decide)), ih hmore]
    cases quotedRest quote line bytes with
    | error e => rfl
    | ok rest =>
      simp only [Except.map, List.map_cons, List.cons_append, List.length_cons]
      rw [show 1 + (more.length + rest.length) = more.length + 1 + rest.length by omega]

/-- How many bytes the first characters of a text take. -/
def width (cs : List Char) (count : ℕ) : ℕ := (bytewise (cs.take count)).length

/-- Widths of texts behind each other add up. -/
theorem width_add (cs : List Char) (m n : ℕ) :
    width cs (m + n) = width cs m + width (cs.drop m) n := by
  rw [width, List.take_add, bytewise_append, List.length_append]
  rfl

theorem width_one (c : Char) (cs : List Char) : width (c :: cs) 1 = (bytewise [c]).length := rfl

/-- An ASCII character is one byte wide. -/
theorem width_one_ascii (hc : IsAscii c) (cs : List Char) : width (c :: cs) 1 = 1 := by
  rw [width_one, bytewise_ascii hc]
  rfl

/-- Behind an escape the bytes are those of the characters behind it. -/
theorem drop_escape (hc : IsAscii c) (h : Lexer.escape line (c :: cs) = .ok e) :
    (bytewise (c :: cs)).drop e.length = bytewise ((c :: cs).drop e.length) ∧
      width (c :: cs) e.length = e.length := by
  have hascii := isAscii_of_mem_escape hc h
  have hlength := escape_accounts line (c :: cs)
  rw [h] at hlength
  have htake : ((c :: cs).take e.length).length = e.length := List.length_take_of_le hlength.1
  refine ⟨?_, by rw [width, bytewise_of_ascii hascii, htake]⟩
  have hdrop := drop_bytewise (List.take_prefix e.length _) hascii
  rwa [htake] at hdrop

/-- What is read of a string from bytes is what is read from characters,
and as many bytes as those characters take. -/
def ReadsSame (quote : Char) (line : ℕ) (cs : List Char) : Prop :=
  quotedRest quote line (bytewise cs) = (Lexer.quotedRest quote line cs).map fun rest =>
    ⟨rest.bytes, width cs rest.length, rest.lines⟩

/-- Behind a backslash an escape is read, -/
theorem quotedRest_backslash (hne : quote ≠ '\\') (line : ℕ) (bytes : List Char) :
    quotedRest quote line ('\\' :: bytes) = (escape line bytes).bind fun e =>
      (quotedRest quote (line + e.lines) (bytes.drop e.length)).map fun rest =>
        ⟨e.bytes ++ rest.bytes, 1 + (e.length + rest.length), e.lines + rest.lines⟩ := by
  rw [quotedRest_cons, if_neg (by decide), if_neg hne.symm, if_pos rfl]
  simp only [Nat.add_assoc]

/-- and so it is in the lexer of characters. -/
theorem lexer_quotedRest_backslash (hne : quote ≠ '\\') (line : ℕ) (cs : List Char) :
    Lexer.quotedRest quote line ('\\' :: cs) = (Lexer.escape line cs).bind fun e =>
      (Lexer.quotedRest quote (line + e.lines) (cs.drop e.length)).map fun rest =>
        ⟨e.bytes ++ rest.bytes, 1 + (e.length + rest.length), e.lines + rest.lines⟩ := by
  rw [Lexer.quotedRest_cons, if_neg (by decide), if_neg hne.symm, if_pos rfl]
  simp only [Nat.add_assoc]

/-- A backslash at the end of the text. -/
theorem readsSame_last (hne : quote ≠ '\\') : ReadsSame quote line ['\\'] := by
  rw [ReadsSame, bytewise_ascii (by decide), bytewise_nil, quotedRest_backslash hne,
    lexer_quotedRest_backslash hne, escape, Lexer.escape]
  simp only [Except.bind, List.drop_nil]
  rw [quotedRest, Lexer.quotedRest]
  simp only [Except.map, Nat.add_zero, width_one_ascii (show IsAscii '\\' by decide)]

/-- A backslash before a character of one byte. -/
theorem readsSame_escape (hne : quote ≠ '\\') (hd : IsAscii d)
    (ih : ∀ line cs', cs'.length ≤ (d :: cs).length → ReadsSame quote line cs') :
    ReadsSame quote line ('\\' :: d :: cs) := by
  rw [ReadsSame, bytewise_ascii (by decide), quotedRest_backslash hne,
    lexer_quotedRest_backslash hne, escape_bytewise hd]
  cases he : Lexer.escape line (d :: cs) with
  | error fault => rfl
  | ok e =>
    obtain ⟨hdrop, hwidth⟩ := drop_escape hd he
    simp only [Except.bind]
    rw [hdrop, ih (line + e.lines) ((d :: cs).drop e.length) (by simp)]
    cases Lexer.quotedRest quote (line + e.lines) ((d :: cs).drop e.length) with
    | error fault => rfl
    | ok rest =>
      simp only [Except.map]
      rw [width_add, width_one_ascii (by decide), List.drop_one, List.tail_cons, width_add, hwidth]

/-- A backslash before a character of several bytes: one of them is escaped,
and the loop goes on with the others. -/
theorem readsSame_escape_wide (hquote : IsAscii quote) (hne : quote ≠ '\\') (hd : ¬ IsAscii d)
    (ih : ReadsSame quote line cs) : ReadsSame quote line ('\\' :: d :: cs) := by
  obtain ⟨b, more, hbytes⟩ := List.exists_cons_of_ne_nil (bytewise_singleton_ne_nil d)
  have hwide : ∀ b ∈ bytewise [d], ¬ IsAscii b := fun _ => not_isAscii_of_mem hd
  have hencode : (bytewise [d]).map Char.toUInt8 = String.utf8EncodeChar d := by
    rw [map_toUInt8_bytewise, List.flatMap_singleton]
  have hlength : (bytewise [d]).length = 1 + more.length := by
    rw [hbytes, List.length_cons, Nat.add_comm]
  rw [hbytes] at hwide hencode
  obtain ⟨hb, hmore⟩ := List.forall_mem_cons.1 hwide
  rw [ReadsSame, bytewise_ascii (by decide), bytewise_cons d, hbytes, quotedRest_backslash hne,
    lexer_quotedRest_backslash hne, lexer_escape_wide hd, List.cons_append, escape_wide hb]
  simp only [Except.bind, List.drop_succ_cons, List.drop_zero, Nat.add_zero]
  rw [quotedRest_append_of_wide hquote hmore, ih]
  cases Lexer.quotedRest quote line cs with
  | error fault => rfl
  | ok rest =>
    simp only [Except.map]
    rw [width_add, width_one_ascii (by decide), List.drop_one, List.tail_cons, width_add, width_one,
      List.drop_one, List.tail_cons, hlength, ← hencode, List.map_cons, List.singleton_append,
      List.cons_append, Nat.add_assoc 1 more.length]

/-- **Escapes are read alike**: those of ASCII byte by byte, and a wide character as a whole. -/
theorem readsSame_backslash (hquote : IsAscii quote) (hne : quote ≠ '\\')
    (ih : ∀ line cs', cs'.length ≤ cs.length → ReadsSame quote line cs') :
    ReadsSame quote line ('\\' :: cs) := by
  cases cs with
  | nil => exact readsSame_last hne
  | cons d cs =>
    by_cases hd : IsAscii d
    · exact readsSame_escape hne hd ih
    · exact readsSame_escape_wide hquote hne hd (ih line cs (Nat.le_succ _))

/-- **A quoted string** is read from bytes as from characters. -/
theorem readsSame (hquote : IsAscii quote) : ∀ (line : ℕ) (cs : List Char), ReadsSame quote line cs
  | line, [] => by
    rw [ReadsSame, bytewise_nil, quotedRest, Lexer.quotedRest]
    rfl
  | line, c :: cs => by
    have ih := readsSame hquote line cs
    by_cases hbreak : c = '\n'
    · rw [ReadsSame, hbreak, bytewise_ascii (by decide), quotedRest_cons, Lexer.quotedRest_cons]
      rfl
    by_cases hend : c = quote
    · subst hend
      rw [ReadsSame, bytewise_ascii hquote, quotedRest_cons, Lexer.quotedRest_cons, if_neg hbreak,
        if_neg hbreak, if_pos rfl, if_pos rfl, Except.map, width_one_ascii hquote]
    by_cases hescape : c = '\\'
    · subst hescape
      -- an escape may take several characters, so the rest is shorter than `cs`
      exact readsSame_backslash hquote (Ne.symm hend) fun line cs' _ => readsSame hquote line cs'
    rw [ReadsSame] at ih ⊢
    rw [Lexer.quotedRest_cons, if_neg hbreak, if_neg hend, if_neg hescape]
    by_cases hc : IsAscii c
    · rw [bytewise_ascii hc, quotedRest_cons, if_neg hbreak, if_neg hend, if_neg hescape, ih]
      cases Lexer.quotedRest quote line cs with
      | error fault => rfl
      | ok rest =>
        simp only [Except.map]
        rw [width_add, width_one_ascii hc, utf8EncodeChar_ascii hc]
        rfl
    -- no byte of a wider character is a quote, a backslash or a line feed
    · rw [bytewise_cons, quotedRest_append_of_wide hquote fun _ => not_isAscii_of_mem hc, ih,
        map_toUInt8_bytewise, List.flatMap_singleton]
      cases Lexer.quotedRest quote line cs with
      | error fault => rfl
      | ok rest =>
        simp only [Except.map]
        rw [width_add, width_one]
        rfl
termination_by _ cs => cs.length
decreasing_by all_goals simp; try omega

end Scanner
end LuaSugar
