import Mathlib
import LuaSugar.Proofs.Token.Cuts
/-!
# The lines of tokens

Line breaks are counted where a scanner meets them: in blanks, behind a
backslash, in the body of a long bracket. Where no carriage return stands
alone, the count is the number of line feeds in the text of the token. So a
token is on the line where its text begins, and a fault on one of the lines
of the text that it is found in.
-/

namespace LuaSugar

namespace Lexer

variable {line : ℕ} {c : Char} {cs : List Char} {found : Scan} {e : LexError}

/-- Each carriage return is directly followed by a line feed. -/
def Paired (cs : List Char) : Prop :=
  ∀ rest ∈ cs.tails, rest.head? = some '\r' → rest.tail.head? = some '\n'

instance (cs : List Char) : Decidable (Paired cs) := List.decidableBAll _ cs.tails

/-- The end of a paired text is paired. -/
theorem Paired.suffix {cs cs' : List Char} (h : Paired cs) (hs : cs' <:+ cs) : Paired cs' :=
  fun rest hrest => h rest ((List.mem_tails _ _).2 (((List.mem_tails _ _).1 hrest).trans hs))

theorem Paired.tail (h : Paired (c :: cs)) : Paired cs := h.suffix (List.suffix_cons c cs)

/-- What is left of a paired text is paired, wherever it is cut. -/
theorem Paired.drop (h : Paired cs) (n : ℕ) : Paired (cs.drop n) := h.suffix (List.drop_suffix n cs)

@[simp] theorem lineFeeds_append (cs cs' : List Char) :
    lineFeeds (cs ++ cs') = lineFeeds cs + lineFeeds cs' := List.count_append

/-- A text has the line feeds of both its parts. -/
theorem lineFeeds_take_add_drop (cs : List Char) (n : ℕ) :
    lineFeeds (cs.take n) + lineFeeds (cs.drop n) = lineFeeds cs := by
  rw [← lineFeeds_append, List.take_append_drop]

theorem lineFeeds_cons_of_ne (h : c ≠ '\n') : lineFeeds (c :: cs) = lineFeeds cs :=
  List.count_cons_of_ne h

/-- A text of characters that are no line feeds has none. -/
theorem lineFeeds_eq_zero {p : Char → Bool} (h : ∀ c ∈ cs, p c) (hp : p '\n' = false) :
    lineFeeds cs = 0 :=
  List.count_eq_zero.2 fun hmem => by simp [h _ hmem] at hp

/-- Neither has a run of them. -/
theorem lineFeeds_takeWhile {p : Char → Bool} (hp : p '\n' = false) :
    lineFeeds (cs.takeWhile p) = 0 :=
  lineFeeds_eq_zero (fun _ => List.mem_takeWhile_imp) hp

/-! ## Accounts -/

/-- What a scanner says of lines: it takes as many as there are line feeds in
its text, or finds a fault on one of the lines to come. -/
def Accounts {α : Type} (line : ℕ) (cs : List Char) (length lines : α → ℕ) :
    Except LexError α → Prop
  | .ok a => length a ≤ cs.length ∧ (Paired cs → lines a = lineFeeds (cs.take (length a)))
  | .error e => Paired cs → line ≤ e.line ∧ e.line ≤ line + lineFeeds cs

/-- A fault on the line where one stands is on one of the lines of the text. -/
theorem accounts_here {α : Type} (line : ℕ) (cs : List Char) (length lines : α → ℕ)
    (fault : LexFault) : Accounts line cs length lines (.error ⟨line, fault⟩) :=
  fun _ => ⟨le_rfl, Nat.le_add_right _ _⟩

/-- One after the other. -/
theorem Accounts.bind {α β γ : Type} {cs : List Char} {length lines : α → ℕ}
    {length' lines' : β → ℕ} {length'' lines'' : γ → ℕ} {x : Except LexError α}
    {f : α → Except LexError β} {g : α → β → γ} (hx : Accounts line cs length lines x)
    (hf : ∀ a, Accounts (line + lines a) (cs.drop (length a)) length' lines' (f a))
    (hlength : ∀ a b, length'' (g a b) = length a + length' b)
    (hlines : ∀ a b, lines'' (g a b) = lines a + lines' b) :
    Accounts line cs length'' lines'' (x.bind fun a => (f a).map (g a)) := by
  cases x with
  | error e => exact hx
  | ok a =>
    obtain ⟨ha, hlinesa⟩ := hx
    have hsplit := lineFeeds_take_add_drop cs (length a)
    have hf := hf a
    show Accounts line cs length'' lines'' ((f a).map (g a))
    cases hb : f a with
    | error e =>
      rw [hb] at hf
      intro h
      obtain ⟨hlow, hhigh⟩ := hf (h.drop _)
      have hlinesa := hlinesa h
      exact ⟨by omega, by omega⟩
    | ok b =>
      rw [hb] at hf
      obtain ⟨hb, hlinesb⟩ := hf
      refine ⟨?_, fun h => ?_⟩
      · rw [hlength]
        rw [List.length_drop] at hb
        omega
      · rw [hlines, hlength, hlinesa h, hlinesb (h.drop _), ← lineFeeds_append, List.take_add]

/-- Behind a character that is no line feed. -/
theorem Accounts.cons {α : Type} {length lines length' : α → ℕ} {x : Except LexError α}
    (hx : Accounts line cs length lines x) (hc : c ≠ '\n')
    (hlength : ∀ a, length' a = length a + 1) : Accounts line (c :: cs) length' lines x := by
  cases x with
  | error e =>
    show Paired (c :: cs) → line ≤ e.line ∧ e.line ≤ line + lineFeeds (c :: cs)
    rw [lineFeeds_cons_of_ne hc]
    exact fun h => hx h.tail
  | ok a =>
    refine ⟨by rw [hlength]; exact Nat.succ_le_succ hx.1, fun h => ?_⟩
    rw [hlength, List.take_succ_cons, lineFeeds_cons_of_ne hc]
    exact hx.2 h.tail

/-- What is made of a value accounts for as much. -/
theorem Accounts.map {α β : Type} {length lines : α → ℕ} {length' lines' : β → ℕ}
    {x : Except LexError α} (hx : Accounts line cs length lines x) (f : α → β)
    (hlength : ∀ a, length' (f a) = length a) (hlines : ∀ a, lines' (f a) = lines a) :
    Accounts line cs length' lines' (x.map f) := by
  cases x with
  | error e => exact hx
  | ok a =>
    refine ⟨?_, ?_⟩
    · rw [hlength]
      exact hx.1
    · rw [hlength, hlines]
      exact hx.2

/-! ### Escapes -/

theorem hexEscape_eq (line : ℕ) (cs : List Char) : hexEscape line cs =
    match cs with
    | a :: b :: _ => match hexValue? a, hexValue? b with
      | some high, some low => .ok ⟨[UInt8.ofNat (16 * high + low)], 3, 0⟩
      | _, _ => .error ⟨line, .hexDigitExpected⟩
    | _ => .error ⟨line, .hexDigitExpected⟩ := by
  unfold hexEscape
  match cs with
  | [] => rfl
  | [a] => cases h : hexValue? a <;> simp [h]
  | a :: b :: _ => cases h : hexValue? a <;> cases h' : hexValue? b <;> simp [h, h']

/-- Two digits are on one line. -/
theorem hexEscape_accounts (line : ℕ) (cs : List Char) :
    Accounts line ('x' :: cs) Escaped.length Escaped.lines (hexEscape line cs) := by
  rw [hexEscape_eq]
  split
  · rename_i a b rest
    split
    · rename_i ha hb
      have hne {c : Char} {n : ℕ} (h : hexValue? c = some n) : '\n' ≠ c := by
        rintro rfl
        cases h
      exact ⟨by simp, fun _ => (List.count_eq_zero.2 (by simp [hne ha, hne hb])).symm⟩
    · exact accounts_here _ _ _ _ _
  · exact accounts_here _ _ _ _ _

/-- A code point is on one line. -/
theorem codePointEscape_accounts (line : ℕ) (cs : List Char) :
    Accounts line ('u' :: cs) Escaped.length Escaped.lines (codePointEscape line cs) := by
  unfold codePointEscape
  split
  · rename_i cs
    dsimp only
    split
    · exact accounts_here _ _ _ _ _
    split
    · exact accounts_here _ _ _ _ _
    split
    · rename_i rest hdrop
      split
      -- the escape is well formed: its digits and braces break no line
      · have hsplit := List.prefix_iff_eq_append.1
          (List.takeWhile_prefix (l := cs) fun c => (hexValue? c).isSome)
        rw [hdrop] at hsplit
        have htext : 'u' :: '{' :: cs =
            ('u' :: '{' :: cs.takeWhile (fun c => (hexValue? c).isSome) ++ ['}']) ++ rest := by
          simp [hsplit]
        have hdigits : lineFeeds (cs.takeWhile fun c => (hexValue? c).isSome) = 0 :=
          lineFeeds_takeWhile rfl
        refine ⟨by rw [htext]; simp, fun _ => ?_⟩
        rw [htext, List.take_left' (by simp)]
        simpa [lineFeeds] using hdigits.symm
      · exact accounts_here _ _ _ _ _
    · exact accounts_here _ _ _ _ _
  · exact accounts_here _ _ _ _ _

/-- Up to three digits are on one line. -/
theorem decimalEscape_accounts (line : ℕ) (cs : List Char) :
    Accounts line cs Escaped.length Escaped.lines (decimalEscape line cs) := by
  unfold decimalEscape
  dsimp only
  split_ifs
  · have hfront : (cs.take 3).takeWhile Char.isDigit <+: cs :=
      (List.takeWhile_prefix _).trans (List.take_prefix _ _)
    refine ⟨hfront.length_le, fun _ => ?_⟩
    show 0 = lineFeeds (cs.take ((cs.take 3).takeWhile Char.isDigit).length)
    rw [← List.prefix_iff_eq_take.1 hfront, lineFeeds_takeWhile rfl]
  · exact accounts_here _ _ _ _ _

/-- **Escapes** go over a line if they are a line break, and over as many as
there are in blanks that `\z` skips. -/
theorem escape_accounts (line : ℕ) (cs : List Char) :
    Accounts line cs Escaped.length Escaped.lines (escape line cs) := by
  unfold escape
  split
  · exact ⟨le_rfl, fun _ => rfl⟩
  · exact ⟨by simp, fun _ => rfl⟩
  · exact ⟨by simp, fun _ => rfl⟩
  · rename_i rest hne
    -- a carriage return on its own would be a line that no line feed ends
    refine ⟨by simp, fun h => ?_⟩
    obtain ⟨after, rfl⟩ := List.head?_eq_some_iff.1
      (h _ ((List.mem_tails _ _).2 (List.suffix_refl _)) rfl)
    exact absurd rfl (hne after)
  · rename_i rest
    have hfront := List.takeWhile_prefix (l := rest) isSpace
    refine ⟨by simpa using hfront.length_le, fun _ => ?_⟩
    show _ = lineFeeds ('z' :: rest.take (rest.takeWhile isSpace).length)
    rw [← List.prefix_iff_eq_take.1 hfront, lineFeeds_cons_of_ne (by decide)]
  · exact hexEscape_accounts _ _
  · exact codePointEscape_accounts _ _
  · rename_i c rest hbreak _ _ _ _ _
    split_ifs
    · exact decimalEscape_accounts _ _
    · have hone : lineFeeds [c] = 0 := List.count_eq_zero.2 (by simpa using fun h => hbreak h.symm)
      split <;> exact ⟨by simp, fun _ => hone.symm⟩

/-! ### Quoted strings -/

/-- A quoted string by its first character: its end, an escape, or itself. -/
theorem quotedRest_cons (quote : Char) (line : ℕ) (c : Char) (cs : List Char) :
    quotedRest quote line (c :: cs) =
      if c = '\n' then .ok ⟨[], 0, 0⟩
      else if c = quote then .ok ⟨[], 1, 0⟩
      else if c = '\\' then
        (escape line cs).bind fun e =>
          (quotedRest quote (line + e.lines) (cs.drop e.length)).map fun rest =>
            ⟨e.bytes ++ rest.bytes, 1 + e.length + rest.length, e.lines + rest.lines⟩
      else (quotedRest quote line cs).map fun rest =>
        ⟨String.utf8EncodeChar c ++ rest.bytes, 1 + rest.length, rest.lines⟩ := by
  rw [quotedRest]
  simp only [beq_iff_eq]
  rfl

/-- **A quoted string** goes over the lines of its escapes. By the recursion
of the lexer, which skips an escape as a whole. -/
theorem quotedRest_accounts (quote : Char) : ∀ (line : ℕ) (cs : List Char),
    Accounts line cs Escaped.length Escaped.lines (quotedRest quote line cs)
  | line, [] => by
    rw [quotedRest]
    exact ⟨le_rfl, fun _ => rfl⟩
  | line, c :: cs => by
    rw [quotedRest_cons]
    split
    · exact ⟨Nat.zero_le _, fun _ => rfl⟩
    rename_i hbreak
    split
    · exact ⟨by simp, fun _ => (List.count_eq_zero.2 (by simpa using fun h => hbreak h.symm)).symm⟩
    split
    · have hescape : Accounts line (c :: cs) (fun e : Escaped => 1 + e.length) Escaped.lines
          (escape line cs) := (escape_accounts line cs).cons hbreak fun e => Nat.add_comm _ _
      refine hescape.bind (fun e => ?_) (fun _ _ => rfl) fun _ _ => rfl
      rw [Nat.add_comm 1, List.drop_succ_cons]
      exact quotedRest_accounts quote _ _
    · exact ((quotedRest_accounts quote line cs).cons hbreak fun _ => rfl).map _
        (fun _ => Nat.add_comm _ _) fun _ => rfl
termination_by _ cs => cs.length
decreasing_by all_goals simp; try omega

/-! ### Long brackets -/

/-- A long string goes over the lines of its body and of the break in front of it. -/
theorem longBracket_accounts {level : ℕ} (line : ℕ) (fault : LexFault)
    (h : longLevel? cs = some level) :
    Accounts line ('[' :: cs) LongBracket.length LongBracket.lines
      (longBracket line fault level cs) := by
  obtain ⟨opened, rfl⟩ := longLevel?_eq_some h
  have hsigns : ∀ cs : List Char, lineFeeds (List.replicate level '=' ++ cs) = lineFeeds cs := by
    intro cs
    rw [lineFeeds_append, lineFeeds, List.count_replicate]
    simp
  have hdrop : (List.replicate level '=' ++ '[' :: opened).drop (level + 1) = opened := by
    rw [← List.drop_drop, List.drop_left' (by simp), List.drop_one, List.tail_cons]
  unfold longBracket
  dsimp only
  rw [hdrop]
  cases hbody : longBody? level (opened.drop (leadingBreak opened).length) with
  | none =>
    intro _
    rw [lineFeeds_cons_of_ne (by decide), hsigns, lineFeeds_cons_of_ne (by decide)]
    -- there is no line feed but those of the break and of what is behind it
    have hsplit : lineFeeds opened = lineFeeds (leadingBreak opened) +
        lineFeeds (opened.drop (leadingBreak opened).length) := by
      rw [← lineFeeds_append, leadingBreak_append]
    exact ⟨by simp only; omega, by simp only; omega⟩
  | some body =>
    obtain ⟨rest, hrest⟩ := longBody?_eq_some hbody
    -- the bracket from its opening to its end, and the rest
    have htext : '[' :: (List.replicate level '=' ++ '[' :: opened) =
        ('[' :: (List.replicate level '=' ++ ('[' :: (leadingBreak opened ++ body)) ++
          ']' :: (List.replicate level '=' ++ [']']))) ++ rest := by
      conv_lhs => rw [← leadingBreak_append opened, hrest]
      simp
    refine ⟨by rw [htext]; simp; omega, fun _ => ?_⟩
    rw [htext, List.take_left' (by simp; omega)]
    simp only [List.append_assoc, lineFeeds_cons_of_ne (show '[' ≠ '\n' by decide),
      lineFeeds_cons_of_ne (show ']' ≠ '\n' by decide), hsigns, List.cons_append, lineFeeds_append]
    simp [lineFeeds]

/-! ### Tokens -/

/-- A token that is spelled plainly has the lines of its text. -/
theorem plain_accounts {kind : TokenKind} {text : List Char} (hne : text ≠ []) (h : text <+: cs) :
    Accounts line cs (·.more + 1) Scan.lines (.ok (.plain kind text)) := by
  obtain ⟨d, text, rfl⟩ := List.exists_cons_of_ne_nil hne
  refine ⟨h.length_le, fun _ => ?_⟩
  show lineFeeds (d :: text) = lineFeeds (cs.take (d :: text).length)
  rw [← List.prefix_iff_eq_take.1 h]

/-- A word or a run of blanks is on the lines of its characters. -/
theorem takeWhile_accounts {kind : TokenKind} {p : Char → Bool} (hc : p c) :
    Accounts line (c :: cs) (·.more + 1) Scan.lines (.ok (.plain kind ((c :: cs).takeWhile p))) :=
  plain_accounts (by simp [hc]) (List.takeWhile_prefix p)

/-- A number is on one line. -/
theorem scanNumber_accounts (line : ℕ) (c : Char) (cs : List Char) :
    Accounts line (c :: cs) (·.more + 1) Scan.lines (scanNumber line c cs) := by
  rw [scanNumber_eq]
  split
  · rename_i value hvalue
    exact plain_accounts (numeral_ne_nil hvalue) (numeral_front c cs)
  · exact accounts_here _ _ _ _ _

/-- A symbol is on one line. -/
theorem scanSymbol_accounts (line : ℕ) (c : Char) (cs : List Char) :
    Accounts line (c :: cs) (·.more + 1) Scan.lines (scanSymbol line c cs) := by
  unfold scanSymbol
  cases h : Operator.ofSymbol? (c :: cs) with
  | none => exact accounts_here _ _ _ _ _
  | some op =>
    obtain ⟨hne, hfront⟩ := ofSymbol?_eq_some h
    exact plain_accounts hne hfront

theorem two_le_longBracket {fault : LexFault} {level : ℕ} {long : LongBracket}
    (h : longBracket line fault level cs = .ok long) : 2 ≤ long.length := by
  unfold longBracket at h
  dsimp only at h
  split at h
  · obtain rfl := Except.ok.inj h
    simp only
    omega
  · cases h

theorem scanLongString_accounts (line : ℕ) (cs : List Char) :
    Accounts line ('[' :: cs) (·.more + 1) Scan.lines (scanLongString line cs) := by
  rw [scanLongString_eq]
  split
  · exact accounts_here _ _ _ _ _
  · rename_i level hlevel
    have hlong := longBracket_accounts line .unfinishedLongString hlevel
    cases hrun : longBracket line .unfinishedLongString level cs with
    | error e =>
      rw [hrun] at hlong
      exact hlong
    | ok long =>
      rw [hrun] at hlong
      have htwo := two_le_longBracket hrun
      show long.length - 1 + 1 ≤ ('[' :: cs).length ∧ (Paired ('[' :: cs) →
        long.lines = lineFeeds (('[' :: cs).take (long.length - 1 + 1)))
      rw [Nat.sub_add_cancel (by omega)]
      exact hlong

/-- A comment is on one line, or it is a long one. -/
theorem scanComment_accounts (line : ℕ) (cs : List Char) :
    Accounts line ('-' :: '-' :: cs) (·.more + 1) Scan.lines (scanComment line cs) := by
  rw [scanComment_eq]
  have hhyphen : '-' ≠ '\n' := by decide
  split
  · rename_i level hlevel
    obtain ⟨opened, rfl, hlevel⟩ := commentLevel?_eq_some hlevel
    have hlong : Accounts line ('-' :: '-' :: '[' :: opened) (·.length + 2) LongBracket.lines
        (longBracket line .unfinishedLongComment level opened) :=
      ((longBracket_accounts line .unfinishedLongComment hlevel).cons hhyphen fun _ => rfl).cons
        hhyphen fun _ => rfl
    exact hlong.map _ (fun _ => rfl) fun _ => rfl
  · have hfront := List.takeWhile_prefix (l := cs) (· != '\n')
    refine ⟨by simpa using hfront.length_le, fun _ => ?_⟩
    show 0 = lineFeeds ('-' :: '-' :: cs.take (cs.takeWhile (· != '\n')).length)
    rw [← List.prefix_iff_eq_take.1 hfront, lineFeeds_cons_of_ne hhyphen,
      lineFeeds_cons_of_ne hhyphen, lineFeeds_takeWhile rfl]

/-- A quoted string with the quote in front of it. -/
theorem scanQuoted_accounts (line : ℕ) {quote : Char} (hquote : quote ≠ '\n') (cs : List Char) :
    Accounts line (quote :: cs) (·.more + 1) Scan.lines (scanQuoted line quote cs) := by
  rw [scanQuoted_eq]
  exact ((quotedRest_accounts quote line cs).cons hquote fun _ => rfl).map _ (fun _ => rfl)
    fun _ => rfl

/-- **A token advances as many lines as there are line feeds in its text**, and
a fault is found on one of the lines of the text. -/
theorem scan_accounts (line : ℕ) (c : Char) (cs : List Char) :
    Accounts line (c :: cs) (·.more + 1) Scan.lines (scan line c cs) := by
  unfold scan
  -- form by form, in the order in which `scan` tries them
  split
  · rename_i hspace
    exact takeWhile_accounts hspace
  split
  · exact scanNumber_accounts line c cs
  split
  · rename_i hstart
    exact takeWhile_accounts (isPart_of_isStart hstart)
  split
  · rename_i hdash
    simp only [Bool.and_eq_true, beq_iff_eq] at hdash
    obtain ⟨rfl, hdash⟩ := hdash
    obtain ⟨rest, rfl⟩ := List.head?_eq_some_iff.1 hdash
    exact scanComment_accounts line rest
  split
  · rename_i hquote
    refine scanQuoted_accounts line ?_ cs
    rintro rfl
    exact absurd hquote (by decide)
  split
  · rename_i hlong
    simp only [Bool.and_eq_true, beq_iff_eq] at hlong
    obtain ⟨rfl, -⟩ := hlong
    exact scanLongString_accounts line cs
  · exact scanSymbol_accounts line c cs

namespace Cuts

variable {last : ℕ} {cuts : List (List Char × Token)}

/-- **The line of a token** is the number of line feeds before its text,
counted from the line that the whole text begins on. -/
theorem line_eq (h : Cuts line cs cuts last) (hpaired : Paired cs)
    {before after : List (List Char × Token)} {text : List Char} {token : Token}
    (hcuts : cuts = before ++ (text, token) :: after) :
    token.line = line + lineFeeds (before.map Prod.fst).flatten := by
  induction h generalizing before with
  | nil => simp at hcuts
  | @cons line last c cs found cuts hscan rest ih =>
    have hlines := scan_accounts line c cs
    rw [hscan] at hlines
    cases before with
    | nil =>
      obtain ⟨hcut, -⟩ := List.cons.inj hcuts
      obtain ⟨-, rfl⟩ := Prod.mk.inj hcut
      rfl
    | cons first before =>
      obtain ⟨rfl, hrest⟩ := List.cons.inj hcuts
      rw [ih (hpaired.tail.drop _) hrest, hlines.2 hpaired, List.take_succ_cons, List.map_cons,
        List.flatten_cons, lineFeeds_append, Nat.add_assoc]

end Cuts

/-- **A lexical fault** is found on one of the lines of the text. -/
theorem tokensFrom_error_line (h : tokensFrom line cs = .error e) (hpaired : Paired cs) :
    line ≤ e.line ∧ e.line ≤ line + lineFeeds cs := by
  induction line, cs using tokensFrom.induct with
  | case1 line => simp [tokensFrom] at h
  | case2 line c cs ih =>
    have hlines := scan_accounts line c cs
    rw [tokensFrom] at h
    cases hscan : scan line c cs with
    | error e' =>
      rw [hscan] at h hlines
      obtain rfl := Except.error.inj h
      exact hlines hpaired
    | ok found =>
      rw [hscan] at h hlines
      cases hrest : tokensFrom (line + found.lines) (cs.drop found.more) with
      | ok rest => simp [bind, Except.bind, hrest] at h
      | error e' =>
        simp only [bind, Except.bind, hrest] at h
        obtain rfl := Except.error.inj h
        obtain ⟨hlow, hhigh⟩ := ih found hrest (hpaired.tail.drop _)
        have hsplit : lineFeeds (c :: cs.take found.more) + lineFeeds (cs.drop found.more) =
            lineFeeds (c :: cs) := lineFeeds_take_add_drop (c :: cs) (found.more + 1)
        have hfound : found.lines = lineFeeds (c :: cs.take found.more) := hlines.2 hpaired
        exact ⟨by omega, by omega⟩

/-! ## Bytes -/

/-- A line feed is a byte of no character but itself. -/
theorem count_utf8EncodeChar (c : Char) :
    (String.utf8EncodeChar c).count 0x0A = if c = '\n' then 1 else 0 := by
  split_ifs with h
  · rw [h]; decide
  · refine List.count_eq_zero.2 fun hmem => h ?_
    have hcode := Utf8.encode_ascii hmem (by decide)
    exact Char.toNat_inj.1 hcode.symm

/-- Line feeds are the bytes `0x0A` of an encoding. -/
theorem count_encode (cs : List Char) :
    (Utf8.encode (String.ofList cs)).count 0x0A = lineFeeds cs := by
  rw [Utf8.encode, String.toList_ofList]
  induction cs with
  | nil => rfl
  | cons c cs ih =>
    rw [List.flatMap_cons, List.count_append, ih, count_utf8EncodeChar, lineFeeds, lineFeeds,
      List.count_cons, Nat.add_comm]
    simp

end Lexer
end LuaSugar
