import Mathlib
import LuaSugar.Proofs.Token.Scanned
/-!
# How a text is cut

A text that has tokens falls into the texts that they are read from, one
after the other and nothing between them. `Cuts` follows the loop from token
to token and keeps these texts, so that what is said of one token may be said
of the place where it stands.

The other half of this module says what the scanners of longer tokens answer,
and what they have read when they do.
-/

namespace LuaSugar

namespace Lexer

variable {line : ℕ} {c : Char} {cs : List Char} {found : Scan}

/-- `Cuts line cs cuts last`: the text `cs`, which begins on `line`, is cut
into tokens, each with the characters it is read from, and its end is on the
line `last`. -/
inductive Cuts : ℕ → List Char → List (List Char × Token) → ℕ → Prop
  | nil (line : ℕ) : Cuts line [] [] line
  | cons {line last : ℕ} {c : Char} {cs : List Char} {found : Scan}
      {cuts : List (List Char × Token)} (hscan : scan line c cs = .ok found)
      (rest : Cuts (line + found.lines) (cs.drop found.more) cuts last) :
      Cuts line (c :: cs)
        ((c :: cs.take found.more, ⟨found.kind, line, found.spelling⟩) :: cuts) last

namespace Cuts

variable {last : ℕ} {cuts : List (List Char × Token)}

/-- The texts that the tokens are read from make up the text. -/
theorem flatten_fst (h : Cuts line cs cuts last) : (cuts.map Prod.fst).flatten = cs := by
  induction h with
  | nil => rfl
  | cons hscan rest ih =>
    rw [List.map_cons, List.flatten_cons, ih, List.cons_append, List.take_append_drop]

/-- The loop finds the tokens of the cuts. -/
theorem tokensFrom_eq (h : Cuts line cs cuts last) :
    tokensFrom line cs = .ok (cuts.map Prod.snd) := by
  induction h with
  | nil => rw [tokensFrom]; rfl
  | cons hscan rest ih => exact tokensFrom_cons_eq_ok.2 ⟨_, _, hscan, ih, rfl⟩

end Cuts

/-- **A text that has tokens is cut into them.** -/
theorem tokensFrom_eq_ok_iff {tokens : List Token} : tokensFrom line cs = .ok tokens ↔
    ∃ cuts last, Cuts line cs cuts last ∧ tokens = cuts.map Prod.snd := by
  refine ⟨fun h => ?_, fun ⟨cuts, last, h, htokens⟩ => htokens ▸ h.tokensFrom_eq⟩
  induction tokens generalizing line cs with
  | nil =>
    cases cs with
    | nil => exact ⟨[], line, .nil line, rfl⟩
    | cons c cs =>
      obtain ⟨_, _, -, -, hnil⟩ := tokensFrom_cons_eq_ok.1 h
      cases hnil
  | cons token rest ih =>
    cases cs with
    | nil => simp [tokensFrom] at h
    | cons c cs =>
      obtain ⟨found, rest', hscan, hrest, htokens⟩ := tokensFrom_cons_eq_ok.1 h
      obtain ⟨rfl, rfl⟩ := List.cons.inj htokens
      obtain ⟨cuts, last, hcuts, rfl⟩ := ih hrest
      exact ⟨_, last, .cons hscan hcuts, rfl⟩

/-! ## What scanners answer -/

/-- A quoted string takes what its end leaves. -/
theorem scanQuoted_eq (line : ℕ) (quote : Char) (cs : List Char) :
    scanQuoted line quote cs = (quotedRest quote line cs).map fun rest =>
      ⟨.string rest.bytes, .quoted quote, rest.length, rest.lines⟩ := rfl

theorem scanLongString_eq (line : ℕ) (cs : List Char) : scanLongString line cs =
    match longLevel? cs with
    | none => .error ⟨line, .invalidLongDelimiter⟩
    | some level => (longBracket line .unfinishedLongString level cs).map fun long =>
        ⟨.string (Utf8.encode (String.ofList long.body)), .long level, long.length - 1,
          long.lines⟩ := rfl

/-- The level of the long bracket that a comment begins with. -/
def commentLevel? : List Char → Option ℕ
  | '[' :: opened => longLevel? opened
  | _ => none

theorem scanComment_eq (line : ℕ) (cs : List Char) : scanComment line cs =
    match commentLevel? cs with
    | some level => (longBracket line .unfinishedLongComment level cs.tail).map fun long =>
        ⟨.comment (String.ofList long.body), .long level, long.length + 1, long.lines⟩
    | none => .ok ⟨.comment (String.ofList (cs.takeWhile (· != '\n'))), .plain,
        (cs.takeWhile (· != '\n')).length + 1, 0⟩ := by
  unfold scanComment
  split
  · rename_i opened
    split
    · rename_i level hlevel
      rw [show commentLevel? ('[' :: opened) = some level from hlevel]
      rfl
    · rename_i hlevel
      rw [show commentLevel? ('[' :: opened) = none from hlevel]
  · rename_i hopen
    have hlevel : commentLevel? cs = none := by
      unfold commentLevel?
      split
      · exact absurd rfl (hopen _)
      · rfl
    rw [hlevel]

/-- A long comment begins with a bracket and the rest of a long opening. -/
theorem commentLevel?_eq_some {level : ℕ} (h : commentLevel? cs = some level) :
    ∃ opened, cs = '[' :: opened ∧ longLevel? opened = some level := by
  unfold commentLevel? at h
  split at h
  · exact ⟨_, rfl, h⟩
  · cases h

/-- A long opening is so many equals signs and a bracket. -/
theorem longLevel?_eq_some {level : ℕ} (h : longLevel? cs = some level) :
    ∃ opened, cs = List.replicate level '=' ++ '[' :: opened := by
  unfold longLevel? at h
  dsimp only at h
  split at h
  · rename_i opened hdrop
    obtain rfl := Option.some.inj h
    refine ⟨opened, ?_⟩
    have hsigns : cs.takeWhile (· == '=') = List.replicate (cs.takeWhile (· == '=')).length '=' :=
      List.eq_replicate_iff.2 ⟨rfl, fun c hc => by simpa using List.mem_takeWhile_imp hc⟩
    rw [← hsigns, ← hdrop]
    exact List.prefix_iff_eq_append.1 (List.takeWhile_prefix _) |>.symm
  · cases h

/-- A long body stands in front of the closing bracket of its level. -/
theorem longBody?_eq_some {level : ℕ} : ∀ {cs body : List Char}, longBody? level cs = some body →
    ∃ rest, cs = body ++ ']' :: (List.replicate level '=' ++ ']' :: rest)
  | [], _, h => by cases h
  | c :: cs, body, h => by
    rw [longBody?] at h
    split at h
    · rename_i hclose
      obtain rfl := Option.some.inj h
      rw [Bool.and_eq_true, beq_iff_eq, closesLong, List.isPrefixOf_iff_prefix] at hclose
      obtain ⟨rfl, rest, hrest⟩ := hclose
      exact ⟨rest, by simp [← hrest]⟩
    · obtain ⟨body, hbody, rfl⟩ := Option.map_eq_some_iff.1 h
      obtain ⟨rest, hrest⟩ := longBody?_eq_some hbody
      exact ⟨rest, by rw [hrest]; rfl⟩

theorem leadingBreak_front (cs : List Char) : leadingBreak cs <+: cs := by
  unfold leadingBreak
  split <;> simp

/-- A fraction is a dot with digits, unless another dot makes it a concatenation. -/
theorem fractionPart_eq (cs : List Char) : fractionPart cs =
    if cs.head? = some '.' ∧ cs.tail.head? ≠ some '.' then
      '.' :: cs.tail.takeWhile isDigitOrSeparator
    else [] := by
  unfold fractionPart
  split
  · simp
  · rename_i rest hrest
    have hnext : rest.head? ≠ some '.' := by
      intro hhead
      obtain ⟨more, rfl⟩ := List.head?_eq_some_iff.1 hhead
      exact hrest more rfl
    simp [hnext]
  · rename_i _ hdot
    rw [if_neg]
    rintro ⟨hhead, -⟩
    obtain ⟨rest, rfl⟩ := List.head?_eq_some_iff.1 hhead
    exact hdot rest rfl

/-- The sign at the front of a text. -/
def signPart : List Char → List Char
  | c :: _ => if c == '+' || c == '-' then [c] else []
  | [] => []

/-- An exponent is a mark, a sign that may be missing, and digits. -/
theorem exponentPart_cons (mark : Char) (cs : List Char) : exponentPart (mark :: cs) =
    if mark == 'e' || mark == 'E' then
      mark :: (signPart cs ++ (cs.drop (signPart cs).length).takeWhile isDigitOrSeparator)
    else [] := by
  cases cs with
  | nil => rfl
  | cons sign digits =>
    unfold exponentPart signPart
    dsimp only
    by_cases hsign : (sign == '+' || sign == '-') = true
    · simp only [hsign, if_true]
      rfl
    · simp only [if_neg hsign]
      rfl

theorem signPart_front (cs : List Char) : signPart cs <+: cs := by
  unfold signPart
  split
  · split
    · exact List.cons_prefix_cons.2 ⟨rfl, List.nil_prefix⟩
    · exact List.nil_prefix
  · exact List.nil_prefix

theorem fractionPart_front (cs : List Char) : fractionPart cs <+: cs := by
  rw [fractionPart_eq]
  split
  · rename_i hdot
    obtain ⟨rest, rfl⟩ := List.head?_eq_some_iff.1 hdot.1
    exact List.cons_prefix_cons.2 ⟨rfl, List.takeWhile_prefix _⟩
  · exact List.nil_prefix

theorem exponentPart_front (cs : List Char) : exponentPart cs <+: cs := by
  cases cs with
  | nil => exact List.nil_prefix
  | cons mark cs =>
    rw [exponentPart_cons]
    split
    · refine List.cons_prefix_cons.2 ⟨rfl, ?_⟩
      conv_rhs => rw [← List.prefix_iff_eq_append.1 (signPart_front cs)]
      exact (List.prefix_append_right_inj _).2 (List.takeWhile_prefix _)
    · exact List.nil_prefix

/-- A decimal number stands at the front of the text. -/
theorem decimalParts_front (cs : List Char) : (decimalParts cs).text <+: cs := by
  have hsplit {front cs : List Char} (h : front <+: cs) : cs = front ++ cs.drop front.length :=
    List.prefix_iff_eq_append.1 h |>.symm
  simp only [DecimalParts.text, decimalParts]
  have hwhole := hsplit (List.takeWhile_prefix (l := cs) isDigitOrSeparator)
  have hfraction := hsplit
    (fractionPart_front (cs.drop (cs.takeWhile isDigitOrSeparator).length))
  obtain ⟨rest, hrest⟩ := exponentPart_front
    ((cs.drop (cs.takeWhile isDigitOrSeparator).length).drop
      (fractionPart (cs.drop (cs.takeWhile isDigitOrSeparator).length)).length)
  refine ⟨rest, ?_⟩
  rw [List.append_assoc, List.append_assoc, hrest, ← hfraction, ← hwhole]

/-- The number that a text begins with, and its value if it has one. -/
def numeral (c : Char) (cs : List Char) : Option Double × List Char :=
  match radix? c cs with
  | some radix =>
    let digits := (cs.drop 1).takeWhile Word.isPart
    (radixValue? radix (digits.filter (· != '_')), c :: cs.take 1 ++ digits)
  | none =>
    let text := (decimalParts (c :: cs)).text
    let tail := ((c :: cs).drop text.length).takeWhile Word.isPart
    if tail.isEmpty then ((decimalParts (c :: cs)).value?, text) else (none, text ++ tail)

/-- A number is a numeral that has a value. -/
theorem scanNumber_eq (line : ℕ) (c : Char) (cs : List Char) : scanNumber line c cs =
    match (numeral c cs).1 with
    | some value => .ok (.plain (.number value) (numeral c cs).2)
    | none => .error ⟨line, .malformedNumber (String.ofList (numeral c cs).2)⟩ := by
  unfold scanNumber numeral
  dsimp only
  cases radix? c cs with
  | some radix => rfl
  | none =>
    dsimp only
    split <;> rfl

/-- **A numeral is cut off the front**, whether or not it has a value. -/
theorem numeral_front (c : Char) (cs : List Char) : (numeral c cs).2 <+: c :: cs := by
  unfold numeral
  dsimp only
  split
  · rw [List.cons_append, List.cons_prefix_cons]
    refine ⟨rfl, ?_⟩
    conv_rhs => rw [← List.take_append_drop 1 cs]
    exact (List.prefix_append_right_inj _).2 (List.takeWhile_prefix _)
  · split
    · exact decimalParts_front _
    · conv_rhs => rw [← List.prefix_iff_eq_append.1 (decimalParts_front (c :: cs))]
      exact (List.prefix_append_right_inj _).2 (List.takeWhile_prefix _)

/-- A number with a value has a text. -/
theorem numeral_ne_nil {value : Double} (h : (numeral c cs).1 = some value) :
    (numeral c cs).2 ≠ [] := by
  unfold numeral at h ⊢
  dsimp only at h ⊢
  split at h
  · simp
  · split at h
    · rename_i htail
      rw [if_pos htail]
      intro hnil
      simp only [DecimalParts.text, List.append_eq_nil_iff] at hnil
      simp [DecimalParts.value?, hnil] at h
    · cases h

/-- A symbol is not empty and stands at the front. -/
theorem ofSymbol?_eq_some {op : Operator} (h : Operator.ofSymbol? cs = some op) :
    op.text.toList ≠ [] ∧ op.text.toList <+: cs := by
  refine ⟨?_, List.isPrefixOf_iff_prefix.1 (List.find?_some h :)⟩
  cases op <;> decide

theorem leadingBreak_append (cs : List Char) :
    leadingBreak cs ++ cs.drop (leadingBreak cs).length = cs :=
  List.prefix_iff_eq_append.1 (leadingBreak_front cs)

end Lexer

end LuaSugar
