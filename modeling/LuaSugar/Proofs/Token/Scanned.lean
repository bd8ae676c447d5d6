import Mathlib
import LuaSugar.Proofs.Token.Written
/-!
# What tokens hold

The token of a name holds a name: only the scanner of words finds one, and
it looks its text up among operators and keywords first. So whatever is
built of the tokens of a text has names where it should.
-/

namespace LuaSugar

namespace Lexer

variable {line : ℕ} {c : Char} {cs : List Char} {found : Scan} {text : String}

/-- A token without a name and without a number. -/
def IsFixed (kind : TokenKind) : Prop :=
  (∀ text, kind ≠ .name text) ∧ ∀ value, kind ≠ .number value

/-- A text that is read on, if a scanner finds nothing else. -/
theorem isFixed_of_bind {α : Type} {x : Except LexError α} {f : α → Scan}
    (h : (do let found ← x; .ok (f found)) = .ok found) (hf : ∀ a, IsFixed (f a).kind) :
    IsFixed found.kind := by
  cases x with
  | error e => cases h
  | ok a =>
    obtain rfl := Except.ok.inj h
    exact hf a

/-- **What a scan finds** is a number, a word, or a token that is neither. -/
theorem scan_cases (h : scan line c cs = .ok found) :
    scanNumber line c cs = .ok found ∨ (Word.isStart c ∧ found = scanWord (c :: cs)) ∨
      IsFixed found.kind := by
  unfold scan at h
  split at h
  · obtain rfl := Except.ok.inj h
    exact .inr (.inr ⟨nofun, nofun⟩)
  split at h
  · exact .inl h
  split at h
  · rename_i hstart
    exact .inr (.inl ⟨hstart, (Except.ok.inj h).symm⟩)
  -- comments, strings and operators
  refine .inr (.inr ?_)
  split at h
  · simp only [scanComment] at h
    split at h <;> try split at h
    · exact isFixed_of_bind h fun _ => ⟨nofun, nofun⟩
    · obtain rfl := Except.ok.inj h
      exact ⟨nofun, nofun⟩
    · obtain rfl := Except.ok.inj h
      exact ⟨nofun, nofun⟩
  split at h
  · exact isFixed_of_bind h fun _ => ⟨nofun, nofun⟩
  split at h
  · unfold scanLongString at h
    split at h
    · cases h
    · exact isFixed_of_bind h fun _ => ⟨nofun, nofun⟩
  · unfold scanSymbol Scan.plain at h
    split at h
    · obtain rfl := Except.ok.inj h
      exact ⟨nofun, nofun⟩
    · cases h

/-- **Names** are found by the scanner of words only. -/
theorem scan_name (h : scan line c cs = .ok found) (hkind : found.kind = .name text) :
    Word.isStart c ∧ found = scanWord (c :: cs) := by
  rcases scan_cases h with hnumber | hword | hother
  -- a number has its own kind whether or not it is well formed
  · simp only [scanNumber, Scan.plain] at hnumber
    grind
  · exact hword
  · exact absurd hkind (hother.1 text)

theorem isWord_takeWhile (h : Word.isStart c) :
    Word.isWord (String.ofList ((c :: cs).takeWhile Word.isPart)) := by
  rw [List.takeWhile_cons_of_pos (isPart_of_isStart h), Word.isWord, String.toList_ofList]
  simp [h]

/-- A word that is a name is the word that was read. -/
theorem kind_eq_name {word : String} (h : Word.kind word = .name text) : text = word := by
  unfold Word.kind at h
  split at h
  · cases h
  split at h
  · cases h
  · exact (TokenKind.name.inj h).symm

theorem isName_of_scan (h : scan line c cs = .ok found) (hkind : found.kind = .name text) :
    Word.isName text ∧ text = String.ofList ((c :: cs).takeWhile Word.isPart) := by
  obtain ⟨hstart, rfl⟩ := scan_name h hkind
  have htext := kind_eq_name hkind
  refine ⟨Word.isName_iff.2 ⟨?_, ?_⟩, htext⟩
  · rw [htext]
    exact isWord_takeWhile hstart
  · rw [← hkind, htext]
    rfl

/-- The loop scans a token and goes on behind it. -/
theorem tokensFrom_cons_eq_ok {tokens : List Token} :
    tokensFrom line (c :: cs) = .ok tokens ↔ ∃ found rest, scan line c cs = .ok found ∧
      tokensFrom (line + found.lines) (cs.drop found.more) = .ok rest ∧
      tokens = ⟨found.kind, line, found.spelling⟩ :: rest := by
  rw [tokensFrom]
  cases scan line c cs with
  | error e => simp [bind, Except.bind]
  | ok found =>
    simp only [bind, Except.bind, Except.ok.injEq, exists_and_left, exists_eq_left']
    cases tokensFrom (line + found.lines) (cs.drop found.more) with
    | error e => simp
    | ok rest => simp [eq_comm]

/-- No word is a number. -/
theorem kind_ne_number (word : String) (value : Double) : Word.kind word ≠ .number value := by
  unfold Word.kind
  split
  · simp
  · split <;> simp

/-- A literal with a value, or a fault. -/
theorem isNegative_of_value? {value : Double} {value? : Option Double} {cs : List Char}
    {e : LexError} (h : (match value? with
      | some value => Except.ok (Scan.plain (.number value) cs)
      | none => .error e) = .ok found)
    (hkind : found.kind = .number value) (hvalue : ∀ v ∈ value?, v.isNegative = false) :
    value.isNegative = false := by
  cases value? with
  | none => cases h
  | some v =>
    obtain rfl := Except.ok.inj h
    obtain rfl := TokenKind.number.inj hkind
    exact hvalue v rfl

/-- The value of a literal has no sign. -/
theorem isNegative_of_scanNumber {value : Double} (h : scanNumber line c cs = .ok found)
    (hkind : found.kind = .number value) : value.isNegative = false := by
  unfold scanNumber at h
  dsimp only at h
  split at h
  · refine isNegative_of_value? h hkind fun v hv => ?_
    simp only [radixValue?, Option.mem_def, Option.bind_eq_bind, Option.bind_eq_some_iff] at hv
    obtain ⟨values, -, hv⟩ := hv
    split at hv
    · cases hv
    · obtain rfl := Option.some.inj hv
      exact Double.isNegative_ofRatio _ _
  · split at h
    · refine isNegative_of_value? h hkind fun v hv => ?_
      unfold DecimalParts.value? at hv
      dsimp only at hv
      split at hv
      · cases hv
      · obtain rfl := Option.some.inj hv
        exact Decimal.isNegative_toDouble _
    · cases h

/-- Numbers are read without a sign. -/
theorem isNegative_of_scan {value : Double} (h : scan line c cs = .ok found)
    (hkind : found.kind = .number value) : value.isNegative = false := by
  rcases scan_cases h with hnumber | ⟨-, rfl⟩ | hother
  · exact isNegative_of_scanNumber hnumber hkind
  · exact absurd hkind (kind_ne_number _ _)
  · exact absurd hkind (hother.2 value)

/-- What holds of every token that is scanned holds of all tokens of a
text. -/
theorem forall_mem_of_scan {P : TokenKind → Prop}
    (hscan : ∀ line c cs found, scan line c cs = .ok found → P found.kind) {tokens : List Token} :
    ∀ {cs : List Char} {line : ℕ}, tokensFrom line cs = .ok tokens → ∀ t ∈ tokens, P t.kind := by
  induction tokens with
  | nil => simp
  | cons token rest ih =>
    intro cs line h
    cases cs with
    | nil => simp [tokensFrom] at h
    | cons c cs =>
      obtain ⟨found, rest', hfound, hrest, htokens⟩ := tokensFrom_cons_eq_ok.1 h
      obtain ⟨rfl, rfl⟩ := List.cons.inj htokens
      exact List.forall_mem_cons.2 ⟨hscan _ _ _ _ hfound, ih hrest⟩

/-- **Name tokens hold names.** -/
theorem isName_of_mem {tokens : List Token} {cs : List Char} {line : ℕ}
    (h : tokensFrom line cs = .ok tokens) : ∀ t ∈ tokens, ∀ text, t.kind = .name text →
      Word.isName text :=
  forall_mem_of_scan (P := fun kind => ∀ text, kind = .name text → Word.isName text)
    (fun _ _ _ _ hfound _ hkind => (isName_of_scan hfound hkind).1) h

/-- **Number tokens hold no negative numbers.** -/
theorem isNegative_of_mem {tokens : List Token} {cs : List Char} {line : ℕ}
    (h : tokensFrom line cs = .ok tokens) : ∀ t ∈ tokens, ∀ value, t.kind = .number value →
      value.isNegative = false :=
  forall_mem_of_scan (P := fun kind => ∀ value, kind = .number value → value.isNegative = false)
    (fun _ _ _ _ hfound _ hkind => isNegative_of_scan hfound hkind) h

/-- Lines go up from the one that the text begins on. -/
theorem tokensFrom_lines {tokens : List Token} : ∀ {cs : List Char} {line : ℕ},
    tokensFrom line cs = .ok tokens →
      (∀ t ∈ tokens, line ≤ t.line) ∧ tokens.Pairwise fun t u => t.line ≤ u.line := by
  induction tokens with
  | nil => simp
  | cons token rest ih =>
    intro cs line h
    cases cs with
    | nil => simp [tokensFrom] at h
    | cons c cs =>
      obtain ⟨found, rest', -, hrest, htokens⟩ := tokensFrom_cons_eq_ok.1 h
      obtain ⟨rfl, rfl⟩ := List.cons.inj htokens
      obtain ⟨hfrom, hpairs⟩ := ih hrest
      have hbelow : ∀ t ∈ rest, line ≤ t.line := fun t ht => le_of_add_le_left (hfrom t ht)
      exact ⟨List.forall_mem_cons.2 ⟨le_rfl, hbelow⟩, List.pairwise_cons.2 ⟨hbelow, hpairs⟩⟩

end Lexer

/-- **The lines of tokens go up.** -/
theorem tokenize_lines {source : String} {tokens : List Token} (h : tokenize source = .ok tokens) :
    tokens.Pairwise fun t u => t.line ≤ u.line :=
  (Lexer.tokensFrom_lines h).2

/-- A text that is cut into one token, a name. -/
def IsNameToken (source : String) : Prop :=
  ∃ token text, tokenize source = .ok [token] ∧ token.kind = .name text

theorem IsNameToken.isName {source : String} (h : IsNameToken source) : Word.isName source := by
  obtain ⟨token, text, htokens, hkind⟩ := h
  unfold tokenize at htokens
  cases hsource : source.toList with
  | nil => simp [hsource, Lexer.tokensFrom] at htokens
  | cons c cs =>
    rw [hsource] at htokens
    obtain ⟨found, rest, hscan, hrest, hcons⟩ := Lexer.tokensFrom_cons_eq_ok.1 htokens
    obtain ⟨rfl, rfl⟩ := List.cons.inj hcons
    obtain ⟨hname, htext⟩ := Lexer.isName_of_scan hscan hkind
    have hdrop : cs.drop found.more = [] := by
      cases hcs : cs.drop found.more with
      | nil => rfl
      | cons d ds =>
        rw [hcs] at hrest
        obtain ⟨_, _, -, -, hnil⟩ := Lexer.tokensFrom_cons_eq_ok.1 hrest
        cases hnil
    obtain ⟨hstart, rfl⟩ := Lexer.scan_name hscan hkind
    -- the word takes all characters
    have hall : (c :: cs).takeWhile Word.isPart = c :: cs := by
      refine (List.takeWhile_prefix _).eq_of_length_le ?_
      have hmore := List.drop_eq_nil_iff.1 hdrop
      have hpos := congrArg List.length
        (List.takeWhile_cons_of_pos (l := cs) (Lexer.isPart_of_isStart hstart))
      simp only [Lexer.scanWord, Lexer.Scan.plain, List.length_cons] at hmore hpos ⊢
      omega
    rw [hall, ← hsource, String.ofList_toList] at htext
    rwa [← htext]

end LuaSugar
