import Mathlib
import LuaSugar.Proofs.Desugar.Sequence
import LuaSugar.Proofs.Render.Bare
import LuaSugar.Proofs.Render.Nodes
import LuaSugar.Proofs.Token.Scanned
/-!
# Layouts differ in trivia only

Rendering writes gaps between tokens, and reading skips them. So what is
read of a rendered chunk are the tokens of its wording, whatever the
layout. That takes a chunk of plain Lua whose names are read as names:
compiling makes one, since a name token holds a name and passes bring in
no other names than their own and the constructor of elements.
-/

namespace LuaSugar

/-! ## Compiled names are read as names -/

/-- No reserved word begins with an underscore. -/
theorem Word.isName_of_underscore {text : String} {cs : List Char} (htext : text.toList = '_' :: cs)
    (hcs : ∀ c ∈ cs, Word.isPart c) : Word.isName text := by
  have hop : ∀ op ∈ Operator.words, op.text.toList.head? ≠ some '_' := by decide
  have hword : ∀ word ∈ Keyword.all, word.text.toList.head? ≠ some '_' := by decide
  have hno (reserved : String) (hreserved : reserved.toList.head? ≠ some '_') :
      (reserved == text) = false := by
    refine beq_eq_false_iff_ne.2 fun h => hreserved ?_
    rw [h, htext]
    rfl
  refine Word.isName_iff.2 ⟨?_, ?_⟩
  · rw [Word.isWord, htext]
    exact Bool.and_eq_true_iff.2 ⟨by decide, List.all_eq_true.2 hcs⟩
  · have hnone : Operator.ofWord? text = none :=
      List.find?_eq_none.2 fun op h => by simp [hno _ (hop op h)]
    have hnone' : Keyword.ofText? text = none :=
      List.find?_eq_none.2 fun word h => by simp [hno _ (hword word h)]
    rw [Word.kind, hnone, hnone']

theorem Import.isName_holder (count : ℕ) : Word.isName (Import.holder count) := by
  have htext : (Import.holder count).toList =
      '_' :: (['_', 'i', 'm', 'p', 'o', 'r', 't'] ++ Nat.toDigits 10 count) := by
    simp [Import.holder]
  refine Word.isName_of_underscore htext fun c hc => ?_
  rcases List.mem_append.1 hc with hc | hc
  · have hparts : ∀ c ∈ ['_', 'i', 'm', 'p', 'o', 'r', 't'], Word.isPart c :=
      List.all_eq_true.1 rfl
    exact hparts c hc
  · have hdigit : c.isDigit := Nat.isDigit_of_mem_toDigits (by omega) (by omega) hc
    simp [Word.isPart, Char.isAlphanum, hdigit]

theorem Vocabulary.lexed_stable : Vocabulary.lexed.Stable := by
  refine ⟨fun _ _ => trivial, fun _ _ _ _ => trivial, ?_, Import.isName_holder, ?_, ?_⟩
  · show Word.isName "require"
    decide
  · show Word.isName "v"
    decide
  · show Word.isName "self"
    decide

/-- The chunk of a source has names that are read as names. -/
theorem parseSource_lexed {source : String} {c : Chunk} (h : parseSource source = .ok c) :
    c.Sound .lexed False := by
  obtain ⟨tokens, htokens, hparse⟩ := parseSource_eq_ok.1 h
  refine .of_parse (fun _ _ => trivial) (fun t ht => ?_) hparse (fun _ _ _ _ _ => trivial)
    fun hR => hR.elim
  have hname := Lexer.isName_of_mem htokens t ht
  cases hkind : t.kind with
  | name text => exact hname text hkind
  | _ => trivial

/-- **A compiled source** is plain and has names that are read as names. -/
theorem compile_lexed {constructor source : String} (hconstructor : IsNameToken constructor)
    {c : Chunk} (h : compile constructor source = .ok c) : c.Sound .lexed False ∧ c.Plain := by
  obtain ⟨parsed, hparsed, hdesugar⟩ := compile_eq_ok.1 h
  obtain ⟨tokens, -, hparse⟩ := parseSource_eq_ok.1 hparsed
  have hsound := (parseSource_lexed hparsed).desugared Vocabulary.lexed_stable hconstructor.isName
  have hplain := (parse_chunk_sound hparse).desugar_plain constructor (by rw [hdesugar])
  rw [hdesugar] at hsound hplain
  exact ⟨hsound, hplain⟩

/-! ## What rendering spells -/

theorem Fragment.isEmpty_text (f : Fragment) : f.text.isEmpty = f.isBlank := by
  induction f with
  | nil => rfl
  | cons l f ih =>
    rw [Fragment.isBlank, List.all_cons, ← Fragment.isBlank, ← ih, Bool.eq_iff_iff, Bool.and_eq_true]
    simp only [String.isEmpty_iff, ← String.toList_eq_nil_iff, toList_text_cons,
      List.append_eq_nil_iff]

/-- What is written of a part, with a line feed at the end unless it is
nothing, is clean. -/
theorem Fragment.Part.ended {f : Fragment} {ts : List TokenKind} (h : f.Part ts) :
    ∃ g : Fragment, g.Clean ∧ g.tokens = ts ∧
      g.text = if f.text.isEmpty then f.text else f.text ++ "\n" := by
  rcases h with ⟨rfl, rfl⟩ | h
  · exact ⟨[], Fragment.Spells.nil.clean, rfl, rfl⟩
  · have hfeed : (Lexeme.gap "\n").Legible := by
      refine ⟨by simp, fun c hc => ?_⟩
      obtain rfl : c = '\n' := by simpa using hc
      rfl
    refine ⟨f ++ [.gap "\n"], ⟨fun l hl => ?_, ?_⟩, ?_, ?_⟩
    · rcases List.mem_append.1 hl with hl | hl
      · exact h.clean.1 l hl
      · rwa [List.mem_singleton.1 hl]
    · refine List.isChain_append.2 ⟨h.clean.2, List.isChain_singleton _, ?_⟩
      rintro l hl _ ⟨⟩ c hc
      rw [h.last] at hl
      obtain ⟨a, ha, rfl⟩ := Option.map_eq_some_iff.1 hl
      exact TokenKind.admits_space (h.legible a (List.mem_of_mem_getLast? ha))
        (hfeed.2 c (List.mem_of_mem_head? hc))
    · rw [tokens_append, h.tokens]
      exact List.append_nil _
    · have hne : ¬ f.text.isEmpty := by
        rw [isEmpty_text]
        exact mt (Part.isBlank_iff (.inr h)).1 h.ne
      rw [if_neg hne, ← String.toList_inj, toList_text_append, String.toList_append]
      rfl

open Printer

namespace Chunk

variable {c : Chunk} {R : Prop}

theorem reaches_of_mem {x : ExprId} (h : x ∈ Block.ids c.body) : c.Reaches x :=
  ⟨x, h, .refl⟩

/-- Nodes of a plain chunk are worded with names and without sugar. -/
theorem Sound.wordedNode (h : c.Sound .lexed R) (hplain : c.Plain) {i : ExprId} (hi : c.Reaches i) :
    WordedNode c.arena (c.arena.get i) := by
  obtain ⟨rank, hsound⟩ := h.arena
  refine ⟨hsound.nodes i, hplain.nodes i hi, fun func hfunc s hs => ⟨?_, ?_⟩⟩
  · have hnode := hsound.nodes i
    rw [hfunc] at hnode
    exact hnode.2 s hs
  · have hbody : c.arena.body? i = some func.body := by rw [Arena.body?, hfunc]
    exact hplain.bodies i hi _ hbody s hs

theorem Sound.worded (h : c.Sound .lexed R) (hplain : c.Plain) :
    Block.Everywhere (Worded c.arena) c.body :=
  fun s hs => ⟨h.body s hs, hplain.body s hs⟩

/-- **What a plain chunk leads to** is printed with its wording, in either
layout. -/
theorem Sound.words (h : c.Sound .lexed R) (hplain : c.Plain) {i : ExprId} (hi : c.Reaches i)
    (ℓ : Layout) : Words (c.arena.printer ℓ) c.arena.wording [i] := by
  obtain ⟨rank, hsound⟩ := h.arena
  have hranked := hsound.ranked
  induction hn : c.arena.height rank i using Nat.strong_induction_on generalizing i ℓ with
  | _ n ih =>
    have hrefs (ℓ : Layout) : Words (c.arena.printer ℓ) c.arena.wording (c.arena.get i).refs :=
      fun x hx => ih _ (hn ▸ hranked.graded i x hx) (hi.trans hx) ℓ rfl x
        (List.mem_singleton_self x)
    have hnode := h.wordedNode hplain hi
    have hoperand (ℓ : Layout) (indent : ℕ) : ((c.arena.printer ℓ).expr indent i).Operand
        (c.arena.wording.expression (c.arena.get i)) := by
      rw [hranked.printer_expr]
      exact operand_expression rfl hnode (hrefs ℓ) indent
    -- the wording is read off the tightest printing
    have hword : c.arena.wording.expr i = c.arena.wording.expression (c.arena.get i) :=
      (hoperand .minify 0).tokens
    intro x hx
    obtain rfl := List.mem_singleton.1 hx
    refine ⟨fun indent => ?_, hword, hplain.nodes x hi⟩
    rw [hword]
    exact hoperand ℓ indent

/-- The tokens of a chunk in any layout. -/
def wording (c : Chunk) : List TokenKind := c.arena.wording.block c.body

theorem Sound.part_block (h : c.Sound .lexed R) (hplain : c.Plain) (ℓ : Layout) :
    ((c.arena.printer ℓ).block 0 c.body).Part c.wording := by
  refine Printer.part_block (h.worded hplain) (fun x hx => ?_) 0
  exact h.words hplain (reaches_of_mem hx) ℓ x (List.mem_singleton_self x)

/-- **A rendered chunk is read as its wording.** -/
theorem Sound.tokenize_render (h : c.Sound .lexed R) (hplain : c.Plain) (ℓ : Layout) :
    ∃ tokens, tokenize (ℓ.render c) = .ok tokens ∧
      (significant tokens).map Token.kind = c.wording := by
  obtain ⟨f, hclean, htokens, htext⟩ := (h.part_block hplain ℓ).ended
  obtain ⟨tokens, hread, hkinds⟩ := hclean.tokensFrom
  have hrender : ℓ.render c = f.text := htext.symm
  rw [hrender, ← htokens]
  exact ⟨tokens 1, hread 1, hkinds 1⟩

end Chunk

/-- **Layouts differ in trivia only.** -/
theorem compile_layouts {constructor source : String} (hconstructor : IsNameToken constructor)
    {c : Chunk} (h : compile constructor source = .ok c) :
    SameTokens (Layout.pretty.render c) (Layout.minify.render c) := by
  obtain ⟨hsound, hplain⟩ := compile_lexed hconstructor h
  obtain ⟨tokens, hread, hkinds⟩ := hsound.tokenize_render hplain .pretty
  obtain ⟨tokens', hread', hkinds'⟩ := hsound.tokenize_render hplain .minify
  exact ⟨tokens, tokens', hread, hread', hkinds.trans hkinds'.symm⟩

theorem compile_layouts_concat : let source := "local a = 1 .. - -b; (f or g)()"
    IsNameToken "h" ∧ ∃ c, compile "h" source = .ok c ∧
      SameTokens (Layout.pretty.render c) (Layout.minify.render c) := by
  intro source
  have hconstructor : IsNameToken "h" := ⟨_, _, by cbv, rfl⟩
  have hcompile : ∃ c, compile "h" source = .ok c := ⟨_, by cbv⟩
  exact ⟨hconstructor, hcompile.imp fun c h => ⟨h, compile_layouts hconstructor h⟩⟩

end LuaSugar
