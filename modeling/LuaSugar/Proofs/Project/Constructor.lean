import Mathlib
import LuaSugar.Proofs.Desugar.Called
import LuaSugar.Proofs.Render.Contained
/-!
# Constructors of elements

A project chooses the name that its elements are calls of. A configuration
is accepted if that is a word, and what is read as a name is a word that is
not reserved; the renderer writes a key without brackets only if it is one.
So for every word that is not reserved the calls of a compiled source are
read as calls of that name, and the reserved words are accepted as well
(`validate_constructor`), though what is read of them is no name.
-/

namespace LuaSugar

/-! ## Words that are read as names -/

namespace Word

/-- The words that are no names. -/
def reserved : List String := Operator.words.map Operator.text ++ Keyword.all.map Keyword.text

theorem isWord_of_mem_reserved {text : String} (h : text ∈ reserved) : isWord text := by
  have hall : ∀ text ∈ reserved, isWord text := by decide
  exact hall text h

theorem kind_eq_name_iff {text : String} : kind text = .name text ↔ text ∉ reserved := by
  have hop : Operator.ofWord? text = none ↔ text ∉ Operator.words.map Operator.text := by
    simp [Operator.ofWord?, List.find?_eq_none]
  have hword : Keyword.ofText? text = none ↔ text ∉ Keyword.all.map Keyword.text := by
    simp [Keyword.ofText?, List.find?_eq_none]
  rw [reserved, List.mem_append, not_or, ← hop, ← hword, kind]
  cases Operator.ofWord? text with
  | some op => simp
  | none => cases Keyword.ofText? text <;> simp

/-- **Names are the words that are not reserved.** -/
theorem isName_iff_not_reserved {text : String} :
    isName text ↔ isWord text ∧ text ∉ reserved := by
  rw [isName_iff, kind_eq_name_iff]

end Word

/-- **A word is cut into one token**, itself. -/
theorem tokenize_word {text : String} (h : Word.isWord text) :
    ∃ token, tokenize text = .ok [token] ∧ token.kind = Word.kind text := by
  have hfinds : Lexer.Finds (Word.kind text) 1 [] text.toList := Lexer.finds_word h (by simp)
  have hend (line : ℕ) : Lexer.tokensFrom line [] = .ok [] := by rw [Lexer.tokensFrom]
  obtain ⟨token, _, htokens, hkind⟩ := hfinds.tokensFrom hend
  rw [List.append_nil] at htokens
  exact ⟨token, htokens, hkind⟩

/-- **What is cut into one token, the name it spells,** are the names. -/
theorem tokenize_eq_name_iff {text : String} :
    (∃ token, tokenize text = .ok [token] ∧ token.kind = .name text) ↔ Word.isName text := by
  constructor
  · rintro ⟨token, htokens, hkind⟩
    exact IsNameToken.isName ⟨token, text, htokens, hkind⟩
  · intro h
    obtain ⟨hword, hkind⟩ := Word.isName_iff.1 h
    rw [← hkind]
    exact tokenize_word hword

/-- The keys that are written without brackets are the names. -/
theorem Printer.fieldName?_encode {text : String} :
    Printer.fieldName? (Utf8.encode text) = some text ↔ Word.isName text := by
  rw [Printer.fieldName?, Utf8.decode?_encode, Option.filter_some]
  split <;> simp_all

/-! ## Configurations -/

namespace Config

variable {c : Config} {path : Path} {other : String}

theorem validate_eq_ok : c.validate path = .ok () ↔ c.fault? = none := by
  unfold validate
  cases c.fault? <;> simp

/-- **Of the constructor alone** it depends whether a configuration is valid
that is with another one: it has to be a word. -/
theorem validate_of_valid
    (h : ({ c with elementConstructor := other } : Config).validate path = .ok ()) (s : String) :
    ({ c with elementConstructor := s } : Config).validate path =
      if Word.isWord s then .ok () else .error (.invalid path (.constructorNotWord s)) := by
  rw [validate_eq_ok] at h
  have hfault : ({ c with elementConstructor := s } : Config).fault? =
      if Word.isWord s then none else some (.constructorNotWord s) := by
    -- what is looked at besides is the same with either constructor
    have houtput : ({ c with elementConstructor := s } : Config).outputFault? =
      ({ c with elementConstructor := other } : Config).outputFault? := rfl
    have hregistry : ({ c with elementConstructor := s } : Config).registryFault? =
      ({ c with elementConstructor := other } : Config).registryFault? := rfl
    unfold fault? at h ⊢
    rw [houtput, hregistry]
    split at h
    · cases h
    split at h
    · cases h
    rename_i hname hentrypoint
    rw [if_neg hname, if_neg hentrypoint]
    obtain ⟨hnone, hword⟩ := Option.or_eq_none_iff.1 h
    rw [hnone, Option.none_or]
    split at hword
    · rw [hword]
    · cases hword
  unfold validate
  rw [hfault]
  split <;> simp_all

end Config

/-! ## Calls in the output -/

namespace Chunk

/-- Wherever a chunk leads to the node of an element of another, there is the
call of a name, which is read back of what the chunk is rendered to. -/
def CallsElements (c : Chunk) (name : String) (parsed : Chunk) : Prop :=
  ∀ i e, parsed.arena.get i = .atom (.element e) → c.Reaches i → ∃ target args,
    c.arena.get i = .call target args ∧ c.arena.get target = .ofName name ∧
    ∀ ℓ : Layout, ∃ tokens, tokenize (ℓ.render c) = .ok tokens ∧
      .name name :: Wording.parenthesized (c.arena.wording.exprs args) <:+:
        (significant tokens).map Token.kind

/-- The call of a name is worded with that name in front. -/
theorem Sound.wording_call {c : Chunk} {R : Prop} {i target : ExprId} {args : List ExprId}
    {name : String} (h : c.Sound .lexed R) (hplain : c.Plain) (hi : c.Reaches i)
    (hget : c.arena.get i = .call target args) (htarget : c.arena.get target = .ofName name) :
    c.arena.wording.expr i =
      .name name :: Wording.parenthesized (c.arena.wording.exprs args) := by
  have hreached : c.Reaches target :=
    hi.trans (show target ∈ (c.arena.get i).refs by
      simp [hget, Expr.call, Expr.refs, Expr.children])
  have hname : c.arena.wording.expr target = [.name name] := by
    rw [h.wording_expr hplain hreached, htarget]
    rfl
  have hsubject : c.arena.wording.subject target = [.name name] := by
    rw [Wording.subject, show c.arena.wording.node target = .ofName name from htarget]
    exact hname
  rw [h.wording_expr hplain hi, hget]
  show c.arena.wording.subject target ++ [] ++ _ = _
  rw [hsubject]
  rfl

end Chunk

/-- **Elements of a project** become calls that are read back. -/
theorem Project.compile_callsElements {p : Project} {source : String} {c : Chunk}
    (hname : Word.isName p.config.elementConstructor)
    (hother : p.config.elementConstructor ≠ placeholder) (h : p.compile source = .ok c) :
    ∃ parsed, parseSource source = .ok parsed ∧
      c.CallsElements p.config.elementConstructor parsed := by
  obtain ⟨token, htokens, hkind⟩ := tokenize_eq_name_iff.2 hname
  obtain ⟨hsound, hplain⟩ := compile_lexed ⟨token, _, htokens, hkind⟩ h
  obtain ⟨c₀, hcompile, -⟩ := compile_eq_ok.1 h
  obtain ⟨parsed, hparsed, -⟩ := LuaSugar.compile_eq_ok.1 hcompile
  refine ⟨parsed, hparsed, fun i e hget hi => ?_⟩
  obtain ⟨target, args, hcall, htarget⟩ := compile_callsName hparsed h hother hget hi
  refine ⟨target, args, hcall, htarget, fun ℓ => ?_⟩
  obtain ⟨tokens, hread, hkinds⟩ := hsound.tokenize_render hplain ℓ
  refine ⟨tokens, hread, ?_⟩
  rw [hkinds, ← hsound.wording_call hplain hi hcall htarget]
  exact hsound.wording_infix hplain hi (by simp [hcall, Expr.call])

/-- **Which constructors are accepted.** Where a configuration is valid but
for its constructor, a text is accepted if it is cut into one token, the name
it spells, or if it is reserved, and never both; any other is the fault that
is reported. The renderer writes as names of keys the former alone. If the
constructor is not reserved, then in every source that compiles each element
becomes a call that is read back as the call of that name, unless it stands
for the name of the project. -/
theorem validate_constructor {c : Config} {path : Path} {other : String}
    (hvalid : ({ c with elementConstructor := other } : Config).validate path = .ok ())
    (s : String) : let chosen : Config := { c with elementConstructor := s }
    (chosen.validate path = .ok () ↔
      (∃ token, tokenize s = .ok [token] ∧ token.kind = .name s) ∨ s ∈ Word.reserved) ∧
    ((∃ token, tokenize s = .ok [token] ∧ token.kind = .name s) → s ∉ Word.reserved) ∧
    (chosen.validate path ≠ .ok () →
      chosen.validate path = .error (.invalid path (.constructorNotWord s))) ∧
    (Printer.fieldName? (Utf8.encode s) = some s ↔
      ∃ token, tokenize s = .ok [token] ∧ token.kind = .name s) ∧
    ∀ root source chunk, chosen.validate path = .ok () → s ∉ Word.reserved →
      s ≠ Project.placeholder → (Project.mk root chosen).compile source = .ok chunk →
      ∃ parsed, parseSource source = .ok parsed ∧ chunk.CallsElements s parsed := by
  intro chosen
  have hchosen : chosen.validate path = .ok () ↔ Word.isWord s := by
    rw [Config.validate_of_valid hvalid s]
    split <;> simp_all
  rw [tokenize_eq_name_iff, Printer.fieldName?_encode, hchosen, Word.isName_iff_not_reserved]
  refine ⟨⟨fun h => ?_, fun h => ?_⟩, And.right, fun h => ?_, Iff.rfl,
    fun root source chunk hword hreserved hother h => ?_⟩
  · exact (em (s ∈ Word.reserved)).symm.imp (⟨h, ·⟩) id
  · exact h.elim And.left Word.isWord_of_mem_reserved
  · rw [Config.validate_of_valid hvalid s, if_neg (mt hchosen.2 h)]
  · exact Project.compile_callsElements (Word.isName_iff_not_reserved.2 ⟨hword, hreserved⟩) hother h

/-- A source of a project that compiles to a chunk with a property that can be
evaluated, as can one of the chunk it is parsed to. -/
theorem Project.exists_compiled {P : Chunk → Chunk → Prop} [∀ parsed c, Decidable (P parsed c)]
    (p : Project) (source : String) (h : (match parseSource source, p.compile source with
      | .ok parsed, .ok c => decide (P parsed c)
      | _, _ => false) = true) :
    ∃ parsed c, parseSource source = .ok parsed ∧ p.compile source = .ok c ∧ P parsed c := by
  split at h
  · rename_i parsed c hparsed hcompile
    exact ⟨parsed, c, hparsed, hcompile, of_decide_eq_true h⟩
  · cases h

/-- A constructor that is chosen for an element inside another. -/
theorem validate_constructor_nested : let source := "return <a b={<c/>}/>"
    let c : Config := { Config.named "p" with outDir := some (.ofText "out") }
    let p : Project := ⟨.ofText "/p", { c with elementConstructor := "create" }⟩
    c.validate (.ofText "/p/lu.toml") = .ok () ∧
    p.config.validate (.ofText "/p/lu.toml") = .ok () ∧
    ∃ parsed chunk, parseSource source = .ok parsed ∧ p.compile source = .ok chunk ∧
      (∃ i, (Element.rewriting "create").here (parsed.arena.get i) ∧ chunk.Reaches i) ∧
      chunk.CallsElements "create" parsed := by
  intro source c p
  have hvalid : c.validate (.ofText "/p/lu.toml") = .ok () := by decide +kernel
  have hchosen : p.config.validate (.ofText "/p/lu.toml") = .ok () := by decide +kernel
  obtain ⟨parsed, chunk, hparsed, hcompile, helement, hbody⟩ := p.exists_compiled
    (P := fun parsed chunk => (Element.rewriting "create").here (parsed.arena.get ⟨1⟩) ∧
      ⟨1⟩ ∈ Block.ids chunk.body) source (by decide +kernel)
  obtain ⟨-, -, -, -, hcalls⟩ := @validate_constructor c _ "h" hvalid "create"
  obtain ⟨parsed', hparsed', hchunk⟩ :=
    hcalls p.root source chunk hchosen (by decide) (by decide) hcompile
  obtain rfl := Except.ok.inj (hparsed.symm.trans hparsed')
  exact ⟨hvalid, hchosen, parsed, chunk, hparsed, hcompile,
    ⟨⟨1⟩, helement, Chunk.reaches_of_mem hbody⟩, hchunk⟩

/-- A keyword is accepted, and what is written with it cannot be read. -/
theorem validate_constructor_keyword : let source := "return <a/>"
    let c : Config := { Config.named "p" with outDir := some (.ofText "out") }
    let p : Project := ⟨.ofText "/p", { c with elementConstructor := "end" }⟩
    c.validate (.ofText "/p/lu.toml") = .ok () ∧
    ¬ (p.config.validate (.ofText "/p/lu.toml") = .ok () ↔
      ∃ token, tokenize "end" = .ok [token] ∧ token.kind = .name "end") ∧
    ∃ parsed chunk, parseSource source = .ok parsed ∧ p.compile source = .ok chunk ∧
      ∀ ℓ ∈ [Layout.pretty, .minify], (parseSource (ℓ.render chunk)).isOk = false := by
  intro source c p
  refine ⟨by decide +kernel, fun h => ?_, p.exists_compiled source (by decide +kernel)⟩
  obtain ⟨token, htokens, hkind⟩ := h.1 (by decide +kernel)
  cases tokenize_eq_name_iff.1 ⟨token, htokens, hkind⟩

end LuaSugar
