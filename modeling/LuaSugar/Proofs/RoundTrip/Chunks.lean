import Mathlib
import LuaSugar.Proofs.Render.Tokens
import LuaSugar.Proofs.RoundTrip.Blocks
/-!
# Compiled chunks are read back

What is rendered of a compiled chunk is read as the wording of the chunk,
and the grammar reads a wording as the same chunk. It takes a source whose
chunk can be written in plain Lua: with numbers that have a literal, with
targets that may be assigned to, and with returns where they may stand.
-/

namespace LuaSugar

/-! ## Sources that can be written back -/

/-- A number has a literal if it is finite. -/
def TokenKind.isFinite : TokenKind → Bool
  | number value => value.isFinite
  | _ => true

/-- What is assigned to in an expression may be assigned to. -/
def Expr.assignsTarget (a : Arena) : Expr → Bool
  | arith (.assign _ target _) => (a.get target).isAssignable
  | _ => true

/-- Every number literal is finite, what is assigned to in parentheses is a
name, a member or a subscript, and returns stand last in their lists. -/
structure Writable (tokens : List Token) (c : Chunk) : Prop where
  numbers : ∀ t ∈ tokens, t.kind.isFinite
  targets : ∀ i, (c.arena.get i).assignsTarget c.arena
  body : Block.Orderly c.body
  literals : ∀ i, (c.arena.get i).Orderly

section Decidable

instance (body : Block) : Decidable (Block.ReturnsLast body) :=
  inferInstanceAs (Decidable (List.IsChain _ _))

instance (kind : StmtKind) : Decidable kind.Orderly :=
  inferInstanceAs (Decidable (∀ b ∈ kind.blocks, Block.ReturnsLast b))

instance (body : Block) : Decidable (Block.Orderly body) :=
  inferInstanceAs (Decidable (Block.ReturnsLast body ∧ ∀ s ∈ Block.deep body, s.kind.Orderly))

instance : (e : Expr) → Decidable e.Orderly
  | .atom (.func func) => inferInstanceAs (Decidable (Block.Orderly func.body))
  | .atom (.number _) | .atom (.string _) | .atom (.boolean _) | .atom .nil | .atom (.name _)
  | .atom .vararg | .atom (.table _) | .atom (.element _) | .arith _ => .isTrue trivial

instance (tokens : List Token) (c : Chunk) : Decidable (Writable tokens c) :=
  have htargets := Arena.forall_get (a := c.arena) (P := fun e => e.assignsTarget c.arena) rfl
  have hliterals := Arena.forall_get (a := c.arena) (P := Expr.Orderly) trivial
  decidable_of_iff ((∀ t ∈ tokens, t.kind.isFinite) ∧
    (∀ e ∈ c.arena.nodes.toList, e.assignsTarget c.arena) ∧ Block.Orderly c.body ∧
    ∀ e ∈ c.arena.nodes.toList, e.Orderly)
    ⟨fun h => ⟨h.1, htargets.2 h.2.1, h.2.2.1, hliterals.2 h.2.2.2⟩,
      fun h => ⟨h.numbers, htargets.1 h.targets, h.body, hliterals.1 h.literals⟩⟩

end Decidable

theorem Vocabulary.readable_stable : Vocabulary.readable.Stable where
  target _ h := h
  other _ _ he hother := absurd (hother.symm.trans he) Bool.false_ne_true
  require := Vocabulary.lexed_stable.require
  holder := Vocabulary.lexed_stable.holder
  argument := Vocabulary.lexed_stable.argument
  self := Vocabulary.lexed_stable.self

/-- **A compiled source** keeps what makes it writable. -/
theorem compile_readable {constructor source : String} (hconstructor : IsNameToken constructor)
    {tokens : List Token} {parsed c : Chunk} (htokens : tokenize source = .ok tokens)
    (hparse : parse tokens = .ok parsed) (hwritable : Writable tokens parsed)
    (hdesugar : desugar constructor parsed = (c, none)) : c.Sound .readable True := by
  have hsound : parsed.Sound .readable True := by
    refine .of_parse (fun _ h => h) (fun t ht => ?_) hparse (fun i op target value hget => ?_)
      fun _ => ⟨hwritable.body, hwritable.literals⟩
    · have hfinite := hwritable.numbers t ht
      cases hkind : t.kind with
      | name text => exact Lexer.isName_of_mem htokens t ht text hkind
      | number value =>
        rw [hkind] at hfinite
        exact ⟨Lexer.isNegative_of_mem htokens t ht value hkind, hfinite⟩
      | _ => trivial
    · have htarget := hwritable.targets i
      rwa [hget] at htarget
  have hdesugared := hsound.desugared Vocabulary.readable_stable hconstructor.isName
  rwa [hdesugar] at hdesugared

/-! ## Reading a rendered chunk -/

/-- Parse tokens with a grammar for each number of them. -/
def parseWith (levels : ℕ → Grammar) (tokens : List Token) : Except ParseError Chunk :=
  let tokens := significant tokens
  let endLine := (tokens.getLast?.map Token.line).getD 1
  match ((levels tokens.length).statements .tokens).run ⟨tokens, endLine, .empty⟩ with
  | .ok (body, s) => .ok ⟨s.arena, body⟩
  | .error e => .error e

namespace Chunk

variable {c : Chunk}

/-- What a sound plain chunk leads to is a script. -/
theorem Sound.script (h : c.Sound .readable True) (hlexed : c.Sound .lexed False) (hplain : c.Plain) :
    ∃ height, (∀ i, height i ≤ c.arena.size) ∧ c.arena.Script height c.Reaches := by
  obtain ⟨rank, hsound⟩ := h.arena
  refine ⟨c.arena.height rank, c.arena.height_le rank, fun i hi => ?_, fun i _ => hsound.nodes i,
    hplain.nodes, fun i hi func hfunc => ?_, fun i hi j hj => ?_⟩
  · exact (hlexed.words hplain hi .minify i (List.mem_singleton_self i)).2.1
  · have hbody : c.arena.body? i = some func.body := by rw [Arena.body?, hfunc]
    have hnode := hsound.nodes i
    have horderly := hsound.orderly trivial i
    rw [hfunc] at hnode horderly
    exact ⟨horderly.1, fun s hs => ⟨hnode.2 s hs, hplain.bodies i hi _ hbody s hs, horderly.2 s hs⟩⟩
  · exact ⟨hi.trans hj, hsound.ranked.graded i j hj⟩

/-- **The wording of a chunk** is read as the same chunk, with settled
tables, by whatever reads scripts. -/
theorem Sound.parseWith_wording (h : c.Sound .readable True) (hlexed : c.Sound .lexed False)
    (hplain : c.Plain) {levels : ℕ → Grammar}
    (hlevels : ∀ {height known}, c.arena.Script height known →
      ∀ n, (levels n).Reads c.arena height known n)
    {tokens : List Token} (htokens : (significant tokens).map Token.kind = c.wording) :
    ∃ c', parseWith levels tokens = .ok c' ∧ c.same c' ∧ c'.arena.Settled := by
  obtain ⟨height, hheight, hw⟩ := h.script hlexed hplain
  have hbody : Block.Readable c.arena c.body :=
    ⟨(h.orderly trivial).1, fun s hs => ⟨h.body s hs, hplain.body s hs, (h.orderly trivial).2 s hs⟩⟩
  let start : ParseState :=
    ⟨significant tokens, ((significant tokens).getLast?.map Token.line).getD 1, .empty⟩
  have hstart : start.Before (c.arena.wording.block c.body ++ []) := by
    rw [List.append_nil]
    exact htokens
  have hread := Grammar.Reads.statements hw (hlevels hw (significant tokens).length) hbody
    (fun x hx => reaches_of_mem hx) .tokens hstart le_rfl
  obtain ⟨body, s, hrun, hs, hsame⟩ := hread.exists_run
  refine ⟨⟨s.arena, body⟩, ?_, hsame s.arena (.refl _) _ fun x _ => Nat.lt_succ_of_le (hheight x),
    hs.settled Arena.settled_empty⟩
  rw [parseWith, hrun]

theorem Sound.parse_wording (h : c.Sound .readable True) (hlexed : c.Sound .lexed False)
    (hplain : c.Plain) {tokens : List Token}
    (htokens : (significant tokens).map Token.kind = c.wording) :
    ∃ c', parse tokens = .ok c' ∧ c.same c' := by
  obtain ⟨c', hparse, hsame, -⟩ := h.parseWith_wording hlexed hplain Grammar.Reads.level htokens
  exact ⟨c', hparse, hsame⟩

end Chunk

/-- **Compiled output is read back.** In either layout, what is rendered of
a compiled source is parsed, as a chunk that is the same. -/
theorem compile_reads_back {constructor source : String} (hconstructor : IsNameToken constructor)
    {tokens : List Token} {parsed c : Chunk} (htokens : tokenize source = .ok tokens)
    (hparse : parse tokens = .ok parsed) (hwritable : Writable tokens parsed)
    (h : compile constructor source = .ok c) (ℓ : Layout) :
    ∃ c', parseSource (ℓ.render c) = .ok c' ∧ c.same c' := by
  obtain ⟨hlexed, hplain⟩ := compile_lexed hconstructor h
  obtain ⟨parsed', hparsed', hdesugar⟩ := compile_eq_ok.1 h
  obtain rfl : parsed' = parsed :=
    Except.ok.inj (hparsed'.symm.trans (parseSource_eq_ok.2 ⟨tokens, htokens, hparse⟩))
  have hsound := compile_readable hconstructor htokens hparse hwritable hdesugar
  obtain ⟨rendered, hread, hkinds⟩ := hlexed.tokenize_render hplain ℓ
  obtain ⟨c', hparse', hsame⟩ := hsound.parse_wording hlexed hplain hkinds
  exact ⟨c', parseSource_eq_ok.2 ⟨rendered, hread, hparse'⟩, hsame⟩

theorem compile_reads_back_assignment :
    let source := "for i = 1, 2 do print((a[i] = -i ^ 2)) end return (f or g)()"
    IsNameToken "h" ∧ ∃ tokens parsed c, tokenize source = .ok tokens ∧ parse tokens = .ok parsed ∧
      Writable tokens parsed ∧ compile "h" source = .ok c ∧
      ∃ c', parseSource (Layout.minify.render c) = .ok c' ∧ c.same c' := by
  intro source
  have hconstructor : IsNameToken "h" := ⟨_, _, by cbv, rfl⟩
  obtain ⟨c, hcompile⟩ : ∃ c, compile "h" source = .ok c := ⟨_, by cbv⟩
  obtain ⟨tokens, parsed, htokens, hparsed, hwritable⟩ :=
    exists_parsed (P := fun tokens parsed => Writable tokens parsed) source (by decide +kernel)
  exact ⟨hconstructor, tokens, parsed, c, htokens, hparsed, hwritable, hcompile,
    compile_reads_back hconstructor htokens hparsed hwritable hcompile .minify⟩

end LuaSugar
