import Mathlib
import LuaSugar.Proofs.Syntax.Depth
import LuaSugar.Proofs.Syntax.Renamed
import LuaSugar.Proofs.Parser.Sound
import LuaSugar.Proofs.Desugar.Sound
/-!
# Passes in any order

A parsed chunk has its ids in one place each, and references that lead to
earlier nodes. Passes give up both, since they share nodes and point old
ones at new ones. What stays, whatever passes run and in whatever order,
is that ids are inside the arena and that it has no cycles.

So everything that follows ids comes to an end by itself, and the depth to
which the definitions follow them never shows.
-/

namespace LuaSugar

/-! ## Sequences -/

/-- The passes over a chunk. -/
inductive ChunkPass where
  | assignments
  | compound
  | imports
  | intrinsics
  | elements (constructor : String)
  | naming (name : String)
deriving DecidableEq, Repr

/-- What a pass leaves of a chunk, also when it fails. -/
def ChunkPass.apply : ChunkPass → Chunk → Chunk
  | assignments, c => hoistAssignments c
  | compound, c => expandCompound c
  | imports, c => expandImports c
  | intrinsics, c => (expandIntrinsics c).1
  | elements constructor, c => expandElements constructor c
  | naming name, c => nameProject name c

/-- Run one pass after the other. -/
def Chunk.passed (c : Chunk) (passes : List ChunkPass) : Chunk :=
  passes.foldl (fun c pass => pass.apply c) c

/-- A vocabulary without restrictions. -/
def Vocabulary.anything : Vocabulary := ⟨fun _ => True, fun _ => True, fun _ => True⟩

theorem Vocabulary.anything_stable : Vocabulary.anything.Stable :=
  ⟨fun _ _ => trivial, fun _ _ _ _ => trivial, trivial, fun _ => trivial, trivial, trivial⟩

variable {c : Chunk}

theorem Chunk.Sound.apply (h : c.Sound .anything False) (pass : ChunkPass) :
    (pass.apply c).Sound .anything False := by
  have hV := Vocabulary.anything_stable
  cases pass with
  | assignments => exact (AssignmentExpr.keeps hV).run hV h ()
  | compound => exact (CompoundAssignment.keeps hV).run hV h ()
  | imports => exact (Import.keeps hV).run hV h 0
  | intrinsics => exact (Intrinsic.keeps hV).run hV h ()
  | elements constructor => exact (Element.keeps hV trivial).run hV h ()
  | naming name => exact (Project.naming_keeps (fun _ => trivial) name).run hV h ()

theorem Chunk.Sound.passed (h : c.Sound .anything False) (passes : List ChunkPass) :
    (c.passed passes).Sound .anything False := by
  induction passes generalizing c with
  | nil => exact h
  | cons pass passes ih => exact ih (h.apply pass)

/-! ## Following ids -/

/-- **Following ids comes to an end**: they stay inside the arena, no id
leads back to itself, and whoever follows them reads the same at every
depth beyond the arena's size. -/
structure Chunk.Finite (c : Chunk) : Prop where
  inside : ∀ i, c.Reaches i → i.index < c.arena.size
  acyclic : ∀ i, c.Reaches i → ¬ Relation.TransGen c.arena.Refers i i
  wellFounded : WellFounded fun i j => c.arena.Refers j i
  descendants : ∀ n, c.arena.size < n → ∀ i,
    c.arena.descendantsWithin n i = c.arena.descendants i
  leaves : ∀ n, c.arena.size < n → ∀ i,
    ((c.arena.descendantsWithin n i).filter fun j => (c.arena.get j).isAtom) = c.arena.leaves i
  rendering : ∀ n, c.arena.size < n → ∀ ℓ : Layout,
    c.arena.printerWithin ℓ n = c.arena.printer ℓ
  same : ∀ n, c.arena.size < n → ∀ d : Chunk,
    (c.arena.sameWithin d.arena n).block c.body d.body = c.same d

theorem Chunk.Sound.finite {V : Vocabulary} {R : Prop} (h : c.Sound V R) : c.Finite := by
  obtain ⟨rank, hsound⟩ := h.arena
  have hranked := hsound.ranked
  have hinside : ∀ i, c.Reaches i → i.index < c.arena.size := by
    rintro i ⟨x, hx, hxi⟩
    exact hranked.inside_of_reaches (h.inside x hx) hxi
  refine ⟨hinside, fun i _ => hranked.acyclic i, ?_, fun n hn i => hranked.descendantsWithin_eq hn i,
    fun n hn i => ?_, fun n hn ℓ => ?_, fun n hn d => ?_⟩
  · exact Subrelation.wf (fun hij => hranked.graded _ _ hij)
      (InvImage.wf (c.arena.height rank) Nat.lt_wfRel.wf)
  · rw [hranked.descendantsWithin_eq hn, Arena.leaves]
  · have hexpr : (c.arena.printerWithin ℓ n).expr = (c.arena.printer ℓ).expr := by
      funext indent i
      exact hranked.printerWithin_expr hn indent i
    cases n with
    | zero => omega
    | succ n => exact congrArg (Printer.mk ℓ c.arena.get) hexpr
  · rw [hranked.sameWithin_eq d.arena hn, Chunk.same]

/-! ## Parsed chunks -/

/-- A source that is read and parsed to a chunk with a property that can be
evaluated. -/
theorem exists_parsed {P : List Token → Chunk → Prop} [∀ tokens c, Decidable (P tokens c)]
    (source : String) (h : (match tokenize source with
      | .error _ => false
      | .ok tokens => match parse tokens with
        | .error _ => false
        | .ok c => decide (P tokens c)) = true) :
    ∃ tokens c, tokenize source = .ok tokens ∧ parse tokens = .ok c ∧ P tokens c := by
  split at h
  · cases h
  · rename_i tokens htokens
    split at h
    · cases h
    · rename_i c hparse
      exact ⟨tokens, c, htokens, hparse, of_decide_eq_true h⟩

/-- **A parsed chunk is sound** in a vocabulary of its tokens, if that has
the targets of its assignments. -/
theorem Chunk.Sound.of_parse {V : Vocabulary} {R : Prop} {tokens : List Token}
    (hV : ∀ e, e.isAssignable → V.target e) (htokens : ∀ t ∈ tokens, V.Token t.kind)
    (h : parse tokens = .ok c)
    (htargets : ∀ i op t v, c.arena.get i = .arith (.assign op t v) → V.target (c.arena.get t))
    (horderly : R → Block.Orderly c.body ∧ ∀ i, (c.arena.get i).Orderly) : c.Sound V R := by
  let V₀ : Vocabulary := { V with target := fun e => e.isAssignable }
  have htokens₀ : ∀ t ∈ tokens, V₀.Token t.kind := fun t ht => by
    have ht := htokens t ht
    cases hkind : t.kind <;> first | trivial | exact hkind ▸ ht
  obtain ⟨howned, hnodes, hbody⟩ := parse_sound (V := V₀) (fun _ => Iff.rfl) htokens₀ h
  have hwithin : V₀.Within V := ⟨fun _ => id, fun _ => id, hV⟩
  refine ⟨⟨fun i => i.index, rfl, howned.ranked, fun i => ?_, htargets, fun hR => (horderly hR).2⟩,
    fun x hx => howned.inside (Multiset.mem_coe.2 hx), ?_, fun hR => (horderly hR).1⟩
  · exact Vocabulary.Node.mono hwithin (.refl V₀ _) (hnodes i)
  · exact Vocabulary.Block.mono hwithin (.refl V₀ _) hbody

/-- A parsed chunk is sound in a vocabulary without restrictions. -/
theorem parse_chunk_sound {tokens : List Token} (h : parse tokens = .ok c) :
    c.Sound .anything False :=
  .of_parse (fun _ _ => trivial) (fun t _ => by cases t.kind <;> trivial) h
    (fun _ _ _ _ _ => trivial) fun hR => hR.elim

/-- Desugaring keeps a chunk sound, also when it fails. -/
theorem Chunk.Sound.desugared {V : Vocabulary} {R : Prop} (hV : V.Stable) {constructor : String}
    (hconstructor : V.name constructor) (h : c.Sound V R) : (desugar constructor c).1.Sound V R := by
  have h₁ : (hoistAssignments c).Sound V R := (AssignmentExpr.keeps hV).run hV h ()
  have h₂ : (expandCompound _).Sound V R := (CompoundAssignment.keeps hV).run hV h₁ ()
  have h₃ : (expandImports _).Sound V R := (Import.keeps hV).run hV h₂ 0
  have h₄ : (expandIntrinsics _).1.Sound V R := (Intrinsic.keeps hV).run hV h₃ ()
  unfold desugar
  rcases hpass : expandIntrinsics (expandImports (expandCompound (hoistAssignments c))) with
    ⟨c', _ | e⟩
  · rw [hpass] at h₄
    exact (Element.keeps hV hconstructor).run hV h₄ ()
  · rw [hpass] at h₄
    exact h₄

/-- A source compiles if it parses and its chunk is desugared. -/
theorem compile_eq_ok {constructor source : String} :
    compile constructor source = .ok c ↔
      ∃ parsed, parseSource source = .ok parsed ∧ desugar constructor parsed = (c, none) := by
  unfold compile
  cases parseSource source with
  | error e => simp [bind, Except.bind]
  | ok parsed =>
    simp only [bind, Except.bind, Except.ok.injEq, exists_eq_left']
    rcases desugar constructor parsed with ⟨c', _ | e⟩ <;> simp

/-- A source is parsed as its tokens. -/
theorem parseSource_eq_ok {source : String} :
    parseSource source = .ok c ↔ ∃ tokens, tokenize source = .ok tokens ∧ parse tokens = .ok c := by
  unfold parseSource
  cases tokenize source with
  | error e => simp [Except.mapError, bind, Except.bind]
  | ok tokens =>
    simp only [Except.mapError, bind, Except.bind, Except.ok.injEq, exists_eq_left']
    cases parse tokens <;> simp

/-- **A compiled source is sound.** -/
theorem compile_sound {constructor source : String} (h : compile constructor source = .ok c) :
    c.Sound .anything False := by
  obtain ⟨parsed, hparsed, hdesugar⟩ := compile_eq_ok.1 h
  obtain ⟨tokens, -, htokens⟩ := parseSource_eq_ok.1 hparsed
  have hsound : (desugar constructor parsed).1.Sound .anything False :=
    (parse_chunk_sound htokens).desugared Vocabulary.anything_stable trivial
  rwa [hdesugar] at hsound

/-- **Arenas over the whole pipeline.** Of a parsed chunk, every id of the
arena occurs exactly once among the references of nodes and the ids of
statements, nothing else occurs there, and references lead to earlier
nodes. After any sequence of passes, failed ones included, following ids
comes to an end. -/
theorem parse_passed_finite {tokens : List Token} (h : parse tokens = .ok c) :
    (∀ i : ExprId, (c.arena.references ++ Block.ids c.body).count i =
      if i.index < c.arena.size then 1 else 0) ∧
    (∀ i j, c.arena.Refers i j → j.index < i.index) ∧
    ∀ passes : List ChunkPass, (c.passed passes).Finite := by
  obtain ⟨howned, -, -⟩ := parse_sound (V := ⟨fun _ => True, fun _ => True, fun e => e.isAssignable⟩)
    (fun _ => Iff.rfl) (fun t _ => by cases t.kind <;> trivial) h
  refine ⟨fun i => ?_, howned.lower, fun passes => ((parse_chunk_sound h).passed passes).finite⟩
  have hnodup : ((List.range c.arena.size).map ExprId.mk).Nodup :=
    List.nodup_range.map fun _ _ hij => congrArg ExprId.index hij
  have hmem : i ∈ (List.range c.arena.size).map ExprId.mk ↔ i.index < c.arena.size := by
    simp only [List.mem_map, List.mem_range]
    exact ⟨fun ⟨k, hk, hi⟩ => hi ▸ hk, fun hi => ⟨i.index, hi, rfl⟩⟩
  rw [← Multiset.coe_count, ← Multiset.coe_add, howned.once, Multiset.coe_count, hnodup.count]
  simp only [hmem]

/-- The tokens of `f((a = nil))`. -/
def assignmentArgument : List Token :=
  [.name "f", .operator .leftParen, .operator .leftParen, .name "a", .operator .assign,
    .keyword .nil_, .operator .rightParen, .operator .rightParen].map fun kind => ⟨kind, 1, .plain⟩

theorem parse_passed_finite_assignment : ∃ c, parse assignmentArgument = .ok c ∧
    (c.passed [.assignments, .naming "p", .intrinsics, .assignments, .elements "h"]).Finite :=
  have hparse : ∃ c, parse assignmentArgument = .ok c := ⟨_, rfl⟩
  hparse.imp fun _ h => ⟨h, (parse_passed_finite h).2.2 _⟩

end LuaSugar
