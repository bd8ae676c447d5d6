import Mathlib
import LuaSugar.Proofs.Desugar.Idle
import LuaSugar.Proofs.RoundTrip.Sparing
/-!
# Where calls give all their values

A call or `...` is **open** where it stands last in a list, without
parentheses of its own: there it gives all the values that it has.
Rendering leaves parentheses out and puts keyed entries of a table first.
So what is rendered of a plain source has open occurrences beside those
that were open, and also beside those that parentheses or a keyed entry
had closed.
-/

namespace LuaSugar

/-- An occurrence in a text is one of all values. -/
def Occurrence.Open (tokens : List Token) (o : Occurrence) : Prop :=
  o.place = .last ∧ enclosed tokens o.id = false

theorem Place.settled_eq_last {place : Place} : place.settled = .last ↔ place ≠ .single := by
  cases place <;> decide

/-- **Rendering opens** the last of every list. -/
theorem render_open {source : String} {tokens : List Token} {c : Chunk}
    (htokens : tokenize source = .ok tokens) (hparse : parse tokens = .ok c) (hplain : c.Plain)
    (hwritable : Writable tokens c) (ℓ : Layout) :
    (∀ constructor, compile constructor source = .ok c) ∧ ∃ rendered d,
      tokenize (ℓ.render c) = .ok rendered ∧ parse rendered = .ok d ∧
      (∀ i, c.Reaches i → ∃ o p, c.Beside d o p ∧ o.id = i) ∧
      (∀ j, d.Reaches j → ∃ o p, c.Beside d o p ∧ p.id = j) ∧
      ∀ o p, c.Beside d o p → (c.arena.get o.id).spreads →
        (d.arena.get p.id).spreads ∧ (p.Open rendered ↔ o.place ≠ .single) ∧
        ((p.Open rendered ↔ o.Open tokens) ↔
          o.place ≠ .overtaken ∧ (o.place = .last → enclosed tokens o.id = false)) := by
  have hcompile (constructor : String) : compile constructor source = .ok c :=
    compile_eq_ok.2 ⟨c, parseSource_eq_ok.2 ⟨tokens, htokens, hparse⟩, hplain.desugar constructor⟩
  have hconstructor : IsNameToken "h" := ⟨_, _, by cbv, rfl⟩
  obtain ⟨hlexed, -⟩ := compile_lexed hconstructor (hcompile "h")
  have hsound := compile_readable hconstructor htokens hparse hwritable (hplain.desugar "h")
  obtain ⟨rendered, hread, hkinds⟩ := hlexed.tokenize_render hplain ℓ
  obtain ⟨d, hd, hsame, hsettled⟩ :=
    hsound.parseWith_wording hlexed hplain Grammar.Reads.level hkinds
  -- what is rendered is also read where `i` is spared, and as the same chunk
  have hnone (i : ExprId) : enclosed rendered i = false := by
    obtain ⟨d', hd', -⟩ := hsound.parseWith_wording hlexed hplain
      (Grammar.Reads.sparingLevel (· == i)) hkinds
    obtain rfl : d' = d := Except.ok.inj ((parse_of_sparing hd').symm.trans hd)
    exact (enclosed_eq_false hd).2 hd'
  have haligned := Chunk.aligned_of_same hsame hsettled
  refine ⟨hcompile, rendered, d, hread, hd, fun i hi => haligned.exists_beside hi, fun j hj => ?_,
    fun o p hop hspreads => ?_⟩
  · obtain ⟨p, o, hop, hp⟩ := haligned.symm.exists_beside hj
    exact ⟨o, p, hop.symm, hp⟩
  obtain ⟨n, -, hplace⟩ := hop.matches hsame hsettled
  have hopen : p.Open rendered ↔ o.place ≠ .single := by
    rw [Occurrence.Open, hplace, Place.settled_eq_last]
    simp [hnone]
  refine ⟨(hop.spreads hsame hsettled).trans hspreads, hopen, ?_⟩
  rw [hopen, Occurrence.Open]
  cases o.place <;> simp

/-- The chunk of `return {f(), a = true}, (f())`. -/
def closedCalls : Chunk :=
  ⟨⟨#[.ofName "f", .call ⟨0⟩ [], .atom (.boolean true), .ofText "a",
    .atom (.table ⟨[(.positional 1, ⟨1⟩), (.expr ⟨3⟩, ⟨2⟩)]⟩), .ofName "f", .call ⟨5⟩ []]⟩,
    [.ret [⟨4⟩, ⟨6⟩] 1]⟩

theorem render_open_closedCalls : ∃ tokens,
    tokenize "return {f(), a = true}, (f())" = .ok tokens ∧ parse tokens = .ok closedCalls ∧
      closedCalls.Plain ∧ Writable tokens closedCalls ∧ ∃ rendered d,
        tokenize (Layout.pretty.render closedCalls) = .ok rendered ∧ parse rendered = .ok d ∧
          ∀ o p, closedCalls.Beside d o p → (closedCalls.arena.get o.id).spreads →
            (p.Open rendered ↔ o.place ≠ .single) := by
  obtain ⟨tokens, htokens, hparse, hwritable⟩ : ∃ tokens,
      tokenize "return {f(), a = true}, (f())" = .ok tokens ∧ parse tokens = .ok closedCalls ∧
        Writable tokens closedCalls :=
    ⟨_, by cbv, rfl, by decide +kernel⟩
  have hplain : closedCalls.Plain := Chunk.plain_of_nodes (by decide +kernel) (by decide +kernel)
  obtain ⟨-, rendered, d, hrendered, hd, -, -, hopen⟩ :=
    render_open htokens hparse hplain hwritable .pretty
  exact ⟨tokens, htokens, hparse, hplain, hwritable, rendered, d, hrendered, hd,
    fun o p hop hspreads => (hopen o p hop hspreads).2.1⟩

/-- Both calls give one value, the one with a keyed entry behind it and the
one in parentheses; what is rendered gives all of theirs. -/
theorem render_open_changes : ∃ tokens rendered d,
    tokenize "return {f(), a = true}, (f())" = .ok tokens ∧ parse tokens = .ok closedCalls ∧
      closedCalls.Plain ∧ Layout.minify.render closedCalls = "return {a=true;f()},f()\n" ∧
      tokenize "return {a=true;f()},f()\n" = .ok rendered ∧ parse rendered = .ok d ∧
      ∀ i ∈ [⟨1⟩, ⟨6⟩], (closedCalls.arena.get i).spreads ∧
        ∃ o p, closedCalls.Beside d o p ∧ o.id = i ∧ p.Open rendered ∧ ¬ o.Open tokens := by
  have hplain : closedCalls.Plain := Chunk.plain_of_nodes (by decide +kernel) (by decide +kernel)
  refine ⟨_, _, _, by cbv, rfl, hplain, by decide +kernel, by cbv, rfl, fun i hi => ?_⟩
  rcases List.mem_pair.1 hi with rfl | rfl
  · refine ⟨rfl, ⟨.overtaken, ⟨1⟩⟩, ⟨.last, ⟨3⟩⟩, ?_, rfl, ⟨rfl, by decide +kernel⟩,
      fun h => absurd h.1 (by decide)⟩
    -- by way of the table, which is both times the fifth node
    exact .child (o := ⟨.single, ⟨4⟩⟩) (p := ⟨.single, ⟨4⟩⟩) (.body (by decide +kernel))
      (by decide +kernel)
  · exact ⟨rfl, ⟨.last, ⟨6⟩⟩, ⟨.last, ⟨6⟩⟩, .body (by decide +kernel), rfl,
      ⟨rfl, by decide +kernel⟩, fun h => absurd h.2 (by decide +kernel)⟩

end LuaSugar
