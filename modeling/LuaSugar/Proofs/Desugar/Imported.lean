import Mathlib
import LuaSugar.Proofs.Pass.Route
import LuaSugar.Proofs.Pass.Toured
import LuaSugar.Proofs.Desugar.Making
import LuaSugar.Proofs.Desugar.Scope
/-!
# What becomes of imports

A list with imports and the list that the pass leaves of it, as one
relation (`Import.Expands`): a default import becomes a declaration, a named
one a declaration of a holder and behind it one of its names, and all other
statements stay in their order, the lists nested in them expanded in place.

The pass numbers holders with a counter that it takes along through all
lists and literals. What a named import finds there is its position among
those that the tour of the chunk comes by, so the pass does the same as one
that knows the positions beforehand; and since no two imports of a parsed
chunk share their source, no two of them share their holder.
-/

namespace LuaSugar

open Pass Progress

namespace Import

/-! ## Lists -/

section Parts

variable (N : ExprId → Expr → Prop)

/-- A call of `require` with a source. -/
def Requires (source module : ExprId) : Prop :=
  ∃ callee, N module (.call callee [source]) ∧ N callee (.ofName "require")

/-- A member of a holder. -/
def Reads (holder name : String) (value : ExprId) : Prop :=
  ∃ object, N value (.arith (.member object name)) ∧ N object (.ofName holder)

variable {N} {N' : ExprId → Expr → Prop}
variable (hN : ∀ i e, (∀ func, e ≠ .atom (.func func)) → N i e → N' i e)
include hN

theorem Requires.imp {source module : ExprId} (h : Requires N source module) :
    Requires N' source module := by
  obtain ⟨callee, hcall, hname⟩ := h
  exact ⟨callee, hN _ _ (by simp [Expr.call]) hcall, hN _ _ (by simp [Expr.ofName]) hname⟩

theorem Reads.imp {holder name : String} {value : ExprId} (h : Reads N holder name value) :
    Reads N' holder name value := by
  obtain ⟨object, hmember, hname⟩ := h
  exact ⟨object, hN _ _ (by simp) hmember, hN _ _ (by simp [Expr.ofName]) hname⟩

end Parts

/-- What an import becomes, where the holder of a source is numbered. -/
inductive Lowers (N : ExprId → Expr → Prop) (number : ExprId → ℕ) : Stmt → Block → Prop
  | default {name source module line} : Requires N source module →
      Lowers N number ⟨.importFrom (.default name) source, line⟩ [.localDecl [name] [module] line]
  | named {names source module values line} : Requires N source module →
      List.Forall₂ (Reads N (holder (number source))) names values →
      Lowers N number ⟨.importFrom (.named names) source, line⟩
        [.localDecl [holder (number source)] [module] line, .localDecl names values line]

/-- **What becomes of a list**, in the arena that the pass leaves. -/
inductive Expands (a : Arena) (number : ExprId → ℕ) : Block → Block → Prop
  | nil : Expands a number [] []
  /-- A statement that is no import. -/
  | kept {s s' rest out} : (∀ binding source, s.kind ≠ .importFrom binding source) →
      s'.line = s.line → s'.kind.hollow = s.kind.hollow →
      (∀ p ∈ s.kind.blocks.zip s'.kind.blocks, Expands a number p.1 p.2) →
      Expands a number rest out → Expands a number (s :: rest) (s' :: out)
  | lowered {s made rest out} : Lowers (fun i e => a.get i = e) number s made →
      Expands a number rest out → Expands a number (s :: rest) (made ++ out)

/-! ## A pass that knows the numbers -/

/-- The pass, where the number of a holder may depend on the source. -/
def numbering (choose : ℕ → ExprId → ℕ) : Pass ℕ Empty := .ofStatement fun cursor => do
  let line := cursor.line
  match cursor.stmt.kind with
  | .importFrom binding source =>
    let module ← Edit.build do Build.call (← Build.name "require") [source]
    match binding with
    | .default name => pure (cursor.replace (.localDecl [name] [module] line))
    | .named names =>
      let count ← Edit.state
      Edit.setState (count + 1)
      let values ← Edit.build (names.mapM (readMember (holder (choose count source))))
      pure ((cursor.insertBefore (.localDecl [holder (choose count source)] [module] line)).replace
        (.localDecl names values line))
  | _ => pure cursor

/-- Holders are numbered by the counter. -/
theorem pass_eq : pass = numbering fun count _ => count := rfl

/-! ## The rule -/

section Rules

variable (number : ExprId → ℕ)

/-- What the pass makes of a statement. -/
inductive Rule (w : Progress) : Stmt → List Slot → List Stmt → List Slot → Prop
  | kept {s ahead} : (∀ binding source, s.kind ≠ .importFrom binding source) →
      Rule w s ahead [s] ahead
  | lowered {s made ahead} : Lowers w.Node number s made → Rule w s ahead made ahead

variable {number}

theorem Lowers.imp {N N' : ExprId → Expr → Prop}
    (hN : ∀ i e, (∀ func, e ≠ .atom (.func func)) → N i e → N' i e) {s : Stmt} {made : Block}
    (h : Lowers N number s made) : Lowers N' number s made := by
  cases h with
  | default hmodule => exact .default (hmodule.imp hN)
  | named hmodule hvalues => exact .named (hmodule.imp hN) (hvalues.imp fun _ _ h => h.imp hN)

theorem rule_lasts (number : ExprId → ℕ) : Rule.Lasts (Rule number) := by
  refine ⟨fun hle hrule => ?_⟩
  cases hrule with
  | kept hs => exact .kept hs
  | lowered h => exact .lowered (h.imp fun _ _ _ hi => hi.mono hle)

theorem builds_module {v w : Progress} {a : Arena} {d : ℕ} {source : ExprId}
    (h : Beside (Rule number) v w a) (hsource : w.Near d source) :
    Builds (Beside (Rule number) v) (do Build.call (← Build.name "require") [source])
      (fun w' module => Requires w'.Node source module) w a := by
  have hlasts := rule_lasts number
  refine (h.name hlasts "require").bind fun w₁ callee a₁ hle₁ h₁ ⟨hcallee, hnear⟩ => ?_
  refine (h₁.plain hlasts (n := d) (by simp [Expr.call]) ?_).mono fun w₂ call hle₂ hcall =>
    ⟨callee, hcall.1, hcallee.mono hle₂⟩
  simpa [Expr.call, Expr.children] using ⟨hnear.deeper (Nat.zero_le d), hsource.mono hle₁⟩

theorem builds_read {v w : Progress} {a : Arena} (h : Beside (Rule number) v w a)
    (holder name : String) : Builds (Beside (Rule number) v) (readMember holder name)
      (fun w' value => Reads w'.Node holder name value) w a := by
  have hlasts := rule_lasts number
  refine (h.name hlasts holder).bind fun w₁ object a₁ hle₁ h₁ ⟨hobject, hnear⟩ => ?_
  exact (h₁.plain hlasts (by simp) (by simpa [Expr.children] using hnear)).mono
    fun w₂ value hle₂ hvalue => ⟨object, hvalue.1, hobject.mono hle₂⟩

/-- **The callbacks follow the rule.** -/
theorem ruled (number : ExprId → ℕ) :
    Ruled (numbering fun _ source => number source).statement (Rule number) := by
  refine ⟨rule_lasts number, ?_⟩
  rintro v w d ⟨before, ⟨⟨kind, line⟩, fresh⟩, after⟩ space h hroots hafter
  have awaits {w' : Progress} (hle : w ≤ w') : ∀ slot ∈ after, w'.Awaits d slot :=
    fun slot hslot => (hafter slot hslot).mono hle
  cases kind with
  | importFrom binding source =>
    have hsource : w.Near d source := hroots source (List.mem_singleton_self source)
    refine (Edits.build (builds_module h hsource)).bind fun w₁ module space₁ hle₁ h₁ hmodule => ?_
    cases binding with
    | default name =>
      exact .pure h₁ ⟨⟨[⟨.localDecl [name] [module] line, fresh⟩], rfl,
        .lowered (.default hmodule)⟩, awaits hle₁, le_rfl⟩
    | named names =>
      refine (Edits.state h₁).bind fun w₂ count space₂ hle₂ h₂ _ => ?_
      refine (Edits.setState h₂).bind fun w₃ _ space₃ hle₃ h₃ _ => ?_
      have hvalues := Builds.mapM_forall₂ (Q := fun w' => Reads w'.Node (holder (number source)))
        (l := names) (f := readMember (holder (number source)))
        (fun hle h => h.imp fun _ _ _ hi => hi.mono hle) h₃ fun w' name a' _ _ h' =>
          builds_read h' (holder (number source)) name
      refine (Edits.build hvalues).bind fun w₄ values space₄ hle₄ h₄ hreads => ?_
      have hle : w₁ ≤ w₄ := hle₂.trans (hle₃.trans hle₄)
      exact .pure h₄ ⟨⟨[⟨.localDecl [holder (number source)] [module] line, true⟩,
        ⟨.localDecl names values line, fresh⟩], rfl,
        .lowered (.named (hmodule.imp fun _ _ _ hi => hi.mono hle) hreads)⟩,
        awaits (hle₁.trans hle), le_rfl⟩
  | _ => exact .pure h ⟨⟨[⟨_, fresh⟩], rfl, .kept (by simp [Cursor.stmt])⟩, awaits le_rfl, le_rfl⟩

end Rules

/-! ## From the walk to the lists -/

section Lists

variable {number : ExprId → ℕ} {c c' : Chunk} {w : Progress} {l out : Block}

/-- What stands in a list that the walk has turned. -/
theorem turns_cons (hw : ¬ w.failed) {s : Stmt} {rest : Block}
    (h : w.Turns (Rule number) (Block.slots (s :: rest)) out) :
    ∃ s' made out', out = made ++ out' ∧ s'.line = s.line ∧ s'.kind.hollow = s.kind.hollow ∧
      (∀ p ∈ s.kind.blocks.zip s'.kind.blocks, w.Turns (Rule number) (Block.slots p.1) p.2) ∧
      (∀ x ∈ s.kind.roots, x ∈ w.visited) ∧
      Rule number w s' (Block.slots rest) made (Block.slots rest) ∧
      w.Turns (Rule number) (Block.slots rest) out' := by
  generalize hslots : Block.slots (s :: rest) = slots at h
  cases h with
  | nil => simp [Block.slots] at hslots
  | inserted _ => simp [Block.slots] at hslots
  | @visited _ s' ahead made ahead' out' hline hhollow hblocks hroots hacts hrest =>
    have hslots : (⟨s, false⟩ : Slot) :: Block.slots rest = ⟨_, false⟩ :: ahead := hslots
    obtain ⟨hs, rfl⟩ := List.cons.inj hslots
    cases hs
    rcases hacts with hrule | ⟨hfailed, -⟩
    · obtain rfl : ahead' = Block.slots rest := by cases hrule <;> rfl
      exact ⟨s', made, out', rfl, hline, hhollow, hblocks, hroots, hrule, hrest⟩
    · exact absurd hfailed hw

theorem import_of_hollow {s s' : Stmt} {binding : ImportBinding} {source : ExprId}
    (hline : s'.line = s.line) (hhollow : s'.kind.hollow = s.kind.hollow)
    (hkind : s.kind = .importFrom binding source) : s' = s :=
  Stmt.eq_of_hollow hline hhollow (by simp [hkind, StmtKind.blocks])

/-- **What the walk makes of a list**, once for all in the arena that it
leaves. -/
theorem expands_of_turns (hw : Run (Rule number) c c' w)
    (h : w.Turns (Rule number) (Block.slots l) out) : Expands c'.arena number l out := by
  -- on the size of the list, as what is nested has lists of its own
  induction hn : Block.size l using Nat.strong_induction_on generalizing l out with
  | _ n ih =>
    cases l with
    | nil =>
      cases h
      exact .nil
    | cons s rest =>
      have hsize : s.size + Block.size rest = n := by rw [← hn, Block.size]
      have hpos : 0 < s.size := by
        cases s
        rw [Stmt.size]
        omega
      obtain ⟨s', made, out', rfl, hline, hhollow, hblocks, -, hrule, hrest⟩ :=
        turns_cons hw.succeeded h
      have hexpands := ih (Block.size rest) (by omega) hrest rfl
      cases hrule with
      | kept hs =>
        refine .kept (fun binding source hkind => ?_) hline hhollow (fun p hp => ?_) hexpands
        · exact hs binding source (import_of_hollow hline hhollow hkind ▸ hkind)
        · have hle := StmtKind.size_le (List.of_mem_zip hp).1
          refine ih _ ?_ (hblocks p hp) rfl
          cases s
          rw [Stmt.size] at hsize
          dsimp only at hle
          omega
      | lowered hmade =>
        -- a statement gives way only if it imports, and then it was the one of the source
        have hkind : ∃ binding source, s'.kind = .importFrom binding source := by
          cases hmade <;> exact ⟨_, _, rfl⟩
        obtain ⟨binding, source, hkind⟩ := hkind
        obtain rfl := import_of_hollow hline.symm hhollow.symm hkind
        refine .lowered (hmade.imp fun i e he hi => ?_) hexpands
        rw [← hw.arena]
        exact Expr.eq_of_hollow hi.hollow he

theorem turns_mem (hw : ¬ w.failed) {s : Stmt} (h : w.Turns (Rule number) (Block.slots l) out)
    (hs : s ∈ l) : (∀ x ∈ s.kind.roots, x ∈ w.visited) ∧
      ∀ b ∈ s.kind.blocks, ∃ b', w.Turns (Rule number) (Block.slots b) b' := by
  induction l generalizing out with
  | nil => cases hs
  | cons t rest ih =>
    obtain ⟨t', made, out', -, -, hhollow, hblocks, hroots, -, hrest⟩ := turns_cons hw h
    rcases List.mem_cons.1 hs with rfl | hs
    · refine ⟨hroots, fun b hb => ?_⟩
      obtain ⟨b', hmem⟩ := exists_mem_zip hhollow hb
      exact ⟨b', hblocks _ hmem⟩
    · exact ih hrest hs

/-- **Every list has been turned.** -/
theorem hasList_turns (hw : Run (Rule number) c c' w) (hl : c.HasList l) :
    ∃ out, w.Turns (Rule number) (Block.slots l) out := by
  induction hl with
  | body => exact ⟨_, hw.body⟩
  | nested _ hs hb ih =>
    obtain ⟨out, hturns⟩ := ih
    exact (turns_mem hw.succeeded hturns hs).2 _ hb
  | literal _ hs hx hy hbody ih =>
    obtain ⟨out, hturns⟩ := ih
    obtain ⟨b', -, hb'⟩ := hw.literal ((turns_mem hw.succeeded hturns hs).1 _ hx) hy hbody
    exact ⟨b', hb'⟩

/-- **Literals expand in place.** -/
theorem literal_expands (hw : Run (Rule number) c c' w) {s : Stmt} {x y : ExprId} {b : Block}
    (hl : c.HasList l) (hs : s ∈ l) (hx : x ∈ s.kind.roots) (hy : y ∈ c.arena.descendants x)
    (hbody : c.arena.body? y = some b) :
    ∃ b', c'.arena.body? y = some b' ∧ Expands c'.arena number b b' := by
  obtain ⟨out, hturns⟩ := hasList_turns hw hl
  obtain ⟨b', hb', hturns'⟩ := hw.literal ((turns_mem hw.succeeded hturns hs).1 x hx) hy hbody
  exact ⟨b', hb', expands_of_turns hw hturns'⟩

end Lists

/-! ## Numbers -/

/-- The source of a named import. -/
def source? : Visit → Option ExprId
  | .statement ⟨.importFrom (.named _) source, _⟩ _ => some source
  | _ => none

theorem source?_eq_some {s : Stmt} {behind : Block} {source : ExprId} :
    source? (.statement s behind) = some source ↔
      ∃ names, s.kind = .importFrom (.named names) source := by
  obtain ⟨kind, line⟩ := s
  cases kind with
  | importFrom binding source' => cases binding <;> simp [source?]
  | _ => simp [source?]

theorem source?_behind (s : Stmt) (behind behind' : Block) :
    source? (.statement s behind) = source? (.statement s behind') :=
  Option.ext fun _ => source?_eq_some.trans source?_eq_some.symm

end Import

/-- The sources of the named imports of a chunk, as a walk comes by them. -/
def Chunk.namedSources (c : Chunk) : List ExprId := c.tour.filterMap Import.source?

/-- The position of a named import among those of a chunk. -/
def Chunk.importNumber (c : Chunk) (source : ExprId) : ℕ := c.namedSources.idxOf source

namespace Import

section Numbers

open Guide

variable {c : Chunk} {V : Vocabulary} {R : Prop}

/-- What the pass may do: the counter is the number of named imports so
far. -/
def guide (c : Chunk) : Guide ℕ Empty where
  chunk := c
  fails _ := none
  touched _ := ∅
  own space vs := space.state = (vs.filterMap source?).length
  stands _ _ _ := False
  beside := False

theorem count_concat (vs : List Visit) (v : Visit) :
    ((vs ++ [v]).filterMap source?).length =
      (vs.filterMap source?).length + (source? v).toList.length := by
  rw [List.filterMap_append, List.length_append]
  cases hv : source? v <;> simp [hv]

/-- The number that the counter has. -/
theorem importNumber_eq (hnodup : c.namedSources.Nodup) {vs : List Visit} {v : Visit}
    {source : ExprId} (hv : source? v = some source) (hpath : vs ++ [v] <+: c.tour) :
    c.importNumber source = (vs.filterMap source?).length := by
  obtain ⟨later, hlater⟩ := hpath
  have hsources : c.namedSources =
      vs.filterMap source? ++ source :: later.filterMap source? := by
    rw [Chunk.namedSources, ← hlater]
    simp [hv]
  rw [Chunk.importNumber, hsources, List.idxOf_append_of_notMem, List.idxOf_cons_self,
    Nat.add_zero]
  rw [hsources, List.nodup_append] at hnodup
  exact fun hmem => hnodup.2.2 _ hmem _ List.mem_cons_self rfl

variable {choose choose' : ℕ → ExprId → ℕ} {cursor : Cursor} {space : Workspace ℕ}

theorem run_named (choose : ℕ → ExprId → ℕ) (before after : List Slot) (fresh : Bool) (line : ℕ)
    (names : List String) (source : ExprId) (space : Workspace ℕ) :
    ((numbering choose).statement
        ⟨before, ⟨⟨.importFrom (.named names) source, line⟩, fresh⟩, after⟩).run space =
      let module := (do Build.call (← Build.name "require") [source] : Build ExprId).run space.arena
      let holder := holder (choose space.state source)
      let values := (names.mapM (readMember holder)).run module.2
      (.ok ⟨⟨.localDecl [holder] [module.1] line, true⟩ :: before,
        ⟨.localDecl names values.1 line, fresh⟩, after⟩, ⟨values.2, space.state + 1⟩) :=
  rfl

/-- Only the number of the source matters. -/
theorem numbering_congr (h : ∀ names source, cursor.stmt.kind = .importFrom (.named names) source →
    choose space.state source = choose' space.state source) :
    ((numbering choose').statement cursor).run space =
      ((numbering choose).statement cursor).run space := by
  obtain ⟨before, ⟨⟨kind, line⟩, fresh⟩, after⟩ := cursor
  cases kind with
  | importFrom binding source =>
    cases binding with
    | default name => rfl
    | named names => rw [run_named, run_named, h names source rfl]
  | _ => rfl

/-- **A callback** does not fail, leaves what is ahead, and counts a named
import. -/
theorem statement_run (choose : ℕ → ExprId → ℕ) (cursor : Cursor) (space : Workspace ℕ)
    (behind : Block) : ∃ cursor' space', ((numbering choose).statement cursor).run space =
      (.ok cursor', space') ∧ cursor'.after = cursor.after ∧
      space'.state = space.state + (source? (.statement cursor.stmt behind)).toList.length := by
  obtain ⟨before, ⟨⟨kind, line⟩, fresh⟩, after⟩ := cursor
  cases kind with
  | importFrom binding source => cases binding <;> exact ⟨_, _, rfl, rfl, rfl⟩
  | _ => exact ⟨_, _, rfl, rfl, rfl⟩

theorem statement_extends (choose : ℕ → ExprId → ℕ) (cursor : Cursor) (space : Workspace ℕ) :
    space.arena.Extends (((numbering choose).statement cursor).run space).2.arena := by
  have hm := makesLiterals_extends
  refine Edits.extends (Q := fun _ _ => True) ?_
  unfold numbering ofStatement
  dsimp only
  split
  · rename_i binding source hkind
    have hmodule : Builds Eq (do Build.call (← Build.name "require") [source]) (fun _ _ => True)
        space.arena space.arena :=
      (hm.name rfl "require").bind fun _ _ _ _ h _ => .extends h _
    refine (Edits.build hmodule).bind fun a₁ module space₁ _ h₁ _ => ?_
    split
    · exact .pure h₁ trivial
    · rename_i names
      refine (Edits.state h₁).bind fun a₂ count space₂ _ h₂ _ => ?_
      refine (Edits.setState h₂).bind fun a₃ _ space₃ _ h₃ _ => ?_
      have hvalues := Builds.mapM (Q := fun _ _ => True) (l := names)
        (f := readMember (holder (choose count source))) (fun _ _ => trivial) h₃
        fun a name a' _ _ h => hm.readMember h (holder (choose count source)) name
      exact (Edits.build hvalues).bind fun _ _ _ _ h₄ _ => .pure h₄ trivial
  · exact .pure rfl trivial

theorem toured (h : c.Sound V R) (hnodup : c.namedSources.Nodup) :
    Toured (guide c) pass (numbering fun _ source => c.importNumber source) where
  ranked := by
    obtain ⟨rank, hsound⟩ := h.arena
    exact ⟨_, hsound.ranked⟩
  inside hx := Chunk.inside_of_mem_tour h hx
  touched_mono _ := subset_rfl
  untouched _ _ _ := Set.notMem_empty _
  own _ _ _ h := h
  expression {walk t x s} _ _ hat _ _ := by
    refine (Follows.attempt_idle rfl rfl (hat.visit rfl subset_rfl fun hown => ?_)).mono
      fun _ _ _ _ => trivial
    exact hown.trans (count_concat t.visits (.root x s)).symm
  statement {walk t s s' before rest} hat htour hline hhollow _ := by
    -- what is nested may have changed, but not whether the statement imports by name
    have hsource : source? (.statement s' rest) = source? (.statement s rest) := by
      refine Option.ext fun source => ?_
      rw [source?_eq_some, source?_eq_some]
      constructor
      · rintro ⟨names, hkind⟩
        exact ⟨names, import_of_hollow hline.symm hhollow.symm hkind ▸ hkind⟩
      · rintro ⟨names, hkind⟩
        exact ⟨names, import_of_hollow hline hhollow hkind ▸ hkind⟩
    rw [pass_eq]
    obtain ⟨cursor', space', hrun, hafter, hstate⟩ :=
      statement_run (fun count _ => count) ⟨before, ⟨s', false⟩, Block.slots rest⟩ walk.space rest
    refine .attempt hat.succeeded (numbering_congr fun names source hkind => ?_)
      (fun v space hv => ?_) fun e => e.elim
    -- the count at this statement is the number of the source, as no source is shared
    · have hv : source? (.statement s rest) = some source :=
        hsource ▸ source?_eq_some.2 ⟨names, hkind⟩
      rw [importNumber_eq hnodup hv htour]
      exact hat.own
    · have hext := statement_extends (fun count _ => count) ⟨before, ⟨s', false⟩, Block.slots rest⟩
        walk.space
      rw [hv] at hext
      cases hrun.symm.trans hv
      refine ⟨hat.build rfl hext subset_rfl fun hown => ?_, ?_⟩
      -- the count goes up with the imports of the tour
      · have hown : walk.space.state = (t.visits.filterMap source?).length := hown
        show space'.state = ((t.visits ++ [Visit.statement s rest]).filterMap source?).length
        rw [count_concat, hstate, hown, ← hsource]
        rfl
      · rw [hafter]
        exact ⟨[], by simp, .inl rfl⟩
  inner _ _ _ _ _ _ _ hstands := hstands.elim

end Numbers

section Sources

variable {a : Arena} {enter : Block → Tour → Tour}

/-- The source of a named import, where a walk comes by it as a root. -/
def rootSource? : Visit → Option ExprId
  | .root x s => (source? (.statement s [])).map fun _ => x
  | .statement _ _ => none

theorem root_of_rootSource? {v : Visit} {x : ExprId} (h : rootSource? v = some x) :
    ∃ s, v = .root x s := by
  cases v with
  | root y s =>
    obtain ⟨_, -, rfl⟩ := Option.map_eq_some_iff.1 h
    exact ⟨s, rfl⟩
  | statement s behind => cases h

/-- Every named import has been come by as its source has. -/
def Paired (t : Tour) : Prop := t.visits.filterMap source? = t.visits.filterMap rootSource?

theorem Paired.visit {t : Tour} (ht : Paired t) {v : Visit} (h : source? v = rootSource? v) :
    Paired (t.visit v) := by
  show (t.visits ++ [v]).filterMap source? = (t.visits ++ [v]).filterMap rootSource?
  rw [List.filterMap_append, List.filterMap_append, ht]
  exact congrArg _ (by simp only [List.filterMap_cons, h, List.filterMap_nil])

theorem Paired.through {t : Tour} (ht : Paired t) {s : Stmt} {behind : Block} {source : ExprId}
    (h : source? (.statement s behind) = some source) :
    Paired ((t.visit (.root source s)).visit (.statement s behind)) := by
  have hroot : rootSource? (.root source s) = some source :=
    congrArg (Option.map fun _ => source) ((source?_behind s [] behind).trans h)
  have hroot' : source? (.root source s) = none := rfl
  have h' : rootSource? (.statement s behind) = none := rfl
  show ((t.visits ++ [_]) ++ [_]).filterMap source? = ((t.visits ++ [_]) ++ [_]).filterMap rootSource?
  simp only [List.filterMap_append, List.filterMap_cons, List.filterMap_nil, h, h', hroot, hroot',
    List.append_nil]
  exact congrArg (· ++ [source]) ht

variable (he : ∀ b t, Paired t → Paired (enter b t))
include he

theorem paired_tourLiteral (y : ExprId) {t : Tour} (ht : Paired t) :
    Paired (a.tourLiteral enter t y) := by
  unfold Arena.tourLiteral
  cases a.body? y with
  | none => exact ht
  | some body =>
    by_cases hseen : y ∈ t.seen
    · simpa only [hseen, if_true] using ht
    · simpa only [hseen, if_false] using he body (t.enter y) ht

theorem paired_tourList : ∀ (l : Block) {t : Tour}, Paired t → Paired (a.tourList enter l t)
  | [], _, ht => ht
  | s :: rest, t, ht => by
    have hbelow (x : ExprId) {t : Tour} (ht : Paired t) :
        Paired ((a.descendants x).foldl (a.tourLiteral enter) t) :=
      List.foldlRecOn _ _ ht fun _ ht y _ => paired_tourLiteral he y ht
    refine paired_tourList rest ?_
    cases hsource : source? (.statement s rest) with
    | none =>
      have hroot (x : ExprId) : rootSource? (.root x s) = none :=
        Option.map_eq_none_iff.2 ((source?_behind s [] rest).trans hsource)
      refine .visit ?_ hsource
      refine List.foldlRecOn _ _ ?_ fun t ht x _ => (hbelow x ht).visit (hroot x).symm
      exact List.foldlRecOn _ _ ht fun t ht b _ => he b t ht
    | some source =>
      -- the source is the only root, and is come by right before the import
      obtain ⟨names, hkind⟩ := source?_eq_some.1 hsource
      obtain ⟨kind, line⟩ := s
      obtain rfl : kind = _ := hkind
      exact (hbelow source ht).through hsource

omit he in
/-- A tour comes by the sources of named imports as it does by these. -/
theorem tour_sources (c : Chunk) : c.tour.filterMap source? = c.tour.filterMap rootSource? := by
  have htour : ∀ (d : ℕ) (l : Block) (t : Tour), Paired t → Paired (c.arena.tour d l t) := by
    intro d
    induction d with
    | zero => exact fun _ _ ht => ht
    | succ d ih => exact fun l _ ht => paired_tourList ih l ht
  exact htour _ _ _ rfl

end Sources

/-- Holders of different numbers have different names. -/
theorem holder_injective : Function.Injective holder := by
  intro i j h
  have hdigits : Nat.toDigits 10 i = Nat.toDigits 10 j := by
    simpa [holder] using congrArg String.toList h
  calc i = Nat.ofDigitChars 10 (Nat.toDigits 10 i) 0 := Nat.ofDigitChars_ten_toDigits.symm
    _ = Nat.ofDigitChars 10 (Nat.toDigits 10 j) 0 := by rw [hdigits]
    _ = j := Nat.ofDigitChars_ten_toDigits

end Import

/-! ## Parsed chunks -/

open Import

section Chunks

variable {tokens : List Token} {c : Chunk}

theorem mem_namedSources {V : Vocabulary} {R : Prop} (h : c.Sound V R) {source : ExprId} :
    source ∈ c.namedSources ↔ ∃ before names line behind,
      c.HasList (before ++ ⟨.importFrom (.named names) source, line⟩ :: behind) := by
  rw [Chunk.namedSources, List.mem_filterMap]
  constructor
  · rintro ⟨v, hv, hsource⟩
    cases v with
    | root x s => cases hsource
    | statement s behind =>
      obtain ⟨names, hkind⟩ := source?_eq_some.1 hsource
      obtain ⟨before, hlist⟩ := Chunk.hasVisit_of_mem hv
      obtain ⟨kind, line⟩ := s
      obtain rfl : kind = _ := hkind
      exact ⟨before, names, line, behind, hlist⟩
  · rintro ⟨before, names, line, behind, hlist⟩
    exact ⟨.statement _ behind, (Chunk.mem_tour h).2 ⟨before, hlist⟩, rfl⟩

/-- No two named imports of a parsed chunk share their source. -/
theorem parse_namedSources_nodup (h : parse tokens = .ok c) : c.namedSources.Nodup := by
  have hnodup := (parse_unshared h).descendants_nodup (parse_chunk_sound h)
  rw [Chunk.namedSources, tour_sources, List.filterMap_eq_flatMap_toList]
  refine hnodup.sublist (List.Sublist.flatMap_right _ fun v _ => ?_)
  cases hsource : rootSource? v with
  | none => exact List.nil_sublist _
  | some source =>
    obtain ⟨s, rfl⟩ := root_of_rootSource? hsource
    have hself := List.singleton_sublist.2 (c.arena.self_mem_descendants source)
    simpa [Visit.roots] using hself

/-- **The pass does as one that knows the numbers.** -/
theorem run_eq (h : parse tokens = .ok c) : Import.pass.run 0 c =
    (numbering fun _ source => c.importNumber source).run 0 c :=
  (((toured (parse_chunk_sound h) (parse_namedSources_nodup h)).run
    (show (guide c).own ⟨c.arena, 0⟩ [] from rfl)).2 (by simp [guide])).1.symm

/-- **Imports.** The pass leaves every list of a parsed chunk where it was,
with each import replaced: a default one by a declaration of its name as
the call of `require` with its source, a named one by the declaration of a
holder as that call, and behind it one of its names as the members of that
very holder. Nothing else changes, and no two of the named imports of the
chunk have holders of the same name. -/
theorem expandImports_exact (h : parse tokens = .ok c) :
    Expands (expandImports c).arena c.importNumber c.body (expandImports c).body ∧
      (∀ y body, c.arena.body? y = some body → ∃ body',
        (expandImports c).arena.body? y = some body' ∧
          Expands (expandImports c).arena c.importNumber body body') ∧
      (∀ i : ExprId, i.index < c.arena.size →
        ((expandImports c).arena.get i).hollow = (c.arena.get i).hollow) ∧
      (c.namedSources.map fun source => holder (c.importNumber source)).Nodup ∧
      ∀ source, source ∈ c.namedSources ↔ ∃ before names line behind,
        c.HasList (before ++ ⟨.importFrom (.named names) source, line⟩ :: behind) := by
  have hsound := parse_chunk_sound h
  have hnodup := parse_namedSources_nodup h
  obtain ⟨rank, harena⟩ := hsound.arena
  -- with the numbers given, the pass turns every list by the rule
  obtain ⟨w, hw⟩ := (ruled c.importNumber).run harena.ranked hsound.inside 0 (by
    cases hfailure : ((ofStatement _).run 0 c).failure with
    | none => rfl
    | some e => exact e.elim)
  -- and it is the pass that counts, as each source is met once
  have hrun : (expandImports c) = ((numbering fun _ source => c.importNumber source).run 0 c).chunk :=
    congrArg Outcome.chunk (run_eq h)
  rw [hrun]
  refine ⟨expands_of_turns hw hw.body, fun y body hbody => ?_, ?_, ?_, fun source =>
    mem_namedSources hsound⟩
  · obtain ⟨l, s, x, hl, hs, hx, hy⟩ :=
      (parse_reaches h (Arena.inside_of_body? hbody)).exists_root harena.ranked
    exact literal_expands hw hl hs hx hy hbody
  · exact hw.arena ▸ hw.hollow
  · refine (List.nodup_map_iff_inj_on hnodup).2 fun x hx y hy hxy => ?_
    exact (List.idxOf_inj hx).1 (holder_injective hxy)

/-- Two imports, one of them in a function literal. -/
theorem expandImports_exact_nested : ∃ tokens c,
    tokenize "f(function() import {a} from \"m\" end)\nimport {a, b} from \"m\"" = .ok tokens ∧
      parse tokens = .ok c ∧
      (c.namedSources.map fun source => holder (c.importNumber source)) =
        ["__import0", "__import1"] ∧
      (c.namedSources.map fun source => holder (c.importNumber source)).Nodup ∧
      Expands (expandImports c).arena c.importNumber c.body (expandImports c).body := by
  obtain ⟨tokens, c, htokens, hparse, hholders⟩ := exists_parsed (P := fun _ c =>
    (c.namedSources.map fun source => holder (c.importNumber source)) = ["__import0", "__import1"])
    "f(function() import {a} from \"m\" end)\nimport {a, b} from \"m\"" (by decide +kernel)
  obtain ⟨hbody, -, -, hnodup, -⟩ := expandImports_exact hparse
  exact ⟨tokens, c, htokens, hparse, hholders, hnodup, hbody⟩

end Chunks

end LuaSugar
