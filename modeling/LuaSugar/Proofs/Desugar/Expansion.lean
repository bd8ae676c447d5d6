import Mathlib
import LuaSugar.Proofs.Desugar.Expanded
import LuaSugar.Proofs.Desugar.Sequence
/-!
# Every list of a chunk expands

The walk of the pass turns lists by its rule; here that is read as the
expansion of the lists. What the rule says of nodes is said of them as
they are at the end: only literals change after they are made, and those
of a descriptor do not, for their statements are plain.

So every list of a chunk, wherever it stands, has its expansion in the
chunk that the pass leaves.
-/

namespace LuaSugar

open Progress

/-- A statement of a list is in a list of its own. -/
theorem Block.Everywhere.of_nested {P : StmtKind → Prop} {block b : Block} {s : Stmt}
    (h : Block.Everywhere P block) (hs : s ∈ block) (hb : b ∈ s.kind.blocks) :
    Block.Everywhere P b :=
  (Block.everywhere_iff.1 h s hs).2 b hb

theorem Block.Everywhere.tail {P : StmtKind → Prop} {s : Stmt} {rest : Block}
    (h : Block.Everywhere P (s :: rest)) : Block.Everywhere P rest :=
  fun t ht => h t (by simp [ht])

namespace Intrinsic

variable {c c' : Chunk} {w : Progress}

/-! ## From the walk to the lists -/

/-- A plain statement stays as it is. -/
theorem turns_plain {s : Stmt} {ahead : List Slot} {out : Block} (hw : ¬ w.failed)
    (hs : s.kind.isPlain) (h : w.Turns Rule (⟨s, false⟩ :: ahead) out) :
    ∃ out', out = s :: out' ∧ w.Turns Rule ahead out' ∧ ∀ x ∈ s.kind.roots, x ∈ w.visited := by
  cases h with
  | visited hline hhollow _ hroots hacts hrest =>
    obtain rfl := Stmt.eq_of_hollow hline hhollow (StmtKind.blocks_of_isPlain hs)
    rcases hacts with hrule | ⟨hfailed, -⟩
    · cases hrule with
      | kept _ => exact ⟨_, rfl, hrest, hroots⟩
      | decorated _ _ | unnamed _ => cases hs
    · exact absurd hfailed hw

/-- And so do lists of plain statements. -/
theorem turns_plain_list {body out : Block} (hw : ¬ w.failed) (hbody : ∀ s ∈ body, s.kind.isPlain)
    (h : w.Turns Rule (Block.slots body) out) : out = body := by
  induction body generalizing out with
  | nil =>
    cases h
    rfl
  | cons s body ih =>
    rw [List.forall_mem_cons] at hbody
    obtain ⟨out', rfl, hrest, -⟩ := turns_plain hw hbody.1 h
    rw [ih hbody.2 hrest]

/-- **Nodes stay**, but for literals of statements that the pass may
change. -/
theorem is_of_node (hw : Run Rule c c' w) {i : ExprId} {e : Expr} (he : e.Still)
    (h : w.Node i e) : c'.arena.Is i e := by
  rw [← hw.arena]
  by_cases hfunc : ∃ func, e = .atom (.func func)
  · obtain ⟨func, rfl⟩ := hfunc
    obtain ⟨body, hget⟩ := Expr.literal_of_hollow h.hollow
    have hbody : w.arena.body? i = some body := Arena.body?_eq_some.2 ⟨_, hget, rfl⟩
    -- the body is the first one, also if it was walked
    have hsame : body = func.body := by
      by_cases hseen : i ∈ w.seen
      · obtain ⟨-, body', hbody', hturns⟩ := hw.good.walked i (hw.walked hseen)
        obtain rfl := Option.some.inj (hbody.symm.trans hbody')
        rw [h.origin func rfl] at hturns
        exact turns_plain_list hw.succeeded (he func rfl) hturns
      · rw [(hw.good.unseen i _ hseen hbody).1, h.origin func rfl]
    show w.arena.get i = _
    rw [hget, hsame, func.eta]
  · exact Expr.eq_of_hollow h.hollow fun func hf => hfunc ⟨func, hf⟩

/-- **A decorated function** is walked in its literal once the call is
visited. -/
theorem decorates_of_node (hw : Run Rule c c' w) {e args signature func call}
    (hcall : call ∈ w.visited) (h : Decorates w.Node e args signature func call) :
    ∃ body, Decorates c'.arena.Is e args signature { func with body } call ∧
      w.Turns Rule (Block.slots func.body) body := by
  obtain ⟨text, literal, hcallNode, htext, hliteral⟩ := h
  have hcallIs : c'.arena.Is call (.call e (args ++ [text, literal])) :=
    is_of_node hw (by simp [Expr.Still, Expr.call]) hcallNode
  have hchild : literal ∈ (w.arena.get call).children := by
    rw [hw.arena, hcallIs]
    simp [Expr.call, Expr.children]
  obtain ⟨body, hget⟩ := Expr.literal_of_hollow hliteral.hollow
  have hbody : w.arena.body? literal = some body := Arena.body?_eq_some.2 ⟨_, hget, rfl⟩
  have hvisited : literal ∈ w.visited := (hw.good.visited call hcall).2.1 literal hchild
  have hseen : literal ∈ w.seen := (hw.good.visited literal hvisited).2.2 (by simp [hbody])
  obtain ⟨-, body', hbody', hturns⟩ := hw.good.walked literal (hw.walked hseen)
  obtain rfl := Option.some.inj (hbody.symm.trans hbody')
  rw [hliteral.origin func rfl] at hturns
  exact ⟨body, ⟨text, literal, hcallIs, is_of_node hw (by simp [Expr.Still, Expr.ofText]) htext,
    hw.arena ▸ hget⟩, hturns⟩

/-- **Decorations last**: the body of a decorated function is walked in
its literal, since the assignment is visited. -/
theorem decoration_of_node (hw : Run Rule c c' w) {e args line body next left next' inserted}
    (h : Decoration w.Node e args line body next left next' inserted)
    (hbody : ∀ b ∈ next.kind.blocks, b = body) (hroots : ∀ x ∈ next'.kind.roots, x ∈ w.visited) :
    ∃ body', Decoration c'.arena.Is e args line body' next left next' inserted ∧
      ∀ b ∈ next.kind.blocks, w.Turns Rule (Block.slots b) body' := by
  cases h with
  | declaration hcall htables =>
    exact ⟨body, .declaration (is_of_node hw (by simp [Expr.Still, Expr.call]) hcall)
      (htables.imp fun _ _ h => h.imp fun i e he => is_of_node hw he), by simp [StmtKind.blocks]⟩
  | @function path func line' target call htarget hcall =>
    obtain ⟨body', hcall', hturns⟩ :=
      decorates_of_node hw (hroots call (by simp [Stmt.assign, StmtKind.roots])) hcall
    obtain rfl : func.body = body := hbody _ (by simp [StmtKind.blocks])
    refine ⟨body', .function (htarget.imp fun i e he => is_of_node hw he) hcall', ?_⟩
    simpa [StmtKind.blocks] using hturns
  | @localFunction name func line' target call htarget hcall =>
    obtain ⟨body', hcall', hturns⟩ :=
      decorates_of_node hw (hroots call (by simp [Stmt.assign, StmtKind.roots])) hcall
    obtain rfl : func.body = body := hbody _ (by simp [StmtKind.blocks])
    refine ⟨body',
      .localFunction (is_of_node hw (by simp [Expr.Still, Expr.ofName]) htarget) hcall', ?_⟩
    simpa [StmtKind.blocks] using hturns

theorem Decoration.isPlain {N : ExprId → Expr → Prop} {e args line body next left next' inserted}
    (h : Decoration N e args line body next left next' inserted) : next'.kind.isPlain := by
  cases h <;> rfl

theorem Decoration.roots {N : ExprId → Expr → Prop} {e args line body next left next' inserted}
    (h : Decoration N e args line body next left next' inserted) :
    next.kind.roots ⊆ next'.kind.roots := by
  cases h with
  | declaration _ _ => exact List.Subset.refl _
  | function _ _ | localFunction _ _ => exact List.nil_subset _

/-- **What the walk makes of a list is its expansion**, and the ids in it
have been visited. -/
theorem expands_of_turns (hw : Run Rule c c' w) {l out : Block}
    (hnamed : Block.Everywhere StmtKind.Named l) (h : w.Turns Rule (Block.slots l) out) :
    Expands c'.arena l out ∧ ∀ x ∈ Block.ids l, x ∈ w.visited := by
  -- the body of a decorated function is smaller, though it is turned elsewhere
  induction hn : Block.size l using Nat.strong_induction_on generalizing l out with
  | _ n ih =>
    cases l with
    | nil =>
      cases h
      exact ⟨.nil, by simp⟩
    | cons s rest =>
      have hsize : s.size + Block.size rest = n := by
        rw [← hn, Block.size]
      have hpos : 0 < s.size := by
        cases s
        rw [Stmt.size]
        omega
      have hinside {s : Stmt} (hs : s.size ≤ n) {b : Block} (hb : b ∈ s.kind.blocks) :
          Block.size b < n := by
        have := StmtKind.size_le hb
        cases s
        rw [Stmt.size] at hs
        dsimp only at this
        omega
      cases h with
      | @visited _ s' _ made ahead' out' hline hhollow hblocks hroots hacts hrest =>
        rcases hacts with hrule | ⟨hfailed, -⟩
        · generalize hahead : List.map (fun s => (⟨s, false⟩ : Slot)) rest = ahead at hrule
          cases hrule with
          | kept hs =>
            subst hahead
            have hkind : ∀ e args, s.kind ≠ .intrinsic e args := fun e args hkind => by
              have hsame := Stmt.eq_of_hollow hline hhollow (by simp [hkind, StmtKind.blocks])
              exact hs e args (hsame ▸ hkind)
            obtain ⟨hexpands, hvisited⟩ := ih (Block.size rest) (by omega) hnamed.tail hrest rfl
            have hnested := fun p hp => ih _ (hinside (by omega) (List.of_mem_zip hp).1)
              (hnamed.of_nested List.mem_cons_self (List.of_mem_zip hp).1) (hblocks p hp) rfl
            refine ⟨.kept hkind hline hhollow (fun p hp => (hnested p hp).1) hexpands, ?_⟩
            rw [Block.ids_cons]
            refine List.forall_mem_append.2 ⟨fun x hx => ?_, hvisited⟩
            rcases StmtKind.mem_ids.1 hx with hx | ⟨b, hb, hx⟩
            · exact hroots x hx
            · obtain ⟨b', hmem⟩ := exists_mem_zip hhollow hb
              exact (hnested (b, b') hmem).2 x hx
          | @decorated e args line next body left next' inserted ahead hmakes hbody =>
            obtain rfl : s = ⟨.intrinsic e args, line⟩ :=
              Stmt.eq_of_hollow hline.symm hhollow.symm rfl
            obtain ⟨t, rest, rfl, rfl, rfl⟩ := List.map_eq_cons_iff.1 hahead
            rw [Block.size] at hsize
            obtain ⟨out, rfl, hturns, hvisited⟩ := turns_plain hw.succeeded hmakes.isPlain hrest
            obtain ⟨out, rfl, hturnsRest⟩ := hturns.of_inserted
            obtain ⟨body', hmakes', hbody'⟩ := decoration_of_node hw hmakes hbody hvisited
            obtain ⟨hexpands, hvisitedRest⟩ :=
              ih (Block.size rest) (by omega) hnamed.tail.tail hturnsRest rfl
            have hnested : ∀ b ∈ t.kind.blocks, Expands c'.arena b body' ∧
                ∀ x ∈ Block.ids b, x ∈ w.visited := fun b hb =>
              ih _ (hinside (by omega) hb)
                (hnamed.of_nested (List.mem_cons_of_mem _ List.mem_cons_self) hb) (hbody' b hb) rfl
            refine ⟨.decorated hmakes' (fun b hb => (hnested b hb).1) hexpands, ?_⟩
            rw [Block.ids_cons, Block.ids_cons]
            refine List.forall_mem_append.2
              ⟨by simpa [StmtKind.ids_eq, StmtKind.blocks] using hroots,
                List.forall_mem_append.2 ⟨fun x hx => ?_, hvisitedRest⟩⟩
            rcases StmtKind.mem_ids.1 hx with hx | ⟨b, hb, hx⟩
            · exact hvisited x (hmakes.roots hx)
            · exact (hnested b hb).2 x hx
          | @unnamed e args line next ahead hunnamed =>
            obtain ⟨t, rest, rfl, rfl, rfl⟩ := List.map_eq_cons_iff.1 hahead
            exact absurd (hnamed t (by simp)) hunnamed
        · exact absurd hfailed hw.succeeded

/-! ## Where the expansions stand -/

/-- The intrinsic and its arguments are those of the call. -/
theorem Decoration.call {a : Arena} {e args line body next left next' inserted}
    (h : Decoration a.Is e args line body next left next' inserted) :
    ∃ s ∈ next' :: inserted, ∃ call ∈ s.kind.roots, e :: args ⊆ (a.get call).children := by
  have children {call : ExprId} {more : List ExprId} (h : a.Is call (.call e (args ++ more))) :
      e :: args ⊆ (a.get call).children := by
    rw [show a.get call = _ from h]
    simp [Expr.call, Expr.children]
  cases h with
  | @declaration _ _ line' call _ hcall _ =>
    exact ⟨.call call line', by simp, call, List.mem_singleton_self call, children hcall⟩
  | @function _ _ _ _ call _ hcall | @localFunction _ _ _ _ call _ hcall =>
    obtain ⟨_, _, hcall, -⟩ := hcall
    exact ⟨_, List.mem_cons_self, call, by simp [Stmt.assign, StmtKind.roots], children hcall⟩

/-- The body of a decorated function is that of a literal below the
assignment. -/
theorem Decoration.literal {a : Arena} {e args line body next left next' inserted}
    (h : Decoration a.Is e args line body next left next' inserted)
    (hblocks : next.kind.blocks ≠ []) :
    ∃ call ∈ next'.kind.roots, ∃ y ∈ (a.get call).children, a.body? y = some body := by
  have decorated {signature : String} {func : FuncBody} {call : ExprId} (hfunc : func.body = body)
      (h : Decorates a.Is e args signature func call) :
      ∃ y ∈ (a.get call).children, a.body? y = some body := by
    obtain ⟨text, literal, hcall, -, hliteral⟩ := h
    refine ⟨literal, ?_, Arena.body?_eq_some.2 ⟨func, hliteral, hfunc⟩⟩
    rw [show a.get call = _ from hcall]
    simp [Expr.call, Expr.children]
  cases h with
  | declaration _ _ => exact absurd rfl hblocks
  | @function _ _ _ _ call _ hcall | @localFunction _ _ _ _ call _ hcall =>
    exact ⟨call, by simp [Stmt.assign, StmtKind.roots], decorated rfl hcall⟩

section Expands

variable {a : Arena} {l l' : Block} {s : Stmt}

/-- **Roots stay roots**, or are arguments of the call of an intrinsic. -/
theorem Expands.roots (h : Expands a l l') (hs : s ∈ l) {x : ExprId} (hx : x ∈ s.kind.roots) :
    ∃ s' ∈ l', ∃ x' ∈ s'.kind.roots, x = x' ∨ x ∈ (a.get x').children := by
  induction h with
  | nil => cases hs
  | @kept t t' rest out _ _ hhollow _ _ _ ih =>
    rcases List.mem_cons.1 hs with rfl | hs
    · refine ⟨t', List.mem_cons_self, x, ?_, .inl rfl⟩
      rwa [← StmtKind.roots_hollow, hhollow, StmtKind.roots_hollow]
    · obtain ⟨s', hs', hx'⟩ := ih hs
      exact ⟨s', List.mem_cons_of_mem _ hs', hx'⟩
  | @decorated e args line next body left next' inserted rest out hmakes _ _ _ ih =>
    rcases List.mem_cons.1 hs with rfl | hs
    · obtain ⟨s', hs', call, hcall, hchildren⟩ := hmakes.call
      refine ⟨s', ?_, call, hcall, .inr (hchildren hx)⟩
      rcases List.mem_cons.1 hs' with rfl | hs' <;> simp [*]
    · rcases List.mem_cons.1 hs with rfl | hs
      · exact ⟨next', by simp, x, hmakes.roots hx, .inl rfl⟩
      · obtain ⟨s', hs', hx'⟩ := ih hs
        exact ⟨s', by simp [hs'], hx'⟩

/-- **Nested lists expand** in their statement, or in the literal of a
decorated function. -/
theorem Expands.nested (h : Expands a l l') (hs : s ∈ l) {b : Block} (hb : b ∈ s.kind.blocks) :
    ∃ b', Expands a b b' ∧ ∃ s' ∈ l', b' ∈ s'.kind.blocks ∨
      ∃ x' ∈ s'.kind.roots, ∃ y ∈ (a.get x').children, a.body? y = some b' := by
  induction h with
  | nil => cases hs
  | @kept t t' rest out _ _ hhollow hblocks _ _ ih =>
    rcases List.mem_cons.1 hs with rfl | hs
    · obtain ⟨b', hmem⟩ := exists_mem_zip hhollow hb
      exact ⟨b', hblocks _ hmem, t', List.mem_cons_self, .inl (List.of_mem_zip hmem).2⟩
    · obtain ⟨b', hb', s', hs', hwhere⟩ := ih hs
      exact ⟨b', hb', s', List.mem_cons_of_mem _ hs', hwhere⟩
  | @decorated e args line next body left next' inserted rest out hmakes hbody _ _ ih =>
    rcases List.mem_cons.1 hs with rfl | hs
    · simp [StmtKind.blocks] at hb
    · rcases List.mem_cons.1 hs with rfl | hs
      · exact ⟨body, hbody b hb, next', by simp, .inr (hmakes.literal (List.ne_nil_of_mem hb))⟩
      · obtain ⟨b', hb', s', hs', hwhere⟩ := ih hs
        exact ⟨b', hb', s', by simp [hs'], hwhere⟩

end Expands

/-- Definitions have names in every list of a sound chunk. -/
theorem named_of_hasList {V : Vocabulary} {R : Prop} (h : c.Sound V R) {l : Block}
    (hl : c.HasList l) : Block.Everywhere StmtKind.Named l := by
  have named {kind : StmtKind} (h : V.Stmt c.arena kind) : kind.Named := by
    rintro path func rfl
    exact h.1.1
  induction hl with
  | body => exact Block.Everywhere.mono h.body fun _ => named
  | nested _ hs hb ih => exact ih.of_nested hs hb
  | @literal l s x y b _ _ _ _ hbody _ =>
    obtain ⟨rank, hsound⟩ := h.arena
    obtain ⟨func, hfunc, rfl⟩ := Arena.body?_eq_some.1 hbody
    have hnode := hsound.nodes y
    rw [hfunc] at hnode
    exact Block.Everywhere.mono hnode.2 fun _ => named

/-- **Every list of a chunk expands** to one of the chunk that is left. -/
theorem hasList_expands {V : Vocabulary} {R : Prop} (h : c.Sound V R) (hw : Run Rule c c' w)
    {l : Block} (hl : c.HasList l) : (∃ l', c'.HasList l' ∧ Expands c'.arena l l') ∧
      ∀ x ∈ Block.ids l, x ∈ w.visited := by
  have hlayered : c'.arena.Layered w.level := hw.arena ▸ hw.good.layered
  have below {x y : ExprId} (hy : y ∈ (c'.arena.get x).children) : y ∈ c'.arena.descendants x :=
    hlayered.children_mem_descendants (c'.arena.self_mem_descendants x) y hy
  induction hl with
  | body =>
    obtain ⟨hexpands, hvisited⟩ := expands_of_turns hw (named_of_hasList h .body) hw.body
    exact ⟨⟨c'.body, .body, hexpands⟩, hvisited⟩
  | @nested l s b hl hs hb ih =>
    obtain ⟨⟨l', hl', hexpands⟩, hvisited⟩ := ih
    obtain ⟨b', hb', s', hs', hwhere⟩ := hexpands.nested hs hb
    refine ⟨⟨b', ?_, hb'⟩, fun x hx => hvisited x ?_⟩
    · rcases hwhere with hwhere | ⟨x', hx', y, hy, hbody⟩
      · exact hl'.nested hs' hwhere
      · exact hl'.literal hs' hx' (below hy) hbody
    · exact Block.mem_ids_iff.2 ⟨s, hs, StmtKind.mem_ids.2 (.inr ⟨b, hb, hx⟩)⟩
  | @literal l s x y b hl hs hx hy hbody ih =>
    obtain ⟨⟨l', hl', hexpands⟩, hvisited⟩ := ih
    have hxvisited : x ∈ w.visited :=
      hvisited x (Block.mem_ids_iff.2 ⟨s, hs, StmtKind.mem_ids.2 (.inl hx)⟩)
    -- the literal has been walked, and what became of it is below its root still
    obtain ⟨b', hb', hturns⟩ := hw.literal hxvisited hy hbody
    obtain ⟨hexpands', hvisited'⟩ :=
      expands_of_turns hw (named_of_hasList h (.literal hl hs hx hy hbody)) hturns
    refine ⟨⟨b', ?_, hexpands'⟩, hvisited'⟩
    obtain ⟨s', hs', x', hx', hwhere⟩ := hexpands.roots hs hx
    refine hl'.literal hs' hx' ?_ hb'
    have hxbelow : x ∈ c'.arena.descendants x' := by
      rcases hwhere with rfl | hchild
      · exact c'.arena.self_mem_descendants x
      · exact below hchild
    refine Arena.mem_of_mem_descendants (S := {i | i ∈ c'.arena.descendants x'})
      (fun i hi j hj => ?_) hxbelow hy
    exact hlayered.children_mem_descendants hi j (hw.arena ▸ hw.mem_children hj)

/-- **A run that succeeds** leaves the expansion of every list, and of every
node all but the body that a literal has. -/
theorem expandIntrinsics_expands {V : Vocabulary} {R : Prop} (h : c.Sound V R)
    (hsuccess : expandIntrinsics c = (c', none)) :
    (∀ i : ExprId, i.index < c.arena.size → (c'.arena.get i).hollow = (c.arena.get i).hollow) ∧
      Expands c'.arena c.body c'.body ∧
      ∀ l, c.HasList l → ∃ l', c'.HasList l' ∧ Expands c'.arena l l' := by
  obtain ⟨rank, hsound⟩ := h.arena
  obtain ⟨rfl, hfailure⟩ := Prod.mk.inj hsuccess
  obtain ⟨w, hw⟩ := ruled.run hsound.ranked h.inside () hfailure
  exact ⟨hw.arena ▸ hw.hollow, (expands_of_turns hw (named_of_hasList h .body) hw.body).1,
    fun l hl => (hasList_expands h hw hl).1⟩

end Intrinsic

end LuaSugar
