import Mathlib
import LuaSugar.Proofs.Syntax.Grafted
import LuaSugar.Proofs.Syntax.WellFormed
/-!
# Grafted chunks

Grafting renames the ids of a chunk so that they lead where its nodes now
are. What syntax refers to is listed without regard to renaming
(`Block.ids`, `Expr.refs`), so it can be asked of the renaming that it
reaches every id and none twice: the renamed syntax refers to the renamed
ids, in order and at every depth (`Block.ids_mapIds`, `Expr.refs_mapIds`),
and taking the renaming back gives the syntax that was there
(`Block.mapIds_mapIds`, `Expr.mapIds_mapIds`).

Nothing that the grafted body leads to is the host's, and each of its ids
compares as the one it was (`Arena.graft_keeps_chunk`).
-/

namespace LuaSugar

/-! ## The ids of renamed syntax -/

section Renamed

variable (f g : ExprId → ExprId)

mutual

/-- Conditions are renamed with the arm. -/
theorem IfArm.conditions_mapIds : ∀ arm : IfArm, (arm.mapIds f).conditions = arm.conditions.map f
  | ⟨_, _, _, otherwise⟩ => by
    simp only [IfArm.mapIds, IfArm.conditions, List.map_cons, ElseArm.conditions_mapIds otherwise]

theorem ElseArm.conditions_mapIds : ∀ arm : ElseArm,
    (arm.mapIds f).conditions = arm.conditions.map f
  | .absent => by simp only [ElseArm.mapIds, ElseArm.conditions, List.map_nil]
  | .elseIf arm => by simp only [ElseArm.mapIds, ElseArm.conditions, IfArm.conditions_mapIds arm]
  | .elseBlock _ _ => by simp only [ElseArm.mapIds, ElseArm.conditions, List.map_nil]

end

/-- Roots are renamed with the statement. -/
theorem StmtKind.roots_mapIds (kind : StmtKind) : (kind.mapIds f).roots = kind.roots.map f := by
  cases kind with
  | ifChain arm => simp only [StmtKind.mapIds, StmtKind.roots, IfArm.conditions_mapIds]
  | forNumeric _ _ _ step _ =>
    simp only [StmtKind.mapIds, StmtKind.roots, List.map_cons, Option.toList_map]
  | _ => simp only [StmtKind.mapIds, StmtKind.roots, List.map_cons, List.map_nil, List.map_append]

mutual

/-- What is nested in a statement is renamed at every depth. -/
theorem StmtKind.nested_mapIds (kind : StmtKind) :
    (kind.mapIds f).nested = kind.nested.map (Stmt.mapIds f) := by
  cases kind with
  | localFunction _ func | function _ func =>
    simp only [StmtKind.mapIds, StmtKind.nested, FuncBody.nested_mapIds func]
  | doBlock body | whileLoop _ body | repeatLoop body _ | forNumeric _ _ _ _ body
  | forGeneric _ _ body =>
    simp only [StmtKind.mapIds, StmtKind.nested, Block.deep_mapIds body]
  | ifChain arm => simp only [StmtKind.mapIds, StmtKind.nested, IfArm.nested_mapIds arm]
  | _ => simp only [StmtKind.mapIds, StmtKind.nested, List.map_nil]
termination_by structural kind

theorem FuncBody.nested_mapIds : ∀ func : FuncBody,
    (func.mapIds f).nested = func.nested.map (Stmt.mapIds f)
  | ⟨_, _, body⟩ => by simp only [FuncBody.mapIds, FuncBody.nested, Block.deep_mapIds body]
termination_by structural func => func

theorem IfArm.nested_mapIds : ∀ arm : IfArm, (arm.mapIds f).nested = arm.nested.map (Stmt.mapIds f)
  | ⟨_, body, _, otherwise⟩ => by
    simp only [IfArm.mapIds, IfArm.nested, Block.deep_mapIds body, ElseArm.nested_mapIds otherwise,
      List.map_append]
termination_by structural arm => arm

theorem ElseArm.nested_mapIds : ∀ arm : ElseArm,
    (arm.mapIds f).nested = arm.nested.map (Stmt.mapIds f)
  | .absent => by simp only [ElseArm.mapIds, ElseArm.nested, List.map_nil]
  | .elseIf arm => by simp only [ElseArm.mapIds, ElseArm.nested, IfArm.nested_mapIds arm]
  | .elseBlock body _ => by simp only [ElseArm.mapIds, ElseArm.nested, Block.deep_mapIds body]
termination_by structural arm => arm

/-- Renaming reaches the statements of every depth. -/
theorem Block.deep_mapIds : ∀ body : List Stmt,
    Block.deep (Block.mapIds f body) = (Block.deep body).map (Stmt.mapIds f)
  | [] => by simp only [Block.mapIds, Block.deep, List.map_nil]
  | ⟨kind, _⟩ :: rest => by
    simp only [Block.mapIds, Stmt.mapIds, Block.deep_cons, List.map_cons, List.map_append,
      StmtKind.nested_mapIds kind, Block.deep_mapIds rest]
termination_by structural body => body

end

/-- **Renamed statements hold the renamed ids**, each once. -/
theorem Block.ids_mapIds (body : Block) : Block.ids (Block.mapIds f body) = (Block.ids body).map f := by
  rw [Block.ids, Block.ids, Block.deep_mapIds, List.flatMap_map, List.map_flatMap]
  refine List.flatMap_congr fun s _ => ?_
  obtain ⟨kind, _⟩ := s
  exact StmtKind.roots_mapIds f kind

/-- Children are renamed with the node. -/
theorem Expr.children_mapIds (e : Expr) : (e.mapIds f).children = e.children.map f := by
  rcases e with x | x
  · cases x with
    | table t =>
      obtain ⟨entries⟩ := t
      simp only [Expr.mapIds, Expr.children, List.flatMap_map, List.map_flatMap]
      refine List.flatMap_congr fun entry _ => ?_
      rcases entry with ⟨_ | _, _⟩ <;> rfl
    | element e => cases hc : e.children <;> simp [Expr.mapIds, Expr.children, hc]
    | _ => rfl
  · cases x <;> rfl

/-- **A renamed node refers to the renamed ids**, each once. -/
theorem Expr.refs_mapIds (e : Expr) : (e.mapIds f).refs = e.refs.map f := by
  have hchildren := Expr.children_mapIds f e
  rcases e with x | x
  · cases x with
    | func func =>
      obtain ⟨_, _, body⟩ := func
      exact Block.ids_mapIds f body
    | table _ | element _ =>
      simp only [Expr.mapIds] at hchildren
      simp only [Expr.refs, Expr.mapIds, hchildren, List.append_nil]
    | _ => rfl
  · cases x <;> simp [Expr.refs, Expr.mapIds, Expr.children]

/-! ## Renaming twice -/

mutual

/-- **Renaming twice** is renaming once, by both. -/
theorem StmtKind.mapIds_mapIds (kind : StmtKind) :
    (kind.mapIds f).mapIds g = kind.mapIds (g ∘ f) := by
  cases kind with
  | localFunction _ func | function _ func =>
    simp only [StmtKind.mapIds, FuncBody.mapIds_mapIds func]
  | doBlock body | whileLoop _ body | repeatLoop body _ =>
    simp only [StmtKind.mapIds, Block.mapIds_mapIds body, Function.comp_apply]
  | ifChain arm => simp only [StmtKind.mapIds, IfArm.mapIds_mapIds arm]
  | forNumeric _ _ _ step body =>
    simp only [StmtKind.mapIds, Block.mapIds_mapIds body, Option.map_map, Function.comp_apply]
  | forGeneric _ _ body =>
    simp only [StmtKind.mapIds, Block.mapIds_mapIds body, List.map_map]
  | _ => simp only [StmtKind.mapIds, List.map_map, Function.comp_apply]
termination_by structural kind

theorem FuncBody.mapIds_mapIds : ∀ func : FuncBody,
    (func.mapIds f).mapIds g = func.mapIds (g ∘ f)
  | ⟨_, _, body⟩ => by simp only [FuncBody.mapIds, Block.mapIds_mapIds body]
termination_by structural func => func

theorem IfArm.mapIds_mapIds : ∀ arm : IfArm, (arm.mapIds f).mapIds g = arm.mapIds (g ∘ f)
  | ⟨_, body, _, otherwise⟩ => by
    simp only [IfArm.mapIds, Block.mapIds_mapIds body, ElseArm.mapIds_mapIds otherwise,
      Function.comp_apply]
termination_by structural arm => arm

theorem ElseArm.mapIds_mapIds : ∀ arm : ElseArm, (arm.mapIds f).mapIds g = arm.mapIds (g ∘ f)
  | .absent => by simp only [ElseArm.mapIds]
  | .elseIf arm => by simp only [ElseArm.mapIds, IfArm.mapIds_mapIds arm]
  | .elseBlock body _ => by simp only [ElseArm.mapIds, Block.mapIds_mapIds body]
termination_by structural arm => arm

theorem Block.mapIds_mapIds : ∀ body : List Stmt,
    Block.mapIds g (Block.mapIds f body) = Block.mapIds (g ∘ f) body
  | [] => by simp only [Block.mapIds]
  | ⟨kind, _⟩ :: rest => by
    simp only [Block.mapIds, Stmt.mapIds, StmtKind.mapIds_mapIds kind, Block.mapIds_mapIds rest]
termination_by structural body => body

end

/-- The same for nodes. -/
theorem Expr.mapIds_mapIds (e : Expr) : (e.mapIds f).mapIds g = e.mapIds (g ∘ f) := by
  rcases e with x | x
  · cases x with
    | table t =>
      obtain ⟨entries⟩ := t
      simp only [Expr.mapIds, List.map_map, Expr.atom.injEq, Atom.table.injEq, Table.mk.injEq]
      refine List.map_congr_left fun entry _ => ?_
      rcases entry with ⟨_ | _, _⟩ <;> rfl
    | element e =>
      simp only [Expr.mapIds, List.map_map, Option.map_map, Expr.atom.injEq, Atom.element.injEq]
      refine congrArg₂ _ ?_ ?_
      · exact List.map_congr_left fun entry _ => rfl
      · cases e.children <;> simp
    | func func => simp only [Expr.mapIds, FuncBody.mapIds_mapIds]
    | _ => rfl
  · cases x <;> simp [Expr.mapIds]

end Renamed

/-! ## Where the nodes are -/

namespace Arena

variable {a b : Arena} {i j : ExprId}

/-- The id of a node before it moved behind `offset` others. -/
def unshift (offset : ℕ) (id : ExprId) : ExprId := ⟨id.index - offset⟩

/-- A shift can be taken back. -/
theorem unshift_comp_shift (offset : ℕ) : unshift offset ∘ shift offset = id :=
  funext fun i => congrArg ExprId.mk (Nat.add_sub_cancel i.index offset)

/-- So no two ids are shifted to one. -/
theorem shift_injective (offset : ℕ) : Function.Injective (shift offset) :=
  Function.LeftInverse.injective (congrFun (unshift_comp_shift offset))

/-- Moved nodes refer to each other as they did before. -/
theorem refs_behind_shift (a b : Arena) (i : ExprId) :
    ((a.behind b).get (shift a.size i)).refs = (b.get i).refs.map (shift a.size) := by
  by_cases hi : i.index < b.size
  · rw [get_behind_shift a hi, Expr.refs_mapIds]
  · have hout : (a.behind b).size ≤ (shift a.size i).index := by
      rw [size_behind]
      show _ ≤ i.index + a.size
      omega
    rw [get_of_size_le hout, get_of_size_le (Nat.le_of_not_lt hi)]
    rfl

/-- A grafted node refers to what it referred to, shifted. -/
theorem refers_behind_shift :
    (a.behind b).Refers (shift a.size i) j ↔ ∃ k, b.Refers i k ∧ shift a.size k = j := by
  unfold Refers
  rw [refs_behind_shift, List.mem_map]

/-- Chains of moved ids are the moved chains. -/
theorem transGen_behind_shift (h : Relation.TransGen (a.behind b).Refers (shift a.size i) j) :
    ∃ k, Relation.TransGen b.Refers i k ∧ shift a.size k = j := by
  induction h with
  | single hij =>
    obtain ⟨k, hk, rfl⟩ := refers_behind_shift.1 hij
    exact ⟨k, .single hk, rfl⟩
  | tail _ hjk ih =>
    obtain ⟨k, hk, rfl⟩ := ih
    obtain ⟨l, hl, rfl⟩ := refers_behind_shift.1 hjk
    exact ⟨l, hk.tail hl, rfl⟩

end Arena

/-! ## Grafting -/

namespace Arena

/-- A chunk as it stands in an arena that it was grafted on. -/
def grafted (a : Arena) (c : Chunk) : Chunk := ⟨(a.graft c).2, (a.graft c).1⟩

variable {a : Arena} {c : Chunk} {i : ExprId}

/-- A grafted chunk leads to the moved ids that it led to. -/
theorem reaches_grafted (h : (a.grafted c).Reaches i) : ∃ k, c.Reaches k ∧ shift a.size k = i := by
  obtain ⟨y, hy, hyi⟩ := h
  rw [grafted, graft, Block.ids_mapIds] at hy
  obtain ⟨x, hx, rfl⟩ := List.mem_map.1 hy
  rcases Relation.reflTransGen_iff_eq_or_transGen.1 hyi with rfl | hxi
  · exact ⟨x, c.reaches_of_mem_body hx, rfl⟩
  · obtain ⟨k, hk, rfl⟩ := transGen_behind_shift hxi
    exact ⟨k, ⟨x, hx, hk.to_reflTransGen⟩, rfl⟩

/-- Grafting a well-formed chunk gives a well-formed one, on any host. -/
theorem grafted_wellFormed (h : c.WellFormed) (a : Arena) : (a.grafted c).WellFormed := by
  constructor
  · intro i hi
    obtain ⟨k, hk, rfl⟩ := reaches_grafted hi
    have hlt := h.inside k hk
    show k.index + a.size < (a.behind c.arena).size
    rw [size_behind]
    omega
  · intro i hi hcycle
    obtain ⟨k, hk, rfl⟩ := reaches_grafted hi
    obtain ⟨l, hl, heq⟩ := transGen_behind_shift hcycle
    obtain rfl := shift_injective _ heq
    exact h.acyclic l hk hl

/-- Each moved id compares as the id it was. -/
theorem same_grafted (h : c.WellFormed) (a : Arena) : (a.grafted c).same c := by
  have hids {i : ExprId} (hi : c.Reaches i) :
      (a.behind c.arena).sameWithin c.arena ((a.behind c.arena).size + 1) (shift a.size i) i := by
    refine h.induction_depth
      (P := fun n i => (a.behind c.arena).sameWithin c.arena n (shift a.size i) i)
      (fun n i hi ih => ?_) (by rw [size_behind]; omega) hi
    show ((a.behind c.arena).sameWithin c.arena n).expr _ _ = true
    rw [get_behind_shift a (h.inside i hi), Comparison.expr_mapIds _ _ fun _ _ => rfl]
    exact Comparison.expr_self _ ih
  show ((a.behind c.arena).sameWithin c.arena _).block (Block.mapIds (shift a.size) c.body) _ = true
  rw [Comparison.block_mapIds _ fun _ _ => rfl]
  exact Comparison.block_self _ fun x hx => hids (c.reaches_of_mem_body hx)

/-- What grafting a chunk on a host leaves: the host's nodes as they were,
behind them the chunk's, and the program that the chunk is. -/
structure KeepsGrafted (a : Arena) (c d : Chunk) : Prop where
  host : ∀ i : ExprId, i.index < a.size → d.arena.get i = a.get i
  size : d.arena.size = a.size + c.arena.size
  /-- Every id in the body is one of the chunk's, moved, in the same place. -/
  ids : Block.ids d.body = (Block.ids c.body).map (shift a.size)
  /-- So is every id in the moved nodes. -/
  refs : ∀ i : ExprId, i.index < c.arena.size →
    (d.arena.get (shift a.size i)).refs = (c.arena.get i).refs.map (shift a.size)
  /-- Nothing but the ids has changed, in the body … -/
  body : Block.mapIds (unshift a.size) d.body = c.body
  /-- … and in the nodes. -/
  nodes : ∀ i : ExprId, i.index < c.arena.size →
    (d.arena.get (shift a.size i)).mapIds (unshift a.size) = c.arena.get i
  /-- What the body leads to are moved nodes, never the host's. -/
  apart : ∀ i, d.Reaches i → a.size ≤ i.index ∧ i.index < d.arena.size
  same : d.same c

/-- **Grafting keeps the program.** -/
theorem graft_keeps_chunk (a : Arena) (c : Chunk) (h : c.WellFormed) :
    a.KeepsGrafted c (a.grafted c) := by
  refine ⟨fun i hi => get_behind_of_lt _ hi, size_behind _ _, Block.ids_mapIds _ _,
    fun i _ => refs_behind_shift _ _ _, ?_, fun i hi => ?_, fun i hi => ?_, same_grafted h a⟩
  · show Block.mapIds _ (Block.mapIds _ c.body) = c.body
    rw [Block.mapIds_mapIds, unshift_comp_shift, Block.mapIds_id]
  · show ((a.behind c.arena).get _).mapIds _ = c.arena.get i
    rw [get_behind_shift a hi, Expr.mapIds_mapIds, unshift_comp_shift, Expr.mapIds_id]
  · refine ⟨?_, (grafted_wellFormed h a).inside i hi⟩
    obtain ⟨k, -, rfl⟩ := reaches_grafted hi
    exact Nat.le_add_left _ _

/-- A function whose body returns, in the second arm of an `if`, a table
that holds one node as a key and as an element's child. -/
def nestedLiteral : Chunk :=
  ⟨⟨#[.ofName "x", .atom (.element ⟨"E", [("p", ⟨0⟩)], some [⟨0⟩]⟩),
    .atom (.table ⟨[(.expr ⟨0⟩, ⟨1⟩), (.positional 1, ⟨0⟩)]⟩),
    .atom (.func ⟨["x"], false, [⟨.ifChain ⟨⟨0⟩, [], 1,
      .elseIf ⟨⟨0⟩, [⟨.ret [⟨2⟩], 2⟩], 2, .absent⟩⟩, 1⟩]⟩)]⟩,
    [⟨.doBlock [⟨.localDecl ["f"] [⟨3⟩], 1⟩], 1⟩]⟩

/-- A literal within a literal is grafted behind a node of the host. -/
theorem graft_keeps_chunk_nested :
    nestedLiteral.WellFormed ∧
      KeepsGrafted ⟨#[.ofName "host"]⟩ nestedLiteral (grafted ⟨#[.ofName "host"]⟩ nestedLiteral) ∧
      Block.ids (grafted ⟨#[.ofName "host"]⟩ nestedLiteral).body = [⟨4⟩] ∧
      ((grafted ⟨#[.ofName "host"]⟩ nestedLiteral).arena.get ⟨4⟩).refs = [⟨1⟩, ⟨1⟩, ⟨3⟩] := by
  have hformed : nestedLiteral.WellFormed := .of_lower (by decide +kernel) (by decide +kernel)
  exact ⟨hformed, graft_keeps_chunk _ _ hformed, by decide +kernel, by decide +kernel⟩

end Arena

end LuaSugar
