import Mathlib
import LuaSugar.Syntax.Same
import LuaSugar.Proofs.Syntax.Rank
/-!
# Comparing renamed syntax

A comparison of a statement or a node depends on how the ids it refers to
compare and on nothing else, so if those of one arena were renamed to ids
of another, comparing there is comparing here (`Arena.Renames`). Without
renaming it follows that in a ranked arena the depth to which ids are
followed makes no difference, once it exceeds the arena's size.

A statement or a node also compares as the same as itself, and so every
ranked chunk is the same as itself, and as what it becomes when its ids are
renamed (`Chunk.same_self`, `Renames.same_eq`).
-/

namespace LuaSugar

/-! ## Renaming -/

mutual

/-- A renaming to the same ids changes nothing. -/
theorem Stmt.mapIds_id : ∀ s : Stmt, s.mapIds id = s
  | ⟨kind, line⟩ => by simp only [Stmt.mapIds, StmtKind.mapIds_id kind]

theorem StmtKind.mapIds_id (kind : StmtKind) : kind.mapIds id = kind := by
  cases kind with
  | localFunction _ func | function _ func => simp only [StmtKind.mapIds, FuncBody.mapIds_id func]
  | doBlock body => simp only [StmtKind.mapIds, Block.mapIds_id body]
  | whileLoop _ body | repeatLoop body _ => simp only [StmtKind.mapIds, Block.mapIds_id body, id]
  | ifChain arm => simp only [StmtKind.mapIds, IfArm.mapIds_id arm]
  | forNumeric _ _ _ _ body | forGeneric _ _ body =>
    simp only [StmtKind.mapIds, Block.mapIds_id body, id, List.map_id, Option.map_id]
  | _ => simp only [StmtKind.mapIds, List.map_id, id]

theorem FuncBody.mapIds_id : ∀ func : FuncBody, func.mapIds id = func
  | ⟨_, _, body⟩ => by simp only [FuncBody.mapIds, Block.mapIds_id body]

theorem IfArm.mapIds_id : ∀ arm : IfArm, arm.mapIds id = arm
  | ⟨_, body, _, otherwise⟩ => by
    simp only [IfArm.mapIds, Block.mapIds_id body, ElseArm.mapIds_id otherwise, id]

theorem ElseArm.mapIds_id : ∀ arm : ElseArm, arm.mapIds id = arm
  | .absent => by simp only [ElseArm.mapIds]
  | .elseIf arm => by simp only [ElseArm.mapIds, IfArm.mapIds_id arm]
  | .elseBlock body _ => by simp only [ElseArm.mapIds, Block.mapIds_id body]

theorem Block.mapIds_id : ∀ body : List Stmt, Block.mapIds id body = body
  | [] => by simp only [Block.mapIds]
  | s :: rest => by simp only [Block.mapIds, Stmt.mapIds_id s, Block.mapIds_id rest]

end

/-- A renamed table constructor has the renamed entries. -/
theorem Expr.exists_mapIds_table (f : ExprId → ExprId) (t : Table) :
    ∃ t' : Table, (Expr.atom (.table t)).mapIds f = .atom (.table t') ∧
      t'.positional = t.positional.map f ∧
      t'.keyed = t.keyed.map fun (key, value) => (f key, f value) := by
  refine ⟨_, rfl, ?_, ?_⟩
  · rw [Table.positional, Table.positional, List.filterMap_map, List.map_filterMap]
    refine List.filterMap_congr fun entry _ => ?_
    rcases entry with ⟨_ | _, _⟩ <;> rfl
  · rw [Table.keyed, Table.keyed, List.filterMap_map, List.map_filterMap]
    refine List.filterMap_congr fun entry _ => ?_
    rcases entry with ⟨_ | _, _⟩ <;> rfl

/-- A node renamed to the same ids is as it was. -/
theorem Expr.mapIds_id (e : Expr) : e.mapIds id = e := by
  cases e with
  | arith x => cases x <;> simp [Expr.mapIds]
  | atom x =>
    cases x with
    | table t =>
      obtain ⟨entries⟩ := t
      simp only [Expr.mapIds, Expr.atom.injEq, Atom.table.injEq, Table.mk.injEq]
      refine (List.map_congr_left fun entry _ => ?_).trans (List.map_id entries)
      rcases entry with ⟨_ | _, _⟩ <;> rfl
    | element e => simp [Expr.mapIds]
    | func func => simp only [Expr.mapIds, FuncBody.mapIds_id]
    | _ => rfl

namespace Table

variable {t : Table}

/-- A keyed entry has two children. -/
theorem mem_children_of_keyed {entry : ExprId × ExprId} (h : entry ∈ t.keyed) :
    entry.1 ∈ (Expr.atom (.table t)).children ∧ entry.2 ∈ (Expr.atom (.table t)).children := by
  obtain ⟨⟨key, value⟩, he, hkey⟩ := List.mem_filterMap.1 h
  cases key with
  | positional index => simp at hkey
  | expr key =>
    obtain rfl := Option.some.inj hkey
    exact ⟨List.mem_flatMap.2 ⟨_, he, by simp⟩, List.mem_flatMap.2 ⟨_, he, by simp⟩⟩

theorem positional_subset (t : Table) : t.positional ⊆ (Expr.atom (.table t)).children := by
  intro x hx
  obtain ⟨⟨key, value⟩, he, hkey⟩ := List.mem_filterMap.1 hx
  cases key with
  | positional index =>
    obtain rfl := Option.some.inj hkey
    exact List.mem_flatMap.2 ⟨_, he, List.mem_singleton_self _⟩
  | expr key => simp at hkey

end Table

/-! ## Comparing what was renamed -/

namespace Comparison

variable {f : ExprId → ExprId} {e e' : Comparison}

/-- A comparison of the new name of an id of a list, on the left, is
another of the id. -/
def Agree (f : ExprId → ExprId) (e e' : Comparison) (ids : List ExprId) : Prop :=
  ∀ x ∈ ids, e (f x) = e' x

/-- Comparisons that agree on some ids agree on fewer. -/
theorem Agree.mono {ids ids' : List ExprId} (h : Agree f e e' ids') (hs : ids ⊆ ids') :
    Agree f e e' ids :=
  fun x hx => h x (hs hx)

theorem isEqv_iff_forall₂ {α : Type} {r : α → α → Bool} : ∀ {xs ys : List α},
    xs.isEqv ys r ↔ List.Forall₂ (fun x y => r x y) xs ys
  | [], ys => by cases ys <;> simp [List.isEqv]
  | x :: xs, ys => by
    cases ys with
    | nil => simp [List.isEqv]
    | cons y ys => rw [List.isEqv, Bool.and_eq_true, List.forall₂_cons, isEqv_iff_forall₂]

/-- Lists are compared item by item, so a change of items that no comparison sees is not seen. -/
theorem isEqv_map {α : Type} {g : α → α} {r r' : α → α → Bool} : ∀ {l : List α},
    (∀ x ∈ l, ∀ y, r (g x) y = r' x y) →
    ∀ other : List α, (l.map g).isEqv other r = l.isEqv other r'
  | [], _, [] | [], _, _ :: _ | _ :: _, _, [] => rfl
  | x :: l, h, y :: other => by
    rw [List.map_cons, List.isEqv, List.isEqv, h x List.mem_cons_self,
      isEqv_map (fun z hz => h z (List.mem_cons_of_mem _ hz))]

/-- Ids that agree are compared alike in lists. -/
theorem exprs_map {ids : List ExprId} (h : Agree f e e' ids) (other : List ExprId) :
    e.exprs (ids.map f) other = e'.exprs ids other :=
  isEqv_map (fun x hx y => by rw [h x hx]) other

mutual

/-- **Comparing a statement** reads the ids that it holds and no others. -/
theorem stmtKind_mapIds (kind : StmtKind) (h : Agree f e e' kind.ids) :
    ∀ other, e.stmtKind (kind.mapIds f) other = e'.stmtKind kind other := by
  intro other
  rw [StmtKind.ids_eq] at h
  have hroots : Agree f e e' kind.roots := h.mono (List.subset_append_left _ _)
  have hblocks : ∀ b ∈ kind.blocks, Agree f e e' (Block.ids b) := fun b hb =>
    h.mono fun x hx => List.mem_append_right _ (List.mem_flatMap.2 ⟨b, hb, hx⟩)
  have hexprs (ids : List ExprId) (hs : ids ⊆ kind.roots) (other : List ExprId) :
      e.exprs (ids.map f) other = e'.exprs ids other :=
    exprs_map (hroots.mono hs) other
  -- both sides take the same branch at every `other`, since a renaming keeps
  -- the kind
  match kind with
  | .ret values =>
    cases other <;> simp only [StmtKind.mapIds, stmtKind, hexprs values (List.Subset.refl _)]
  | .localFunction name func =>
    have hfunc := funcBody_mapIds func (hblocks _ (List.mem_singleton_self _))
    cases other <;> simp only [StmtKind.mapIds, stmtKind, hfunc]
  | .function path func =>
    have hfunc := funcBody_mapIds func (hblocks _ (List.mem_singleton_self _))
    cases other <;> simp only [StmtKind.mapIds, stmtKind, hfunc]
  | .localDecl names values =>
    cases other <;> simp only [StmtKind.mapIds, stmtKind, hexprs values (List.Subset.refl _)]
  | .compoundAssign target op value =>
    have htarget := hroots target (by simp [StmtKind.roots])
    have hvalue := hroots value (by simp [StmtKind.roots])
    cases other <;> simp only [StmtKind.mapIds, stmtKind, htarget, hvalue]
  | .assign targets values =>
    have htargets := hexprs targets (List.subset_append_left _ _)
    have hvalues := hexprs values (List.subset_append_right _ _)
    cases other <;> simp only [StmtKind.mapIds, stmtKind, htargets, hvalues]
  | .call c =>
    have hcall := hroots c (List.mem_singleton_self _)
    cases other <;> simp only [StmtKind.mapIds, stmtKind, hcall]
  | .break_ => cases other <;> simp only [StmtKind.mapIds, stmtKind]
  | .doBlock body =>
    have hbody := block_mapIds body (hblocks _ (List.mem_singleton_self _))
    cases other <;> simp only [StmtKind.mapIds, stmtKind, hbody]
  | .whileLoop condition body | .repeatLoop body condition =>
    have hcondition := hroots condition (List.mem_singleton_self _)
    have hbody := block_mapIds body (hblocks _ (List.mem_singleton_self _))
    cases other <;> simp only [StmtKind.mapIds, stmtKind, hcondition, hbody]
  | .ifChain arm =>
    have harm := ifArm_mapIds arm hroots hblocks
    cases other <;> simp only [StmtKind.mapIds, stmtKind, harm]
  | .forNumeric var start limit step body =>
    have hstart := hroots start (by simp [StmtKind.roots])
    have hlimit := hroots limit (by simp [StmtKind.roots])
    have hstep := hexprs step.toList (fun x hx => by simp [StmtKind.roots, hx])
    have hbody := block_mapIds body (hblocks _ (List.mem_singleton_self _))
    rw [← Option.toList_map] at hstep
    cases other <;> simp only [StmtKind.mapIds, stmtKind, hstart, hlimit, hstep, hbody]
  | .forGeneric names iterators body =>
    have hiterators := hexprs iterators (List.Subset.refl _)
    have hbody := block_mapIds body (hblocks _ (List.mem_singleton_self _))
    cases other <;> simp only [StmtKind.mapIds, stmtKind, hiterators, hbody]
  | .importFrom binding source =>
    have hsource := hroots source (List.mem_singleton_self _)
    cases other <;> simp only [StmtKind.mapIds, stmtKind, hsource]
  | .intrinsic expr args =>
    have hexpr := hroots expr List.mem_cons_self
    have hargs := hexprs args (List.subset_cons_self _ _)
    cases other <;> simp only [StmtKind.mapIds, stmtKind, hexpr, hargs]
  | .ignore => cases other <;> simp only [StmtKind.mapIds, stmtKind]
termination_by structural kind

theorem funcBody_mapIds : ∀ func : FuncBody, Agree f e e' (Block.ids func.body) →
    ∀ other, e.funcBody (func.mapIds f) other = e'.funcBody func other
  | ⟨_, _, body⟩, h, ⟨_, _, other⟩ => by
    simp only [FuncBody.mapIds, funcBody, block_mapIds body h other]
termination_by structural func => func

/-- An arm renamed in its conditions and in its lists. -/
theorem ifArm_mapIds : ∀ arm : IfArm, Agree f e e' arm.conditions →
    (∀ b ∈ arm.bodies, Agree f e e' (Block.ids b)) →
    ∀ other, e.ifArm (arm.mapIds f) other = e'.ifArm arm other
  | ⟨condition, body, _, otherwise⟩, hc, hb, ⟨_, other, _, _⟩ => by
    have hotherwise := elseArm_mapIds otherwise (hc.mono (List.subset_cons_self _ _))
      fun b hm => hb b (List.mem_cons_of_mem _ hm)
    simp only [IfArm.mapIds, ifArm, hc condition List.mem_cons_self,
      block_mapIds body (hb body List.mem_cons_self) other, hotherwise]
termination_by structural arm => arm

theorem elseArm_mapIds : ∀ arm : ElseArm, Agree f e e' arm.conditions →
    (∀ b ∈ arm.bodies, Agree f e e' (Block.ids b)) →
    ∀ other, e.elseArm (arm.mapIds f) other = e'.elseArm arm other
  | .absent, _, _, other => by cases other <;> simp only [ElseArm.mapIds, elseArm]
  | .elseIf arm, hc, hb, other => by
    cases other <;> simp only [ElseArm.mapIds, elseArm, ifArm_mapIds arm hc hb]
  | .elseBlock body _, _, hb, other => by
    cases other <;>
      simp only [ElseArm.mapIds, elseArm, block_mapIds body (hb _ (List.mem_singleton_self _))]
termination_by structural arm => arm

/-- **A renamed list** compares as the list did, if its ids do. By the
recursion of the comparison. -/
theorem block_mapIds : ∀ body : List Stmt, Agree f e e' (Block.ids body) →
    ∀ other, e.block (Block.mapIds f body) other = e'.block body other
  | [], _, other => by simp only [Block.mapIds, block]
  | ⟨kind, line⟩ :: rest, h, other => by
    rw [Block.ids_cons] at h
    have hkind := stmtKind_mapIds kind (h.mono (List.subset_append_left _ _))
    have hrest := block_mapIds rest (h.mono (List.subset_append_right _ _))
    have hignored : Stmt.isIgnored ⟨kind.mapIds f, line⟩ = Stmt.isIgnored ⟨kind, line⟩ := by
      cases kind <;> simp only [StmtKind.mapIds, Stmt.isIgnored]
    simp only [Block.mapIds, Stmt.mapIds, block, hkind, hrest, hignored]
termination_by structural body => body

end

/-- A table compares by its positional and keyed entries, in whatever order they stood. -/
theorem table_congr {t t' : Table} (other : Table) (hpositional : t'.positional = t.positional.map f)
    (hkeyed : t'.keyed = t.keyed.map fun (key, value) => (f key, f value))
    (h : Agree f e e' (Expr.atom (.table t)).children) : e.table t' other = e'.table t other := by
  unfold table
  rw [hpositional, hkeyed, exprs_map (h.mono t.positional_subset)]
  congr 1
  refine isEqv_map (fun entry hentry other => ?_) _
  show (e (f entry.1) other.1 && e (f entry.2) other.2) =
    (e' entry.1 other.1 && e' entry.2 other.2)
  obtain ⟨hkey, hvalue⟩ := Table.mem_children_of_keyed hentry
  rw [h _ hkey, h _ hvalue]

/-- Properties are compared by their names and the ids of their values. -/
theorem properties_map {properties : List (String × ExprId)}
    (h : ∀ entry ∈ properties, e (f entry.2) = e' entry.2) (other : List (String × ExprId)) :
    ((properties.map fun (name, value) => (name, f value)).isEqv other
      fun (n, v) (n', v') => n == n' && e v v') =
    properties.isEqv other fun (n, v) (n', v') => n == n' && e' v v' := by
  refine isEqv_map (fun entry hentry other => ?_) _
  show (entry.1 == other.1 && e (f entry.2) other.2) = (entry.1 == other.1 && e' entry.2 other.2)
  rw [h entry hentry]

theorem element_mapIds (t : Element) (other : Expr)
    (h : Agree f e e' (Expr.atom (.element t)).children) :
    e.expr ((Expr.atom (.element t)).mapIds f) other = e'.expr (.atom (.element t)) other := by
  rcases other with other | other
  · cases other with
    | element other =>
      have hproperties := properties_map (fun entry hentry =>
        h entry.2 (List.mem_append_left _ (List.mem_map_of_mem hentry))) other.properties
      simp only [Expr.mapIds, expr, element, hproperties]
      cases ht : t.children with
      | none => cases other.children <;> rfl
      | some children =>
        have hchildren : Agree f e e' children :=
          h.mono fun x hx => List.mem_append_right _ (by simpa [ht] using hx)
        cases other.children with
        | none => rfl
        | some others => simp only [Option.map_some, exprs_map hchildren]
    | _ => rfl
  · rfl

/-- An operation renamed in its operands. -/
theorem arith_mapIds (x : Arith) (y : Expr) (h : Agree f e e' (Expr.arith x).children) :
    e.expr ((Expr.arith x).mapIds f) y = e'.expr (.arith x) y := by
  rcases y with y | y
  · cases x <;> rfl
  cases x with
  | binary op left right =>
    have hleft := h left (by simp [Expr.children])
    have hright := h right (by simp [Expr.children])
    cases y <;> simp only [Expr.mapIds, expr, hleft, hright]
  | unary op operand =>
    have hoperand := h operand (by simp [Expr.children])
    cases y <;> simp only [Expr.mapIds, expr, hoperand]
  | member object name =>
    have hobject := h object (by simp [Expr.children])
    cases y <;> simp only [Expr.mapIds, expr, hobject]
  | subscript object key =>
    have hobject := h object (by simp [Expr.children])
    have hkey := h key (by simp [Expr.children])
    cases y <;> simp only [Expr.mapIds, expr, hobject, hkey]
  | call target method args =>
    have htarget := h target (by simp [Expr.children])
    have hargs := exprs_map (show Agree f e e' args from h.mono (by simp [Expr.children]))
    cases y <;> simp only [Expr.mapIds, expr, htarget, hargs]
  | assign op target value =>
    have htarget := h target (by simp [Expr.children])
    have hvalue := h value (by simp [Expr.children])
    cases y <;> simp only [Expr.mapIds, expr, htarget, hvalue]

/-- **Comparing a node** reads what the node refers to and nothing else,
on its side. -/
theorem expr_mapIds (x y : Expr) (h : Agree f e e' x.refs) :
    e.expr (x.mapIds f) y = e'.expr x y := by
  have hchildren : Agree f e e' x.children := h.mono (List.subset_append_left _ _)
  rcases x with x | x
  · cases x with
    | table t =>
      obtain ⟨t', ht, hpositional, hkeyed⟩ := Expr.exists_mapIds_table f t
      rw [ht]
      rcases y with y | y
      · cases y <;> simp only [expr, table_congr _ hpositional hkeyed hchildren]
      · rfl
    | element t => exact element_mapIds t y hchildren
    | func func =>
      have hfunc := funcBody_mapIds func (h.mono (List.subset_append_right _ _))
      rcases y with y | y
      · cases y <;> simp only [Expr.mapIds, expr, hfunc]
      · rfl
    | _ =>
      rcases y with y | y
      · cases y <;> rfl
      · rfl
  · exact arith_mapIds x y hchildren

/-- A node is compared by the ids in it. -/
theorem expr_congr (x y : Expr) (h : ∀ i ∈ x.refs, e i = e' i) : e.expr x y = e'.expr x y := by
  have hsame : e.expr (x.mapIds id) y = e'.expr x y := expr_mapIds x y h
  rwa [Expr.mapIds_id] at hsame

/-! ## Comparing with itself -/

/-- A list compares with itself if its items do. -/
theorem isEqv_self {α : Type} {r : α → α → Bool} : ∀ {l : List α}, (∀ x ∈ l, r x x) →
    l.isEqv l r
  | [], _ => rfl
  | x :: l, h => by
    rw [List.isEqv, h x List.mem_cons_self,
      isEqv_self fun z hz => h z (List.mem_cons_of_mem _ hz)]
    rfl

variable {c : Comparison}

/-- Ids of a list are the same as themselves. -/
def Self (c : Comparison) (ids : List ExprId) : Prop := ∀ x ∈ ids, c x x

theorem Self.mono {ids ids' : List ExprId} (h : Self c ids') (hs : ids ⊆ ids') : Self c ids :=
  fun x hx => h x (hs hx)

theorem Self.exprs {ids : List ExprId} (h : Self c ids) : c.exprs ids ids := isEqv_self h

/-- A keyed entry compares with itself by key and by value. -/
theorem keyed_self {keyed : List (ExprId × ExprId)}
    (h : ∀ entry ∈ keyed, c entry.1 entry.1 ∧ c entry.2 entry.2) :
    keyed.isEqv keyed fun (k, v) (k', v') => c k k' && c v v' :=
  isEqv_self fun entry hentry => Bool.and_eq_true_iff.2 (h entry hentry)

theorem properties_self {properties : List (String × ExprId)}
    (h : ∀ entry ∈ properties, c entry.2 entry.2) :
    properties.isEqv properties fun (n, v) (n', v') => n == n' && c v v' :=
  isEqv_self fun entry hentry => Bool.and_eq_true_iff.2 ⟨beq_self_eq_true _, h entry hentry⟩

/-- Ignored statements on the right make no difference. -/
theorem block_cons_of_isIgnored {s : Stmt} (hs : s.isIgnored) (other : List Stmt) :
    ∀ body : List Stmt, c.block body (s :: other) = c.block body other
  | [] => by simp only [block, List.all_cons, hs, Bool.true_and]
  | ⟨kind, line⟩ :: rest => by
    simp only [block, block_cons_of_isIgnored hs other rest, List.dropWhile_cons_of_pos hs]

mutual

/-- **A statement compares with itself** if its ids do, unless it is an
ignored one, which compares with nothing. -/
theorem stmtKind_self (kind : StmtKind) (hkind : kind ≠ .ignore) (h : Self c kind.ids) :
    c.stmtKind kind kind := by
  rw [StmtKind.ids_eq] at h
  have hroots : Self c kind.roots := h.mono (List.subset_append_left _ _)
  have hblocks : ∀ b ∈ kind.blocks, Self c (Block.ids b) := fun b hb =>
    h.mono fun x hx => List.mem_append_right _ (List.mem_flatMap.2 ⟨b, hb, hx⟩)
  have hexprs (ids : List ExprId) (hs : ids ⊆ kind.roots) : c.exprs ids ids :=
    (hroots.mono hs).exprs
  match kind with
  | .ret values | .localDecl _ values =>
    simp only [stmtKind, hexprs values (List.Subset.refl _), beq_self_eq_true, Bool.and_self]
  | .localFunction _ func | .function _ func =>
    simp only [stmtKind, funcBody_self func (hblocks _ (List.mem_singleton_self _)),
      beq_self_eq_true, Bool.and_self]
  | .compoundAssign target op value =>
    simp only [stmtKind, hroots target (by simp [StmtKind.roots]),
      hroots value (by simp [StmtKind.roots]), beq_self_eq_true, Bool.and_self]
  | .assign targets values =>
    simp only [stmtKind, hexprs targets (List.subset_append_left _ _),
      hexprs values (List.subset_append_right _ _), Bool.and_self]
  | .call x => simpa only [stmtKind] using hroots x (List.mem_singleton_self _)
  | .break_ => simp only [stmtKind]
  | .ignore => exact absurd rfl hkind
  | .doBlock body =>
    simpa only [stmtKind] using block_self body (hblocks _ (List.mem_singleton_self _))
  | .whileLoop condition body | .repeatLoop body condition =>
    simp only [stmtKind, hroots condition (List.mem_singleton_self _),
      block_self body (hblocks _ (List.mem_singleton_self _)), Bool.and_self]
  | .ifChain arm => simpa only [stmtKind] using ifArm_self arm hroots hblocks
  | .forNumeric var start limit step body =>
    simp only [stmtKind, hroots start (by simp [StmtKind.roots]),
      hroots limit (by simp [StmtKind.roots]),
      hexprs step.toList (fun x hx => by simp [StmtKind.roots, hx]),
      block_self body (hblocks _ (List.mem_singleton_self _)), beq_self_eq_true, Bool.and_self]
  | .forGeneric names iterators body =>
    simp only [stmtKind, hexprs iterators (List.Subset.refl _),
      block_self body (hblocks _ (List.mem_singleton_self _)), beq_self_eq_true, Bool.and_self]
  | .importFrom binding source =>
    simp only [stmtKind, hroots source (List.mem_singleton_self _), beq_self_eq_true,
      Bool.and_self]
  | .intrinsic x args =>
    simp only [stmtKind, hroots x List.mem_cons_self, hexprs args (List.subset_cons_self _ _),
      Bool.and_self]
termination_by structural kind

theorem funcBody_self : ∀ func : FuncBody, Self c (Block.ids func.body) → c.funcBody func func
  | ⟨_, _, body⟩, h => by
    simp only [funcBody, block_self body h, beq_self_eq_true, Bool.and_self]
termination_by structural func => func

theorem ifArm_self : ∀ arm : IfArm, Self c arm.conditions →
    (∀ b ∈ arm.bodies, Self c (Block.ids b)) → c.ifArm arm arm
  | ⟨condition, body, _, otherwise⟩, hc, hb => by
    have hotherwise := elseArm_self otherwise (hc.mono (List.subset_cons_self _ _))
      fun b hm => hb b (List.mem_cons_of_mem _ hm)
    simp only [ifArm, hc condition List.mem_cons_self,
      block_self body (hb body List.mem_cons_self), hotherwise, Bool.and_self]
termination_by structural arm => arm

theorem elseArm_self : ∀ arm : ElseArm, Self c arm.conditions →
    (∀ b ∈ arm.bodies, Self c (Block.ids b)) → c.elseArm arm arm
  | .absent, _, _ => by simp only [elseArm]
  | .elseIf arm, hc, hb => by simpa only [elseArm] using ifArm_self arm hc hb
  | .elseBlock body _, _, hb => by
    simpa only [elseArm] using block_self body (hb _ (List.mem_singleton_self _))
termination_by structural arm => arm

/-- A list compares with itself; ignored statements are left out on both sides. -/
theorem block_self : ∀ body : List Stmt, Self c (Block.ids body) → c.block body body
  | [], _ => by simp only [block, List.all_nil]
  | ⟨kind, line⟩ :: rest, h => by
    rw [Block.ids_cons] at h
    have hkind (hne : kind ≠ .ignore) := stmtKind_self kind hne (h.mono (List.subset_append_left _ _))
    have hrest := block_self rest (h.mono (List.subset_append_right _ _))
    cases hs : Stmt.isIgnored ⟨kind, line⟩ with
    | true => rwa [block, if_pos hs, block_cons_of_isIgnored hs]
    | false =>
      have hne : kind ≠ .ignore := fun heq => by subst heq; cases hs
      rw [block, if_neg (by simp [hs]), List.dropWhile_cons_of_neg (by simp [hs])]
      simp only [hkind hne, hrest, Bool.and_self]
termination_by structural body => body

end

/-- **A node is the same as itself** if the nodes it refers to are. -/
theorem expr_self (x : Expr) (h : Self c x.refs) : c.expr x x := by
  have hchildren : Self c x.children := h.mono (List.subset_append_left _ _)
  rcases x with x | x
  · cases x with
    | number value => cases hnan : value.isNaN <;> simp [expr, Double.same, hnan]
    | table t =>
      have hkeyed := keyed_self fun entry hentry =>
        (Table.mem_children_of_keyed hentry).imp (hchildren _) (hchildren _)
      simp only [expr, table, (hchildren.mono t.positional_subset).exprs, hkeyed, Bool.and_self]
    | element t =>
      have hproperties := properties_self fun entry hentry =>
        hchildren entry.2 (List.mem_append_left _ (List.mem_map_of_mem hentry))
      simp only [expr, element, beq_self_eq_true, hproperties, Bool.true_and]
      cases ht : t.children with
      | none => rfl
      | some children =>
        exact (hchildren.mono fun x hx => List.mem_append_right _ (by simpa [ht] using hx)).exprs
    | func func =>
      simpa only [expr] using funcBody_self func (h.mono (List.subset_append_right _ _))
    | _ => simp only [expr, beq_self_eq_true]
  · cases x with
    | call target method args =>
      have hargs : c.exprs args args := (hchildren.mono (by simp [Expr.children])).exprs
      simp only [expr, hchildren target (by simp [Expr.children]), hargs, beq_self_eq_true,
        Bool.and_self]
    | binary op left right =>
      simp only [expr, hchildren left (by simp [Expr.children]),
        hchildren right (by simp [Expr.children]), beq_self_eq_true, Bool.and_self]
    | unary op operand | member operand op =>
      simp only [expr, hchildren operand (by simp [Expr.children]), beq_self_eq_true, Bool.and_self]
    | subscript object key =>
      simp only [expr, hchildren object (by simp [Expr.children]),
        hchildren key (by simp [Expr.children]), Bool.and_self]
    | assign op target value =>
      simp only [expr, hchildren target (by simp [Expr.children]),
        hchildren value (by simp [Expr.children]), beq_self_eq_true, Bool.and_self]

end Comparison

/-! ## Arenas -/

namespace Arena

variable {a b : Arena} {f : ExprId → ExprId} {ρ : ExprId → ℚ} {h : ExprId → ℕ}

/-- **Comparing at every depth** beyond the height is the same. -/
theorem Graded.sameWithin_eq (hg : a.Graded h) (d : Arena) : ∀ {n m : ℕ} {i : ExprId}, h i < n →
    h i < m → a.sameWithin d n i = a.sameWithin d m i
  | n + 1, m + 1, i, hn, hm => by
    funext j
    refine Comparison.expr_congr (a.get i) (d.get j) fun x hx => ?_
    have hlt := hg i x hx
    exact hg.sameWithin_eq d (by omega) (by omega)

/-- **Depth beyond the arena's size is not used**: ranks fall with each reference. -/
theorem Ranked.sameWithin_eq (hr : a.Ranked ρ) (d : Arena) {n : ℕ} (hn : a.size < n) :
    a.sameWithin d n = a.sameWithin d (a.size + 1) := by
  funext i
  have hle := height_le a ρ i
  exact hr.graded.sameWithin_eq d (by omega) (by omega)

/-- An id compares with itself within any depth above its own. -/
theorem Graded.sameWithin_self (hg : a.Graded h) : ∀ {n : ℕ} {i : ExprId}, h i < n →
    a.sameWithin a n i i
  | n + 1, i, hn => Comparison.expr_self _ fun x hx => by
    have hlt := hg i x hx
    exact hg.sameWithin_self (by omega)

/-- The nodes of an arena stand in another, with other ids. -/
def Renames (f : ExprId → ExprId) (a b : Arena) : Prop :=
  ∀ i : ExprId, i.index < a.size → b.get (f i) = (a.get i).mapIds f

/-- An id compares as its new name does. -/
theorem Renames.sameWithin_eq (hf : a.Renames f b)
    (hinside : ∀ i j, a.Refers i j → j.index < a.size) (d : Arena) :
    ∀ (n : ℕ) (i : ExprId), i.index < a.size → b.sameWithin d n (f i) = a.sameWithin d n i
  | 0, _, _ => rfl
  | n + 1, i, hi => by
    funext j
    show (b.sameWithin d n).expr (b.get (f i)) (d.get j) = _
    rw [hf i hi]
    exact Comparison.expr_mapIds _ _ fun x hx =>
      hf.sameWithin_eq hinside d n x (hinside i x hx)

/-- **What was renamed compares as it did**, in an arena that is no
smaller. -/
theorem Renames.same_eq {c : Chunk} (hf : c.arena.Renames f b) (hr : c.arena.Ranked ρ)
    (hids : ∀ x ∈ Block.ids c.body, x.index < c.arena.size) (hsize : c.arena.size ≤ b.size)
    (d : Chunk) : Chunk.same ⟨b, Block.mapIds f c.body⟩ d = c.same d := by
  unfold Chunk.same
  rw [Comparison.block_mapIds c.body fun x hx =>
    hf.sameWithin_eq hr.inside d.arena (b.size + 1) x (hids x hx),
    hr.sameWithin_eq d.arena (by omega : c.arena.size < b.size + 1)]

end Arena

/-- **A ranked chunk is the same as itself.** -/
theorem Chunk.same_self {c : Chunk} {ρ : ExprId → ℚ} (hr : c.arena.Ranked ρ) : c.same c :=
  Comparison.block_self c.body fun x _ => by
    have hle := c.arena.height_le ρ x
    exact hr.graded.sameWithin_self (by omega)

end LuaSugar
