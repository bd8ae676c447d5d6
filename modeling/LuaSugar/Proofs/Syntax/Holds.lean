import Mathlib
import LuaSugar.Proofs.Pass.Sound
import LuaSugar.Proofs.Syntax.Load
/-!
# Positions

Where an expression may stand, told for each kind of statement and of node
on its own: no function that lists what a statement or a node holds takes
part in it. That those lists miss no position, and add none, is what is
proved here (`Block.holds_iff`, `Expr.holds_iff`), and with it that a chunk
reaches what stands in it and nothing else (`Chunk.within_iff`).
-/

namespace LuaSugar

mutual

/-- An id stands in a statement, nested lists included. -/
inductive StmtKind.Holds (x : ExprId) : StmtKind → Prop
  | result {values} : x ∈ values → StmtKind.Holds x (.ret values)
  | localFunction {name func} : Block.Holds x func.body → StmtKind.Holds x (.localFunction name func)
  | function {path func} : Block.Holds x func.body → StmtKind.Holds x (.function path func)
  | initial {names values} : x ∈ values → StmtKind.Holds x (.localDecl names values)
  | updated {op value} : StmtKind.Holds x (.compoundAssign x op value)
  | operand {target op} : StmtKind.Holds x (.compoundAssign target op x)
  | target {targets values} : x ∈ targets → StmtKind.Holds x (.assign targets values)
  | assigned {targets values} : x ∈ values → StmtKind.Holds x (.assign targets values)
  | call : StmtKind.Holds x (.call x)
  | doBody {body} : Block.Holds x body → StmtKind.Holds x (.doBlock body)
  | whileCondition {body} : StmtKind.Holds x (.whileLoop x body)
  | whileBody {condition body} : Block.Holds x body → StmtKind.Holds x (.whileLoop condition body)
  | repeatBody {body condition} : Block.Holds x body → StmtKind.Holds x (.repeatLoop body condition)
  | repeatCondition {body} : StmtKind.Holds x (.repeatLoop body x)
  | arm {arm} : IfArm.Holds x arm → StmtKind.Holds x (.ifChain arm)
  | start {var limit step body} : StmtKind.Holds x (.forNumeric var x limit step body)
  | limit {var start step body} : StmtKind.Holds x (.forNumeric var start x step body)
  | step {var start limit body} : StmtKind.Holds x (.forNumeric var start limit (some x) body)
  | numericBody {var start limit step body} : Block.Holds x body →
      StmtKind.Holds x (.forNumeric var start limit step body)
  | iterator {names iterators body} : x ∈ iterators →
      StmtKind.Holds x (.forGeneric names iterators body)
  | genericBody {names iterators body} : Block.Holds x body →
      StmtKind.Holds x (.forGeneric names iterators body)
  | source {binding} : StmtKind.Holds x (.importFrom binding x)
  | intrinsic {args} : StmtKind.Holds x (.intrinsic x args)
  | argument {expr args} : x ∈ args → StmtKind.Holds x (.intrinsic expr args)

/-- An id stands in an arm, or in one behind it. -/
inductive IfArm.Holds (x : ExprId) : IfArm → Prop
  | condition {body line otherwise} : IfArm.Holds x ⟨x, body, line, otherwise⟩
  | body {condition body line otherwise} : Block.Holds x body →
      IfArm.Holds x ⟨condition, body, line, otherwise⟩
  | otherwise {condition body line otherwise} : ElseArm.Holds x otherwise →
      IfArm.Holds x ⟨condition, body, line, otherwise⟩

inductive ElseArm.Holds (x : ExprId) : ElseArm → Prop
  | elseIf {arm} : IfArm.Holds x arm → ElseArm.Holds x (.elseIf arm)
  | elseBlock {body line} : Block.Holds x body → ElseArm.Holds x (.elseBlock body line)

/-- An id stands in a list of statements. -/
inductive Block.Holds (x : ExprId) : List Stmt → Prop
  | stmt {s block} : s ∈ block → StmtKind.Holds x s.kind → Block.Holds x block

end

/-- An id stands in a node, and if that is a function literal in its body. -/
inductive Expr.Holds (x : ExprId) : Expr → Prop
  | key {table value} : (.expr x, value) ∈ table.entries → Expr.Holds x (.atom (.table table))
  | value {table key} : (key, x) ∈ table.entries → Expr.Holds x (.atom (.table table))
  | property {element name} : (name, x) ∈ element.properties →
      Expr.Holds x (.atom (.element element))
  | child {element children} : element.children = some children → x ∈ children →
      Expr.Holds x (.atom (.element element))
  | body {func} : Block.Holds x func.body → Expr.Holds x (.atom (.func func))
  | left {op right} : Expr.Holds x (.arith (.binary op x right))
  | right {op left} : Expr.Holds x (.arith (.binary op left x))
  | operand {op} : Expr.Holds x (.arith (.unary op x))
  | owner {name} : Expr.Holds x (.arith (.member x name))
  | container {key} : Expr.Holds x (.arith (.subscript x key))
  | index {object} : Expr.Holds x (.arith (.subscript object x))
  | callee {method args} : Expr.Holds x (.arith (.call x method args))
  | argument {target method args} : x ∈ args → Expr.Holds x (.arith (.call target method args))
  | target {op value} : Expr.Holds x (.arith (.assign op x value))
  | assigned {op target} : Expr.Holds x (.arith (.assign op target x))

/-- What stands in a chunk: in its body, or in a node that stands in it. -/
inductive Chunk.Within (c : Chunk) : ExprId → Prop
  | body {x} : Block.Holds x c.body → c.Within x
  | node {i x} : c.Within i → (c.arena.get i).Holds x → c.Within x

variable {x : ExprId}

/-! ## Statements -/

mutual

theorem StmtKind.Holds.mem_ids : ∀ {kind : StmtKind}, kind.Holds x → x ∈ kind.ids
  | _, .result h | _, .initial h | _, .iterator h => StmtKind.mem_ids.2 (.inl h)
  | _, .target h => StmtKind.mem_ids.2 (.inl (List.mem_append_left _ h))
  | _, .assigned h => StmtKind.mem_ids.2 (.inl (List.mem_append_right _ h))
  | _, .argument h => StmtKind.mem_ids.2 (.inl (List.mem_cons_of_mem _ h))
  | _, .updated | _, .operand | _, .call | _, .whileCondition | _, .repeatCondition | _, .start
  | _, .limit | _, .step | _, .source | _, .intrinsic =>
    StmtKind.mem_ids.2 (.inl (by simp [StmtKind.roots]))
  | _, .localFunction h | _, .function h | _, .doBody h | _, .whileBody h | _, .repeatBody h
  | _, .numericBody h | _, .genericBody h =>
    StmtKind.mem_ids.2 (.inr ⟨_, List.mem_singleton_self _, h.mem_ids⟩)
  | _, .arm h => StmtKind.mem_ids.2 h.mem

theorem IfArm.Holds.mem : ∀ {arm : IfArm}, arm.Holds x →
    x ∈ arm.conditions ∨ ∃ b ∈ arm.bodies, x ∈ Block.ids b
  | _, .condition => .inl List.mem_cons_self
  | _, .body h => .inr ⟨_, List.mem_cons_self, h.mem_ids⟩
  | _, .otherwise h => h.mem.imp (List.mem_cons_of_mem _) fun ⟨b, hb, hx⟩ =>
    ⟨b, List.mem_cons_of_mem _ hb, hx⟩

theorem ElseArm.Holds.mem : ∀ {arm : ElseArm}, arm.Holds x →
    x ∈ arm.conditions ∨ ∃ b ∈ arm.bodies, x ∈ Block.ids b
  | _, .elseIf h => h.mem
  | _, .elseBlock h => .inr ⟨_, List.mem_singleton_self _, h.mem_ids⟩

theorem Block.Holds.mem_ids : ∀ {block : Block}, Block.Holds x block → x ∈ Block.ids block
  | _, .stmt hs h => Block.mem_ids_iff.2 ⟨_, hs, h.mem_ids⟩

end

mutual

theorem IfArm.holds_of_mem : ∀ arm : IfArm,
    x ∈ arm.conditions ∨ (∃ b ∈ arm.bodies, Block.Holds x b) → arm.Holds x
  | ⟨condition, body, line, otherwise⟩, h => by
    rw [IfArm.conditions, IfArm.bodies, List.mem_cons, List.exists_mem_cons_iff] at h
    rcases h with (rfl | hx) | hbody | hb
    · exact .condition
    · exact .otherwise (ElseArm.holds_of_mem otherwise (.inl hx))
    · exact .body hbody
    · exact .otherwise (ElseArm.holds_of_mem otherwise (.inr hb))

theorem ElseArm.holds_of_mem : ∀ arm : ElseArm,
    x ∈ arm.conditions ∨ (∃ b ∈ arm.bodies, Block.Holds x b) → arm.Holds x
  | .absent, h => by simp [ElseArm.conditions, ElseArm.bodies] at h
  | .elseIf arm, h => .elseIf (IfArm.holds_of_mem arm h)
  | .elseBlock body line, h => .elseBlock (by simpa [ElseArm.conditions, ElseArm.bodies] using h)

end

/-- **A root stands in its statement.** -/
theorem StmtKind.holds_of_mem_roots {kind : StmtKind} (hx : x ∈ kind.roots) : kind.Holds x := by
  cases kind with
  | ret values => exact .result hx
  | localDecl names values => exact .initial hx
  | compoundAssign target op value =>
    rcases List.mem_pair.1 hx with rfl | rfl
    · exact .updated
    · exact .operand
  | assign targets values => exact (List.mem_append.1 hx).elim .target .assigned
  | call c =>
    obtain rfl := List.mem_singleton.1 hx
    exact .call
  | whileLoop condition body =>
    obtain rfl := List.mem_singleton.1 hx
    exact .whileCondition
  | repeatLoop body condition =>
    obtain rfl := List.mem_singleton.1 hx
    exact .repeatCondition
  | ifChain arm => exact .arm (arm.holds_of_mem (.inl hx))
  | forNumeric var start limit step body =>
    rcases List.mem_cons.1 hx with rfl | hx
    · exact .start
    · rcases List.mem_cons.1 hx with rfl | hx
      · exact .limit
      · obtain rfl := Option.mem_toList.1 hx
        exact .step
  | forGeneric names iterators body => exact .iterator hx
  | importFrom binding source =>
    obtain rfl := List.mem_singleton.1 hx
    exact .source
  | intrinsic expr args =>
    rcases List.mem_cons.1 hx with rfl | hx
    · exact .intrinsic
    · exact .argument hx
  | localFunction | function | break_ | doBlock | ignore => cases hx

/-- **What stands in a nested list stands in the statement.** -/
theorem StmtKind.holds_of_mem_blocks {kind : StmtKind} {b : Block} (hb : b ∈ kind.blocks)
    (hx : Block.Holds x b) : kind.Holds x := by
  cases kind with
  | localFunction name func => exact .localFunction (List.mem_singleton.1 hb ▸ hx)
  | function path func => exact .function (List.mem_singleton.1 hb ▸ hx)
  | doBlock body => exact .doBody (List.mem_singleton.1 hb ▸ hx)
  | whileLoop condition body => exact .whileBody (List.mem_singleton.1 hb ▸ hx)
  | repeatLoop body condition => exact .repeatBody (List.mem_singleton.1 hb ▸ hx)
  | ifChain arm => exact .arm (arm.holds_of_mem (.inr ⟨b, hb, hx⟩))
  | forNumeric var start limit step body => exact .numericBody (List.mem_singleton.1 hb ▸ hx)
  | forGeneric names iterators body => exact .genericBody (List.mem_singleton.1 hb ▸ hx)
  | ret | localDecl | compoundAssign | assign | call | break_ | importFrom | intrinsic | ignore =>
    cases hb

/-- **The ids of a list are what stands in it.** -/
theorem Block.holds_iff {block : Block} : Block.Holds x block ↔ x ∈ Block.ids block := by
  refine ⟨Block.Holds.mem_ids, fun hx => ?_⟩
  induction block using Block.induction with
  | step block ih =>
    obtain ⟨s, hs, hx⟩ := Block.mem_ids_iff.1 hx
    refine .stmt hs ?_
    rcases StmtKind.mem_ids.1 hx with hx | ⟨b, hb, hx⟩
    · exact StmtKind.holds_of_mem_roots hx
    · exact StmtKind.holds_of_mem_blocks hb (ih s hs b hb hx)

/-! ## Nodes -/

/-- **What a node refers to is what stands in it.** -/
theorem Expr.holds_iff {e : Expr} : e.Holds x ↔ x ∈ e.refs := by
  constructor
  · intro h
    cases h with
    | key h => exact List.mem_append_left _ (List.mem_flatMap.2 ⟨_, h, List.mem_cons_self⟩)
    | @value table key h =>
      refine List.mem_append_left _ (List.mem_flatMap.2 ⟨_, h, ?_⟩)
      cases key <;> simp
    | property h =>
      exact List.mem_append_left _ (List.mem_append_left _ (List.mem_map_of_mem h))
    | child h hx =>
      exact List.mem_append_left _ (List.mem_append_right _ (by rwa [h]))
    | body h => exact List.mem_append_right _ h.mem_ids
    | argument h => exact List.mem_append_left _ (List.mem_cons_of_mem _ h)
    | left | right | operand | owner | container | index | callee | target | assigned =>
      simp [Expr.refs, Expr.children]
  · intro h
    rcases List.mem_append.1 h with h | h
    · cases e with
      | atom a =>
        cases a with
        | table table =>
          obtain ⟨⟨key, value⟩, hentry, hx⟩ := List.mem_flatMap.1 h
          cases key with
          | positional index =>
            obtain rfl := List.mem_singleton.1 hx
            exact .value hentry
          | expr key =>
            rcases List.mem_pair.1 hx with rfl | rfl
            · exact .key hentry
            · exact .value hentry
        | element element =>
          rcases List.mem_append.1 h with h | h
          · obtain ⟨⟨name, value⟩, hproperty, rfl⟩ := List.mem_map.1 h
            exact .property hproperty
          · cases hchildren : element.children with
            | none => simp [hchildren] at h
            | some children => exact .child hchildren (by simpa [hchildren] using h)
        | number | string | boolean | nil | name | vararg | func => cases h
      | arith e =>
        cases e with
        | binary op left right =>
          rcases List.mem_pair.1 h with rfl | rfl
          · exact .left
          · exact .right
        | unary op operand =>
          obtain rfl := List.mem_singleton.1 h
          exact .operand
        | member object name =>
          obtain rfl := List.mem_singleton.1 h
          exact .owner
        | subscript object key =>
          rcases List.mem_pair.1 h with rfl | rfl
          · exact .container
          · exact .index
        | call target method args =>
          rcases List.mem_cons.1 h with rfl | h
          · exact .callee
          · exact .argument h
        | assign op target value =>
          rcases List.mem_pair.1 h with rfl | rfl
          · exact .target
          · exact .assigned
    · split at h
      · exact .body (Block.holds_iff.2 h)
      · cases h

/-- **A chunk reaches what stands in it.** -/
theorem Chunk.within_iff {c : Chunk} : c.Within x ↔ c.Reaches x := by
  constructor
  · intro h
    induction h with
    | body h => exact ⟨_, h.mem_ids, .refl⟩
    | node _ h ih => exact ih.trans (Expr.holds_iff.1 h)
  · rintro ⟨y, hy, hreaches⟩
    induction hreaches with
    | refl => exact .body (Block.holds_iff.2 hy)
    | tail _ h ih => exact .node ih (Expr.holds_iff.2 h)

end LuaSugar
