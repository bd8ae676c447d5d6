import Mathlib
import LuaSugar.Desugar
import LuaSugar.Proofs.Pass.Bare
/-!
# Desugaring does not look at lines

Every pass gives the statements it makes the line of one that was there,
and no pass decides anything by a line. So each of them, and all of them
in order, leave of the bare chunk the bare chunk of what they leave.
-/

namespace LuaSugar

/-- An error of an intrinsic without its line. -/
def IntrinsicError.bare : IntrinsicError → IntrinsicError
  | target _ found => .target 0 found
  | dangling _ => .dangling 0

/-! ## Expressions -/

theorem AssignmentExpr.statement_bare (op : AssignOp) (target value : ExprId) (line : ℕ) :
    (AssignmentExpr.statement op target value line).bare =
      AssignmentExpr.statement op target value 0 := by
  cases op <;> rfl

/-- The closure that an assignment becomes gets its line from the statement;
without lines it is 0. -/
theorem AssignmentExpr.hoist_bares (line : ℕ) (x : ExprId) :
    Edit.Bares id id (AssignmentExpr.hoist line x) (AssignmentExpr.hoist 0 x) := by
  refine Edit.bares_arena.bind fun a => ?_
  rw [Arena.get_bare]
  match a.get x with
  | .arith (.assign op target value) =>
    have hclosure := Build.mirrors_closure []
      [AssignmentExpr.statement op target value line, .ret [target] line]
    rw [Block.bare, AssignmentExpr.statement_bare] at hclosure
    exact (Edit.bares_build hclosure).bind fun closure =>
      Edit.bares_replace x (.call closure [])
  | .atom (.func _) | .atom (.number _) | .atom (.string _) | .atom (.boolean _) | .atom .nil
  | .atom (.name _) | .atom .vararg | .atom (.table _) | .atom (.element _)
  | .arith (.binary _ _ _) | .arith (.unary _ _) | .arith (.member _ _) | .arith (.subscript _ _)
  | .arith (.call _ _ _) => exact .pure rfl

/-- Assignments in parentheses are hoisted without lines as they are with them. -/
theorem AssignmentExpr.pass_bare : AssignmentExpr.pass.Bare id :=
  .ofExpression fun root owner => Edit.bares_arena.bind fun a => by
    rw [Arena.descendants_bare, Stmt.bare_line]
    exact .forM fun x _ => AssignmentExpr.hoist_bares owner.line x

/-- Elements are lowered by their ids alone. -/
theorem Element.lower_mirrors (constructor : String) : ∀ (depth : ℕ) (x : ExprId),
    Mirrors Arena.bare id (Element.lower constructor depth x) (Element.lower constructor depth x)
  | 0, _ => .pure rfl
  | depth + 1, x => by
    -- elements below are lowered alike, one level less deep
    have hwithin (root : ExprId) : Mirrors Arena.bare id
        (do ((← get).leaves root).forM (Element.lower constructor depth))
        (do ((← get).leaves root).forM (Element.lower constructor depth)) :=
      Mirrors.get.bind fun a => by
        rw [Arena.leaves_bare]
        exact .forM fun y _ => Element.lower_mirrors constructor depth y
    rw [Element.lower]
    refine Mirrors.get.bind fun a => ?_
    rw [Arena.get_bare]
    match a.get x with
    | .atom (.element e) =>
      have hset (e : Expr) : Mirrors Arena.bare id (modify (·.set x e) : Build Unit)
          (modify (·.set x e.bare)) :=
        .modify fun a => a.bare_set x e
      have htag : (Element.tag e.name).bare = Element.tag e.name := by
        unfold Element.tag
        split <;> rfl
      -- the steps are those of `lower`, with the line erased from what each allocates
      have halloc := Build.mirrors_alloc (Element.tag e.name)
      rw [htag] at halloc
      refine (hset (.atom .nil)).bind fun _ => halloc.bind fun tag => ?_
      refine (Mirrors.foldlM (fun entry _ t => (hwithin entry.2).bind fun _ =>
        Build.mirrors_pushNamed t entry.1 entry.2) Table.empty).bind fun properties => ?_
      refine (Build.mirrors_alloc (.atom (.table properties))).bind fun properties => ?_
      refine (Mirrors.foldlM (β := Table) (fun child _ t => (hwithin child).bind fun _ => .pure rfl)
        .empty).bind fun children => ?_
      refine (Build.mirrors_alloc (.atom (.table children))).bind fun children => ?_
      exact (Build.mirrors_name constructor).bind fun target =>
        hset (.call target [tag, properties, children])
    | .atom (.func _) | .atom (.number _) | .atom (.string _) | .atom (.boolean _) | .atom .nil
    | .atom (.name _) | .atom .vararg | .atom (.table _) | .arith _ => exact .pure rfl

theorem Element.pass_bare (constructor : String) : (Element.pass constructor).Bare id :=
  .ofExpression fun root _ => Edit.bares_arena.bind fun a => by
    rw [Arena.leaves_bare, Arena.size_bare]
    exact Edit.bares_build (.forM fun x _ => Element.lower_mirrors constructor _ x)

/-! ## Statements -/

/-- What a compound assignment becomes stands on its line. -/
theorem CompoundAssignment.pass_bare : CompoundAssignment.pass.Bare id := by
  refine .ofStatement fun c => ?_
  rw [Cursor.bare_stmt, Stmt.bare_kind]
  cases c.stmt.kind with
  | compoundAssign target op value =>
    exact (Edit.bares_build (Build.mirrors_alloc (.arith (.binary op target value)))).bind
      fun result => .pure (by rw [c.bare_line]; exact c.bare_replace (.assign [target] [result] c.line))
  | _ => exact .pure rfl

/-- The declarations of an import all stand on its line. -/
theorem Import.pass_bare : Import.pass.Bare id := by
  refine .ofStatement fun c => ?_
  rw [Cursor.bare_stmt, Stmt.bare_kind, Cursor.bare_line]
  cases c.stmt.kind with
  | importFrom binding source =>
    refine (Edit.bares_build ((Build.mirrors_name "require").bind fun require =>
      Build.mirrors_alloc (.call require [source]))).bind fun module => ?_
    cases binding with
    | default name => exact .pure (c.bare_replace (.localDecl [name] [module] c.line))
    | named names =>
      refine Edit.bares_state.bind fun count => (Edit.bares_setState _).bind fun _ => ?_
      refine (Edit.bares_build (.mapM fun name _ => (Build.mirrors_name _).bind fun object =>
        Build.mirrors_alloc (.arith (.member object name)))).bind fun values => .pure ?_
      exact congrArg (·.replace (.localDecl names values 0))
        (c.bare_insertBefore (.localDecl [Import.holder count] [module] c.line))
  | _ => exact .pure rfl

namespace Intrinsic

/-- The getter and the setter of a descriptor have the line of the declaration. -/
theorem descriptor_mirrors (line : ℕ) (name : String) :
    Mirrors Arena.bare id (descriptor line name) (descriptor 0 name) := by
  have hget : Mirrors Arena.bare id (getter name line) (getter name 0) :=
    (Build.mirrors_name name).bind fun target => Build.mirrors_closure [] [.ret [target] line]
  have hset : Mirrors Arena.bare id (setter name line) (setter name 0) :=
    (Build.mirrors_name name).bind fun target => (Build.mirrors_name "v").bind fun value =>
      Build.mirrors_closure ["v"] [.assign [target] [value] line]
  refine hget.bind fun get => hset.bind fun set => (Build.mirrors_text name).bind fun label => ?_
  refine (Build.mirrors_pushNamed _ _ _).bind fun t => (Build.mirrors_pushNamed t _ _).bind fun t => ?_
  exact (Build.mirrors_pushNamed t _ _).bind fun t => Build.mirrors_alloc (.atom (.table t))

/-- A decorated function is decorated without its lines. -/
theorem decorate_mirrors (intrinsic : ExprId) (args : List ExprId) (signature : String)
    (func : FuncBody) : Mirrors Arena.bare id (decorate intrinsic args signature func)
      (decorate intrinsic args signature func.bare) :=
  (Build.mirrors_text signature).bind fun text =>
    (Build.mirrors_alloc (.atom (.func func))).bind fun literal =>
      Build.mirrors_alloc (.call intrinsic (args ++ [text, literal]))

/-- The text of a signature has no lines. -/
theorem signature_bare (name : String) (func : FuncBody) :
    signature name func.bare = signature name func := by
  simp [signature, FuncBody.signature]

theorem definedFunction_bare (path : FunctionPath) (func : FuncBody) :
    definedFunction path func.bare = (definedFunction path func).bare := by
  cases func
  unfold definedFunction
  split <;> rfl

/-- A decorated statement and what stays in place of the intrinsic. -/
theorem decorateNext_bares (line : ℕ) (intrinsic : ExprId) (args : List ExprId) (next : Cursor) :
    Edit.Bares IntrinsicError.bare (Prod.map Cursor.bare Stmt.bare)
      (decorateNext line intrinsic args next) (decorateNext 0 intrinsic args next.bare) := by
  unfold decorateNext
  rw [Cursor.bare_stmt, Stmt.bare_kind, Cursor.bare_line]
  cases next.stmt.kind with
  | localDecl names values =>
    refine (Edit.bares_build ((Mirrors.mapM fun name _ => descriptor_mirrors next.line name).bind
      fun descriptors => Build.mirrors_alloc (.call intrinsic (args ++ descriptors)))).bind
      fun call => .pure ?_
    exact congrArg (·, Stmt.ignore 0) (next.bare_insertAfter (.call call next.line))
  | function path func =>
    have hdefined : definedFunction path func.bare = (definedFunction path func).bare :=
      definedFunction_bare path func
    simp only [StmtKind.bare, hdefined, signature_bare]
    refine (Edit.bares_build (Build.mirrors_path path.segments)).bind fun target => ?_
    cases target with
    | none =>
      refine .pure (congrArg (·, (⟨.intrinsic intrinsic args, 0⟩ : Stmt)) ?_)
      rw [Cursor.remove, Cursor.bare_line]
      exact next.bare_replace (.ignore next.line)
    | some target =>
      refine (Edit.bares_build (decorate_mirrors _ _ _ _)).bind fun call => .pure ?_
      exact congrArg (·, Stmt.ignore 0) (next.bare_replace (.assign [target] [call] next.line))
  | localFunction name func =>
    simp only [StmtKind.bare, signature_bare]
    refine (Edit.bares_build (Build.mirrors_name name)).bind fun target => ?_
    refine (Edit.bares_build (decorate_mirrors _ _ _ _)).bind fun call => .pure ?_
    exact congrArg (·, Stmt.localDecl [name] [] 0)
      (next.bare_replace (.assign [target] [call] next.line))
  | _ => exact .throw rfl

/-- Intrinsics are applied alike, and an error is the same but for its line. -/
theorem pass_bare : Intrinsic.pass.Bare IntrinsicError.bare := by
  refine .ofStatement fun c => ?_
  rw [Cursor.bare_stmt, Stmt.bare_kind]
  cases c.stmt.kind with
  | intrinsic intrinsic args =>
    simp only [StmtKind.bare, Cursor.bare_next?, Cursor.bare_line]
    cases c.next? with
    | none => exact .throw rfl
    | some next =>
      refine (decorateNext_bares c.line intrinsic args next).bind fun result => .pure ?_
      simp [← Cursor.bare_replace]
  | _ => exact .pure rfl

end Intrinsic

/-- **Desugaring does not look at lines.** -/
theorem desugar_bare (constructor : String) (c : Chunk) : desugar constructor c.bare =
    ((desugar constructor c).1.bare, (desugar constructor c).2.map IntrinsicError.bare) := by
  have hhoist (c : Chunk) : hoistAssignments c.bare = (hoistAssignments c).bare :=
    (AssignmentExpr.pass_bare.run () c).1
  have hcompound (c : Chunk) : expandCompound c.bare = (expandCompound c).bare :=
    (CompoundAssignment.pass_bare.run () c).1
  have himports (c : Chunk) : expandImports c.bare = (expandImports c).bare :=
    (Import.pass_bare.run 0 c).1
  have helements (c : Chunk) : expandElements constructor c.bare = (expandElements constructor c).bare :=
    ((Element.pass_bare constructor).run () c).1
  have hintrinsics (c : Chunk) : expandIntrinsics c.bare =
      ((expandIntrinsics c).1.bare, (expandIntrinsics c).2.map IntrinsicError.bare) := by
    obtain ⟨hchunk, hfailure⟩ := Intrinsic.pass_bare.run () c
    unfold expandIntrinsics
    dsimp only
    rw [hchunk, hfailure]
  unfold desugar
  rw [hhoist, hcompound, himports, hintrinsics]
  rcases expandIntrinsics (expandImports (expandCompound (hoistAssignments c))) with ⟨c, _ | e⟩
  · exact congrArg (·, none) (helements c)
  · rfl

end LuaSugar
