import Mathlib
import LuaSugar.Proofs.Desugar.Imported
import LuaSugar.Proofs.Desugar.InPlace
import LuaSugar.Proofs.Desugar.Pairing
import LuaSugar.Proofs.Desugar.Plain
import LuaSugar.Proofs.Render.Tokens
/-!
# Elements become calls of the constructor

One element on its way through all passes. Up to the last one its node stays
what it is, since assignments are the only nodes that are overwritten before
and all else is added behind. The last pass overwrites it by a call of the
constructor, if it comes by it, and nothing overwrites the call again. A
compiled chunk leads to no element, so wherever it leads to the node of an
element of the source, it leads to such a call.

Naming the project comes last and overwrites names, but those of placeholders
only.
-/

namespace LuaSugar

/-! ## What callbacks keep of an arena -/

namespace Pass

variable {σ ε : Type} {r : Pass σ ε} {I : Arena → Prop}

/-- Callbacks keep a property of arenas, and it does not change with the
body of a literal. -/
structure Respects (r : Pass σ ε) (I : Arena → Prop) : Prop where
  body : ∀ {a : Arena} x b, I a → I (a.setBody x b)
  statement : ∀ c {space : Workspace σ}, I space.arena → I ((r.statement c).run space).2.arena
  expression : ∀ x owner {space : Workspace σ}, I space.arena →
    I ((r.expression x owner).run space).2.arena

theorem Stays.of_run {α : Type} {edit : Edit σ ε α} {default : α} {left : Workspace σ → α}
    (h : ∀ space : Workspace σ, I space.arena → I (edit.run space).2.arena) :
    Stays (fun walk => I walk.space.arena) (Pass.call edit default left) := by
  refine .call fun walk _ hwalk => ?_
  have hleft := h walk.space hwalk
  rcases hrun : edit.run walk.space with ⟨v | e, space⟩ <;> rw [hrun] at hleft <;> exact hleft

/-- **What callbacks keep, the pass keeps.** -/
theorem Respects.run (h : r.Respects I) (state : σ) {c : Chunk} (hc : I c.arena) :
    I (r.run state c).chunk.arena := by
  have hlasting : Lasting r fun walk => I walk.space.arena :=
    ⟨fun _ _ hwalk => hwalk, fun _ x b => h.body x b, fun _ hwalk => hwalk, fun c => .of_run fun _ => h.statement c,
      fun x owner => .of_run fun _ => h.expression x owner⟩
  exact hlasting.walkBlock (depth c) c.body (.start ⟨c.arena, state⟩) hc

/-- A pass over statements that only adds nodes keeps what more nodes do not
change. -/
theorem Respects.ofStatement {f : Cursor → Edit σ ε Cursor}
    (hbody : ∀ {a : Arena} x b, I a → I (a.setBody x b))
    (hextends : ∀ {a b : Arena}, a ≤ b → I a → I b)
    (hf : ∀ c (space : Workspace σ), space.arena.Extends ((f c).run space).2.arena) :
    (Pass.ofStatement f).Respects I :=
  ⟨hbody, fun c space => hextends (hf c space), fun _ _ _ h => h⟩

/-- A pass over expressions keeps what its callback keeps. -/
theorem Respects.ofExpression {f : ExprId → Stmt → Edit σ ε Unit}
    (hbody : ∀ {a : Arena} x b, I a → I (a.setBody x b))
    (hf : ∀ x owner {space : Workspace σ}, I space.arena →
      Edits (fun _ => I) (f x owner) (fun _ _ => True) () space) :
    (Pass.ofExpression f).Respects I := by
  refine ⟨hbody, fun _ _ h => h, fun x owner space h => ?_⟩
  obtain ⟨_, _, hkept, -⟩ := hf x owner h
  exact hkept

end Pass

open Pass

/-- A node that is no literal does not change with a body. -/
theorem Arena.get_setBody_of_eq {a : Arena} {i : ExprId} {e : Expr} (h : a.get i = e)
    (he : ∀ func, e ≠ .atom (.func func)) (x : ExprId) (b : Block) : (a.setBody x b).get i = e := by
  rw [Expr.eq_of_hollow (a.hollow_setBody x b i) (h ▸ he), h]

/-! ## Up to the pass over elements -/

section Before

variable {i : ExprId} {e : Element} {c : Chunk}

theorem CompoundAssignment.statement_extends (cursor : Cursor) (space : Workspace Unit) :
    space.arena.Extends ((CompoundAssignment.pass.statement cursor).run space).2.arena := by
  refine Edits.extends (Q := fun _ _ => True) ?_
  unfold CompoundAssignment.pass Pass.ofStatement
  dsimp only
  split
  · exact (Edits.build (.extends rfl _)).bind fun _ _ _ _ h _ => .pure h trivial
  · exact .pure rfl trivial

/-- Only assignments are overwritten. -/
theorem AssignmentExpr.respects_element (i : ExprId) (e : Element) :
    AssignmentExpr.pass.Respects fun a => a.get i = .atom (.element e) := by
  refine .ofExpression (fun x b h => Arena.get_setBody_of_eq h (by simp) x b)
    fun x owner space h => .arena (.forM h fun _ y space' _ _ h' => .arena ?_)
  split
  · rename_i op target value hget
    have hne : i ≠ y := by
      rintro rfl
      cases h'.symm.trans hget
    refine (Edits.build (Q := fun _ _ => True) ?_).bind fun _ closure space₁ _ h₁ _ =>
      .replace (le_refl ()) ?_
    · exact ⟨(), le_rfl, (Arena.extends_alloc space'.arena _).get_of_eq h' (by simp), trivial⟩
    · rw [Arena.get_set_of_ne _ hne, h₁]
  · exact .pure h' trivial

/-- **Elements are left to the last pass.** -/
theorem element_of_hoisted (h : c.arena.get i = .atom (.element e)) :
    (expandIntrinsics (expandImports (expandCompound (hoistAssignments c)))).1.arena.get i =
      .atom (.element e) := by
  have hbody {a : Arena} x b (h : a.get i = .atom (.element e)) :
      (a.setBody x b).get i = .atom (.element e) := Arena.get_setBody_of_eq h (by simp) x b
  have hextends {a b : Arena} (hle : a ≤ b) (h : a.get i = .atom (.element e)) :
      b.get i = .atom (.element e) := hle.get_of_eq h (by simp)
  have h₁ := (AssignmentExpr.respects_element i e).run () h
  have h₂ := (Respects.ofStatement hbody hextends CompoundAssignment.statement_extends).run () h₁
  have h₃ := (Respects.ofStatement hbody hextends
    (Import.statement_extends fun count _ => count)).run 0 h₂
  exact (Respects.ofStatement hbody hextends Intrinsic.statement_extends).run () h₃

end Before

/-! ## Calls of a name -/

/-- A node is the call of a variable. -/
def Arena.CallsName (a : Arena) (name : String) (i : ExprId) : Prop :=
  ∃ target args, a.get i = .call target args ∧ a.get target = .ofName name

theorem Arena.CallsName.mono {a a' : Arena} {name : String} {i : ExprId} (h : a.CallsName name i)
    (hcall : ∀ target args, a.get i = .call target args → a'.get i = a.get i)
    (hname : ∀ target, a.get target = .ofName name → a'.get target = a.get target) :
    a'.CallsName name i := by
  obtain ⟨target, args, hget, htarget⟩ := h
  exact ⟨target, args, (hcall target args hget).trans hget,
    (hname target htarget).trans htarget⟩

/-! ## The pass over elements -/

namespace Element

variable {constructor : String} {a a' a'' : Arena} {i : ExprId}

/-- Nodes stay what they are, but elements may have become calls of the
constructor. -/
structure Lowered (constructor : String) (a a' : Arena) : Prop where
  size_le : a.size ≤ a'.size
  node : ∀ i : ExprId, i.index < a.size → a'.get i = a.get i ∨
    (∃ e, a.get i = .atom (.element e)) ∧ a'.CallsName constructor i

namespace Lowered

theorem refl (a : Arena) : Lowered constructor a a := ⟨le_rfl, fun _ _ => .inl rfl⟩

theorem of_extends (h : a ≤ a') : Lowered constructor a a' :=
  ⟨h.size_le, fun i hi => .inl (h.get_eq i hi)⟩

theorem get_eq (h : Lowered constructor a a') {e : Expr} (hget : a.get i = e)
    (hnil : e ≠ .atom .nil) (helement : ∀ e', e ≠ .atom (.element e')) : a'.get i = e := by
  subst hget
  exact (h.node i (Arena.inside_of_get_ne i hnil)).resolve_right fun ⟨⟨e', he⟩, _⟩ =>
    helement e' he

/-- Calls of the constructor stay. -/
theorem callsName (h : Lowered constructor a a') (hi : a.CallsName constructor i) :
    a'.CallsName constructor i :=
  hi.mono (fun _ _ hcall => (h.get_eq hcall (by simp [Expr.call]) (by simp [Expr.call])).trans
    hcall.symm) fun _ hname =>
      (h.get_eq hname (by simp [Expr.ofName]) (by simp [Expr.ofName])).trans hname.symm

theorem trans (h : Lowered constructor a a') (h' : Lowered constructor a' a'') :
    Lowered constructor a a'' := by
  refine ⟨h.size_le.trans h'.size_le, fun i hi => ?_⟩
  rcases h.node i hi with hget | ⟨helement, hcalls⟩
  · rw [← hget]
    exact h'.node i (hi.trans_le h.size_le)
  · exact .inr ⟨helement, h'.callsName hcalls⟩

/-- An element that is emptied may be overwritten by a call. -/
theorem set {e : Element} (hget : a.get i = .atom (.element e))
    (h : Lowered constructor (a.set i (.atom .nil)) a') {target : ExprId} {args : List ExprId}
    (htarget : a'.get target = .ofName constructor) :
    Lowered constructor a (a'.set i (.call target args)) := by
  have hi : i.index < a.size := Arena.inside_of_get_ne i (by simp [hget])
  have hsize : a.size ≤ a'.size := by simpa using h.size_le
  -- an empty node is no element, so it is still empty
  have hempty : a'.get i = .atom .nil := by
    have hnil : (a.set i (.atom .nil)).get i = .atom .nil := Arena.get_set_self _ hi
    rcases h.node i (by simpa using hi) with hsame | ⟨⟨e', he'⟩, -⟩
    · rw [hsame, hnil]
    · cases hnil.symm.trans he'
  have hother {j : ExprId} {name : String} (hj : a'.get j = .ofName name) : j ≠ i := by
    rintro rfl
    cases hempty.symm.trans hj
  refine ⟨by simpa using hsize, fun j hj => ?_⟩
  by_cases hji : j = i
  · subst hji
    exact .inr ⟨⟨e, hget⟩, target, args, Arena.get_set_self _ (hi.trans_le hsize),
      (Arena.get_set_of_ne _ (hother htarget)).trans htarget⟩
  · rw [Arena.get_set_of_ne _ hji]
    rcases h.node j (by simpa using hj) with hsame | ⟨helement, hcalls⟩
    · exact .inl (hsame.trans (Arena.get_set_of_ne _ hji))
    · rw [Arena.get_set_of_ne _ hji] at helement
      exact .inr ⟨helement, hcalls.mono (fun _ _ _ => Arena.get_set_of_ne _ hji)
        fun _ hname => Arena.get_set_of_ne _ (hother hname)⟩

end Lowered

/-- The target of the call is made last. -/
theorem call_run (constructor : String) (inner : ExprId → Build Unit) (e : Element) (a : Arena) :
    ∃ (b : Arena) (args : List ExprId), (call constructor inner e).run a =
      (.call ⟨b.size⟩ args, (b.alloc (.ofName constructor)).2) :=
  ⟨_, _, rfl⟩

/-- **Lowering an element** at whatever depth. -/
theorem lower_lowered (constructor : String) : ∀ (depth : ℕ) (i : ExprId) (a : Arena),
    Lowered constructor a ((lower constructor depth i).run a).2
  | 0, _, _ => .refl _
  | depth + 1, i, a => by
    rw [lower_succ, Build.run_get]
    split
    · rename_i e hget
      have hm : Makes (fun _ => Lowered constructor (a.set i (.atom .nil)))
          fun (_ : Unit) _ => True :=
        ⟨fun _ _ => trivial, fun {_ b _} h _ _ =>
          ⟨(), le_rfl, h.trans (.of_extends (Arena.extends_alloc b _)), trivial⟩⟩
      have hbuilds : Builds (fun _ => Lowered constructor (a.set i (.atom .nil)))
          (call constructor (within constructor depth) e) _ () (a.set i (.atom .nil)) :=
        hm.element (.refl _) (fun _ _ => trivial) fun _ h _ => .get (.forM h fun _ y b _ _ h =>
          ⟨(), le_rfl, h.trans (lower_lowered constructor depth y b), trivial⟩)
      obtain ⟨-, -, hlowered, -⟩ := hbuilds
      obtain ⟨b, args, hrun⟩ := call_run constructor (within constructor depth) e
        (a.set i (.atom .nil))
      have hleft : ((call constructor (within constructor depth) e)
          (a.set i (.atom .nil))).2 = (b.alloc (.ofName constructor)).2 := congrArg Prod.snd hrun
      rw [hleft] at hlowered
      show Lowered constructor a (((call constructor (within constructor depth) e).run
        (a.set i (.atom .nil))).2.set i ((call constructor (within constructor depth) e).run
          (a.set i (.atom .nil))).1)
      rw [hrun]
      exact hlowered.set hget (Arena.get_alloc_self b _)
    · exact .refl _

/-- What is still an element or a call of the constructor stays so. -/
theorem respects_called (constructor : String) (i : ExprId) (e : Element) :
    (pass constructor).Respects fun a =>
      a.get i = .atom (.element e) ∨ a.CallsName constructor i := by
  have hlowered {a a' : Arena} (h : Lowered constructor a a')
      (hi : a.get i = .atom (.element e) ∨ a.CallsName constructor i) :
      a'.get i = .atom (.element e) ∨ a'.CallsName constructor i := by
    refine hi.elim (fun hget => ?_) fun hcalls => .inr (h.callsName hcalls)
    exact (h.node i (Arena.inside_of_get_ne i (by simp [hget]))).imp (·.trans hget) (·.2)
  refine .ofExpression (fun x b hi => ?_) fun x owner space hi => .arena (.build (.forM hi
    fun _ y a _ _ hi => ⟨(), le_rfl, hlowered (lower_lowered constructor _ y a) hi, trivial⟩))
  refine hi.imp (fun hget => Arena.get_setBody_of_eq hget (by simp) x b) fun hcalls => ?_
  exact hcalls.mono (fun _ _ hget => hget ▸ Arena.get_setBody_of_eq hget (by simp [Expr.call]) x b)
    fun _ hget => hget ▸ Arena.get_setBody_of_eq hget (by simp [Expr.ofName]) x b

end Element

/-- **Every element becomes a call of the constructor.** Where a compiled
chunk leads to the node of an element, that node is such a call. -/
theorem compile_callsName {constructor source : String} {parsed c : Chunk} {i : ExprId}
    {e : Element} (hparsed : parseSource source = .ok parsed)
    (h : compile constructor source = .ok c) (hget : parsed.arena.get i = .atom (.element e))
    (hi : c.Reaches i) : c.arena.CallsName constructor i := by
  obtain ⟨parsed', hparsed', hdesugar⟩ := compile_eq_ok.1 h
  obtain rfl := Except.ok.inj (hparsed.symm.trans hparsed')
  obtain ⟨tokens, -, hparse⟩ := parseSource_eq_ok.1 hparsed
  have hplain := (parse_chunk_sound hparse).desugar_plain constructor (by rw [hdesugar])
  rw [hdesugar] at hplain
  have hhoisted := element_of_hoisted hget
  unfold desugar at hdesugar
  rcases hpass : expandIntrinsics (expandImports (expandCompound (hoistAssignments parsed))) with
    ⟨c', _ | e'⟩ <;> rw [hpass] at hdesugar hhoisted
  · obtain rfl := congrArg Prod.fst hdesugar
    refine ((Element.respects_called constructor i e).run () (.inl hhoisted)).resolve_left
      fun helement => ?_
    have hsugar := hplain.nodes i hi
    rw [show (expandElements constructor c').arena.get i = _ from helement] at hsugar
    cases hsugar
  · cases congrArg Prod.snd hdesugar

/-! ## Naming the project -/

namespace Project

variable {c : Chunk} {i : ExprId}

/-- A node stays what it is or is a placeholder that has become a text. -/
theorem naming_respects (name : String) (i : ExprId) (e : Expr) :
    (naming name).Respects fun a => (a.get i).hollow = e.hollow ∨
      e = .ofName placeholder ∧ a.get i = .ofText name := by
  refine .ofExpression (fun {a} x b h => ?_) fun x owner space h => .arena (.forM h
    fun _ y space' _ _ h' => .arena ?_)
  · refine h.imp (fun h => (a.hollow_setBody x b i).trans h) fun ⟨he, h⟩ => ⟨he, ?_⟩
    exact Arena.get_setBody_of_eq h (by simp [Expr.ofText]) x b
  · split
    · rename_i hplaceholder
      refine .replace (le_refl ()) ?_
      rcases Arena.get_set_cases space'.arena y i (.ofText name) with hget | ⟨rfl, hget⟩
      · rwa [hget]
      · refine .inr ⟨?_, hget⟩
        rw [eq_of_isPlaceholder hplaceholder] at h'
        rcases h' with hhollow | ⟨he, -⟩
        · exact Expr.eq_of_hollow hhollow.symm (by simp [Expr.ofName])
        · exact he
    · exact .pure h' trivial

/-- **Naming the project** leaves the body, and every node but placeholders,
which become a text. -/
theorem nameProject_get (name : String) (c : Chunk) : (nameProject name c).body = c.body ∧
    ∀ i, (nameProject name c).arena.get i = c.arena.get i ∨ c.arena.get i = .ofName placeholder ∧
      (nameProject name c).arena.get i = .ofText name := by
  have hrestores := Restores.walkBlock (performs name).stays (Pass.depth c)
  refine ⟨hrestores.block _ _, fun i => ?_⟩
  refine ((naming_respects name i (c.arena.get i)).run () (.inl rfl)).imp (fun hhollow => ?_) id
  exact Arena.get_eq_of_hollow hhollow fun b hb =>
    hrestores.body i b c.body (.start ⟨c.arena, ()⟩) hb

/-- Calls of other names stay. -/
theorem nameProject_callsName {constructor : String} (h : c.arena.CallsName constructor i)
    (hother : constructor ≠ placeholder) (name : String) :
    (nameProject name c).arena.CallsName constructor i := by
  refine h.mono (fun target args hcall => ?_) fun target hname => ?_
  · refine ((nameProject_get name c).2 i).resolve_right fun ⟨hplaceholder, _⟩ => ?_
    cases hcall.symm.trans hplaceholder
  · refine ((nameProject_get name c).2 target).resolve_right fun ⟨hplaceholder, _⟩ => hother ?_
    exact Atom.name.inj (Expr.atom.inj (hname.symm.trans hplaceholder))

/-- A chunk leads to what it led to, or to less. -/
theorem reaches_of_nameProject {name : String} (h : (nameProject name c).Reaches i) :
    c.Reaches i := by
  obtain ⟨hbody, hget⟩ := nameProject_get name c
  obtain ⟨x, hx, hxi⟩ := h
  refine ⟨x, hbody ▸ hx, Relation.ReflTransGen.mono (fun j k hjk => ?_) x i hxi⟩
  have hrefs : k ∈ ((nameProject name c).arena.get j).refs := hjk
  rcases hget j with hsame | ⟨-, htext⟩
  · rwa [hsame] at hrefs
  · rw [htext] at hrefs
    cases hrefs

/-- **A plain chunk stays plain.** -/
theorem nameProject_plain (h : c.Plain) (name : String) : (nameProject name c).Plain := by
  obtain ⟨hbody, hget⟩ := nameProject_get name c
  refine ⟨hbody ▸ h.body, fun i hi => ?_, fun i hi body hfunc => ?_⟩
  · rcases hget i with hsame | ⟨-, htext⟩
    · exact hsame ▸ h.nodes i (reaches_of_nameProject hi)
    · rw [htext]
      rfl
  · rcases hget i with hsame | ⟨-, htext⟩
    · refine h.bodies i (reaches_of_nameProject hi) body ?_
      rwa [Arena.body?, ← hsame]
    · rw [Arena.body?, htext] at hfunc
      cases hfunc

/-- A source of a project is compiled, and then the project is named. -/
theorem compile_eq_ok {p : Project} {source : String} : p.compile source = .ok c ↔
    ∃ c₀, LuaSugar.compile p.config.elementConstructor source = .ok c₀ ∧
      c = nameProject p.config.name c₀ := by
  unfold Project.compile
  cases LuaSugar.compile p.config.elementConstructor source with
  | error e => simp [bind, Except.bind]
  | ok c₀ => simp [bind, Except.bind, pure, Except.pure, eq_comm]

/-- **A compiled source of a project** is plain and has names that are read as
names. -/
theorem compile_lexed {p : Project} {source : String}
    (hconstructor : IsNameToken p.config.elementConstructor) (h : p.compile source = .ok c) :
    c.Sound .lexed False ∧ c.Plain := by
  obtain ⟨c₀, hcompile, rfl⟩ := compile_eq_ok.1 h
  obtain ⟨hsound, hplain⟩ := LuaSugar.compile_lexed hconstructor hcompile
  exact ⟨(naming_keeps (fun _ => trivial) p.config.name).run Vocabulary.lexed_stable hsound (),
    nameProject_plain hplain p.config.name⟩

/-- **Every element of a source becomes a call of the constructor**, unless
that stands for the name of the project. -/
theorem compile_callsName {p : Project} {source : String} {parsed : Chunk} {e : Element}
    (hparsed : parseSource source = .ok parsed) (h : p.compile source = .ok c)
    (hother : p.config.elementConstructor ≠ placeholder)
    (hget : parsed.arena.get i = .atom (.element e)) (hi : c.Reaches i) :
    c.arena.CallsName p.config.elementConstructor i := by
  obtain ⟨c₀, hcompile, rfl⟩ := compile_eq_ok.1 h
  have hcalls := LuaSugar.compile_callsName hparsed hcompile hget (reaches_of_nameProject hi)
  exact nameProject_callsName hcalls hother p.config.name

end Project

end LuaSugar
