import Mathlib
import LuaSugar.Parser
import LuaSugar.Desugar
import LuaSugar.Project.Bundle
import LuaSugar.Proofs.Syntax.Grafted
/-!
# What a bundle holds

The statements in front of the entry are built behind its nodes, and each
module is grafted behind what is there by then. So the entry stays as it
is, the first and the last of the three statements are the ones that the
bundle is described by, and the table has an entry for each module, with
its name for a key and a function that is the module (`holds_bundle`).
-/

namespace LuaSugar

namespace Bundle

/-- The statement that keeps what the bundle replaces, as it is written. -/
def capturesText : String :=
  "local __LU_REQUIRE, __LU_UNPACK, __LU_IMPORT_CACHE = require, unpack or table.unpack, \x7b\x7d"

/-- The statement that replaces `require`, as it is written. -/
def overrideText : String :=
  "require = function(input)\n" ++
  "  local tryCache = __LU_IMPORT_CACHE[input]\n" ++
  "  if tryCache then\n" ++
  "    return __LU_UNPACK(tryCache)\n" ++
  "  else\n" ++
  "    local module = __LU_IMPORT_TABLE[input]\n" ++
  "    if module then\n" ++
  "      tryCache = \x7b module(input) \x7d\n" ++
  "      __LU_IMPORT_CACHE[input] = tryCache\n" ++
  "    else\n" ++
  "      return __LU_REQUIRE(input)\n" ++
  "    end\n" ++
  "  end\n" ++
  "  return __LU_UNPACK(tryCache)\n" ++
  "end"

/-! ## The statements around the table -/

variable {a : Arena}

/-- The captures are built behind an arena as they are alone. -/
theorem mirrors_captures : Mirrors a.behind (Stmt.mapIds (Arena.shift a.size)) captures captures :=
  (Build.mirrors_behind a (.ofName "require")).bind fun _ =>
    (Build.mirrors_behind a (.ofName "unpack")).bind fun global =>
      (Build.mirrors_behind a (.ofName "table")).bind fun table =>
        (Build.mirrors_behind a (.arith (.member table "unpack"))).bind fun member =>
          (Build.mirrors_behind a (.arith (.binary .or global member))).bind fun _ =>
            (Build.mirrors_behind a (.atom (.table .empty))).bind fun _ => .pure rfl

/-- So is a lookup in a table. -/
theorem mirrors_lookup (table : String) :
    Mirrors a.behind (Arena.shift a.size) (lookup table) (lookup table) :=
  (Build.mirrors_behind a (.ofName table)).bind fun table =>
    (Build.mirrors_behind a (.ofName "input")).bind fun input =>
      Build.mirrors_behind a (.arith (.subscript table input))

theorem mirrors_returnCached :
    Mirrors a.behind (Stmt.mapIds (Arena.shift a.size)) returnCached returnCached :=
  (Build.mirrors_behind a (.ofName unpack)).bind fun unpack =>
    (Build.mirrors_behind a (.ofName "tryCache")).bind fun cached =>
      (Build.mirrors_behind a (.call unpack [cached])).bind fun _ => .pure rfl

/-- So is what runs a module that is not there yet. -/
theorem mirrors_runModule :
    Mirrors a.behind (Block.mapIds (Arena.shift a.size)) runModule runModule :=
  (Build.mirrors_behind a (.ofName "module")).bind fun module =>
    (Build.mirrors_behind a (.ofName "input")).bind fun input =>
      (Build.mirrors_behind a (.call module [input])).bind fun run =>
        (Build.mirrors_behind a (.atom (.table (Table.empty.pushPositional run)))).bind fun _ =>
          (Build.mirrors_behind a (.ofName "tryCache")).bind fun _ =>
            (mirrors_lookup cache).bind fun _ =>
              (Build.mirrors_behind a (.ofName "tryCache")).bind fun _ => .pure rfl

theorem mirrors_fallback :
    Mirrors a.behind (Stmt.mapIds (Arena.shift a.size)) fallback fallback :=
  (Build.mirrors_behind a (.ofName outerRequire)).bind fun outer =>
    (Build.mirrors_behind a (.ofName "input")).bind fun input =>
      (Build.mirrors_behind a (.call outer [input])).bind fun _ => .pure rfl

/-- So is what `require` becomes. -/
theorem mirrors_override :
    Mirrors a.behind (Stmt.mapIds (Arena.shift a.size)) override override :=
  (mirrors_lookup cache).bind fun cached =>
    mirrors_runModule.bind fun run =>
      mirrors_fallback.bind fun fallback =>
        (mirrors_lookup modules).bind fun loader =>
          (Build.mirrors_behind a (.ofName "module")).bind fun found =>
            (Build.mirrors_behind a (.ofName "tryCache")).bind fun hit =>
              mirrors_returnCached.bind fun again =>
                mirrors_returnCached.bind fun last =>
                  (Build.mirrors_behind a (.atom (.func ⟨["input"], false,
                    [.localDecl ["tryCache"] [cached] 0,
                      branch hit [again] [.localDecl ["module"] [loader] 0,
                        branch found run [fallback]], last]⟩))).bind fun _ =>
                    (Build.mirrors_behind a (.ofName "require")).bind fun _ => .pure rfl

/-- A statement of an arena is what a text is read as. -/
def Reads (a : Arena) (s : Stmt) (text : String) : Prop :=
  ∃ d, parseSource text = .ok d ∧ Chunk.same ⟨a, [s]⟩ d

/-- What is built in the empty arena. -/
def made (m : Build Stmt) : Chunk := ⟨(m .empty).2, [(m .empty).1]⟩

/-- Whether the nodes of a chunk refer to earlier ones only. -/
def isLowering (c : Chunk) : Bool :=
  (List.range c.arena.size).all (fun n => (c.arena.get ⟨n⟩).refs.all fun i => i.index < n) &&
    (Block.ids c.body).all fun i => i.index < c.arena.size

/-- A check of all nodes at once: their references go down. -/
theorem ranked_of_isLowering {c : Chunk} (h : isLowering c) :
    c.arena.Ranked (fun i => i.index) ∧ ∀ x ∈ Block.ids c.body, x.index < c.arena.size := by
  simp only [isLowering, Bool.and_eq_true, List.all_eq_true, List.mem_range, decide_eq_true_eq] at h
  have hlower : ∀ i j, c.arena.Refers i j → j.index < i.index := fun i j hij =>
    h.1 i.index (Arena.inside_of_refers hij) j hij
  exact ⟨⟨fun i j hij => (hlower i j hij).trans (Arena.inside_of_refers hij),
    fun i j hij => by exact_mod_cast hlower i j hij⟩, h.2⟩

/-- Whether what is built in the empty arena is what a text is read as. -/
def isRead (m : Build Stmt) (text : String) : Bool :=
  isLowering (made m) && match parseSource text with
    | .ok d => (made m).same d
    | .error _ => false

/-- The captures are what their text is parsed as. -/
theorem isRead_captures : isRead captures capturesText := by decide +kernel

theorem isRead_override : isRead override overrideText := by decide +kernel

/-- A statement that was built reads as its text, later on as well. -/
theorem reads_of_mirrors {m : Build Stmt} {text : String} {b : Arena} (hread : isRead m text)
    (h : Mirrors a.behind (Stmt.mapIds (Arena.shift a.size)) m m) (hb : (m a).2.Extends b) :
    Reads b (m a).1 text := by
  obtain ⟨hlower, hsame⟩ := Bool.and_eq_true_iff.1 hread
  obtain ⟨hranked, hids⟩ := ranked_of_isLowering hlower
  cases hparse : parseSource text with
  | error e =>
    rw [hparse] at hsame
    cases hsame
  | ok d =>
    rw [hparse] at hsame
    refine ⟨d, hparse, ?_⟩
    rwa [((Build.carries_of_mirrors h).1.mono hb).same_eq hranked hids]

/-! ## The table -/

/-- An entry of the table that carries a module. -/
def Loader (a : Arena) (entry : TableKey × ExprId) (module : String × Chunk) : Prop :=
  ∃ key body, entry.1 = .expr key ∧ key.index < a.size ∧ a.get key = .ofText module.1 ∧
    entry.2.index < a.size ∧ a.get entry.2 = .atom (.func ⟨[], true, body⟩) ∧
    a.Carries body module.2

/-- A loader is still there in a larger arena. -/
theorem Loader.mono {b : Arena} {entry : TableKey × ExprId} {module : String × Chunk}
    (h : Loader a entry module) (hab : a.Extends b) : Loader b entry module := by
  obtain ⟨key, body, hkey, hkeyInside, hname, hinside, hfunc, hcarries⟩ := h
  exact ⟨key, body, hkey, hkeyInside.trans_le hab.size_le, by rw [hab.get_eq _ hkeyInside, hname],
    hinside.trans_le hab.size_le, by rw [hab.get_eq _ hinside, hfunc], hcarries.mono hab⟩

/-- A table with an entry for each of some modules. -/
def Filled (a : Arena) (t : Table) (contents : List (String × Chunk)) : Prop :=
  List.Forall₂ (Loader a) t.entries contents

/-- So is a table of loaders. -/
theorem Filled.mono {b : Arena} {t : Table} {contents : List (String × Chunk)}
    (h : Filled a t contents) (hab : a.Extends b) : Filled b t contents :=
  h.imp fun _ _ hentry => hentry.mono hab

/-- **One more module.** -/
theorem Filled.addModule {t : Table} {contents : List (String × Chunk)} (h : Filled a t contents)
    (name : String) (c : Chunk) :
    Filled (addModule t name c a).2 (addModule t name c a).1 (contents ++ [(name, c)]) ∧
      a.Extends (addModule t name c a).2 := by
  let a₁ := a.behind c.arena
  let a₂ := (a₁.alloc (.ofText name)).2
  let body := Block.mapIds (Arena.shift a.size) c.body
  let a₃ := (a₂.alloc (.atom (.func ⟨[], true, body⟩))).2
  have h₁₂ : a₁.Extends a₂ := a₁.extends_alloc _
  have h₂₃ : a₂.Extends a₃ := a₂.extends_alloc _
  have hkey : a₁.size < a₂.size := a₁.size_lt_alloc _
  have hloader : a₂.size < a₃.size := a₂.size_lt_alloc _
  have hextends : a.Extends a₃ := (a.extends_behind _).trans (h₁₂.trans h₂₃)
  refine ⟨List.rel_append (h.mono hextends) (.cons ?_ .nil), hextends⟩
  refine ⟨⟨a₁.size⟩, body, rfl, hkey.trans hloader, ?_, hloader, Arena.get_alloc_self _ _,
    (a.carries_behind c).mono (h₁₂.trans h₂₃)⟩
  exact (h₂₃.get_eq _ hkey).trans (Arena.get_alloc_self _ _)

/-- So it is with all modules. -/
theorem Filled.addModules (contents : List (String × Chunk)) {t : Table}
    {done : List (String × Chunk)} (h : Filled a t done) :
    let r := contents.foldlM (fun t (m : String × Chunk) => Bundle.addModule t m.1 m.2) t a
    Filled r.2 r.1 (done ++ contents) ∧ a.Extends r.2 := by
  induction contents generalizing t a done with
  | nil => exact ⟨by rwa [List.append_nil], .refl a⟩
  | cons m contents ih =>
    obtain ⟨hfirst, hextends⟩ := h.addModule m.1 m.2
    obtain ⟨hrest, hextends'⟩ := ih hfirst
    rw [List.append_assoc] at hrest
    exact ⟨hrest, hextends.trans hextends'⟩

/-! ## The whole bundle -/

/-- The entry of the table for a module: under its name, a function with no
parameter but `...` that is the module. -/
def Loads (a : Arena) (entry : TableKey × ExprId) (module : String × Chunk) : Prop :=
  ∃ key body, entry.1 = .expr key ∧ a.get key = .ofText module.1 ∧
    a.get entry.2 = .atom (.func ⟨[], true, body⟩) ∧ Chunk.same ⟨a, body⟩ module.2

/-- What a bundle consists of: three statements and behind them the entry,
the nodes of which are where they were. -/
structure Holds (entry : Chunk) (contents : List (String × Chunk)) (c : Chunk) : Prop where
  grown : entry.arena.Extends c.arena
  body : ∃ captures table override t,
    c.body = [captures, .localDecl [modules] [table] 0, override] ++ entry.body ∧
      Reads c.arena captures capturesText ∧ Reads c.arena override overrideText ∧
      c.arena.get table = .atom (.table t) ∧ List.Forall₂ (Loads c.arena) t.entries contents

/-- **A bundle holds the entry and the modules.** -/
theorem holds_bundle (entry : Chunk) {contents : List (String × Chunk)}
    (h : ∀ m ∈ contents, (∃ ρ, m.2.arena.Ranked ρ) ∧
      ∀ x ∈ Block.ids m.2.body, x.index < m.2.arena.size) :
    Holds entry contents (bundle entry contents) := by
  obtain ⟨hfilled, h₀₁⟩ : Filled _ _ ([] ++ contents) ∧ entry.arena.Extends _ :=
    Filled.addModules contents (t := .empty) (a := entry.arena) .nil
  set filled := contents.foldlM (fun t (m : String × Chunk) => addModule t m.1 m.2) Table.empty
    entry.arena
  let a₂ := (captures filled.2).2
  let a₃ := (a₂.alloc (.atom (.table filled.1))).2
  let a₄ := (override a₃).2
  have h₁₂ : filled.2.Extends a₂ := (Build.carries_of_mirrors mirrors_captures).2
  have h₂₃ : a₂.Extends a₃ := a₂.extends_alloc _
  have h₃₄ : a₃.Extends a₄ := (Build.carries_of_mirrors mirrors_override).2
  have htable : a₂.size < a₃.size := a₂.size_lt_alloc _
  refine ⟨h₀₁.trans (h₁₂.trans (h₂₃.trans h₃₄)), (captures filled.2).1, ⟨a₂.size⟩, (override a₃).1,
    filled.1, rfl, ?_, ?_, ?_, ?_⟩
  · exact reads_of_mirrors isRead_captures mirrors_captures (h₂₃.trans h₃₄)
  · exact reads_of_mirrors isRead_override mirrors_override (.refl _)
  · exact (h₃₄.get_eq _ htable).trans (Arena.get_alloc_self _ _)
  · rw [List.nil_append] at hfilled
    have hmodules := (List.forall₂_and_left _ _).2 ⟨h, (hfilled.mono (h₁₂.trans (h₂₃.trans h₃₄))).flip⟩
    refine hmodules.flip.imp fun entry m hm => ?_
    obtain ⟨⟨⟨ρ, hranked⟩, hids⟩, key, body, hkey, -, hname, -, hfunc, hcarries⟩ := hm
    exact ⟨key, body, hkey, hname, hfunc,
      (hcarries.same_eq hranked hids m.2).trans (Chunk.same_self hranked)⟩

end Bundle

end LuaSugar
