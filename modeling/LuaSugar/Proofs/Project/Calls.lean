import Mathlib
import LuaSugar.Require.Call
import LuaSugar.Proofs.Pass.Route
import LuaSugar.Proofs.Pass.Toured
import LuaSugar.Proofs.Project.Bundled
import LuaSugar.Proofs.Syntax.Holds
import LuaSugar.Proofs.Text.Utf8
/-!
# Calls of `require` that are found

The pass that collects the calls of a chunk changes nothing, so it collects
what its tour comes by, and a tour comes by everything that stands in the
chunk. Hence no call of `require` is missed, wherever it stands, and nothing
is reported that is none (`ofChunk_exact`). A node that the chunk shares may
be reported for each of its places; where none is shared, each call is
reported once.
-/

namespace LuaSugar

/-- A node that stands in the chunk calls `require`, by its bare name and not
as a method, with a text and nothing else. -/
def Chunk.Requires (c : Chunk) (i : ExprId) (text : String) : Prop :=
  c.Within i ∧ ∃ target arg, c.arena.get i = .arith (.call target none [arg]) ∧
    c.arena.get target = .ofName "require" ∧ c.arena.get arg = .ofText text

open Require

/-- The calls at and below a root, each with its node. -/
def Visit.sites (a : Arena) : Visit → List (ExprId × Call)
  | .root x s => (a.descendants x).filterMap fun i =>
    (Call.specifier? a (a.get i)).map fun text => (i, ⟨text, s.line⟩)
  | .statement _ _ => []

/-- The calls that a tour comes by. -/
def Chunk.sites (c : Chunk) : List (ExprId × Call) := c.tour.flatMap (Visit.sites c.arena)

namespace Require.Call

variable {a a' : Arena} {e : Expr} {text : String} {c : Chunk} {V : Vocabulary} {R : Prop}

/-! ## What a call requires -/

theorem isRequire_iff : isRequire e ↔ e = .ofName "require" := by
  cases e with
  | arith e => simp [isRequire, Expr.ofName]
  | atom atom => cases atom <;> simp [isRequire, Expr.ofName]

theorem literal?_eq_some_iff : literal? e = some text ↔ e = .ofText text := by
  cases e with
  | arith e => simp [literal?, Expr.ofText]
  | atom atom => cases atom <;> simp [literal?, Expr.ofText, Utf8.decode?_eq_some_iff]

theorem specifier?_eq_some_iff : specifier? a e = some text ↔ ∃ target arg,
    e = .arith (.call target none [arg]) ∧ a.get target = .ofName "require" ∧
      a.get arg = .ofText text := by
  constructor
  · intro h
    unfold specifier? at h
    split at h
    · rename_i target arg
      split at h
      · rename_i htarget
        exact ⟨target, arg, rfl, isRequire_iff.1 htarget, literal?_eq_some_iff.1 h⟩
      · cases h
    · cases h
  · rintro ⟨target, arg, rfl, htarget, harg⟩
    rw [specifier?, if_pos (isRequire_iff.2 htarget)]
    exact literal?_eq_some_iff.2 harg

/-- Bodies of function literals do not matter. -/
theorem specifier?_of_hollow {i : ExprId}
    (h : ∀ j, j = i ∨ j ∈ (a.get i).children → (a'.get j).hollow = (a.get j).hollow) :
    specifier? a' (a'.get i) = specifier? a (a.get i) := by
  have hkept {a a' : Arena} {i : ExprId}
      (h : ∀ j, j = i ∨ j ∈ (a.get i).children → (a'.get j).hollow = (a.get j).hollow) {text : String}
      (hs : specifier? a (a.get i) = some text) : specifier? a' (a'.get i) = some text := by
    obtain ⟨target, arg, hcall, htarget, harg⟩ := specifier?_eq_some_iff.1 hs
    have hnode {j : ExprId} {e : Expr} (hj : j = i ∨ j ∈ (a.get i).children) (hget : a.get j = e)
        (he : ∀ func, e ≠ .atom (.func func)) : a'.get j = e :=
      (Expr.eq_of_hollow (h j hj) (hget ▸ he)).trans hget
    refine specifier?_eq_some_iff.2 ⟨target, arg, hnode (.inl rfl) hcall (by simp),
      hnode (.inr ?_) htarget (by simp [Expr.ofName]), hnode (.inr ?_) harg (by simp [Expr.ofText])⟩
    · simp [hcall, Expr.children]
    · simp [hcall, Expr.children]
  refine Option.ext fun text => ⟨hkept fun j hj => (h j ?_).symm, hkept h⟩
  rwa [Arena.children_of_hollow (h i (.inl rfl))] at hj

/-! ## Collecting -/

open Pass Pass.Guide

/-- A walk that collects: nothing is overwritten, and what was found are the
calls that the tour has come by. -/
def guide (c : Chunk) : Guide (List Call) Empty where
  chunk := c
  fails _ := none
  touched _ := ∅
  own space vs := space.state = (vs.flatMap (Visit.sites c.arena)).map Prod.snd
  stands _ _ _ := False
  beside := False

/-- At a root the walk finds the calls that the tour comes by. -/
theorem below_eq (h : c.Sound V R) {walk : Walk (List Call) Empty} {t : Tour}
    (hat : (guide c).At walk t) {x : ExprId} {s : Stmt} (hx : .root x s ∈ c.tour) :
    (below walk.space.arena x).map (fun text => (⟨text, s.line⟩ : Call)) =
      (Visit.sites c.arena (.root x s)).map Prod.snd := by
  obtain ⟨rank, harena⟩ := h.arena
  have hr := harena.ranked
  have hinside := Chunk.inside_of_mem_tour h hx
  have hhollow {i : ExprId} (hi : i.index < c.arena.size) :
      (walk.space.arena.get i).hollow = (c.arena.get i).hollow := hat.hollow i hi (by simp [guide])
  have hsame : ∀ i ∈ c.arena.descendants x,
      specifier? walk.space.arena (walk.space.arena.get i) = specifier? c.arena (c.arena.get i) := by
    refine fun i hi => specifier?_of_hollow fun j hj => hhollow ?_
    rcases hj with rfl | hj
    · exact hr.inside_of_reaches hinside (Arena.reaches_of_mem_descendants hi)
    · exact hr.inside i j (Arena.refers_of_mem_children hj)
  rw [below, hat.descendants_eq hr hinside (by simp [guide]), Visit.sites, List.map_filterMap,
    List.map_filterMap]
  refine List.filterMap_congr fun i hi => ?_
  rw [hsame i hi, Option.map_map]
  rfl

theorem toured (h : c.Sound V R) : Toured (guide c) collecting collecting where
  ranked := by
    obtain ⟨rank, harena⟩ := h.arena
    exact ⟨_, harena.ranked⟩
  inside hx := Chunk.inside_of_mem_tour h hx
  touched_mono _ := Set.Subset.rfl
  untouched _ y _ := Set.notMem_empty y
  own _ _ _ hown := hown
  expression {walk t x s} owner hline hat htour _ := by
    have hroot : Visit.root x s ∈ c.tour :=
      htour.subset (List.mem_append_right _ (List.mem_singleton_self _))
    -- the callback records the calls below the root, and no more
    have hrun : (collecting.expression x owner).run walk.space = (.ok (), { walk.space with
        state := walk.space.state ++
          (below walk.space.arena x).map fun text => ⟨text, owner.line⟩ }) := rfl
    refine .attempt hat.succeeded rfl (fun v space hv => ?_) fun e => e.elim
    cases hrun.symm.trans hv
    refine ⟨hat.build rfl (.refl _) Set.Subset.rfl fun hown => ?_, trivial⟩
    show walk.space.state ++ _ = ((t.visits ++ [Visit.root x s]).flatMap _).map Prod.snd
    rw [List.flatMap_append, List.flatMap_singleton, List.map_append, ← below_eq h hat hroot, hline,
      show walk.space.state = _ from hown]
  statement {walk t s s' before rest} hat _ _ _ _ := by
    refine (Follows.attempt_idle rfl rfl (hat.visit rfl Set.Subset.rfl fun hown => ?_)).mono ?_
    · show walk.space.state = ((t.visits ++ [Visit.statement s rest]).flatMap _).map Prod.snd
      rw [List.flatMap_append, List.flatMap_singleton, show walk.space.state = _ from hown]
      exact congrArg _ (List.append_nil _).symm
    · rintro _ _ _ ⟨-, rfl⟩
      exact ⟨[], by simp, .inl rfl⟩
  inner _ _ _ _ _ _ _ hstands := hstands.elim

/-- **The calls of a chunk** are those that a tour comes by, by line. -/
theorem ofChunk_eq (h : c.Sound V R) :
    ofChunk c = (c.sites.mergeSort fun a b => a.2.line ≤ b.2.line).map Prod.snd := by
  have hown : (guide c).own ⟨c.arena, []⟩ [] := rfl
  obtain ⟨walk, t, hat, hvisits, hspace⟩ := (((toured h).run hown).2 (by simp [guide])).2
  have hstate : (collecting.run [] c).state = c.sites.map Prod.snd := by
    have hown := hat.own
    rw [hspace, hvisits] at hown
    exact hown
  rw [ofChunk, hstate]
  refine (List.map_mergeSort ?_).symm
  exact fun _ _ _ _ => rfl

/-! ## What is found -/

/-- **A tour comes by every call** that stands in the chunk, and by nothing
else. -/
theorem mem_sites (h : c.Sound V R) {i : ExprId} :
    (∃ line, (i, ⟨text, line⟩) ∈ c.sites) ↔ c.Requires i text := by
  obtain ⟨rank, harena⟩ := h.arena
  rw [Chunk.Requires, Chunk.within_iff, ← specifier?_eq_some_iff]
  constructor
  · rintro ⟨line, hmem⟩
    obtain ⟨v, hv, hmem⟩ := List.mem_flatMap.1 hmem
    cases v with
    | statement s behind => cases hmem
    | root x s =>
      obtain ⟨l, hl, hs, hx⟩ := Chunk.hasVisit_of_mem hv
      obtain ⟨j, hj, hsite⟩ := List.mem_filterMap.1 hmem
      obtain ⟨text', htext, heq⟩ := Option.map_eq_some_iff.1 hsite
      cases heq
      exact ⟨hl.reaches_below hs hx hj, htext⟩
  · rintro ⟨hi, hs⟩
    obtain ⟨l, s, x, hl, hsl, hx, hi⟩ := hi.exists_root harena.ranked
    refine ⟨s.line, List.mem_flatMap.2 ⟨.root x s, (Chunk.mem_tour h).2 ⟨l, hl, hsl, hx⟩,
      List.mem_filterMap.2 ⟨i, hi, ?_⟩⟩⟩
    rw [hs]
    rfl

/-- Where nothing is shared a tour comes by no call twice. -/
theorem sites_nodup (h : c.Sound V R) (hunshared : c.Unshared) : (c.sites.map Prod.fst).Nodup := by
  have hnodup := hunshared.descendants_nodup h
  have hnodes (v : Visit) : (Visit.sites c.arena v).map Prod.fst =
      (v.roots.flatMap c.arena.descendants).filter fun i =>
        (specifier? c.arena (c.arena.get i)).isSome := by
    cases v with
    | statement s behind => rfl
    | root x s =>
      rw [Visit.sites, Visit.roots, List.flatMap_singleton, List.map_filterMap,
        ← List.filterMap_eq_filter]
      refine List.filterMap_congr fun i _ => ?_
      cases hs : specifier? c.arena (c.arena.get i) <;> simp [Option.guard, hs]
  rw [Chunk.sites, List.map_flatMap, List.flatMap_congr fun v _ => hnodes v, ← List.filter_flatMap]
  exact hnodup.filter _

/-- **Every traceable call is found.** What is reported of a compiled module
are the texts with which `require` is called somewhere in it; and where no
node is shared, each of these calls is reported once. -/
theorem ofChunk_exact {p : Project} {source : String} (h : p.compile source = .ok c) :
    (∀ text, text ∈ (ofChunk c).map specifier ↔ ∃ i, c.Requires i text) ∧
      (c.Unshared → ∃ calls : List (ExprId × String),
        (ofChunk c).map specifier = calls.map Prod.snd ∧ (calls.map Prod.fst).Nodup ∧
          ∀ i text, (i, text) ∈ calls ↔ c.Requires i text) := by
  have hsound := Project.compile_sound h
  have hperm := c.sites.mergeSort_perm fun a b => a.2.line ≤ b.2.line
  have hmem (i : ExprId) (text : String) :
      (i, text) ∈ (c.sites.mergeSort fun a b => a.2.line ≤ b.2.line).map
        (fun site => (site.1, site.2.specifier)) ↔ c.Requires i text := by
    rw [← mem_sites hsound, List.mem_map]
    constructor
    · rintro ⟨⟨j, call⟩, hsite, heq⟩
      cases heq
      exact ⟨call.line, hperm.mem_iff.1 hsite⟩
    · rintro ⟨line, hsite⟩
      exact ⟨_, hperm.mem_iff.2 hsite, rfl⟩
  have heq : (ofChunk c).map specifier = ((c.sites.mergeSort fun a b => a.2.line ≤ b.2.line).map
      (fun site => (site.1, site.2.specifier))).map Prod.snd := by
    rw [ofChunk_eq hsound, List.map_map, List.map_map]
    rfl
  refine ⟨fun text => ?_, fun hunshared => ⟨_, heq, ?_, hmem⟩⟩
  · rw [heq, List.mem_map]
    constructor
    · rintro ⟨⟨i, text⟩, hsite, rfl⟩
      exact ⟨i, (hmem i text).1 hsite⟩
    · rintro ⟨i, hi⟩
      exact ⟨_, (hmem i text).2 hi, rfl⟩
  · rw [List.map_map]
    exact (hperm.map _).nodup_iff.2 (sites_nodup hsound hunshared)

/-- The key of a table and an argument in a loop of a literal. A method of
that name requires nothing. -/
theorem ofChunk_exact_nested :
    let p : Project := ⟨.ofText "/p", .named "p"⟩
    ∃ c, p.compile "t = \x7b[require 'b'] = function() repeat f(require 'a') until x end\x7d\nx:require 'c'"
        = .ok c ∧ c.Unshared ∧
      (∀ text, text ∈ (ofChunk c).map specifier ↔ text ∈ ["a", "b"]) ∧
      ((ofChunk c).map specifier).length = 2 := by
  intro p
  have hrun : (match p.compile
        "t = \x7b[require 'b'] = function() repeat f(require 'a') until x end\x7d\nx:require 'c'" with
      | .error _ => false
      | .ok c => decide (Block.ids c.body ++ c.arena.references).Nodup &&
        c.sites.map (fun site => site.2.specifier) == ["a", "b"]) = true := by
    decide +kernel
  split at hrun
  · cases hrun
  rename_i c hc
  obtain ⟨hnodup, hsites⟩ := Bool.and_eq_true_iff.1 hrun
  have hsound := Project.compile_sound hc
  have hall := (ofChunk_exact hc).1
  refine ⟨c, hc, Chunk.unshared_of_nodup (of_decide_eq_true hnodup), fun text => ?_, ?_⟩
  · rw [hall, ← beq_iff_eq.1 hsites, List.mem_map]
    simp only [← mem_sites hsound]
    constructor
    · rintro ⟨i, line, hmem⟩
      exact ⟨_, hmem, rfl⟩
    · rintro ⟨⟨i, call⟩, hmem, rfl⟩
      exact ⟨i, call.line, hmem⟩
  · have hlength := congrArg List.length (beq_iff_eq.1 hsites)
    rw [ofChunk_eq hsound]
    simpa using hlength

end Require.Call

end LuaSugar
