import Mathlib
import LuaSugar.Proofs.Project.Outputs
/-!
# Builds that are refused

A module that is outside the root has no place among the outputs, and a
build that comes to one is refused. It comes to it while it writes, so what
it leaves depends on where that module is in the order of the files. The
files below a root stand together in that order: a path that is not below it
sorts before all of them or behind all of them. So a refused build has
written nothing, or it has written every module that has an output
(`runBuild_refused`).
-/

namespace LuaSugar

/-! ## Paths beside a root -/

namespace Path

theorem isSome_relativeTo? {p base : Path} :
    (p.relativeTo? base).isSome ↔ base.components <+: p.components := by
  rw [← List.isPrefixOf_iff_prefix]
  unfold relativeTo?
  by_cases h : base.components.isPrefixOf p.components
  · rw [if_pos h]
    refine iff_of_true ?_ h
    rcases p.split with ⟨front, rest⟩
    dsimp only
    split <;> rfl
  · rw [if_neg h]
    exact iff_of_false (by simp) h

variable {base q r : List Component}

/-- What comes before a list comes before all that begin with it. -/
theorem compare_lt_of_prefix (h : compare q base = .lt) (hbegins : base <+: r) :
    compare q r = .lt := by
  obtain ⟨rest, rfl⟩ := hbegins
  induction base generalizing q with
  | nil => cases q <;> cases h
  | cons b base ih =>
    cases q with
    | nil => rfl
    | cons a q =>
      rw [List.cons_append, List.compare_cons_cons, Ordering.then_eq_lt]
      rw [List.compare_cons_cons, Ordering.then_eq_lt] at h
      exact h.imp_right fun h => ⟨h.1, ih h.2⟩

/-- What comes behind a list and does not begin with it comes behind all
that do. -/
theorem compare_gt_of_prefix (h : compare q base = .gt) (hnot : ¬ base <+: q)
    (hbegins : base <+: r) : compare q r = .gt := by
  obtain ⟨rest, rfl⟩ := hbegins
  induction base generalizing q with
  | nil => exact absurd (List.nil_prefix) hnot
  | cons b base ih =>
    cases q with
    | nil => cases h
    | cons a q =>
      rw [List.cons_append, List.compare_cons_cons, Ordering.then_eq_gt]
      rw [List.compare_cons_cons, Ordering.then_eq_gt] at h
      refine h.imp_right fun h => ⟨h.1, ih h.2 fun hq => hnot ?_⟩
      rw [Std.LawfulEqOrd.eq_of_compare h.1]
      exact List.cons_prefix_cons.2 ⟨rfl, hq⟩

end Path

/-! ## Where a module outside the root is noticed -/

namespace Building

variable {α β : Type}

/-- Steps that fail only because of a path. -/
def FailsAtPath (m : Building α) : Prop :=
  ∀ site e, (m.run.run site).1 = .error e → ∃ path fault, e = .file path fault

theorem FailsAtPath.bind {m : Building α} {f : α → Building β} (hm : FailsAtPath m)
    (hf : ∀ value, FailsAtPath (f value)) : FailsAtPath (m >>= f) := by
  intro site e h
  rw [run_bind] at h
  rcases hrun : m.run.run site with ⟨e' | value, site'⟩
  · rw [hrun] at h
    obtain rfl := Except.error.inj h
    exact hm site e' (by rw [hrun])
  · rw [hrun] at h
    exact hf value site' e h

/-- Steps fail because of a path if their change of files is refused there. -/
theorem Does.failsAtPath {m : Building α} {change : FileTree.Change} {value : α}
    {notices : List Notice} {asked : List Request} (h : m.Does change value notices asked)
    (hchange : ∀ t e, (change t).2 = .error e → ∃ path fault, e = .file path fault) :
    FailsAtPath m := by
  intro site e herror
  rcases hfiles : change site.files with ⟨files, e' | _⟩
  · obtain ⟨said, made, -, -, hrun⟩ := h.run_error site hfiles
    rw [hrun] at herror
    obtain rfl := Except.error.inj herror
    exact hchange site.files e' (by rw [hfiles])
  · rw [h.run_ok site hfiles] at herror
    cases herror

theorem failsAtPath_makeDirectories (path : Path) : FailsAtPath (makeDirectories path) := by
  refine (does_makeDirectories path).failsAtPath fun t e h => ?_
  unfold FileTree.Change.directories at h
  split at h
  · cases h
  · exact ⟨path, _, (Except.error.inj h).symm⟩

theorem failsAtPath_write (path : Path) (text : String) : FailsAtPath (write path text) := by
  refine (does_write path text).failsAtPath fun t e h => ?_
  unfold FileTree.Change.write FileTree.Change.onPath at h
  split at h
  · cases h
  · exact ⟨path, _, (Except.error.inj h).symm⟩

theorem failsAtPath_writeOutput (path : Path) (text : String) :
    FailsAtPath (writeOutput path text) := by
  have hwritten : FailsAtPath (do
      write path text
      modify fun s => { s with written := s.written ++ [path] }) :=
    (failsAtPath_write path text).bind fun _ _ _ h => nomatch h
  unfold writeOutput
  split
  · exact (failsAtPath_makeDirectories _).bind fun _ => hwritten
  · exact hwritten

/-- Steps that fail because of a path refuse no module. -/
theorem FailsAtPath.ne_outsideRoot {m : Building α} (h : FailsAtPath m) {site site' : Site}
    {e : BuildError} (hrun : m.run.run site = (.error e, site')) (q : Path) :
    e ≠ .outsideRoot q := by
  obtain ⟨path, fault, rfl⟩ := h site e (by rw [hrun])
  exact fun h => nomatch h

end Building

namespace Project

variable {p : Project} {outDir q : Path} {t : FileTree} {site site' : Site} {fetcher : Fetcher}

/-- **A module is refused** behind those that were written. -/
theorem run_writeModules_refused {entries : List (Path × Chunk)}
    (h : (p.writeModules outDir entries).run.run site = (.error (.outsideRoot q), site')) :
    q.relativeTo? p.root = none ∧ ∃ before c after, entries = before ++ (q, c) :: after ∧
      (p.writeModules outDir before).run.run site = (.ok (), site') := by
  induction entries generalizing site with
  | nil => cases h
  | cons e entries ih =>
    obtain ⟨source, c⟩ := e
    rw [writeModules] at h
    cases hrelative : source.relativeTo? p.root with
    | none =>
      rw [hrelative] at h
      obtain ⟨herror, rfl⟩ := Prod.mk.inj h
      -- refused at the first module, before anything is written
      obtain rfl := BuildError.outsideRoot.inj (Except.error.inj herror)
      exact ⟨hrelative, [], c, entries, rfl, rfl⟩
    | some relative =>
      rw [hrelative] at h
      dsimp only at h
      rw [Building.run_bind] at h
      rcases hwrite : (Building.writeOutput
        (((p.fromRoot outDir).join relative).withExtension "lua")
        (p.config.layout.render c)).run.run site with ⟨e | _, site₁⟩
      · rw [hwrite] at h
        obtain ⟨herror, rfl⟩ := Prod.mk.inj h
        -- a failing write names a path, and no root
        exact absurd (Except.error.inj herror)
          ((Building.failsAtPath_writeOutput _ _).ne_outsideRoot hwrite q)
      · rw [hwrite] at h
        -- refused behind the first module, which is written
        obtain ⟨hnone, before, c', after, rfl, hbefore⟩ := ih h
        refine ⟨hnone, (source, c) :: before, c', after, rfl, ?_⟩
        rw [writeModules, hrelative]
        dsimp only
        rw [Building.run_bind, hwrite]
        exact hbefore

/-- No file of a walk is refused before it is to be written. -/
theorem error_of_reachedFrom {view : FileView} {entry : Path} (hview : view.Limited p entry)
    {e : BuildError} (h : (ModuleSet.reachedFrom p view entry).1 = .error e) :
    e ≠ .outsideRoot q := by
  obtain ⟨failed, hvisits, herror⟩ := exists_depthFirst hview
  unfold ModuleSet.reachedFrom at h
  rcases hleft : Exploration.explore p view (view.reach + 1) [entry] .empty with ⟨_, _ | e'⟩
  · rw [hleft] at h
    cases h
  · rw [hleft] at h herror
    obtain rfl : e' = e := Except.error.inj h
    obtain ⟨⟨path, e⟩, rfl, rfl⟩ := Option.map_eq_some_iff.1 herror.symm
    obtain ⟨hcompile, -⟩ := hvisits.failed_spec rfl
    rcases FileView.compile_error hcompile with ⟨fault, rfl⟩ | ⟨cause, rfl⟩ <;>
      exact fun h => nomatch h

/-- What the writing of outputs refuses is refused while it writes those of
modules. -/
theorem run_writeOutputs_refused {s : ModuleSet} {fetched : List FetchedModule}
    (h : (p.writeOutputs s fetched).run.run site = (.error (.outsideRoot q), site'))
    (hdir : p.config.outDir = some outDir) :
    (p.writeModules outDir s.chunks.entries).run.run site = (.error (.outsideRoot q), site') := by
  have hsingle {path : Path} {text : String} : (Building.writeOutput path text).run.run site ≠
      (.error (.outsideRoot q), site') := fun hrun =>
    (Building.failsAtPath_writeOutput path text).ne_outsideRoot hrun q rfl
  unfold writeOutputs at h
  rw [hdir] at h
  cases hfile : p.config.outFile with
  | none => rwa [hfile] at h
  | some outFile =>
    rw [hfile] at h
    dsimp only at h
    split at h
    · exact absurd h hsingle
    · exact h

/-- What finds the modules refuses none. -/
theorem run_modules_ne (site : Site) :
    (p.modules.run.run site).1 ≠ .error (.outsideRoot q) := by
  intro h
  unfold modules at h
  rw [Building.run_get_bind] at h
  dsimp only at h
  rcases hreached : ModuleSet.reachedFrom p (site.files.view [p.root, p.entry]) p.entry with
    ⟨found, notices⟩
  rw [hreached] at h
  cases found with
  | ok s => cases h
  | error e =>
    have hfound : (ModuleSet.reachedFrom p (site.files.view [p.root, p.entry]) p.entry).1 =
        .error e := by rw [hreached]
    exact error_of_reachedFrom (.tree site.files) hfound (Except.error.inj h)

/-- A build that is refused has found its modules and comes to write them. -/
theorem run_refused (h : p.runBuild fetcher t = (.error (.outsideRoot q), site))
    (hdir : p.config.outDir = some outDir)
    (hlocal : ∀ s, (ModuleSet.reachedFrom p (t.view [p.root, p.entry]) p.entry).1 = .ok s →
      s.requires.needsFetching = false) : ∃ s site₁,
      (ModuleSet.reachedFrom p (t.view [p.root, p.entry]) p.entry).1 = .ok s ∧
        site₁.files = t ∧ site₁.written = [] ∧
        (p.writeModules outDir s.chunks.entries).run.run site₁ =
          (.error (.outsideRoot q), site) := by
  unfold runBuild build at h
  rw [Building.run_bind] at h
  have hfound := run_modules_ne (p := p) (q := q) (.ofFiles t)
  rcases hmodules : p.modules.run.run (.ofFiles t) with ⟨e | s, site₁⟩
  · rw [hmodules] at h hfound
    obtain rfl : e = .outsideRoot q := Except.error.inj (Prod.mk.inj h).1
    exact absurd rfl hfound
  · rw [hmodules] at h
    obtain ⟨hs, hfiles, hwritten⟩ := run_modules hmodules
    have houtputs : (p.writeOutputs s []).run.run site₁ = (.error (.outsideRoot q), site) := by
      simpa only [hlocal s hs, Bool.false_eq_true, if_false, pure_bind] using h
    exact ⟨s, site₁, hs, hfiles, hwritten, run_writeOutputs_refused houtputs hdir⟩

/-! ## What a refused build leaves -/

theorem outputs_append (before after : List (Path × Chunk)) :
    p.outputs outDir (before ++ after) = p.outputs outDir before ++ p.outputs outDir after :=
  List.filterMap_append

theorem outputs_eq_nil {entries : List (Path × Chunk)}
    (h : ∀ e ∈ entries, e.1.relativeTo? p.root = none) : p.outputs outDir entries = [] :=
  List.filterMap_eq_nil_iff.2 fun e he => by rw [output?, h e he]; rfl

/-- **What a refused build has written** depends on the order of the paths.
The module that it is refused for is one of those that the entry leads to,
and the first of them that is not below the root. If it sorts before the
root then nothing is written and no file has changed; otherwise it sorts
behind the root, and all outputs are written: every module that is below
the root has its output, as if the build had not been refused. -/
theorem runBuild_refused (h : p.runBuild fetcher t = (.error (.outsideRoot q), site))
    (hdir : p.config.outDir = some outDir)
    (hlocal : ∀ s, (ModuleSet.reachedFrom p (t.view [p.root, p.entry]) p.entry).1 = .ok s →
      s.requires.needsFetching = false) : ∃ s,
      (ModuleSet.reachedFrom p (t.view [p.root, p.entry]) p.entry).1 = .ok s ∧
        q ∈ s.chunks.keys ∧ q.relativeTo? p.root = none ∧
        (compare q p.root = .lt ∧ site.written = [] ∧ site.files = t ∨
          compare q p.root = .gt ∧
            site.written = (p.outputs outDir s.chunks.entries).map Prod.fst ∧
            t.Wrote site.files (p.outputs outDir s.chunks.entries)) := by
  obtain ⟨s, site₁, hs, hfiles, hwritten, hrun⟩ := run_refused h hdir hlocal
  obtain ⟨hnone, before, c, after, hentries, hbefore⟩ := run_writeModules_refused hrun
  have hlimited : (t.view [p.root, p.entry]).Limited p p.entry := .tree t
  obtain ⟨-, hclosed⟩ := ModuleSet.closed_of_reachedFrom hlimited hs
  obtain ⟨hordered, -⟩ := ModuleSet.perm_chunks hclosed.distinct
  have hnot : ¬ p.root.components <+: q.components := by
    rw [← Path.isSome_relativeTo?, hnone]
    exact Bool.false_ne_true
  unfold Index.Ordered at hordered
  rw [hentries, List.pairwise_append, List.pairwise_cons] at hordered
  obtain ⟨-, ⟨hafter, -⟩, hlt⟩ := hordered
  obtain ⟨hall, hlist, hwrote⟩ := run_writeModules hbefore
  have hbelow : ∀ e ∈ before, p.root.components <+: e.1.components := by
    intro e he
    have hsome : p.output? outDir e.1 ∈ before.map fun e => p.output? outDir e.1 :=
      List.mem_map.2 ⟨e, he, rfl⟩
    rw [← hall] at hsome
    obtain ⟨o, -, ho⟩ := List.mem_map.1 hsome
    obtain ⟨relative, hrelative, -⟩ := Option.map_eq_some_iff.1 ho.symm
    rw [← Path.isSome_relativeTo?, hrelative]
    rfl
  refine ⟨s, hs, ?_, hnone, ?_⟩
  · rw [Index.keys, hentries]
    simp
  cases hcompare : compare q p.root with
  | eq =>
    rw [Path.compare_eq_iff] at hcompare
    exact absurd (hcompare ▸ List.prefix_rfl) hnot
  | lt =>
    -- what is written before is below the root, and behind the module
    have hnil : before = [] := by
      refine List.eq_nil_iff_forall_not_mem.2 fun e he => ?_
      have hfirst : compare e.1 q = .lt := hlt e he _ List.mem_cons_self
      have hbehind : compare q e.1 = .lt := Path.compare_lt_of_prefix hcompare (hbelow e he)
      rw [Index.compare_swap, hbehind] at hfirst
      cases hfirst
    subst hnil
    obtain ⟨-, rfl⟩ := Prod.mk.inj hbefore
    exact .inl ⟨rfl, hwritten, hfiles⟩
  | gt =>
    -- and what is behind the module is not below the root
    have hrest : p.outputs outDir ((q, c) :: after) = [] := by
      refine outputs_eq_nil (List.forall_mem_cons.2 ⟨hnone, fun e he => ?_⟩)
      rw [← Option.not_isSome_iff_eq_none, Path.isSome_relativeTo?]
      intro hbegins
      have hbehind : compare q e.1 = .gt := Path.compare_gt_of_prefix hcompare hnot hbegins
      rw [hafter e he] at hbehind
      cases hbehind
    rw [hentries, outputs_append, hrest, List.append_nil]
    rw [hwritten, List.nil_append] at hlist
    exact .inr ⟨rfl, hlist, hfiles ▸ hwrote⟩

/-- A project whose entry requires a file beside the root, and the file. -/
def treeOfBeside (directory : String) : FileTree :=
  ((((FileTree.empty.put ["p"] .directory).put ["p", "init.lu"]
    (.file ("require '../" ++ directory ++ "/x'"))).put [directory] .directory).put
      [directory, "x.lu"] (.file "return 1"))

/-- The file sorts before the root: nothing is written. -/
theorem runBuild_refused_before :
    let p := projectOfEntry "init.lu"
    let t := treeOfBeside "a"
    ∃ site, p.runBuild (.offline "") t = (.error (.outsideRoot (.ofText "/a/x.lu")), site) ∧
      site.written = [] ∧ site.files = t := by
  intro p t
  have hrun : (p.runBuild (.offline "") t).1 = .error (.outsideRoot (.ofText "/a/x.lu")) ∧
      (ModuleSet.reachedFrom p (t.view [p.root, p.entry]) p.entry).1.toOption.all
        (fun s => !s.requires.needsFetching) = true ∧
      compare (Path.ofText "/a/x.lu") p.root = .lt := by
    decide +kernel
  obtain ⟨herror, hlocal, hlt⟩ := hrun
  rcases hbuild : p.runBuild (.offline "") t with ⟨_, site⟩
  rw [hbuild] at herror
  obtain rfl := herror
  obtain ⟨s, hs, -, -, ⟨-, hwritten, hfiles⟩ | ⟨hgt, -⟩⟩ := runBuild_refused hbuild rfl
    fun s hs => by
      rw [hs] at hlocal
      simpa [Except.toOption] using hlocal
  · exact ⟨site, rfl, hwritten, hfiles⟩
  · rw [hlt] at hgt
    cases hgt

/-- The file sorts behind the root: the build is refused with the output of
the entry written. -/
theorem runBuild_refused_behind :
    let p := projectOfEntry "init.lu"
    let t := treeOfBeside "q"
    ∃ s site, (ModuleSet.reachedFrom p (t.view [p.root, p.entry]) p.entry).1 = .ok s ∧
      s.requires.needsFetching = false ∧
      p.runBuild (.offline "") t = (.error (.outsideRoot (.ofText "/q/x.lu")), site) ∧
      site.written.map Path.text = ["/p/out/init.lua"] ∧
      t.read (.ofText "/p/out/init.lua") = .error .notFound ∧
      site.files.read (.ofText "/p/out/init.lua") = .ok "require(\"../q/x\")\n" := by
  intro p t
  -- the run is computed; the rest reads the parts of what came out
  have hrun : (ModuleSet.reachedFrom p (t.view [p.root, p.entry]) p.entry).1.toOption.map
        (fun s => s.requires.needsFetching) = some false ∧
      (p.runBuild (.offline "") t).1 = .error (.outsideRoot (.ofText "/q/x.lu")) ∧
      (p.runBuild (.offline "") t).2.written.map Path.text = ["/p/out/init.lua"] ∧
      t.read (.ofText "/p/out/init.lua") = .error .notFound ∧
      (p.runBuild (.offline "") t).2.files.read (.ofText "/p/out/init.lua") =
        .ok "require(\"../q/x\")\n" := by
    decide +kernel
  rcases hbuild : p.runBuild (.offline "") t with ⟨_, site⟩
  cases hs : (ModuleSet.reachedFrom p (t.view [p.root, p.entry]) p.entry).1 with
  | error e =>
    rw [hs] at hrun
    cases hrun.1
  | ok s =>
    rw [hbuild, hs] at hrun
    obtain ⟨hlocal, rfl, hwritten, hbefore, hafter⟩ := hrun
    exact ⟨s, site, rfl, Option.some.inj hlocal, rfl, hwritten, hbefore, hafter⟩

end Project

end LuaSugar
