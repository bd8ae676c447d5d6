import Mathlib
import LuaSugar.Proofs.Project.Bundled
import LuaSugar.Proofs.Project.Materialized
import LuaSugar.Proofs.Project.Stems
/-!
# Outputs of modules

A build that is not bundled writes one output for each module, in the order
of the modules' files, and what is written later replaces what was written
to its place before (`run_writeModules`). An output has the name of its
module but for the extension, so two modules share one exactly if they
share a stem (`same_output_iff`). Files that are found never do, and the
entry does only if its extension is not `lu` (`sameStem_entry`): an output
is lost only to the entry or by it, or where the entry goes up and comes
back (`runBuild_outputs`).
-/

namespace LuaSugar

namespace Project

variable {p : Project} {outDir : Path} {t : FileTree}

/-! ## Roots -/

theorem components_canonical {q root : Path} (h : t.canonical q = .ok root) :
    ∃ rest, root.components = .root :: rest := by
  unfold FileTree.canonical at h
  cases hfind : t.find q with
  | error fault => rw [hfind] at h; cases h
  | ok found =>
    rw [hfind] at h
    obtain rfl := Except.ok.inj h
    unfold FileTree.pathOf
    cases found.1 with
    | nil => exact ⟨_, rfl⟩
    | cons name rest => exact ⟨_, rfl⟩

/-- **The root of a project** begins at the root of all files, with a
descriptor or without. -/
theorem exists_components_root {path : Path} {outFile : Option Path} {bundle minify : Bool}
    (h : load t path = .ok p ∨ ofFile t path outFile bundle minify = .ok p) :
    ∃ rest, p.root.components = .root :: rest := by
  rcases h with h | h
  · unfold load at h
    cases hroot : t.canonical path with
    | error fault => rw [hroot] at h; cases h
    | ok root =>
      rw [hroot] at h
      cases hconfig : Config.load t root with
      | error e => simp only [Except.mapError, bind, Except.bind, hconfig] at h; cases h
      | ok config =>
        simp only [Except.mapError, bind, Except.bind, hconfig] at h
        obtain rfl := Except.ok.inj h
        exact components_canonical hroot
  · unfold ofFile at h
    cases hsource : t.canonical path with
    | error fault => rw [hsource] at h; cases h
    | ok source =>
      rw [hsource] at h
      obtain ⟨rest, hrest⟩ := components_canonical hsource
      simp only [Except.mapError, bind, Except.bind] at h
      split at h
      · cases h
      · cases h
      · rename_i name root hname hparent
        split at h
        · cases h
        obtain rfl := Except.ok.inj h
        -- a source with a name is below the root of all files
        have hcomponents := Path.components_of_fileName hname
        rw [hrest] at hcomponents
        show ∃ rest, root.components = .root :: rest
        rw [Path.components_parent? hparent, hrest]
        cases rest with
        | nil => simp at hcomponents
        | cons c rest => exact ⟨_, rfl⟩

/-! ## Where outputs go -/

/-- Where the output of a module goes; its file has to be below the root. -/
def output? (p : Project) (outDir source : Path) : Option Path :=
  (source.relativeTo? p.root).map fun relative =>
    ((p.fromRoot outDir).join relative).withExtension "lua"

/-- **An output in components.** What leads from the root to the file leads
from the directory of outputs to the output, but for the extension. -/
theorem components_output? (hroot : p.root.components ≠ []) {source o : Path}
    (h : p.output? outDir source = some o) (hname : o.fileName?.isSome) :
    ∃ rest before name, (∀ c ∈ rest, c ≠ .parent → ∃ text, c = .name text) ∧
      source.components = p.root.components ++ rest ∧
      (p.fromRoot outDir).components ++ rest = before ++ [.name name] ∧ name ≠ "" ∧
      o.components = before ++ [.name ((Path.splitExtension name).1 ++ "." ++ "lua")] := by
  obtain ⟨relative, hrelative, rfl⟩ := Option.map_eq_some_iff.1 h
  obtain ⟨hfront, hsource⟩ := Path.components_relativeTo? hroot hrelative
  have hjoin := Path.components_join (p := p.fromRoot outDir) hfront
  -- without a file name there is no output, since nothing takes its place
  cases htarget : ((p.fromRoot outDir).join relative).fileName? with
  | none =>
    rw [Path.withExtension, htarget] at hname
    simp [htarget] at hname
  | some name =>
    have hcomponents := Path.components_withExtension_eq (show "lua" ≠ "" ∧ "lua" ≠ "." by decide) htarget
    -- the extension goes to the last component
    have hlast : (((p.fromRoot outDir).join relative).withExtension "lua").components =
        ((p.fromRoot outDir).join relative).components.dropLast ++
          [.name ((Path.splitExtension name).1 ++ "." ++ "lua")] := by
      split at hcomponents
      · rw [Path.fileName?, hcomponents, List.getLast?_concat] at hname
        cases hname
      · exact hcomponents
    refine ⟨relative.components, _, name, fun c hc hparent => ?_, hsource, ?_,
      Path.fileName?_ne_empty htarget, hlast⟩
    · rw [hfront.components_eq] at hc
      obtain ⟨piece, -, hpiece⟩ := List.mem_filterMap.1 hc
      obtain ⟨c', hc', hkind⟩ := Path.component?_of_name (Path.name_of_component? hpiece)
      obtain rfl := Option.some.inj (hpiece.symm.trans hc')
      exact ⟨piece, hkind.resolve_left hparent⟩
    · rw [← hjoin]
      exact Path.components_of_fileName htarget

theorem eq_nil_or_concat_of_append {α : Type} {front rest before : List α} {last : α}
    (h : front ++ rest = before ++ [last]) :
    rest = [] ∨ ∃ init, rest = init ++ [last] ∧ before = front ++ init := by
  rcases List.eq_nil_or_concat' rest with rfl | ⟨init, last', rfl⟩
  · exact .inl rfl
  · rw [← List.append_assoc] at h
    obtain ⟨hbefore, hlast⟩ := List.append_inj' h rfl
    exact .inr ⟨init, by rw [hlast], hbefore.symm⟩

/-- **Modules share an output** if they share a stem. -/
theorem same_output_iff (hroot : p.root.components ≠ []) {source source' o o' : Path}
    (h : p.output? outDir source = some o) (h' : p.output? outDir source' = some o')
    (hname : o.fileName?.isSome) (hname' : o'.fileName?.isSome) (hne : ¬ source.same source') :
    o.same o' ↔ source.SameStem source' := by
  obtain ⟨rest, before, name, -, hsource, hall, -, ho⟩ := components_output? hroot h hname
  obtain ⟨rest', before', name', -, hsource', hall', -, ho'⟩ := components_output? hroot h' hname'
  rw [Path.same_iff] at hne ⊢
  rw [ho, ho', List.append_singleton_inj, Path.Component.name.injEq, Path.SameStem, hsource, hsource']
  -- either side says that the files are equally deep
  have hroot' := List.length_pos_iff.2 hroot
  have hdeep : before = before' → rest.length = rest'.length := by
    intro heq
    have hlength := congrArg List.length hall
    have hlength' := congrArg List.length hall'
    simp only [List.length_append, List.length_singleton, heq] at hlength hlength'
    omega
  have hdeep' : (p.root.components ++ rest).dropLast = (p.root.components ++ rest').dropLast →
      rest.length = rest'.length := by
    intro heq
    have hlength := congrArg List.length heq
    simp only [List.length_dropLast, List.length_append] at hlength
    omega
  by_cases hlength : rest.length = rest'.length
  swap
  · exact iff_of_false (fun heq => hlength (hdeep heq.1)) fun heq => hlength (hdeep' heq.1)
  rcases eq_nil_or_concat_of_append hall with rfl | ⟨init, rfl, rfl⟩ <;>
    rcases eq_nil_or_concat_of_append hall' with rfl | ⟨init', rfl, rfl⟩
  · exact absurd (hsource.trans hsource'.symm) hne
  · simp at hlength
  · simp at hlength
  rw [← List.append_assoc] at hsource hsource'
  rw [← List.append_assoc, ← List.append_assoc, List.dropLast_concat, List.dropLast_concat,
    List.append_right_inj, List.append_right_inj, Path.fileName?_of_components hsource,
    Path.fileName?_of_components hsource']
  refine and_congr_right fun _ => ⟨fun hstem => ⟨name, name', rfl, rfl, Path.stem_injective hstem⟩, ?_⟩
  rintro ⟨text, text', htext, htext', hstem⟩
  rw [Option.some.inj htext, Option.some.inj htext', hstem]

/-! ## Writing outputs -/

/-- The outputs of modules, as they are written. -/
def outputs (p : Project) (outDir : Path) (entries : List (Path × Chunk)) : List (Path × String) :=
  entries.filterMap fun e => (p.output? outDir e.1).map (·, p.config.layout.render e.2)

theorem mem_outputs {entries : List (Path × Chunk)} {o : Path × String} :
    o ∈ p.outputs outDir entries ↔ ∃ e ∈ entries, p.output? outDir e.1 = some o.1 ∧
      o.2 = p.config.layout.render e.2 := by
  simp only [outputs, List.mem_filterMap, Option.map_eq_some_iff]
  constructor
  · rintro ⟨e, he, path, hpath, rfl⟩
    exact ⟨e, he, hpath, rfl⟩
  · rintro ⟨e, he, hpath, htext⟩
    exact ⟨e, he, o.1, hpath, by rw [← htext]⟩

theorem outputs_cons {source o : Path} (ho : p.output? outDir source = some o) (c : Chunk)
    (entries : List (Path × Chunk)) : p.outputs outDir ((source, c) :: entries) =
      (o, p.config.layout.render c) :: p.outputs outDir entries := by
  rw [outputs, List.filterMap_cons, ho]
  rfl

variable {site site' : Site}

/-- **Each module is written**, one after the other. -/
theorem run_writeModules {entries : List (Path × Chunk)}
    (h : (p.writeModules outDir entries).run.run site = (.ok (), site')) :
    (p.outputs outDir entries).map (fun o => some o.1) = entries.map (fun e => p.output? outDir e.1) ∧
      site'.written = site.written ++ (p.outputs outDir entries).map Prod.fst ∧
      site.files.Wrote site'.files (p.outputs outDir entries) := by
  induction entries generalizing site with
  | nil =>
    obtain ⟨-, rfl⟩ := Prod.mk.inj h
    exact ⟨rfl, by simp [outputs], .nil (.refl _ _)⟩
  | cons e entries ih =>
    obtain ⟨source, c⟩ := e
    rw [writeModules] at h
    cases hrelative : source.relativeTo? p.root with
    | none => rw [hrelative] at h; cases h
    | some relative =>
      rw [hrelative] at h
      obtain ⟨_, site₁, hwrite, hrest⟩ := Building.run_bind_ok h
      obtain ⟨hkeeps, hread, hname, hwritten⟩ := Building.run_writeOutput hwrite
      obtain ⟨hall, hwritten', hwrote⟩ := ih hrest
      have houtput : p.output? outDir source =
          some (((p.fromRoot outDir).join relative).withExtension "lua") := by
        rw [output?, hrelative]
        rfl
      rw [outputs_cons houtput]
      refine ⟨?_, ?_, hwrote.cons hkeeps hread hname⟩
      · rw [List.map_cons, List.map_cons, hall, houtput]
      · rw [hwritten', hwritten]
        simp

/-- What finds the modules leaves the files as they are. -/
theorem run_modules {s : ModuleSet} (h : p.modules.run.run site = (.ok s, site')) :
    (ModuleSet.reachedFrom p (site.files.view [p.root, p.entry]) p.entry).1 = .ok s ∧
      site'.files = site.files ∧ site'.written = site.written := by
  unfold modules at h
  rw [Building.run_get_bind] at h
  dsimp only at h
  rcases hreached : ModuleSet.reachedFrom p (site.files.view [p.root, p.entry]) p.entry with
    ⟨found, notices⟩
  rw [hreached] at h
  obtain ⟨_, site₁, hnote, h⟩ := Building.run_bind_ok h
  obtain ⟨files, hnone, -, rfl⟩ := (Building.does_note notices).of_run_ok hnote
  obtain rfl : site.files = files := (Prod.mk.inj hnone).1
  cases found with
  | error error => cases h
  | ok s' =>
    obtain ⟨hs, rfl⟩ := Prod.mk.inj h
    exact ⟨hs, rfl, rfl⟩

/-! ## Files that share a stem -/

variable {s : ModuleSet}

theorem leads_of_reachedFrom {view : FileView} {entry : Path} (hview : view.Limited p entry)
    (hs : (ModuleSet.reachedFrom p view entry).1 = .ok s) {m : Module} (hm : m ∈ s.modules) :
    Leads p view entry m.path := by
  obtain ⟨hvisits, -⟩ := ModuleSet.exists_of_reachedFrom hview hs
  refine (hvisits.induction_visited (fun q c entries name r hq hcompile hchildren hentry => ?_)
    (by simp) (by simpa using Leads.entry)).1 m.path (List.mem_map_of_mem hm)
  exact .step hq hcompile hchildren hentry

/-- What an entry leads to is found by a name. -/
theorem resolved_of_leads {view : FileView} {entry path : Path} (h : Leads p view entry path) :
    path = entry ∨ ∃ file name, Require.resolve? view p.root file name = some path := by
  cases h with
  | entry => exact .inl rfl
  | step _ _ hchildren hentry => exact .inr ⟨_, _, ((hchildren.mem_iff _ _).1 hentry).2⟩

/-- A module is a file, and the entry or preferred. -/
theorem file_of_reachedFrom
    (hs : (ModuleSet.reachedFrom p (t.view [p.root, p.entry]) p.entry).1 = .ok s) {m : Module}
    (hm : m ∈ s.modules) : t.isFile m.path ∧
      (m.path = p.entry ∨ (m.path.fileName?.isSome → t.Preferred m.path)) := by
  have hlimited : (t.view [p.root, p.entry]).Limited p p.entry := .tree t
  obtain ⟨-, hclosed⟩ := ModuleSet.closed_of_reachedFrom hlimited hs
  have hcompile := hclosed.compile_chunk hm
  constructor
  · unfold FileView.compile at hcompile
    cases hread : (t.view [p.root, p.entry]).read m.path with
    | error fault => rw [hread] at hcompile; cases hcompile
    | ok source =>
      obtain ⟨l, hopens, hnode⟩ := FileTree.read_eq_ok_iff.1 hread
      exact FileTree.isFile_iff.2 ⟨l, _, hopens, hnode, by simp⟩
  · refine (resolved_of_leads (leads_of_reachedFrom hlimited hs hm)).imp_right fun hresolved => ?_
    obtain ⟨file, name, hpath⟩ := hresolved
    exact Require.resolve?_preferred hpath

/-- **Only the entry shares its stem** with another module, and only if its
extension is not `lu`. -/
theorem sameStem_entry
    (hs : (ModuleSet.reachedFrom p (t.view [p.root, p.entry]) p.entry).1 = .ok s) {m m' : Module}
    (hm : m ∈ s.modules) (hm' : m' ∈ s.modules) (hne : ¬ m.path.same m'.path)
    (hstem : m.path.SameStem m'.path) :
    (m.path = p.entry ∨ m'.path = p.entry) ∧ p.entry.extension? ≠ some "lu" := by
  obtain ⟨hfile, hkind⟩ := file_of_reachedFrom hs hm
  obtain ⟨hfile', hkind'⟩ := file_of_reachedFrom hs hm'
  obtain ⟨-, name, name', hname, hname', -⟩ := id hstem
  rw [hname] at hkind
  rw [hname'] at hkind'
  have hnot : ¬ (t.Preferred m.path ∧ t.Preferred m'.path) := fun h =>
    hne (Path.same_iff.2 (h.1.components_eq h.2 hfile hfile' hstem))
  constructor
  · by_contra hother
    rw [not_or] at hother
    exact hnot ⟨hkind.resolve_left hother.1 rfl, hkind'.resolve_left hother.2 rfl⟩
  · intro hextension
    have hentry := FileTree.Preferred.of_extension (t := t) hextension
    refine hnot ⟨?_, ?_⟩
    · rcases hkind with heq | hpreferred
      · rwa [heq]
      · exact hpreferred rfl
    · rcases hkind' with heq | hpreferred
      · rwa [heq]
      · exact hpreferred rfl

/-! ## Outputs at one place -/

/-- A module that is reached from an entry without two dots is below the root
by names only. -/
theorem names_of_leads {view : FileView} {source : Path} (h : Leads p view p.entry source)
    (hup : .parent ∉ p.entry.components) {rest : List Path.Component}
    (hsource : source.components = p.root.components ++ rest)
    (hrest : ∀ c ∈ rest, c ≠ .parent → ∃ text, c = .name text)
    (hlast : rest.getLast? ≠ some .parent) : ∃ names : List String, rest = names.map .name := by
  -- below an origin a file has names only, and of an origin at most a part
  -- is left behind the root
  have hdown : .parent ∉ rest := by
    intro hparent
    obtain ⟨o, ho, up, hcs | ⟨names, -, hcs⟩⟩ := h.descends
    · rw [hsource] at hcs
      have hgetLast := congrArg List.getLast? hcs
      rw [List.getLast?_append_of_ne_nil _ (List.ne_nil_of_mem hparent), List.getLast?_concat] at hgetLast
      exact hlast hgetLast
    rw [hsource] at hcs
    have hdrop : rest = (o.components.take up).drop p.root.components.length ++
        (names.map Path.Component.name).drop
          (p.root.components.length - (o.components.take up).length) := by
      rw [← List.drop_append, ← hcs, List.drop_left]
    rw [hdrop, List.mem_append] at hparent
    rcases hparent with hparent | hparent
    · rcases List.mem_pair.1 ho with rfl | rfl
      · rw [List.drop_of_length_le (by simp)] at hparent
        cases hparent
      · exact hup (List.mem_of_mem_take (List.mem_of_mem_drop hparent))
    · obtain ⟨name, -, hname⟩ := List.mem_map.1 (List.mem_of_mem_drop hparent)
      cases hname
  clear hsource hlast
  induction rest with
  | nil => exact ⟨[], rfl⟩
  | cons c rest ih =>
    rw [List.mem_cons, not_or] at hdown
    obtain ⟨hc, hbehind⟩ := List.forall_mem_cons.1 hrest
    obtain ⟨text, rfl⟩ := hc (Ne.symm hdown.1)
    obtain ⟨names, rfl⟩ := ih hbehind hdown.2
    exact ⟨text :: names, rfl⟩

/-- **Outputs at one place** are one output, or outputs of one module, if the
entry is without two dots. -/
theorem same_of_land_eq (hroot : p.root.components ≠ []) {view : FileView}
    (hup : .parent ∉ p.entry.components) {source source' o o' : Path}
    (hleads : Leads p view p.entry source) (hleads' : Leads p view p.entry source')
    (h : p.output? outDir source = some o) (h' : p.output? outDir source' = some o')
    (hname : o.fileName?.isSome) (hname' : o'.fileName?.isSome)
    (hland : t.land o.components = t.land o'.components) : source.same source' ∨ o.same o' := by
  have hbelow {source o : Path} (hleads : Leads p view p.entry source)
      (h : p.output? outDir source = some o) (hname : o.fileName?.isSome) :
      source.components = p.root.components ∧
          (t.land o.components).length = (t.land (p.fromRoot outDir).components).length ∨
        ∃ (names : List String) (name : String),
          source.components = p.root.components ++ names.map .name ++ [.name name] ∧
          o.components = (p.fromRoot outDir).components ++ names.map .name ++
            [.name ((Path.splitExtension name).1 ++ "." ++ "lua")] := by
    obtain ⟨rest, before, name, hrest, hsource, hall, -, ho⟩ := components_output? hroot h hname
    rcases eq_nil_or_concat_of_append hall with rfl | ⟨init, rfl, rfl⟩
    · rw [List.append_nil] at hsource hall
      refine .inl ⟨hsource, ?_⟩
      rw [hall, ho]
      -- the output replaces the directory of outputs itself
      have hplace (text : String) : t.land (before ++ [.name text]) = t.land before ++ [text] :=
        t.land_names before [text]
      rw [hplace, hplace, List.length_append, List.length_append]
      rfl
    · obtain ⟨names, hnames⟩ := names_of_leads hleads hup hsource hrest (by simp)
      obtain ⟨names, last, rfl, rfl, hlast⟩ := List.map_eq_append_iff.1 hnames.symm
      obtain ⟨text, rfl, htext⟩ := List.map_eq_singleton_iff.1 hlast
      obtain rfl := Path.Component.name.inj htext
      exact .inr ⟨names, _, by rw [hsource, List.append_assoc], ho⟩
  have hplace (names : List String) (text : String) :
      (t.land ((p.fromRoot outDir).components ++ names.map .name ++ [.name text])) =
        t.land (p.fromRoot outDir).components ++ names ++ [text] := by
    rw [← t.land_names]
    exact t.land_names _ [text]
  rw [Path.same_iff, Path.same_iff]
  rcases hbelow hleads h hname with ⟨hsource, ho⟩ | ⟨names, name, hsource, ho⟩ <;>
    rcases hbelow hleads' h' hname' with ⟨hsource', ho'⟩ | ⟨names', name', hsource', ho'⟩
  · exact .inl (hsource.trans hsource'.symm)
  · rw [hland, ho', hplace] at ho
    simp at ho
  · rw [← hland, ho, hplace] at ho'
    simp at ho'
  · rw [ho, ho', hplace, hplace, List.append_assoc, List.append_assoc, List.append_right_inj,
      List.append_singleton_inj] at hland
    rw [ho, ho', hland.1, hland.2]
    exact .inr rfl

/-- **Outputs are apart** if no two modules share a stem and the entry is
without two dots. -/
theorem pairwise_outputs (hroot : p.root.components ≠ [])
    (hs : (ModuleSet.reachedFrom p (t.view [p.root, p.entry]) p.entry).1 = .ok s)
    (hnamed : ∀ o ∈ p.outputs outDir s.chunks.entries, o.1.fileName?.isSome)
    (hstems : ∀ m ∈ s.modules, ∀ m' ∈ s.modules, m.path.SameStem m'.path → m.path.same m'.path)
    (hup : .parent ∉ p.entry.components) (t' : FileTree) :
    (p.outputs outDir s.chunks.entries).Pairwise fun o o' =>
      t'.land o.1.components ≠ t'.land o'.1.components := by
  have hlimited : (t.view [p.root, p.entry]).Limited p p.entry := .tree t
  obtain ⟨-, hclosed⟩ := ModuleSet.closed_of_reachedFrom hlimited hs
  obtain ⟨hordered, hperm⟩ := ModuleSet.perm_chunks hclosed.distinct
  have hmodule {e : Path × Chunk} (he : e ∈ s.chunks.entries) :
      ∃ m ∈ s.modules, m.path = e.1 ∧ ∀ o, p.output? outDir e.1 = some o → o.fileName?.isSome := by
    obtain ⟨m, hm, rfl⟩ := List.mem_map.1 (hperm.mem_iff.1 he)
    exact ⟨m, hm, rfl, fun o ho => hnamed (o, _) (mem_outputs.2 ⟨_, he, ho, rfl⟩)⟩
  refine List.pairwise_filterMap.2 (hordered.imp_of_mem fun {e e'} he he' hlt => ?_)
  obtain ⟨m, hm, hpath, hname⟩ := hmodule he
  obtain ⟨m', hm', hpath', hname'⟩ := hmodule he'
  have hne : ¬ m.path.same m'.path := by
    intro heq
    rw [hpath, hpath', Path.same_iff, ← Path.compare_eq_iff, hlt] at heq
    cases heq
  intro o ho o' ho' hland
  obtain ⟨path, houtput, rfl⟩ := Option.map_eq_some_iff.1 ho
  obtain ⟨path', houtput', rfl⟩ := Option.map_eq_some_iff.1 ho'
  have hname := hname path houtput
  have hname' := hname' path' houtput'
  rw [← hpath] at houtput
  rw [← hpath'] at houtput'
  -- outputs at one place would be one output, whose modules share a stem
  rcases same_of_land_eq hroot hup (leads_of_reachedFrom hlimited hs hm)
    (leads_of_reachedFrom hlimited hs hm') houtput houtput' hname hname' hland with heq | heq
  · exact hne heq
  · have hshared := same_output_iff hroot houtput houtput' hname hname' hne
    exact hne (hstems m hm m' hm' (hshared.1 heq))

/-! ## What is left of each module -/

/-- A build that writes outputs of modules, up to the writing. -/
theorem run_unbundled {fetcher : Fetcher} (h : p.runBuild fetcher t = (.ok (), site))
    (hdir : p.config.outDir = some outDir)
    (hunbundled : p.config.outFile = none ∨ p.config.bundle = false) : ∃ s site₂,
      (ModuleSet.reachedFrom p (t.view [p.root, p.entry]) p.entry).1 = .ok s ∧
        site₂.written = [] ∧
        (p.writeModules outDir s.chunks.entries).run.run site₂ = (.ok (), site) := by
  unfold runBuild build at h
  obtain ⟨s, site₁, hmodules, h⟩ := Building.run_bind_ok h
  obtain ⟨hs, -, hwritten⟩ := run_modules hmodules
  obtain ⟨fetched, site₂, hwritten', h⟩ : ∃ fetched site₂, site₂.written = site₁.written ∧
      (p.writeOutputs s fetched).run.run site₂ = (.ok (), site) := by
    dsimp only at h
    split at h
    · obtain ⟨fetched, site₂, hfetch, h⟩ := Building.run_bind_ok h
      exact ⟨fetched, site₂, (FetchedModule.run_fetchAll hfetch).2.1, h⟩
    · exact ⟨[], site₁, rfl, h⟩
  refine ⟨s, site₂, hs, hwritten'.trans hwritten, ?_⟩
  unfold writeOutputs at h
  rw [hdir] at h
  rcases hunbundled with hfile | hbundle
  · rwa [hfile] at h
  · cases hfile : p.config.outFile with
    | none => rwa [hfile] at h
    | some outFile =>
      rw [hfile] at h
      simpa only [hbundle, Bool.false_eq_true, if_false] using h

/-- What a build that is not bundled leaves of its modules. -/
structure Outputs (p : Project) (outDir : Path) (s : ModuleSet) (site : Site) : Prop where
  /-- Each module is written, in the order of the files. -/
  written : site.written.map some = s.chunks.keys.map (p.output? outDir)
  /-- Modules have one output if they share a stem. -/
  shared : ∀ m ∈ s.modules, ∀ m' ∈ s.modules, ¬ m.path.same m'.path → ∀ o o',
    p.output? outDir m.path = some o → p.output? outDir m'.path = some o' →
    (o.same o' ↔ m.path.SameStem m'.path)
  /-- Only an entry without the extension `lu` shares its stem. -/
  entry : ∀ m ∈ s.modules, ∀ m' ∈ s.modules, ¬ m.path.same m'.path →
    m.path.SameStem m'.path →
    (m.path = p.entry ∨ m'.path = p.entry) ∧ p.entry.extension? ≠ some "lu"
  /-- Of outputs at one place, the last that was written is there. -/
  last : ∀ before source c after, s.chunks.entries = before ++ (source, c) :: after →
    ∀ o, p.output? outDir source = some o →
    (∀ e ∈ after, ∀ o', p.output? outDir e.1 = some o' →
      site.files.land o'.components ≠ site.files.land o.components) →
    ∀ o' ∈ site.written, site.files.land o'.components = site.files.land o.components →
      site.files.read o' = .ok (p.config.layout.render c)
  /-- Where no stem is shared and the entry is without two dots, no output
  is lost. -/
  own : (∀ m ∈ s.modules, ∀ m' ∈ s.modules, m.path.SameStem m'.path → m.path.same m'.path) →
    .parent ∉ p.entry.components →
    site.written.Pairwise (fun o o' => ¬ o.same o') ∧
      ∀ m ∈ s.modules, ∃ o, p.output? outDir m.path = some o ∧
        site.files.read o = .ok (p.config.layout.render m.chunk)

theorem outputs_of_run (hroot : p.root.components ≠ [])
    (hs : (ModuleSet.reachedFrom p (t.view [p.root, p.entry]) p.entry).1 = .ok s)
    (hwritten : site.written = [])
    (h : (p.writeModules outDir s.chunks.entries).run.run site = (.ok (), site')) :
    p.Outputs outDir s site' := by
  have hlimited : (t.view [p.root, p.entry]).Limited p p.entry := .tree t
  obtain ⟨-, hclosed⟩ := ModuleSet.closed_of_reachedFrom hlimited hs
  obtain ⟨-, hperm⟩ := ModuleSet.perm_chunks hclosed.distinct
  obtain ⟨hall, hlist, hwrote⟩ := run_writeModules h
  rw [hwritten, List.nil_append] at hlist
  have hland := hwrote.keeps.land
  have hmem {e : Path × Chunk} : e ∈ s.chunks.entries ↔ ∃ m ∈ s.modules, (m.path, m.chunk) = e := by
    rw [hperm.mem_iff, List.mem_map]
  have hnamed {m : Module} (hm : m ∈ s.modules) {o : Path} (ho : p.output? outDir m.path = some o) :
      o.fileName?.isSome :=
    hwrote.named (o, _) (mem_outputs.2 ⟨_, hmem.2 ⟨m, hm, rfl⟩, ho, rfl⟩)
  -- all of the outputs, where they meet, whose modules meet, which of them
  -- stays, and when none is lost
  refine ⟨?_, ?_, ?_, ?_, ?_⟩
  · rw [hlist, List.map_map, Index.keys, List.map_map]
    exact hall
  · exact fun m hm m' hm' hne o o' ho ho' =>
      same_output_iff hroot ho ho' (hnamed hm ho) (hnamed hm' ho') hne
  · exact fun m hm m' hm' hne hstem => sameStem_entry hs hm hm' hne hstem
  · intro before source c after hentries o ho hafter o' ho' hsame
    rw [hlist] at ho'
    obtain ⟨x, hx, rfl⟩ := List.mem_map.1 ho'
    rw [hland] at hafter hsame
    have hsplit : p.outputs outDir s.chunks.entries = p.outputs outDir before ++
        (o, p.config.layout.render c) :: p.outputs outDir after := by
      rw [← outputs_cons ho, hentries]
      exact List.filterMap_append
    refine hwrote.read hsplit (fun x' hx' => ?_) hx hsame
    obtain ⟨e, he, hpath, -⟩ := mem_outputs.1 hx'
    exact hafter e he x'.1 hpath
  · intro hstems hup
    have hapart := pairwise_outputs hroot hs hwrote.named hstems hup site.files
    constructor
    · rw [hlist]
      refine List.pairwise_map.2 (hapart.imp fun {o o'} hne heq => hne ?_)
      rw [Path.same_iff.1 heq]
    · intro m hm
      have hsome : p.output? outDir m.path ∈ s.chunks.entries.map fun e => p.output? outDir e.1 :=
        List.mem_map.2 ⟨_, hmem.2 ⟨m, hm, rfl⟩, rfl⟩
      rw [← hall] at hsome
      obtain ⟨x, -, hx⟩ := List.mem_map.1 hsome
      refine ⟨x.1, hx.symm, hwrote.read_of_nodup (o := (x.1, p.config.layout.render m.chunk))
        hapart ?_⟩
      exact mem_outputs.2 ⟨_, hmem.2 ⟨m, hm, rfl⟩, hx.symm, rfl⟩

/-- **What becomes of the outputs.** A build of outputs of modules that
succeeds writes each module of the walk from the entry, in the order of
their files. Two modules have one output exactly if they share a stem, and
then the entry is one of them and its extension is not `lu`; of outputs at
one place the one of the last module stays. So if the entry has the
extension `lu` and is without two dots, no two outputs are one, and each
holds its own module. -/
theorem runBuild_outputs {fetcher : Fetcher} (h : p.runBuild fetcher t = (.ok (), site))
    (hdir : p.config.outDir = some outDir)
    (hunbundled : p.config.outFile = none ∨ p.config.bundle = false)
    (hroot : p.root.components ≠ []) : ∃ s,
      (ModuleSet.reachedFrom p (t.view [p.root, p.entry]) p.entry).1 = .ok s ∧
        p.Outputs outDir s site ∧
        (p.entry.extension? = some "lu" → .parent ∉ p.entry.components →
          site.written.Pairwise (fun o o' => ¬ o.same o') ∧
            ∀ m ∈ s.modules, ∃ o, p.output? outDir m.path = some o ∧
              site.files.read o = .ok (p.config.layout.render m.chunk)) := by
  obtain ⟨s, site₂, hs, hwritten, hrun⟩ := run_unbundled h hdir hunbundled
  have houtputs := outputs_of_run hroot hs hwritten hrun
  refine ⟨s, hs, houtputs, fun hextension hup => houtputs.own ?_ hup⟩
  intro m hm m' hm' hstem
  by_contra hne
  exact (houtputs.entry m hm m' hm' hne hstem).2 hextension

/-- A project with a directory of outputs, and its entry. -/
def projectOfEntry (entrypoint : String) : Project :=
  ⟨.ofText "/p", { Config.named "p" with entrypoint, outDir := some (.ofText "out") }⟩

/-- An entry that requires a file, and the file. -/
def treeOfTwo (entry required : String) (file : String) : FileTree :=
  ((FileTree.empty.put ["p"] .directory).put ["p", entry] (.file required)).put ["p", file]
    (.file "return 1")

theorem runBuild_outputs_two :
    let p := projectOfEntry "init.lu"
    let t := treeOfTwo "init.lu" "require 'a'" "a.lua"
    ∃ site s, p.runBuild (.offline "") t = (.ok (), site) ∧
      (ModuleSet.reachedFrom p (t.view [p.root, p.entry]) p.entry).1 = .ok s ∧
      site.written.map Path.text = ["/p/out/a.lua", "/p/out/init.lua"] ∧
      site.written.Pairwise (fun o o' => ¬ o.same o') ∧
      ∀ m ∈ s.modules, ∃ o, p.output? (.ofText "out") m.path = some o ∧
        site.files.read o = .ok (p.config.layout.render m.chunk) := by
  intro p t
  have hrun : (p.runBuild (.offline "") t).1 = .ok () ∧
      (p.runBuild (.offline "") t).2.written.map Path.text = ["/p/out/a.lua", "/p/out/init.lua"] := by
    decide +kernel
  rcases hbuild : p.runBuild (.offline "") t with ⟨_, site⟩
  rw [hbuild] at hrun
  obtain ⟨rfl, hwritten⟩ := hrun
  obtain ⟨s, hs, -, hown⟩ := runBuild_outputs hbuild rfl (.inl rfl) (by decide)
  obtain ⟨hapart, hread⟩ := hown (by decide) (by decide)
  exact ⟨site, s, rfl, hs, hwritten, hapart, hread⟩

/-- An entry that requires the file with its own stem: both are written to one
output, and what was written first is lost. -/
theorem runBuild_loses :
    let p := projectOfEntry "init.lua"
    let t := treeOfTwo "init.lua" "require 'init'" "init.lu"
    ∃ site s m m' o, p.runBuild (.offline "") t = (.ok (), site) ∧
      (ModuleSet.reachedFrom p (t.view [p.root, p.entry]) p.entry).1 = .ok s ∧
      s.modules = [m, m'] ∧ ¬ m.path.same m'.path ∧
      p.output? (.ofText "out") m.path = some o ∧ p.output? (.ofText "out") m'.path = some o ∧
      p.config.layout.render m'.chunk = "return 1\n" ∧
      site.files.read o = .ok "require(\"init\")\n" := by
  intro p t
  let o := Path.ofText "/p/out/init.lua"
  -- the run is computed; the rest reads the parts of what came out
  have hrun : (p.runBuild (.offline "") t).1 = .ok () ∧
      (p.runBuild (.offline "") t).2.files.read o = .ok "require(\"init\")\n" ∧
      (ModuleSet.reachedFrom p (t.view [p.root, p.entry]) p.entry).1.toOption.map (fun s =>
          s.modules.map fun m =>
            (m.path, p.output? (.ofText "out") m.path, p.config.layout.render m.chunk)) =
        some [(.ofText "/p/init.lua", some o, "require(\"init\")\n"),
          (.ofText "/p/init.lu", some o, "return 1\n")] := by
    decide +kernel
  rcases hbuild : p.runBuild (.offline "") t with ⟨_, site⟩
  cases hs : (ModuleSet.reachedFrom p (t.view [p.root, p.entry]) p.entry).1 with
  | error e =>
    rw [hs] at hrun
    cases hrun.2.2
  | ok s =>
    rw [hbuild, hs] at hrun
    obtain ⟨rfl, hread, hmodules⟩ := hrun
    obtain ⟨m, m', hmodules, ⟨hm, ho, -⟩, hm', ho', hrender⟩ : ∃ m m', s.modules = [m, m'] ∧
        (m.path = .ofText "/p/init.lua" ∧ p.output? (.ofText "out") m.path = some o ∧
          p.config.layout.render m.chunk = "require(\"init\")\n") ∧
        m'.path = .ofText "/p/init.lu" ∧ p.output? (.ofText "out") m'.path = some o ∧
          p.config.layout.render m'.chunk = "return 1\n" := by
      simpa [Except.toOption, List.map_eq_cons_iff] using hmodules
    have hne : ¬ m.path.same m'.path := by
      rw [hm, hm']
      decide
    exact ⟨site, s, m, m', o, rfl, rfl, hmodules, hne, ho, ho', hrender, hread⟩

end Project

end LuaSugar
