import Mathlib
import LuaSugar.Proofs.Project.Written
/-!
# Fetched modules on disk

A fetched module is written under a name that is read off its specifier
character by character, and different specifiers may have one name
(`fileName_eq_iff`). Modules are written in the order in which they are
fetched, so of those with one name the last is what is left there
(`fetchAll_materialized`): each module has a file of its own exactly where
no name is there twice.
-/

namespace LuaSugar.FetchedModule

open FileTree (Change)

/-! ## File names -/

/-- A character that stands for itself in a file name. -/
def isKept (c : Char) : Bool := c.isAlphanum || c == '-'

/-- What a character becomes in a file name. -/
def nameChar (c : Char) : Char := if isKept c then c else '_'

theorem nameChar_eq_iff {c d : Char} :
    nameChar c = nameChar d ↔ c = d ∨ isKept c = false ∧ isKept d = false := by
  have hne {c : Char} (hc : isKept c = true) : c ≠ '_' := by
    rintro rfl
    exact absurd hc (by decide)
  unfold nameChar
  cases hc : isKept c <;> cases hd : isKept d <;>
    simp only [if_true, if_false, Bool.false_eq_true, and_self, and_true, and_false, or_true,
      or_false, reduceCtorEq]
  · exact iff_of_false (hne hd).symm (by rintro rfl; rw [hc] at hd; cases hd)
  · exact iff_of_false (hne hc) (by rintro rfl; rw [hc] at hd; cases hd)

theorem toList_fileName (specifier : String) :
    (fileName specifier).toList = specifier.toList.map nameChar ++ ['.', 'l', 'u', 'a'] := by
  rw [fileName, String.toList_append, String.toList_ofList]
  rfl

/-- **Two specifiers have one file name** if they are equally long and
differ only where neither has a character that is kept. -/
theorem fileName_eq_iff {a b : String} : fileName a = fileName b ↔
    List.Forall₂ (fun c d => c = d ∨ isKept c = false ∧ isKept d = false) a.toList b.toList := by
  rw [← String.toList_inj, toList_fileName, toList_fileName, List.append_left_inj]
  generalize a.toList = cs
  generalize b.toList = ds
  induction cs generalizing ds with
  | nil => cases ds <;> simp
  | cons c cs ih => cases ds <;> simp [ih, nameChar_eq_iff]

/-- A file name is a piece of a path, and a name. -/
theorem ofText_fileName (specifier : String) :
    Path.ofText (fileName specifier) = ⟨[fileName specifier]⟩ ∧
      Path.component? (fileName specifier) = some (.name (fileName specifier)) := by
  constructor
  -- no slash is left in the name, so it is one piece
  · have hplain : ∀ c ∈ (fileName specifier).toList, (c == '/') = false := by
      intro c hc
      rw [toList_fileName] at hc
      rcases List.mem_append.1 hc with hc | hc
      · obtain ⟨d, -, rfl⟩ := List.mem_map.1 hc
        unfold nameChar
        split
        · rename_i hkept
          by_contra hslash
          rw [Bool.not_eq_false, beq_iff_eq] at hslash
          rw [hslash] at hkept
          exact absurd hkept (by decide)
        · rfl
      · simp only [List.mem_cons, List.not_mem_nil, or_false] at hc
        rcases hc with rfl | rfl | rfl | rfl <;> rfl
    rw [Path.ofText, Text.pieces, Text.charPieces_of_plain hplain, List.map_singleton,
      String.ofList_toList]
  · have hext := Path.extended_component (show "lua" ≠ "" ∧ "lua" ≠ "." by decide)
      (String.ofList (specifier.toList.map nameChar))
    have hname : String.ofList (specifier.toList.map nameChar) ++ "." ++ "lua" = fileName specifier := by
      rw [← String.toList_inj, toList_fileName]
      simp
    rwa [hname] at hext

/-- Where a module is put, in components. -/
theorem components_fileName (p : Project) (specifier : String) :
    (p.fetchedDir.joinText (fileName specifier)).components =
      p.fetchedDir.components ++ [.name (fileName specifier)] := by
  obtain ⟨hpieces, hname⟩ := ofText_fileName specifier
  have hfiller := Path.name_of_component? hname
  have hcomponents : Path.components ⟨[fileName specifier]⟩ = [.name (fileName specifier)] := by
    rw [Path.components_cons, Path.lead_of_name hfiller, hname]
    rfl
  rw [Path.joinText, hpieces, Path.components_join ⟨by simp, ?_⟩, hcomponents]
  rw [hcomponents, List.filterMap_cons, hname, List.filterMap_nil]

/-- Modules are at one place if their names are one. -/
theorem land_eq_iff (t : FileTree) (p : Project) {a b : String} :
    t.land (p.fetchedDir.joinText (fileName a)).components =
      t.land (p.fetchedDir.joinText (fileName b)).components ↔ fileName a = fileName b := by
  have hland (s : String) : t.land (p.fetchedDir.joinText (fileName s)).components =
      t.land p.fetchedDir.components ++ [fileName s] := by
    rw [components_fileName]
    exact t.land_names _ [_]
  rw [hland, hland, List.append_right_inj, List.singleton_inj]

/-! ## Writing while fetching -/

variable {p : Project} {fetcher : Fetcher} {site site' : Site} {modules : List FetchedModule}

/-- **Fetching** writes the modules that it finds, in order, and no output;
the directory for them is removed only if there are none. -/
theorem run_fetchAll {r : Requirements}
    (h : (fetchAll p fetcher r).run.run site = (.ok modules, site')) :
    (modules ≠ [] → site.files.Wrote site'.files (modules.map (output p))) ∧
      site'.written = site.written ∧
      ∀ m ∈ modules, m.path = p.fetchedDir.joinText (fileName m.specifier) := by
  obtain ⟨found, notices, requests, hcollect, hpaths⟩ := exists_collect_does p fetcher
    (r.outside.length + fetcher.reach + 1) r.outside .empty
  obtain ⟨files, hchange, rfl, rfl⟩ := (fetchAll_does_of_collect hcollect).of_run_ok h
  obtain ⟨t₁, hplacing, htidying⟩ := Change.andThen_eq_ok.1 hchange
  obtain ⟨t₂, hmade, hwrites⟩ := Change.andThen_eq_ok.1 hplacing
  refine ⟨fun hne => ?_, rfl, hpaths⟩
  -- with modules there is nothing to tidy
  have hnone : modules.isEmpty = false := by simpa using hne
  unfold tidying at htidying
  rw [hnone, Bool.false_and, if_neg Bool.false_ne_true] at htidying
  obtain rfl : t₁ = files := (Prod.mk.inj htidying).1
  exact (FileTree.wrote_of_writes hwrites).after (FileTree.keeps_of_directories hmade)

/-! ## What is left of each module -/

/-- **What is materialized.** When fetching succeeds, two of the modules have
one path exactly if their specifiers differ only in characters that no file
name keeps. The file at the path of modules is what the last of them
renders as; so if no path is there twice, every module's file holds the
module. -/
theorem fetchAll_materialized {r : Requirements}
    (h : (fetchAll p fetcher r).run.run site = (.ok modules, site')) :
    (∀ m ∈ modules, ∀ m' ∈ modules, m.path = m'.path ↔
      List.Forall₂ (fun c d => c = d ∨ isKept c = false ∧ isKept d = false)
        m.specifier.toList m'.specifier.toList) ∧
    (∀ before m after, modules = before ++ m :: after → (∀ m' ∈ after, m'.path ≠ m.path) →
      site'.files.read m.path = .ok (p.config.layout.render m.chunk)) ∧
    ((modules.map FetchedModule.path).Nodup →
      ∀ m ∈ modules, site'.files.read m.path = .ok (p.config.layout.render m.chunk)) := by
  obtain ⟨hwrote, -, hpaths⟩ := run_fetchAll h
  have hpath_iff {m m' : FetchedModule} (hm : m ∈ modules) (hm' : m' ∈ modules) :
      m.path = m'.path ↔ fileName m.specifier = fileName m'.specifier := by
    rw [hpaths m hm, hpaths m' hm']
    refine ⟨fun heq => ?_, fun heq => by rw [heq]⟩
    exact (land_eq_iff site.files p).1 (by rw [heq])
  have hlast : ∀ before m after, modules = before ++ m :: after →
      (∀ m' ∈ after, m'.path ≠ m.path) →
      site'.files.read m.path = .ok (p.config.layout.render m.chunk) := by
    rintro before m after rfl hafter
    have hm : m ∈ before ++ m :: after := by simp
    have houtputs : (before ++ m :: after).map (output p) =
        before.map (output p) ++ output p m :: after.map (output p) := by simp
    refine (hwrote (List.ne_nil_of_mem hm)).read houtputs (fun o ho hsame => ?_)
      (List.mem_map_of_mem hm) rfl
    -- who is at one place has one name, and so one path
    obtain ⟨m', hm', rfl⟩ := List.mem_map.1 ho
    have hmem : m' ∈ before ++ m :: after := by simp [hm']
    refine hafter m' hm' ((hpath_iff hmem hm).2 ?_)
    rw [← land_eq_iff site.files p, ← hpaths m' hmem, ← hpaths m hm]
    exact hsame
  refine ⟨fun m hm m' hm' => (hpath_iff hm hm').trans fileName_eq_iff, hlast, fun hnodup m hm => ?_⟩
  obtain ⟨before, after, rfl⟩ := List.append_of_mem hm
  refine hlast before m after rfl fun m' hm' heq => ?_
  rw [List.map_append, List.map_cons] at hnodup
  refine (List.nodup_cons.1 hnodup.of_append_right).1 ?_
  rw [← heq]
  exact List.mem_map_of_mem hm'

/-- A directory, and what answers two addresses that differ in a dot and an
underscore. -/
def siteOfTwo : Site := .ofFiles ⟨Index.empty.insert ["p"] .directory, []⟩

def answersOfTwo (second : String) : Fetcher :=
  .ofAnswers ((Index.empty.insert "http:a.b" (.ok "return 1")).insert second (.ok "return 2"))

def requiresTwo (second : String) : Requirements :=
  (Requirements.empty.insertUri "http:a.b").insertUri second

theorem fetchAll_materialized_apart :
    let p : Project := ⟨.ofText "/p", .named "p"⟩
    ∃ m m' site', (fetchAll p (answersOfTwo "http:a-b") (requiresTwo "http:a-b")).run.run siteOfTwo =
        (.ok [m, m'], site') ∧ m.path.text = "/p/.lu-modules/http_a-b.lua" ∧
      m'.path.text = "/p/.lu-modules/http_a_b.lua" ∧
      site'.files.read m.path = .ok (p.config.layout.render m.chunk) ∧
      site'.files.read m'.path = .ok (p.config.layout.render m'.chunk) := by
  intro p
  have hrun : ((fetchAll p (answersOfTwo "http:a-b") (requiresTwo "http:a-b")).run.run
        siteOfTwo).1.toOption.map (List.map fun m => m.path.text) =
      some ["/p/.lu-modules/http_a-b.lua", "/p/.lu-modules/http_a_b.lua"] := by
    decide +kernel
  rcases hfetch : (fetchAll p (answersOfTwo "http:a-b") (requiresTwo "http:a-b")).run.run
    siteOfTwo with ⟨_ | modules, site'⟩
  · rw [hfetch] at hrun
    cases hrun
  rw [hfetch] at hrun
  obtain ⟨m, m', rfl, hm, hm'⟩ : ∃ m m', modules = [m, m'] ∧
      m.path.text = "/p/.lu-modules/http_a-b.lua" ∧ m'.path.text = "/p/.lu-modules/http_a_b.lua" := by
    simpa [Except.toOption, List.map_eq_cons_iff] using hrun
  have hne : m.path ≠ m'.path := by
    intro heq
    rw [heq, hm'] at hm
    exact absurd hm (by decide)
  have hread := (fetchAll_materialized hfetch).2.2 (by simpa using hne)
  exact ⟨m, m', site', rfl, hm, hm', hread m (by simp), hread m' (by simp)⟩

/-- Two addresses with one file name: the second module is written over the
first, and both are said to be there. -/
theorem fetchAll_overwrites :
    let p : Project := ⟨.ofText "/p", .named "p"⟩
    ∃ m m' site', (fetchAll p (answersOfTwo "http:a_b") (requiresTwo "http:a_b")).run.run siteOfTwo =
        (.ok [m, m'], site') ∧ m.specifier = "http:a.b" ∧ m'.specifier = "http:a_b" ∧
      m.path = m'.path ∧ p.config.layout.render m.chunk = "return 1\n" ∧
      site'.files.read m.path = .ok "return 2\n" := by
  intro p
  let path := Path.ofText "/p/.lu-modules/http_a_b.lua"
  -- the run is computed; the rest reads the parts of what came out
  have hrun : ((fetchAll p (answersOfTwo "http:a_b") (requiresTwo "http:a_b")).run.run
        siteOfTwo).1.toOption.map
        (List.map fun m => (m.specifier, m.path, p.config.layout.render m.chunk)) =
      some [("http:a.b", path, "return 1\n"), ("http:a_b", path, "return 2\n")] ∧
      ((fetchAll p (answersOfTwo "http:a_b") (requiresTwo "http:a_b")).run.run
        siteOfTwo).2.files.read path = .ok "return 2\n" := by
    decide +kernel
  rcases hfetch : (fetchAll p (answersOfTwo "http:a_b") (requiresTwo "http:a_b")).run.run
    siteOfTwo with ⟨_ | modules, site'⟩
  · rw [hfetch] at hrun
    cases hrun.1
  rw [hfetch] at hrun
  obtain ⟨hmodules, hread⟩ := hrun
  obtain ⟨m, m', rfl, ⟨hfirst, hpath, hrender⟩, hsecond, hpath', -⟩ : ∃ m m', modules = [m, m'] ∧
      (m.specifier = "http:a.b" ∧ m.path = path ∧ p.config.layout.render m.chunk = "return 1\n") ∧
        m'.specifier = "http:a_b" ∧ m'.path = path ∧
          p.config.layout.render m'.chunk = "return 2\n" := by
    simpa [Except.toOption, List.map_eq_cons_iff] using hmodules
  exact ⟨m, m', site', rfl, hfirst, hsecond, hpath.trans hpath'.symm, hrender, hpath ▸ hread⟩

end LuaSugar.FetchedModule
