import Mathlib
import LuaSugar.Proofs.Project.Closure
import LuaSugar.Proofs.Project.Fetched
/-!
# No call goes missing

A call of `require` has one of six fates, which its text and the files
decide (`Fate`). Sorting the calls of a module treats each by its fate:
what is required afterwards, and what there is a notice about, is what the
fates of the calls say and nothing else (`ofModule_accounted`). Merging the
requirements of modules gives a name up only to another file that has it,
and then there is a notice (`Exploration.Keeps`).
-/

namespace LuaSugar

/-! ## Fates -/

/-- What becomes of a call. -/
inductive Fate where
  /-- Its text is the address of a module. -/
  | address
  | package (package : Package)
  /-- It leads to a file of the project. -/
  | file (path : Path)
  /-- It leads to no file, and the runtime provides what it requires. -/
  | provided
  /-- It leads to no file. -/
  | missing
  | malformed
deriving DecidableEq

/-- The fate of a call with a text. -/
def Fate.of (p : Project) (view : FileView) (file : Path) (text : String) : Fate :=
  match Reference.ofSpecifier? text with
  | none => malformed
  | some (.uri _) => address
  | some (.package q) => package q
  | some (.localModule _) =>
    match Require.resolve? view p.root file text with
    | some path => Fate.file path
    | none => if p.config.isProvided text then provided else missing

/-- Whether a notice is about a text that leads to no file. -/
def Notice.misses (text : String) : Notice → Bool
  | unresolved name _ _ => name == text
  | _ => false

/-- Whether a notice is about a malformed text. -/
def Notice.rejects (text : String) : Notice → Bool
  | malformedIn specifier _ _ => specifier == text
  | _ => false

namespace Requirements

variable {p : Project} {view : FileView} {file : Path} {calls : List Require.Call}

/-- What a file requires and the notices about it account for its calls. -/
structure Accounted (p : Project) (view : FileView) (file : Path) (calls : List Require.Call)
    (r : Requirements) (notices : List Notice) : Prop where
  /-- Addresses are the texts that are addresses. -/
  uris : ∀ text, text ∈ r.uris.keys ↔
    ∃ call ∈ calls, call.specifier = text ∧ Fate.of p view file text = .address
  packages : ∀ q, q ∈ r.packages.keys ↔
    ∃ call ∈ calls, Fate.of p view file call.specifier = .package q
  /-- A name stands for the file that it leads to. -/
  modules : ∀ text path, (text, path) ∈ r.modules.entries ↔
    ∃ call ∈ calls, call.specifier = text ∧ Fate.of p view file text = .file path
  /-- About a text that leads nowhere there is one notice, at its first call. -/
  missing : ∀ text, Fate.of p view file text = .missing →
    notices.filter (Notice.misses text) =
      ((calls.find? fun call => call.specifier == text).map fun call =>
        Notice.unresolved text (p.shown file) call.line).toList
  /-- About a malformed text there is a notice for each call. -/
  malformed : ∀ text, Fate.of p view file text = .malformed →
    notices.filter (Notice.rejects text) =
      (calls.filter fun call => call.specifier == text).map fun call =>
        Notice.malformedIn text (p.shown file) call.line
  /-- There are no other notices. -/
  told : ∀ notice ∈ notices, notice.severity = .warning ∧ ∃ call ∈ calls,
    Fate.of p view file call.specifier = .missing ∧
        notice = .unresolved call.specifier (p.shown file) call.line ∨
      Fate.of p view file call.specifier = .malformed ∧
        notice = .malformedIn call.specifier (p.shown file) call.line

/-! ## Sorting one call -/

/-- **What sorting a call does** is decided by its fate. A name that has a
file has the one the call leads to, so that nothing is said about it. -/
theorem add_eq {s : Sorting} {call : Require.Call}
    (h : s.requirements.Sound p view file calls) : s.add p view file call =
      match Fate.of p view file call.specifier with
      | .address => { s with requirements := s.requirements.insertUri call.specifier }
      | .package q => { s with requirements := s.requirements.insertPackage q }
      | .file path =>
        { s with requirements := (s.requirements.insertModule call.specifier path).1 }
      | .provided => s
      | .missing =>
        if s.unresolved.contains call.specifier then s
        else
          { s with
            unresolved := s.unresolved.add call.specifier
            notices := s.notices ++ [.unresolved call.specifier (p.shown file) call.line] }
      | .malformed =>
        { s with
          notices := s.notices ++ [.malformedIn call.specifier (p.shown file) call.line] } := by
  unfold Sorting.add Fate.of
  rcases href : Reference.ofSpecifier? call.specifier with _ | (uri | q | name)
  · rfl
  · have htext : uri = call.specifier := Reference.text_of_ofSpecifier? href
    rw [htext]
  · rfl
  · obtain rfl : name = call.specifier := Reference.text_of_ofSpecifier? href
    dsimp only
    cases hpath : Require.resolve? view p.root file call.specifier with
    | some path =>
      -- a name met before has the file that it leads to now, so that there is
      -- no conflict
      have hquiet : (s.requirements.insertModule call.specifier path).2 = [] := by
        unfold insertModule
        cases hfind : s.requirements.modules.find? call.specifier with
        | none => rfl
        | some first =>
          obtain ⟨key, hmem, hkey⟩ := Index.exists_of_find?_eq_some hfind
          obtain rfl := Std.LawfulEqOrd.eq_of_compare hkey
          have hfirst := ((h.modules _ _).1 hmem).2
          rw [hpath] at hfirst
          obtain rfl := Option.some.inj hfirst
          exact if_pos (Path.same_iff.2 rfl)
      dsimp only
      rw [hquiet, List.append_nil]
    | none =>
      dsimp only
      cases p.config.isProvided call.specifier <;> rfl

/-! ## Sorting all calls -/

variable {s : Sorting} {call : Require.Call}

theorem exists_mem_snoc {Q : Require.Call → Prop} :
    (∃ c ∈ calls ++ [call], Q c) ↔ (∃ c ∈ calls, Q c) ∨ Q call := by
  simp only [List.mem_append, List.mem_singleton, or_and_right, exists_or, exists_eq_left]

section

variable (h : s.requirements.Sound p view file calls)
include h

theorem mem_uris_add (text : String) :
    text ∈ (s.add p view file call).requirements.uris.keys ↔
      text ∈ s.requirements.uris.keys ∨
        call.specifier = text ∧ Fate.of p view file text = .address := by
  have hother (hne : Fate.of p view file call.specifier ≠ .address) :
      text ∈ s.requirements.uris.keys ↔ text ∈ s.requirements.uris.keys ∨
        call.specifier = text ∧ Fate.of p view file text = .address :=
    (or_iff_left fun ⟨htext, hfate⟩ => hne (htext ▸ hfate)).symm
  rw [add_eq h]
  cases hfate : Fate.of p view file call.specifier with
  | address =>
    -- an address adds itself to the addresses, and nothing else does
    show text ∈ (s.requirements.uris.add call.specifier).keys ↔ _
    rw [Index.mem_keys_add, or_comm]
    refine or_congr_right ⟨?_, fun h => h.1.symm⟩
    rintro rfl
    exact ⟨rfl, hfate⟩
  | file path =>
    rw [hfate] at hother
    show text ∈ (s.requirements.insertModule call.specifier path).1.uris.keys ↔ _
    rw [insertModule_modules]
    split <;> exact hother (by simp)
  | missing =>
    rw [hfate] at hother
    dsimp only
    split <;> exact hother (by simp)
  | package _ | provided | malformed =>
    rw [hfate] at hother
    exact hother (by simp)

theorem mem_packages_add (q : Package) :
    q ∈ (s.add p view file call).requirements.packages.keys ↔
      q ∈ s.requirements.packages.keys ∨ Fate.of p view file call.specifier = .package q := by
  have hother (hne : Fate.of p view file call.specifier ≠ .package q) :
      q ∈ s.requirements.packages.keys ↔ q ∈ s.requirements.packages.keys ∨
        Fate.of p view file call.specifier = .package q :=
    (or_iff_left hne).symm
  rw [add_eq h]
  cases hfate : Fate.of p view file call.specifier with
  | package r =>
    show q ∈ (s.requirements.packages.add r).keys ↔ _
    rw [Index.mem_keys_add, or_comm, Fate.package.injEq, eq_comm (a := q)]
  | file path =>
    rw [hfate] at hother
    show q ∈ (s.requirements.insertModule call.specifier path).1.packages.keys ↔ _
    rw [insertModule_modules]
    split <;> exact hother (by simp)
  | missing =>
    rw [hfate] at hother
    dsimp only
    split <;> exact hother (by simp)
  | address | provided | malformed =>
    rw [hfate] at hother
    exact hother (by simp)

/-- What is said about one more call. -/
theorem notices_add : (s.add p view file call).notices = s.notices ++
    match Fate.of p view file call.specifier with
    | .missing =>
      if s.unresolved.contains call.specifier then []
      else [.unresolved call.specifier (p.shown file) call.line]
    | .malformed => [.malformedIn call.specifier (p.shown file) call.line]
    | _ => [] := by
  rw [add_eq h]
  cases Fate.of p view file call.specifier with
  | missing =>
    dsimp only
    split
    · exact (List.append_nil _).symm
    · rfl
  | malformed => rfl
  | address | package _ | file _ | provided => exact (List.append_nil _).symm

theorem unresolved_add (text : String) :
    (s.add p view file call).unresolved.contains text ↔ s.unresolved.contains text ∨
      call.specifier = text ∧ Fate.of p view file text = .missing := by
  have hother (hne : Fate.of p view file call.specifier ≠ .missing) :
      s.unresolved.contains text ↔ s.unresolved.contains text ∨
        call.specifier = text ∧ Fate.of p view file text = .missing :=
    (or_iff_left fun ⟨htext, hfate⟩ => hne (htext ▸ hfate)).symm
  rw [add_eq h]
  cases hfate : Fate.of p view file call.specifier with
  | missing =>
    dsimp only
    split
    · rename_i hknown
      refine (or_iff_left_of_imp ?_).symm
      rintro ⟨rfl, -⟩
      exact hknown
    · rw [Index.contains_add_iff, or_comm]
      refine or_congr_right ⟨?_, fun h => h.1.symm⟩
      rintro rfl
      exact ⟨rfl, hfate⟩
  | address | package _ | file _ | provided | malformed =>
    rw [hfate] at hother
    exact hother (by simp)

end

/-- While calls are sorted, what was found so far accounts for those before,
and the texts that lead nowhere are known. -/
structure Sorts (p : Project) (view : FileView) (file : Path) (calls : List Require.Call)
    (s : Sorting) : Prop where
  sound : s.requirements.Sound p view file calls
  unresolved : ∀ text, s.unresolved.contains text ↔
    ∃ call ∈ calls, call.specifier = text ∧ Fate.of p view file text = .missing
  accounted : Accounted p view file calls s.requirements s.notices

/-- A text that leads nowhere is known once it was called with. -/
theorem Sorts.contains_iff (h : Sorts p view file calls s) {text : String}
    (hfate : Fate.of p view file text = .missing) :
    s.unresolved.contains text ↔ ∃ c ∈ calls, c.specifier = text := by
  rw [h.unresolved]
  exact exists_congr fun c => and_congr_right fun _ => and_iff_left hfate

/-- One notice about a text that leads nowhere, however often it is called
with. -/
theorem Sorts.missing_add (h : Sorts p view file calls s) {text : String}
    (hfate : Fate.of p view file text = .missing) :
    (s.add p view file call).notices.filter (Notice.misses text) =
      (((calls ++ [call]).find? fun c => c.specifier == text).map fun c =>
        Notice.unresolved text (p.shown file) c.line).toList := by
  rw [notices_add h.sound, List.filter_append, h.accounted.missing text hfate, List.find?_append]
  -- a call of the same name is told of once, where it was first missing
  by_cases htext : call.specifier = text
  · subst htext
    simp only [hfate]
    cases hfind : calls.find? fun c => c.specifier == call.specifier with
    | some first =>
      have hknown : s.unresolved.contains call.specifier :=
        (h.contains_iff hfate).2 ⟨first, List.mem_of_find?_eq_some hfind,
          by simpa using List.find?_some hfind⟩
      rw [if_pos hknown]
      simp
    | none =>
      have hnew : ¬ s.unresolved.contains call.specifier := fun hknown => by
        obtain ⟨c, hc, hsame⟩ := (h.contains_iff hfate).1 hknown
        simpa [hsame] using List.find?_eq_none.1 hfind c hc
      rw [if_neg hnew]
      simp [Notice.misses]
  -- a call of another name tells nothing of this one
  · have hnone : [call].find? (fun c => c.specifier == text) = none := by simpa using htext
    rw [hnone, Option.or_none, List.append_right_eq_self]
    cases Fate.of p view file call.specifier with
    | missing => dsimp only; split <;> simp [Notice.misses, htext]
    | malformed => rfl
    | address | package _ | file _ | provided => rfl

/-- One notice for each call with a malformed text. -/
theorem Sorts.malformed_add (h : Sorts p view file calls s) {text : String}
    (hfate : Fate.of p view file text = .malformed) :
    (s.add p view file call).notices.filter (Notice.rejects text) =
      ((calls ++ [call]).filter fun c => c.specifier == text).map fun c =>
        Notice.malformedIn text (p.shown file) c.line := by
  rw [notices_add h.sound, List.filter_append, h.accounted.malformed text hfate,
    List.filter_append, List.map_append]
  congr 1
  by_cases htext : call.specifier = text
  · subst htext
    simp [hfate, Notice.rejects]
  · have hnone : [call].filter (fun c => c.specifier == text) = [] := by simpa using htext
    rw [hnone, List.map_nil]
    cases Fate.of p view file call.specifier with
    | missing => dsimp only; split <;> rfl
    | malformed => simp [Notice.rejects, htext]
    | address | package _ | file _ | provided => rfl

/-- A new notice is about the new call. -/
theorem Sorts.told_add (h : Sorts p view file calls s) {notice : Notice}
    (hnotice : notice ∈ (s.add p view file call).notices) :
    notice.severity = .warning ∧ ∃ c ∈ calls ++ [call],
      Fate.of p view file c.specifier = .missing ∧
          notice = .unresolved c.specifier (p.shown file) c.line ∨
        Fate.of p view file c.specifier = .malformed ∧
          notice = .malformedIn c.specifier (p.shown file) c.line := by
  rw [notices_add h.sound] at hnotice
  rcases List.mem_append.1 hnotice with hold | hnew
  · obtain ⟨hwarning, c, hc, hsaid⟩ := h.accounted.told notice hold
    exact ⟨hwarning, c, List.mem_append_left _ hc, hsaid⟩
  · have hcall : call ∈ calls ++ [call] := by simp
    cases hfate : Fate.of p view file call.specifier with
    | missing =>
      simp only [hfate] at hnew
      split at hnew
      · cases hnew
      · obtain rfl := List.mem_singleton.1 hnew
        exact ⟨rfl, call, hcall, .inl ⟨hfate, rfl⟩⟩
    | malformed =>
      simp only [hfate] at hnew
      obtain rfl := List.mem_singleton.1 hnew
      exact ⟨rfl, call, hcall, .inr ⟨hfate, rfl⟩⟩
    | address | package _ | file _ | provided =>
      simp only [hfate] at hnew
      cases hnew

/-- A call leads to a file if its text is a local name that does. -/
theorem fate_eq_file {text : String} {path : Path} :
    Fate.of p view file text = .file path ↔
      Reference.ofSpecifier? text = some (.localModule text) ∧
        Require.resolve? view p.root file text = some path := by
  unfold Fate.of
  rcases href : Reference.ofSpecifier? text with _ | (uri | q | name)
  · simp
  · simp
  · simp
  · obtain rfl : name = text := Reference.text_of_ofSpecifier? href
    cases Require.resolve? view p.root file name with
    | some found => simp
    | none => cases p.config.isProvided name <;> simp

theorem Sound.modules_iff {r : Requirements} (h : r.Sound p view file calls) (text : String)
    (path : Path) : (text, path) ∈ r.modules.entries ↔
      ∃ call ∈ calls, call.specifier = text ∧ Fate.of p view file text = .file path := by
  rw [h.modules]
  constructor
  · rintro ⟨⟨c, hc, href⟩, hpath⟩
    obtain rfl : text = c.specifier := Reference.text_of_ofSpecifier? href
    exact ⟨c, hc, rfl, fate_eq_file.2 ⟨href, hpath⟩⟩
  · rintro ⟨c, hc, rfl, hfate⟩
    obtain ⟨href, hpath⟩ := fate_eq_file.1 hfate
    exact ⟨⟨c, hc, href⟩, hpath⟩

/-- **One more call is accounted for.** -/
theorem Sorts.add (h : Sorts p view file calls s) (call : Require.Call) :
    Sorts p view file (calls ++ [call]) (s.add p view file call) := by
  have hsound : (s.add p view file call).requirements.Sound p view file (calls ++ [call]) :=
    h.sound.add rfl
  refine ⟨hsound, fun text => ?_, ?_, ?_, hsound.modules_iff, ?_, ?_, ?_⟩
  · rw [unresolved_add h.sound, exists_mem_snoc, h.unresolved]
  · intro text
    rw [mem_uris_add h.sound, exists_mem_snoc, h.accounted.uris]
  · intro q
    rw [mem_packages_add h.sound, exists_mem_snoc, h.accounted.packages]
  · exact fun text hfate => h.missing_add hfate
  · exact fun text hfate => h.malformed_add hfate
  · exact fun notice hnotice => h.told_add hnotice

theorem sorts_nil : Sorts p view file [] ⟨empty, .empty, []⟩ where
  sound := ⟨Index.ordered_empty, by simp [empty, Index.empty],
    by simp [empty, Index.empty, outside, Index.keys]⟩
  unresolved := by simp [Index.contains, Index.find?, Index.empty]
  accounted := ⟨by simp [empty, Index.empty, Index.keys], by simp [empty, Index.empty, Index.keys],
    by simp [empty, Index.empty], by simp, by simp, by simp⟩

/-- **Every call of a module is accounted for.** -/
theorem ofModule_accounted (p : Project) (view : FileView) (file : Path) (c : Chunk) :
    Accounted p view file (Require.Call.ofChunk c) (ofModule p view file c).1
      (ofModule p view file c).2 := by
  have hsorts (calls : List Require.Call) :
      Sorts p view file calls (calls.foldl (Sorting.add p view file) ⟨empty, .empty, []⟩) := by
    induction calls using List.reverseRecOn with
    | nil => exact sorts_nil
    | append_singleton calls call ih =>
      rw [List.foldl_append]
      exact ih.add call
  exact (hsorts _).accounted

/-! ## Merging -/

/-- A name keeps the file it has when others get theirs. -/
theorem find?_insertModules_of_some {r : Requirements} {name : String} {first : Path}
    (h : r.modules.find? name = some first) (entries : List (String × Path)) :
    (r.insertModules entries).1.modules.find? name = some first := by
  induction entries generalizing r with
  | nil => exact h
  | cons entry entries ih =>
    refine ih (r := (r.insertModule entry.1 entry.2).1) ?_
    rw [insertModule_modules]
    split
    · exact h
    · rename_i hnew
      rw [Index.find?_insert, if_neg, h]
      intro hsame
      obtain rfl := Std.LawfulEqOrd.eq_of_compare hsame
      exact hnew (by rw [Index.contains, h]; rfl)

/-- A name has a file, which is this one or there is a notice that it is
not. -/
def Settles (r : Requirements) (notices : List Notice) (name : String) (path : Path) : Prop :=
  ∃ first, r.modules.find? name = some first ∧
    (first.same path ∨ .conflict name first path ∈ notices)

theorem settles_insertModule (r : Requirements) (name : String) (path : Path) :
    (r.insertModule name path).1.Settles (r.insertModule name path).2 name path := by
  unfold insertModule Settles
  cases hfind : r.modules.find? name with
  | none =>
    refine ⟨path, ?_, .inl (Path.same_iff.2 rfl)⟩
    rw [Index.find?_insert, if_pos (Std.LawfulEqOrd.compare_eq_iff_eq.2 rfl)]
  | some first =>
    refine ⟨first, hfind, ?_⟩
    by_cases hsame : first.same path
    · exact .inl hsame
    · exact .inr (by simp [hsame])

theorem Settles.insertModules {r : Requirements} {notices : List Notice} {name : String}
    {path : Path} (h : r.Settles notices name path) (entries : List (String × Path)) :
    (r.insertModules entries).1.Settles (notices ++ (r.insertModules entries).2) name path := by
  obtain ⟨first, hfind, hsaid⟩ := h
  exact ⟨first, find?_insertModules_of_some hfind entries,
    hsaid.imp_right fun hmem => List.mem_append_left _ hmem⟩

/-- **Nothing is lost in merging.** -/
theorem settles_insertModules (r : Requirements) {entries : List (String × Path)} {name : String}
    {path : Path} (h : (name, path) ∈ entries) :
    (r.insertModules entries).1.Settles (r.insertModules entries).2 name path := by
  induction entries generalizing r with
  | nil => cases h
  | cons entry entries ih =>
    rcases List.mem_cons.1 h with rfl | h
    · exact (settles_insertModule r name path).insertModules entries
    · obtain ⟨first, hfind, hsaid⟩ := ih (r.insertModule entry.1 entry.2).1 h
      exact ⟨first, hfind, hsaid.imp_right fun hmem => List.mem_append_right _ hmem⟩

end Requirements

/-! ## The walk -/

namespace Exploration

variable {p : Project} {view : FileView} {e : Exploration}

/-- Every file that a module requires is the one its name stands for, or
there is a notice. -/
def Keeps (e : Exploration) : Prop :=
  ∀ m ∈ e.modules, ∀ name path, (name, path) ∈ m.requires.modules.entries →
    e.requires.Settles e.notices name path

theorem Keeps.add (h : e.Keeps) (m : Module) (notices : List Notice) : (e.add m notices).Keeps := by
  intro m' hm' name path hentry
  have hmodules : m' ∈ e.modules ∨ m' = m := by simpa [Exploration.add] using hm'
  rcases hmodules with hold | rfl
  · obtain ⟨first, hfind, hsaid⟩ := h m' hold name path hentry
    refine ⟨first, Requirements.find?_insertModules_of_some hfind _, hsaid.imp_right fun hmem => ?_⟩
    exact List.mem_append_left _ (List.mem_append_left _ hmem)
  · obtain ⟨first, hfind, hsaid⟩ := Requirements.settles_insertModules e.requires hentry
    exact ⟨first, hfind, hsaid.imp_right fun hmem => List.mem_append_right _ hmem⟩

/-- **A whole exploration** loses nothing. -/
theorem Keeps.explore (rounds : ℕ) (pending : List Path) (h : e.Keeps) :
    (Exploration.explore p view rounds pending e).1.Keeps := by
  induction rounds generalizing pending e with
  | zero => exact h
  | succ rounds ih =>
    cases hdrop : pending.dropWhile e.visited with
    | nil => rwa [explore_nil hdrop]
    | cons path rest =>
      rw [explore_cons hdrop]
      cases hcompile : view.compile p path with
      | error error => exact h
      | ok c => exact ih _ (h.add _ _)

end Exploration

/-- **No call goes missing.** What a compiled module of a file requires and
the notices about it account for each of its calls by its fate. After a
walk that succeeds, where a local name in a module leads to a file, the
project has that file under the name, or another one and a notice about
both. -/
theorem calls_accounted (p : Project) (view : FileView) :
    (∀ file c, Requirements.Accounted p view file (Require.Call.ofChunk c)
      (Requirements.ofModule p view file c).1 (Requirements.ofModule p view file c).2) ∧
    ∀ entry s notices, ModuleSet.reachedFrom p view entry = (.ok s, notices) →
      ∀ m ∈ s.modules, ∀ call ∈ Require.Call.ofChunk m.chunk, ∀ path,
        Fate.of p view m.path call.specifier = .file path →
        ∃ first, s.requires.modules.find? call.specifier = some first ∧
          (first.same path ∨ .conflict call.specifier first path ∈ notices) := by
  refine ⟨Requirements.ofModule_accounted p view, fun entry s notices hwalk m hm call hcall path hfate => ?_⟩
  obtain ⟨e, he, hs, hnotices⟩ : ∃ e, Exploration.explore p view (view.reach + 1) [entry] .empty =
      (e, none) ∧ s = ⟨entry, e.modules, e.requires⟩ ∧ notices = e.notices := by
    unfold ModuleSet.reachedFrom at hwalk
    split at hwalk
    · rename_i e he
      obtain ⟨hs, hnotices⟩ := Prod.mk.inj hwalk
      exact ⟨e, he, (Except.ok.inj hs).symm, hnotices.symm⟩
    · cases (Prod.mk.inj hwalk).1
  subst hs hnotices
  -- the walk keeps a file for every name of its modules, and a notice where
  -- it is another one
  have hkeeps : e.Keeps := by
    have hempty : Exploration.empty.Keeps := by simp [Exploration.Keeps, Exploration.empty]
    have hexplored : (Exploration.explore p view (view.reach + 1) [entry] .empty).1.Keeps :=
      hempty.explore _ _
    rwa [he] at hexplored
  have hsound : Exploration.Sound p view e := by
    have hexplored : Exploration.Sound p view
        (Exploration.explore p view (view.reach + 1) [entry] .empty).1 :=
      Exploration.sound_empty.explore _ _
    rwa [he] at hexplored
  obtain ⟨c, -, hm'⟩ := hsound.compiled m hm
  have hrequires : m.requires = (Requirements.ofModule p view m.path m.chunk).1 := by
    rw [hm']
    rfl
  refine hkeeps m hm call.specifier path ?_
  rw [hrequires]
  exact ((Requirements.ofModule_accounted p view m.path m.chunk).modules _ _).2
    ⟨call, hcall, rfl, hfate⟩

/-- One name for two files, as modules in different directories have it: the
second module's file is given up, and there is a notice. -/
theorem calls_accounted_conflict :
    let p : Project := ⟨.ofText "/p", .named "p"⟩
    let entry := Path.ofText "/p/init.lua"
    let view := FileView.listed (((Index.empty.insert entry "require './a/m'").insert
      (.ofText "/p/a/m.lu") "require './a/m'").insert (.ofText "/p/a/a/m.lu") "")
    ∃ s notices m path first, ModuleSet.reachedFrom p view entry = (.ok s, notices) ∧
      m ∈ s.modules ∧ Fate.of p view m.path "./a/m" = .file path ∧
      s.requires.modules.find? "./a/m" = some first ∧ ¬ first.same path ∧
      .conflict "./a/m" first path ∈ notices := by
  intro p entry view
  let path := Path.ofText "/p/a/a/m.lu"
  let first := Path.ofText "/p/a/m.lu"
  have hrun : (ModuleSet.reachedFrom p view entry).1.toOption.any (fun s =>
      s.requires.modules.find? "./a/m" == some first && s.modules.any fun m =>
        (Require.Call.ofChunk m.chunk).any fun call => call.specifier == "./a/m" &&
          Fate.of p view m.path "./a/m" == .file path) = true := by
    decide +kernel
  rcases hwalk : ModuleSet.reachedFrom p view entry with ⟨error | s, notices⟩
  · rw [hwalk] at hrun
    cases hrun
  simp only [hwalk, Except.toOption, Option.any_some, List.any_eq_true, Bool.and_eq_true,
    beq_iff_eq] at hrun
  obtain ⟨hfind, m, hm, call, hcall, htext, hfate⟩ := hrun
  obtain ⟨first', hfind', hsaid⟩ := (calls_accounted p view).2 entry s notices hwalk m hm call
    hcall path (htext ▸ hfate)
  rw [htext] at hfind' hsaid
  obtain rfl := Option.some.inj (hfind.symm.trans hfind')
  have hother : ¬ first.same path := by decide
  exact ⟨s, notices, m, path, first, rfl, hm, hfate, hfind, hother, hsaid.resolve_left hother⟩

end LuaSugar
