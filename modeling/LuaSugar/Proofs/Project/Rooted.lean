import Mathlib
import LuaSugar.Proofs.Project.Resolve
/-!
# Names that start from the root

A name that does not begin with `./` or `../` goes down from the root by
what stands between its dots and slashes (`components_relativePath`). If
anything does, the file it leads to is strictly below the root
(`resolve?_rooted`). A name of dots and slashes alone goes nowhere, and the
extension is put behind the name of the root itself: it leads to a file
beside the root.
-/

namespace LuaSugar

/-- Strictly below a path: it goes on from there by names. -/
def Path.Below (root path : Path) : Prop :=
  ∃ names : List String, names ≠ [] ∧ path.components = root.components ++ names.map .name

namespace Text

/-- Something stands between separators if not all characters are such. -/
theorem charPieces_filled {isSeparator : Char → Bool} {cs : List Char} :
    (∃ piece ∈ charPieces isSeparator cs, piece ≠ []) ↔ ∃ c ∈ cs, isSeparator c = false := by
  induction cs with
  | nil => simp [charPieces]
  | cons c cs ih =>
    rw [charPieces]
    cases hc : isSeparator c with
    | true => simpa [hc] using ih
    | false =>
      rw [if_neg (by simp)]
      refine iff_of_true ?_ ⟨c, List.mem_cons_self, hc⟩
      cases charPieces isSeparator cs with
      | nil => exact ⟨[c], by simp⟩
      | cons piece rest => exact ⟨c :: piece, by simp⟩

end Text

namespace Require

variable {stem name extension : String} {root file path : Path} {view : FileView}

/-- The parts of a name, without those that are empty. -/
def parts (stem : String) : List String := (Text.pieces isSeparator stem).filter (· ≠ "")

theorem parts_ne_nil_iff : parts stem ≠ [] ↔ ∃ c ∈ stem.toList, c ≠ '.' ∧ c ≠ '/' := by
  have hplain (c : Char) : isSeparator c = false ↔ c ≠ '.' ∧ c ≠ '/' := by simp [isSeparator]
  simp only [← hplain, ← Text.charPieces_filled]
  rw [parts, Ne, List.filter_eq_nil_iff]
  simp [Text.pieces]

/-- **The path of a name goes by its parts.** -/
theorem components_relativePath (stem : String) :
    (relativePath stem).components = (parts stem).map .name := by
  rw [(relativePath_spec stem).2, parts]
  have hplain : ∀ text ∈ Text.pieces isSeparator stem, '.' ∉ text.toList := fun text htext =>
    (plain_of_mem_pieces htext).1
  generalize Text.pieces isSeparator stem = texts at hplain
  induction texts with
  | nil => rfl
  | cons text texts ih =>
    rw [List.forall_mem_cons] at hplain
    rw [List.filterMap_cons, ih hplain.2]
    by_cases hempty : text = ""
    · subst hempty
      rfl
    · have hsome : Path.component? text ≠ none := by
        have hdot : text ≠ "." := by
          rintro rfl
          exact hplain.1 (by decide)
        rw [Path.component?, Path.isFiller]
        split
        · simp_all
        · split <;> simp
      obtain ⟨c, hc⟩ := Option.ne_none_iff_exists'.1 hsome
      obtain rfl := Path.component?_of_plain hplain.1 hc
      simp [hc, hempty]

/-- A name starts from the root unless dots and a slash are in front. -/
theorem start?_of_rooted (hname : ∀ rest, name ≠ "./" ++ rest ∧ name ≠ "../" ++ rest) :
    start? name file root = some (root, name) := by
  have hrelative : isRelative name.toList = false := by
    unfold isRelative
    split
    · rename_i rest heq
      refine absurd ?_ (hname (String.ofList rest)).1
      rw [← String.toList_inj, heq]
      simp
    · rename_i rest heq
      refine absurd ?_ (hname (String.ofList rest)).2
      rw [← String.toList_inj, heq]
      simp
    · rfl
  simp [start?, hrelative]

/-- What is found has an extension behind the last part of the name. -/
theorem components_of_parts (hext : extension ≠ "" ∧ extension ≠ ".") {before : List String}
    {last : String} (hparts : parts stem = before ++ [last]) :
    ((root.join (relativePath stem)).withExtension extension).components =
      root.components ++ before.map .name ++ [.name (last ++ "." ++ extension)] := by
  have hjoin : (root.join (relativePath stem)).components =
      root.components ++ before.map .name ++ [.name last] := by
    rw [Path.components_join (relativePath_spec stem).1.frontless, components_relativePath, hparts]
    simp
  have hlast : last ∈ parts stem := by simp [hparts]
  have hplain : '.' ∉ last.toList := (plain_of_mem_pieces (List.mem_filter.1 hlast).1).1
  have hdot : last ≠ "." := by
    rintro rfl
    exact hplain (by decide)
  rw [Path.components_withExtension_eq hext (Path.fileName?_of_components hjoin), hjoin,
    List.dropLast_concat, Path.splitExtension_of_plain hplain, if_neg fun h => hdot h.1]

/-- If the name has no parts, the extension goes to the root. -/
theorem components_of_parts_nil (root : Path) (hext : extension ≠ "" ∧ extension ≠ ".")
    (hparts : parts stem = []) :
    ((root.join (relativePath stem)).withExtension extension).components.dropLast =
        root.components.dropLast ∧
      ((root.join (relativePath stem)).withExtension extension).components.length ≤
        root.components.length := by
  have hjoin : (root.join (relativePath stem)).components = root.components := by
    rw [Path.components_join (relativePath_spec stem).1.frontless, components_relativePath, hparts]
    simp
  rcases Path.components_withExtension hext (root.join (relativePath stem)) with
    hsame | ⟨name, c, hlast, hcomponents, -⟩
  · rw [hsame, hjoin]
    exact ⟨rfl, le_rfl⟩
  · rw [hjoin] at hlast hcomponents
    rw [hcomponents, List.dropLast_concat]
    refine ⟨rfl, ?_⟩
    have hpos : root.components ≠ [] := by
      rintro hnil
      simp [hnil] at hlast
    have := List.length_pos_iff.2 hpos
    simp
    omega

/-- **Where a name leads from the root.** It leads to a file, and to one
strictly below the root if something stands in it besides dots, slashes and
an extension at its end. Otherwise the file stands where the root does. -/
theorem resolve?_rooted (hname : ∀ rest, name ≠ "./" ++ rest ∧ name ≠ "../" ++ rest)
    (h : resolve? view root file name = some path) :
    view.isFile path ∧
      (root.Below path ↔ ∃ c ∈ (Require.stem name).toList, c ≠ '.' ∧ c ≠ '/') ∧
      (¬ root.Below path → path.components.dropLast = root.components.dropLast) := by
  have hfile := List.find?_some h
  have hcandidate := List.mem_of_find?_eq_some h
  rw [candidates, start?_of_rooted hname] at hcandidate
  dsimp only at hcandidate
  split at hcandidate
  · cases hcandidate
  obtain ⟨extension, hextension, rfl⟩ := List.mem_map.1 hcandidate
  have hext : extension ≠ "" ∧ extension ≠ "." := by
    rcases List.mem_pair.1 hextension with rfl | rfl <;> decide
  rw [← parts_ne_nil_iff]
  refine ⟨hfile, ?_⟩
  -- without parts the path is the root under another extension, so beside it
  rcases List.eq_nil_or_concat' (parts (Require.stem name)) with hnil | ⟨before, last, hparts⟩
  · obtain ⟨hdirectory, hlength⟩ := components_of_parts_nil root hext hnil
    refine ⟨iff_of_false ?_ (by simp [hnil]), fun _ => hdirectory⟩
    rintro ⟨names, hne, hcomponents⟩
    have := List.length_pos_iff.2 hne
    -- below the root it would be longer
    rw [hcomponents, List.length_append, List.length_map] at hlength
    omega
  · have hbelow : root.Below
        ((root.join (relativePath (Require.stem name))).withExtension extension) := by
      refine ⟨before ++ [last ++ "." ++ extension], by simp, ?_⟩
      rw [components_of_parts hext hparts]
      simp
    exact ⟨iff_of_true hbelow (by simp [hparts]), fun hnot => absurd hbelow hnot⟩

/-- Further dots and slashes make no difference. -/
theorem resolve?_rooted_dots :
    let view := FileView.listed (Index.empty.insert (.ofText "/p/a/b.lua") "")
    let root := Path.ofText "/p"
    let path := Path.ofText "/p/a/b.lua"
    (∀ rest, "/a..b.lua" ≠ "./" ++ rest ∧ "/a..b.lua" ≠ "../" ++ rest) ∧
      resolve? view root (.ofText "/p/init.lua") "/a..b.lua" = some path ∧
      view.isFile path ∧ root.Below path := by
  intro view root path
  have hname (rest : String) : "/a..b.lua" ≠ "./" ++ rest ∧ "/a..b.lua" ≠ "../" ++ rest := by
    simp [← String.toList_inj]
  have hpath : resolve? view root (.ofText "/p/init.lua") "/a..b.lua" = some path := by
    decide +kernel
  obtain ⟨hfile, hbelow, -⟩ := resolve?_rooted hname hpath
  exact ⟨hname, hpath, hfile, hbelow.2 ⟨'a', by decide +kernel⟩⟩

/-- **A name of one dot** leads to a file beside the root. -/
theorem resolve?_beside_root :
    let view := FileView.listed (Index.empty.insert (.ofText "/p.lu") "")
    let root := Path.ofText "/p"
    let path := Path.ofText "/p.lu"
    (∀ rest, "." ≠ "./" ++ rest ∧ "." ≠ "../" ++ rest) ∧
      resolve? view root (.ofText "/p/init.lua") "." = some path ∧ ¬ root.Below path := by
  intro view root path
  have hname (rest : String) : "." ≠ "./" ++ rest ∧ "." ≠ "../" ++ rest := by
    simp [← String.toList_inj]
  refine ⟨hname, by decide +kernel, ?_⟩
  rintro ⟨names, hne, hcomponents⟩
  have hlength := congrArg List.length hcomponents
  have hroot : root.components.length = 2 ∧ path.components.length = 2 := by decide +kernel
  have := List.length_pos_iff.2 hne
  rw [List.length_append, List.length_map] at hlength
  omega

end Require

end LuaSugar
