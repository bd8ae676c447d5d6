import Mathlib
import LuaSugar.Proofs.Project.Written
/-!
# Paths but for their extensions

Required files are told apart by what stands before the last dot of their
names, and outputs are named by it: paths with one directory and one such
stem (`Path.SameStem`) get one output. A stem is never empty, and putting
an extension behind it gives it back (`splitExtension_extended`). Where a
path with the extension `lua` can be used, so can the one with `lu`
(`FileTree.Opens.of_append`), so a file with `lua` is found only where
there is none with `lu` (`Require.resolve?_preferred`): of files that are
found, no two have one stem (`FileTree.Preferred.components_eq`).
-/

namespace LuaSugar

namespace Path

/-! ## File names before and after the last dot -/

theorem splitExtension_append {before after : List Char} (hbefore : before ≠ [])
    (hafter : '.' ∉ after) : splitExtension (String.ofList (before ++ '.' :: after)) =
      (String.ofList before, some (String.ofList after)) := by
  have htake : ((before ++ '.' :: after).reverse.takeWhile (· != '.')).reverse = after := by
    have hall : ∀ c ∈ after.reverse, (c != '.') = true := by
      intro c hc
      rw [bne_iff_ne]
      rintro rfl
      exact hafter (List.mem_reverse.1 hc)
    rw [List.reverse_append, List.reverse_cons, List.append_assoc,
      List.takeWhile_append_of_pos hall]
    simp
  have hfront : (before ++ '.' :: after).take ((before ++ '.' :: after).length - after.length) =
      before ++ ['.'] := by
    rw [List.length_append, List.length_cons, List.append_cons, List.take_append_of_le_length]
    · exact List.take_of_length_le (by simp; omega)
    · simp; omega
  simp only [splitExtension, String.toList_ofList, String.length_ofList, htake, hfront]
  split
  · simp_all
  · rename_i heq
    have hlength := congrArg List.length heq
    simp only [List.length_append, List.length_singleton] at hlength
    exact absurd (List.length_eq_zero_iff.1 (by omega)) hbefore
  · rw [List.dropLast_concat]

/-- A file name is its own stem, or has a dot behind its stem. -/
theorem splitExtension_cases (name : String) : splitExtension name = (name, none) ∨
    ∃ before after, before ≠ [] ∧ '.' ∉ after ∧ name = String.ofList (before ++ '.' :: after) := by
  by_cases hdot : '.' ∈ name.toList
  · -- the last dot is the first from behind
    obtain ⟨after, front, hreverse, hafter⟩ := List.eq_append_cons_of_mem (List.mem_reverse.2 hdot)
    have hname : name.toList = front.reverse ++ '.' :: after.reverse := by
      rw [← List.reverse_reverse name.toList, hreverse]
      simp
    by_cases hfront : front = []
    · refine .inl ?_
      subst hfront
      have hlength : name.length - after.length = 1 := by
        rw [← String.length_toList, hname]
        simp
      have htake : name.toList.reverse.takeWhile (· != '.') = after := by
        rw [hreverse, List.takeWhile_append_of_pos (by grind)]
        simp
      simp only [splitExtension, htake, List.length_reverse, hlength]
      rw [hname]
      rfl
    · exact .inr ⟨front.reverse, after.reverse, by simpa using hfront, by simpa using hafter,
        by rw [← hname, String.ofList_toList]⟩
  · exact .inl (splitExtension_of_plain hdot)

theorem stem_ne_empty {name : String} (h : name ≠ "") : (splitExtension name).1 ≠ "" := by
  rcases splitExtension_cases name with hstem | ⟨before, after, hbefore, hafter, rfl⟩
  · rwa [hstem]
  · rw [splitExtension_append hbefore hafter]
    intro hempty
    exact hbefore (by simpa using congrArg String.toList hempty)

/-- A name with an extension is its stem, a dot and the extension. -/
theorem eq_of_splitExtension {name stem extension : String}
    (h : splitExtension name = (stem, some extension)) : name = stem ++ "." ++ extension := by
  rcases splitExtension_cases name with hplain | ⟨before, after, hbefore, hafter, rfl⟩
  · rw [hplain] at h
    cases h
  · rw [splitExtension_append hbefore hafter] at h
    obtain ⟨rfl, hextension⟩ := Prod.mk.inj h
    obtain rfl := Option.some.inj hextension
    rw [← String.toList_inj]
    simp

/-- **An extension** put behind a stem gives both back. -/
theorem splitExtension_extended {stem extension : String} (hstem : stem ≠ "")
    (hext : '.' ∉ extension.toList) :
    splitExtension (stem ++ "." ++ extension) = (stem, some extension) := by
  have hsplit := splitExtension_append (mt String.toList_eq_nil_iff.1 hstem) hext
  have htext : stem ++ "." ++ extension = String.ofList (stem.toList ++ '.' :: extension.toList) := by
    rw [← String.toList_inj]
    simp
  rwa [String.ofList_toList, String.ofList_toList, ← htext] at hsplit

theorem stem_injective {stem stem' extension : String}
    (h : stem ++ "." ++ extension = stem' ++ "." ++ extension) : stem = stem' := by
  rw [← String.toList_inj] at h ⊢
  simpa using h

/-- Two paths in one directory, whose names have one stem. -/
def SameStem (p q : Path) : Prop :=
  p.components.dropLast = q.components.dropLast ∧ ∃ name name', p.fileName? = some name ∧
    q.fileName? = some name' ∧ (splitExtension name).1 = (splitExtension name').1

/-! ## What is left behind another path -/

theorem frontless_unsplit {pieces : List String}
    (h : ∀ piece, pieces.head? = some piece → isFiller piece = false) :
    (unsplit none pieces).Frontless ∧ (unsplit none pieces).components = pieces.filterMap component? := by
  cases pieces with
  | nil => exact ⟨⟨by simp [unsplit], rfl⟩, rfl⟩
  | cons piece behind =>
    have hcomponents : (unsplit none (piece :: behind)).components =
        (piece :: behind).filterMap component? := by
      rw [unsplit, components_cons, lead_of_name (h piece rfl)]
      · cases hc : component? piece <;> simp [hc]
      · simp
    exact ⟨⟨by simp [unsplit], hcomponents⟩, hcomponents⟩

theorem filterMap_dropWhile (pieces : List String) :
    (pieces.dropWhile isFiller).filterMap component? = pieces.filterMap component? := by
  induction pieces with
  | nil => rfl
  | cons piece pieces ih =>
    cases h : isFiller piece with
    | false => rw [List.dropWhile_cons_of_neg (by simp [h])]
    | true =>
      rw [List.dropWhile_cons_of_pos h, ih, List.filterMap_cons]
      simp [component?, h]

theorem filterMap_dropComponents (n : ℕ) (pieces : List String) :
    (dropComponents n pieces).filterMap component? = (pieces.filterMap component?).drop n := by
  induction n generalizing pieces with
  | zero => exact filterMap_dropWhile pieces
  | succ n ih =>
    rw [← filterMap_dropWhile pieces, dropComponents]
    cases hkept : pieces.dropWhile isFiller with
    | nil => rfl
    | cons piece rest =>
      have hpiece := List.head?_dropWhile_not isFiller pieces
      rw [hkept] at hpiece
      obtain ⟨c, hc, -⟩ := component?_of_name (by simpa using hpiece)
      rw [List.filterMap_cons, hc]
      exact ih rest

/-- What is left begins with a name. -/
theorem head_dropComponents {n : ℕ} {pieces : List String} {piece : String}
    (h : (dropComponents n pieces).head? = some piece) : isFiller piece = false := by
  induction n generalizing pieces with
  | zero =>
    have hpiece := List.head?_dropWhile_not isFiller pieces
    rw [show (pieces.dropWhile isFiller).head? = some piece from h] at hpiece
    simpa using hpiece
  | succ n ih =>
    rw [dropComponents] at h
    split at h
    · cases h
    · exact ih h

/-- **Behind a path** that another begins with is a path without front. -/
theorem components_relativeTo? {p base rest : Path} (hbase : base.components ≠ [])
    (h : p.relativeTo? base = some rest) :
    rest.Frontless ∧ p.components = base.components ++ rest.components := by
  unfold relativeTo? at h
  split at h
  · rename_i hprefix
    obtain ⟨behind, hbehind⟩ := List.isPrefixOf_iff_prefix.1 hprefix
    rcases hsplit : p.split with ⟨front, pieces⟩
    have hcomponents := components_eq hsplit
    -- the front is the first component that is dropped, if there is one
    obtain ⟨n, hrest, hdrop⟩ : ∃ n, rest = unsplit none (trimEnd (dropComponents n pieces)) ∧
        (pieces.filterMap component?).drop n = p.components.drop base.components.length := by
      cases hlength : base.components.length with
      | zero => exact absurd (List.length_eq_zero_iff.1 hlength) hbase
      | succ n =>
        rw [hsplit, hlength] at h
        rw [hcomponents]
        cases front with
        | none => exact ⟨n + 1, (Option.some.inj h).symm, rfl⟩
        | some front => exact ⟨n, (Option.some.inj h).symm, rfl⟩
    have hhead : ∀ piece, (trimEnd (dropComponents n pieces)).head? = some piece →
        isFiller piece = false := by
      intro piece hpiece
      obtain ⟨fillers, hfillers⟩ := List.rdropWhile_prefix isFiller (dropComponents n pieces)
      have hfirst : (dropComponents n pieces).head? = some piece := by
        rw [← hfillers, ← trimEnd_eq, List.head?_append, hpiece]
        rfl
      exact head_dropComponents hfirst
    obtain ⟨hfront, hpieces⟩ := frontless_unsplit hhead
    rw [hrest]
    refine ⟨hfront, ?_⟩
    rw [hpieces, filterMap_trimEnd, filterMap_dropComponents, hdrop, ← hbehind, List.drop_left]
  · cases h

theorem component?_eq_name {piece text : String} (h : component? piece = some (.name text)) :
    piece = text ∧ isFiller text = false ∧ text ≠ ".." := by
  have hfiller := name_of_component? h
  unfold component? at h
  rw [hfiller, if_neg Bool.false_ne_true] at h
  split at h
  · cases h
  · rename_i hdots
    obtain rfl := Component.name.inj (Option.some.inj h)
    exact ⟨rfl, hfiller, by simpa using hdots⟩

theorem fileName?_ne_empty {p : Path} {name : String} (h : p.fileName? = some name) : name ≠ "" := by
  obtain ⟨-, -, -, last, -, -, hlast, -⟩ := withExtension_of_fileName h
  obtain ⟨rfl, hfiller, -⟩ := component?_eq_name hlast
  rintro rfl
  exact absurd hfiller (by decide)

/-- A last piece stays the last one behind a front. -/
theorem pieces_unsplit (front : Option (String × Component)) (pieces : List String) :
    ∃ before, ∀ last, (unsplit front (pieces ++ [last])).pieces = before ++ [last] := by
  have hcons (last : String) : ∃ piece behind, pieces ++ [last] = piece :: behind := by
    cases pieces <;> simp
  rcases front with _ | ⟨piece, c⟩
  · refine ⟨pieces, fun last => ?_⟩
    obtain ⟨first, behind, h⟩ := hcons last
    rw [h, unsplit]
    simp
  · refine ⟨piece :: pieces, fun last => ?_⟩
    obtain ⟨first, behind, h⟩ := hcons last
    rw [List.cons_append, h]
    cases c <;> rfl

end Path

/-! ## Shorter names -/

namespace FileTree

variable {t : FileTree} {p q : Path} {l : Location} {pieces : List String} {last more : String}

/-- **A path with a longer name** can be used only if the one with the
shorter name can. -/
theorem Opens.of_append (h : t.Opens p l) (hp : p.pieces = pieces ++ [last ++ more])
    (hq : q.pieces = pieces ++ [last]) (hname : Path.isFiller last = false ∧ last ≠ "..")
    (hname' : Path.isFiller (last ++ more) = false ∧ last ++ more ≠ "..") :
    t.Opens q (t.land q.components) := by
  obtain ⟨hclean, hshort, hfollow⟩ := h
  have htext : p.text = q.text ++ more := by
    rw [Path.text, Path.text, hp, hq]
    by_cases hpieces : pieces = []
    · simp [hpieces]
    · rw [String.intercalate_append_of_ne_nil hpieces (by simp),
        String.intercalate_append_of_ne_nil hpieces (by simp), String.intercalate_singleton,
        String.intercalate_singleton, String.append_assoc, String.append_assoc, String.append_assoc]
  have hclean' : hasNul q = false := by
    rw [hasNul, htext, String.toList_append] at hclean
    rw [hasNul]
    simp only [List.contains_eq_mem, List.mem_append, decide_eq_false_iff_not, not_or] at hclean ⊢
    exact hclean.1
  have hshort' : isTooLong q = false := by
    rw [isTooLong, htext, String.utf8ByteSize_append] at hshort
    rw [isTooLong]
    simp only [decide_eq_false_iff_not] at hshort ⊢
    omega
  have habsolute : p.isAbsolute = q.isAbsolute := by
    obtain ⟨before, hbefore⟩ := Path.components_concat pieces
    have hp' : p.components = before ++ [.name (last ++ more)] := by
      rw [← hbefore _ hname'.1 hname'.2, ← hp]
    have hq' : q.components = before ++ [.name last] := by
      rw [← hbefore _ hname.1 hname.2, ← hq]
    rw [Path.isAbsolute, Path.isAbsolute, hp', hq']
    cases before <;> rfl
  have hempty : q.isEmpty = false := by
    rw [Path.isEmpty, hq, beq_eq_false_iff_ne]
    intro h
    have hlast : (pieces ++ [last]).getLast? = some "" := by rw [h]; rfl
    rw [List.getLast?_concat, Option.some.injEq] at hlast
    rw [hlast] at hname
    exact absurd hname.1 (by decide)
  -- both are followed to one directory, in which a shorter name is no fault
  obtain ⟨-, -, hfold⟩ := follow_eq_ok_iff.1 hfollow
  rw [hp] at hfold
  obtain ⟨directory, hdirectory, hstep⟩ := steps_concat_eq_ok_iff.1 hfold
  obtain ⟨l', hstep'⟩ : ∃ l', t.step directory last = .ok l' := by
    unfold step at hstep ⊢
    split at hstep
    · cases hstep
    · rw [hname'.1, if_neg Bool.false_ne_true, if_neg (by simpa using hname'.2)] at hstep
      split at hstep
      · cases hstep
      · rename_i hsize
        rw [String.utf8ByteSize_append] at hsize
        rw [hname.1, if_neg Bool.false_ne_true, if_neg (by simpa using hname.2), if_neg (by omega)]
        exact ⟨_, rfl⟩
    · cases hstep
  have hopens : t.Opens q l' := by
    refine ⟨hclean', hshort', follow_eq_ok_iff.2 ⟨hclean', hempty, ?_⟩⟩
    rw [← habsolute, hq]
    exact steps_concat_eq_ok_iff.2 ⟨directory, hdirectory, hstep'⟩
  rwa [← hopens.eq_land]

end FileTree

/-! ## The extensions of files that are found -/

variable {t : FileTree}

namespace Path

/-- A path with an extension that is a file name: what its extension is
does not matter to what is in front of it. -/
theorem withExtension_of_isName {p : Path} {name : String} (h : p.fileName? = some name)
    (hname : ¬((splitExtension name).1 = "." ∧ p.split.2.getLast? = some name)) :
    ∃ pieces, ∀ extension, extension ≠ "" ∧ extension ≠ "." →
      (p.withExtension extension).pieces = pieces ++ [(splitExtension name).1 ++ "." ++ extension] ∧
      (p.withExtension extension).components =
        p.components.dropLast ++ [.name ((splitExtension name).1 ++ "." ++ extension)] := by
  obtain ⟨front, rest, init, last, -, -, -, hwith⟩ := withExtension_of_fileName h
  obtain ⟨pieces, hpieces⟩ := pieces_unsplit front init
  refine ⟨pieces, fun extension hext => ⟨?_, ?_⟩⟩
  · rw [hwith, hpieces, lastWith]
    split
    · rename_i hlast
      rw [extended_eq, if_neg fun hdot => hname ⟨hdot, by simpa using hlast⟩]
    · rfl
  · rw [components_withExtension_eq hext h, if_neg hname]

end Path

/-- If there is a file with `lua`, and one in its place with `lu` in any
spelling, then there is one with `lu` in the spelling of the first. -/
theorem FileTree.isFile_withExtension {target q : Path} {name : String}
    (htarget : target.fileName? = some name)
    (hname : ¬((Path.splitExtension name).1 = "." ∧ target.split.2.getLast? = some name))
    (hfile : t.isFile (target.withExtension "lua"))
    (hq : q.components = (target.withExtension "lu").components) (hqfile : t.isFile q) :
    t.isFile (target.withExtension "lu") := by
  obtain ⟨l, node, hopens, hnode, hdirectory⟩ := isFile_iff.1 hqfile
  obtain ⟨l', -, hopens', -, -⟩ := isFile_iff.1 hfile
  obtain ⟨pieces, hwith⟩ := Path.withExtension_of_isName htarget hname
  have hext : ("lu" ≠ "" ∧ "lu" ≠ ".") ∧ "lua" ≠ "" ∧ "lua" ≠ "." := by decide
  generalize (Path.splitExtension name).1 = stem at hwith
  have hlonger : stem ++ "." ++ "lua" = stem ++ "." ++ "lu" ++ "a" := by
    conv_rhs => rw [String.append_assoc]
    rfl
  have hlu := Path.component?_eq_name (Path.extended_component hext.1 stem)
  have hlua := Path.component?_eq_name (Path.extended_component hext.2 stem)
  have hpieces := (hwith "lua" hext.2).1
  rw [hlonger] at hlua hpieces
  have hopens'' := hopens'.of_append hpieces (hwith "lu" hext.1).1 hlu.2 hlua.2
  rw [← hq, ← hopens.eq_land] at hopens''
  exact isFile_iff.2 ⟨l, node, hopens'', hnode, hdirectory⟩

/-- A path with the extension `lu`, or one with `lua` where there is no file
with `lu`. -/
def FileTree.Preferred (t : FileTree) (path : Path) : Prop :=
  ∃ directory stem, stem ≠ "" ∧ (path.components = directory ++ [.name (stem ++ "." ++ "lu")] ∨
    path.components = directory ++ [.name (stem ++ "." ++ "lua")] ∧
      ∀ q : Path, q.components = directory ++ [.name (stem ++ "." ++ "lu")] → ¬ t.isFile q)

/-- **A file that is found** by a name is preferred. -/
theorem Require.resolve?_preferred {origins : List Path} {root file path : Path} {name : String}
    (h : resolve? (t.view origins) root file name = some path) (hname : path.fileName?.isSome) :
    t.Preferred path := by
  unfold resolve? candidates at h
  split at h
  · cases h
  rename_i base rest hstart
  split at h
  · cases h
  generalize base.join (relativePath (stem rest)) = target at h
  have hcases : path = target.withExtension "lu" ∨
      path = target.withExtension "lua" ∧ t.isFile (target.withExtension "lu") = false ∧
        t.isFile (target.withExtension "lua") := by
    simp only [List.map_cons, List.map_nil, FileTree.view, List.find?_cons, List.find?_nil] at h
    split at h
    · exact .inl (Option.some.inj h).symm
    · rename_i hlu
      split at h
      · rename_i hlua
        exact .inr ⟨(Option.some.inj h).symm, hlu, hlua⟩
      · cases h
  have hext : ("lu" ≠ "" ∧ "lu" ≠ ".") ∧ "lua" ≠ "" ∧ "lua" ≠ "." := by decide
  cases htarget : target.fileName? with
  | none =>
    -- without a name there is nothing to put an extension to
    have hsame (extension : String) : target.withExtension extension = target := by
      rw [Path.withExtension, htarget]
    rw [hsame, hsame] at hcases
    rcases hcases with rfl | ⟨rfl, -⟩ <;> simp [htarget] at hname
  | some text =>
    have hplain : ¬((Path.splitExtension text).1 = "." ∧ target.split.2.getLast? = some text) := by
      intro hdots
      have hparent {extension : String} (hext : extension ≠ "" ∧ extension ≠ ".") :
          (target.withExtension extension).fileName? = none := by
        rw [Path.fileName?, Path.components_withExtension_eq hext htarget, if_pos hdots,
          List.getLast?_concat]
      rcases hcases with rfl | ⟨rfl, -⟩
      · simp [hparent hext.1] at hname
      · simp [hparent hext.2] at hname
    obtain ⟨pieces, hwith⟩ := Path.withExtension_of_isName htarget hplain
    refine ⟨target.components.dropLast, _, Path.stem_ne_empty (Path.fileName?_ne_empty htarget), ?_⟩
    rcases hcases with rfl | ⟨rfl, hnone, hfile⟩
    · exact .inl (hwith "lu" hext.1).2
    · refine .inr ⟨(hwith "lua" hext.2).2, fun q hq hqfile => ?_⟩
      rw [← (hwith "lu" hext.1).2] at hq
      rw [FileTree.isFile_withExtension htarget hplain hfile hq hqfile] at hnone
      cases hnone

namespace FileTree.Preferred

theorem of_extension {path : Path} (h : path.extension? = some "lu") : t.Preferred path := by
  obtain ⟨name, hname, hextension⟩ := Option.bind_eq_some_iff.1 h
  have hsplit : Path.splitExtension name = ((Path.splitExtension name).1, some "lu") :=
    Prod.ext rfl hextension
  refine ⟨path.components.dropLast, _, Path.stem_ne_empty (Path.fileName?_ne_empty hname), .inl ?_⟩
  rw [← Path.eq_of_splitExtension hsplit]
  exact Path.components_of_fileName hname

/-- **Preferred files with one stem** are one file. -/
theorem components_eq {p q : Path} (hp : t.Preferred p) (hq : t.Preferred q) (hpfile : t.isFile p)
    (hqfile : t.isFile q) (h : p.SameStem q) : p.components = q.components := by
  obtain ⟨hdirectory, name, name', hname, hname', hstem⟩ := h
  have hlu : '.' ∉ "lu".toList ∧ '.' ∉ "lua".toList := by decide
  -- a stem and an extension without a dot are read off the file name
  have hread {r : Path} {directory : List Path.Component} {stem extension text : String}
      (hr : r.components = directory ++ [.name (stem ++ "." ++ extension)]) (hstem : stem ≠ "")
      (hext : '.' ∉ extension.toList) (htext : r.fileName? = some text) :
      r.components.dropLast = directory ∧ (Path.splitExtension text).1 = stem := by
    obtain rfl := Option.some.inj ((Path.fileName?_of_components hr).symm.trans htext)
    rw [hr, List.dropLast_concat, Path.splitExtension_extended hstem hext]
    exact ⟨rfl, rfl⟩
  obtain ⟨directory, stem, hne, hp⟩ := hp
  obtain ⟨directory', stem', hne', hq⟩ := hq
  obtain ⟨rfl, rfl⟩ : p.components.dropLast = directory ∧ (Path.splitExtension name).1 = stem := by
    rcases hp with hp | ⟨hp, -⟩
    · exact hread hp hne hlu.1 hname
    · exact hread hp hne hlu.2 hname
  obtain ⟨rfl, rfl⟩ : q.components.dropLast = directory' ∧ (Path.splitExtension name').1 = stem' := by
    rcases hq with hq | ⟨hq, -⟩
    · exact hread hq hne' hlu.1 hname'
    · exact hread hq hne' hlu.2 hname'
  rw [← hdirectory, ← hstem] at hq
  -- with one stem in one directory, a `.lua` file yields to the other
  rcases hp with hp | ⟨hp, hnone⟩ <;> rcases hq with hq | ⟨hq, hnone'⟩
  · exact hp.trans hq.symm
  · exact absurd hpfile (hnone' p hp)
  · exact absurd hqfile (hnone q hq)
  · exact hp.trans hq.symm

end FileTree.Preferred

end LuaSugar
