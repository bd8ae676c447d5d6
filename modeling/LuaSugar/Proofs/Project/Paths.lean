import Mathlib
import LuaSugar.Path
/-!
# What comparison sees of paths

Paths are compared by their components, and the order of paths is the
order of lists of components (`compare_eq_iff`). The operations by which
required files are found are edits of the text of a path; here is what
each does to the components: going up drops the last one, joining appends,
and another extension changes the last one (`components_parent?`,
`components_join`, `components_withExtension`).
-/

namespace LuaSugar.Path

/-! ## Order -/

namespace Component

/-- The text of a name. -/
def text : Component → String
  | name text => text
  | root | current | parent => ""

theorem order_eq : order = compareLex (compareOn rank) (compareOn text) := by
  funext a b
  cases a <;> cases b <;> simp [order, compareLex, compareOn, rank, text] <;> rfl

instance : Std.TransOrd Component :=
  show Std.TransCmp order from order_eq ▸ inferInstance

instance : Std.LawfulEqOrd Component where
  compare_self {a} := by
    show order a a = .eq
    rw [order_eq]
    exact Std.ReflCmp.compare_self
  eq_of_compare {a b} h := by
    have h : order a b = .eq := h
    rw [order_eq, compareLex, Ordering.then_eq_eq] at h
    have hrank := Std.LawfulEqOrd.eq_of_compare h.1
    have htext := Std.LawfulEqOrd.eq_of_compare h.2
    cases a <;> cases b <;> simp_all [rank, text]

end Component

instance : Std.TransOrd Path :=
  show Std.TransCmp (compareOn components) from inferInstance

theorem compare_eq_iff {p q : Path} : compare p q = .eq ↔ p.components = q.components :=
  Std.LawfulEqOrd.compare_eq_iff_eq (a := p.components) (b := q.components)

theorem same_iff {p q : Path} : p.same q ↔ p.components = q.components := beq_iff_eq

/-! ## Pieces and components -/

/-- What a piece in front of others is to comparison. -/
def lead (piece : String) (behind : List String) : List Component :=
  if piece = "" then if behind = [] then [] else [.root]
  else if piece = "." then [.current]
  else (component? piece).toList

/-- The fronts that a path may have. -/
theorem split_cases (p : Path) :
    (∃ next rest, p.pieces = "" :: next :: rest ∧ p.split = (some ("", .root), next :: rest)) ∨
    (∃ rest, p.pieces = "." :: rest ∧ p.split = (some (".", .current), rest)) ∨
    p.split = (none, p.pieces) ∧ ∀ piece rest, p.pieces = piece :: rest →
      isFiller piece = false ∨ p.pieces = [""] := by
  obtain ⟨pieces⟩ := p
  rcases pieces with _ | ⟨piece, behind⟩
  · exact .inr (.inr ⟨rfl, by simp⟩)
  · by_cases hempty : piece = ""
    · subst hempty
      rcases behind with _ | ⟨next, rest⟩
      · exact .inr (.inr ⟨rfl, by simp⟩)
      · exact .inl ⟨next, rest, rfl, rfl⟩
    · by_cases hdot : piece = "."
      · subst hdot
        exact .inr (.inl ⟨behind, rfl, rfl⟩)
      · refine .inr (.inr ⟨?_, fun piece' rest' h => .inl ?_⟩)
        · unfold split
          split
          · rename_i h; simp_all
          · rename_i h; simp_all
          · rfl
        · obtain ⟨rfl, -⟩ := List.cons.inj h
          simp [isFiller, hempty, hdot]

theorem components_cons (piece : String) (behind : List String) :
    components ⟨piece :: behind⟩ = lead piece behind ++ behind.filterMap component? := by
  unfold lead components
  by_cases hempty : piece = ""
  · subst hempty
    cases behind with
    | nil => rfl
    | cons next rest => rfl
  · rw [if_neg hempty]
    by_cases hdot : piece = "."
    · subst hdot
      rfl
    · rw [if_neg hdot]
      have hsplit : split ⟨piece :: behind⟩ = (none, piece :: behind) := by
        rcases split_cases ⟨piece :: behind⟩ with ⟨_, _, h, -⟩ | ⟨_, h, -⟩ | ⟨h, -⟩
        · exact absurd (List.cons.inj h).1 hempty
        · exact absurd (List.cons.inj h).1 hdot
        · exact h
      rw [hsplit]
      simp only [Option.map_none, Option.toList_none, List.nil_append]
      cases h : component? piece with
      | none => simp [h]
      | some c => simp [h]

/-- What is behind a piece matters to it only if it is empty. -/
theorem lead_congr {piece : String} (behind behind' : List String)
    (h : piece ≠ "" ∨ behind ≠ [] ∧ behind' ≠ []) : lead piece behind = lead piece behind' := by
  unfold lead
  by_cases hempty : piece = ""
  · obtain ⟨hb, hb'⟩ := h.resolve_left (absurd hempty)
    rw [if_pos hempty, if_pos hempty, if_neg hb, if_neg hb']
  · rw [if_neg hempty, if_neg hempty]

theorem lead_of_name {piece : String} (h : isFiller piece = false) (behind : List String) :
    lead piece behind = (component? piece).toList := by
  simp only [isFiller, Bool.or_eq_false_iff, beq_eq_false_iff_ne] at h
  rw [lead, if_neg h.1, if_neg h.2]

theorem name_of_component? {piece : String} {c : Component} (h : component? piece = some c) :
    isFiller piece = false := by
  unfold component? at h
  cases hf : isFiller piece with
  | false => rfl
  | true => simp [hf] at h

theorem component?_of_name {piece : String} (h : isFiller piece = false) :
    ∃ c, component? piece = some c ∧ (c = .parent ∨ c = .name piece) := by
  unfold component?
  rw [h]
  by_cases hdots : piece = ".."
  · exact ⟨.parent, by simp [hdots], .inl rfl⟩
  · exact ⟨.name piece, by simp [hdots], .inr rfl⟩

/-- Pieces behind the front are no front. -/
theorem head_ne_root (pieces : List String) :
    ((pieces.filterMap component?).head? == some .root) = false := by
  rw [beq_eq_false_iff_ne]
  intro hhead
  obtain ⟨piece, -, hc⟩ := List.mem_filterMap.1 (List.mem_of_mem_head? hhead)
  obtain ⟨c, hc', hkind⟩ := component?_of_name (name_of_component? hc)
  obtain rfl := Option.some.inj (hc.symm.trans hc')
  rcases hkind with hkind | hkind <;> cases hkind

/-- A path that begins with no slash and no dot. -/
structure Frontless (p : Path) : Prop where
  pieces : p.pieces ≠ []
  components_eq : p.components = p.pieces.filterMap component?

theorem Frontless.isAbsolute {p : Path} (h : p.Frontless) : p.isAbsolute = false := by
  rw [Path.isAbsolute, h.components_eq, head_ne_root]

/-- **Joining appends components**, if the path that is joined has no
front. -/
theorem components_join {p q : Path} (hq : q.Frontless) :
    (p.join q).components = p.components ++ q.components := by
  obtain ⟨pieces⟩ := p
  rw [join, hq.isAbsolute, hq.components_eq]
  simp only [Bool.false_eq_true, if_false]
  cases pieces with
  | nil => exact hq.components_eq
  | cons piece behind =>
    have happend (l : List String) : l ++ q.pieces ≠ [] := by simp [hq.pieces]
    -- a path that ends with a slash has nothing in its last piece
    by_cases hlast : (piece :: behind).getLast? = some ""
    · rw [if_pos (by simpa using hlast)]
      rcases List.eq_nil_or_concat' behind with rfl | ⟨init, last, rfl⟩
      · obtain rfl : piece = "" := by simpa using hlast
        exact hq.components_eq
      · rw [← List.cons_append, List.getLast?_concat, Option.some.injEq] at hlast
        subst hlast
        have hdrop : (piece :: (init ++ [""])).dropLast = piece :: init := by
          rw [← List.cons_append, List.dropLast_concat]
        rw [hdrop, List.cons_append, components_cons, components_cons,
          lead_congr (init ++ q.pieces) (init ++ [""]) (.inr ⟨happend init, by simp⟩)]
        simp [List.filterMap_append, show component? "" = none from rfl]
    · rw [if_neg (by simpa using hlast), List.cons_append, components_cons, components_cons,
        lead_congr (behind ++ q.pieces) behind, List.filterMap_append, List.append_assoc]
      by_cases hempty : piece = ""
      · refine .inr ⟨happend behind, ?_⟩
        rintro rfl
        simp [hempty] at hlast
      · exact .inl hempty

/-! ## The end of a path -/

theorem trimEnd_eq (pieces : List String) : trimEnd pieces = pieces.rdropWhile isFiller := rfl

theorem filterMap_trimEnd (pieces : List String) :
    (trimEnd pieces).filterMap component? = pieces.filterMap component? := by
  rw [trimEnd_eq]
  induction pieces using List.reverseRecOn with
  | nil => rfl
  | append_singleton init last ih =>
    by_cases h : isFiller last
    · rw [List.rdropWhile_concat_pos _ _ _ h, ih]
      simp [component?, h]
    · rw [List.rdropWhile_concat_neg _ _ _ h]

/-- What is left at the end is a component. -/
theorem trimEnd_cases (pieces : List String) :
    trimEnd pieces = [] ∨ ∃ init last, trimEnd pieces = init ++ [last] ∧ isFiller last = false := by
  rcases List.eq_nil_or_concat' (trimEnd pieces) with h | ⟨init, last, h⟩
  · exact .inl h
  · refine .inr ⟨init, last, h, ?_⟩
    have hne : pieces.rdropWhile isFiller ≠ [] := by
      rw [← trimEnd_eq, h]
      simp
    have hlast := List.rdropWhile_last_not isFiller pieces hne
    simp only [← trimEnd_eq, h, List.getLast_concat] at hlast
    simpa using hlast

/-- Behind no front stands a name, if anything does. -/
theorem head_trimEnd {p : Path} {rest : List String} (h : p.split = (none, rest)) {piece : String}
    (hpiece : (trimEnd rest).head? = some piece) : isFiller piece = false := by
  rcases p.split_cases with ⟨_, _, -, hsplit⟩ | ⟨_, -, hsplit⟩ | ⟨hsplit, hpieces⟩
  · simp [hsplit] at h
  · simp [hsplit] at h
  · obtain rfl : p.pieces = rest := by
      rw [hsplit] at h
      exact (Prod.mk.inj h).2
    obtain ⟨behind, hprefix⟩ := List.rdropWhile_prefix isFiller p.pieces
    obtain ⟨rest, htrim⟩ : ∃ rest, trimEnd p.pieces = piece :: rest := by
      cases h : trimEnd p.pieces with
      | nil => simp [h] at hpiece
      | cons first rest =>
        rw [h, List.head?_cons, Option.some.injEq] at hpiece
        exact ⟨rest, by rw [hpiece]⟩
    rw [← trimEnd_eq, htrim] at hprefix
    rcases hpieces piece (rest ++ behind) hprefix.symm with hname | hsingle
    · exact hname
    · rw [hsingle] at htrim
      cases htrim

/-- The components of a front and pieces behind it. -/
theorem components_unsplit {p : Path} {front : Option (String × Component)} {rest : List String}
    (h : p.split = (front, rest)) {pieces : List String}
    (hpieces : front = none → ∀ piece, pieces.head? = some piece → isFiller piece = false) :
    (unsplit front pieces).components =
      (front.map (·.2)).toList ++ pieces.filterMap component? := by
  rcases p.split_cases with ⟨_, _, -, hsplit⟩ | ⟨_, -, hsplit⟩ | ⟨hsplit, -⟩ <;>
    obtain ⟨rfl, rfl⟩ := Prod.mk.inj (hsplit.symm.trans h)
  · cases pieces with
    | nil => rfl
    | cons piece behind => rfl
  · exact components_cons "." pieces
  · cases pieces with
    | nil => rfl
    | cons piece behind =>
      have hname := hpieces rfl piece rfl
      simp only [unsplit]
      rw [components_cons, lead_of_name hname]
      cases hc : component? piece with
      | none => simp [hc]
      | some c => simp [hc]

theorem components_eq {p : Path} {front : Option (String × Component)} {rest : List String}
    (h : p.split = (front, rest)) :
    p.components = (front.map (·.2)).toList ++ rest.filterMap component? := by
  rw [components, h]

/-- A piece that is left in front of the last one begins the path if there
is no front. -/
theorem head_of_trimEnd {p : Path} {front : Option (String × Component)} {rest init : List String}
    {last : String} (h : p.split = (front, rest)) (htrim : trimEnd rest = init ++ [last])
    (last' : String) (hlast : isFiller last' = false) :
    front = none → ∀ piece, (init ++ [last']).head? = some piece → isFiller piece = false := by
  rintro rfl piece hpiece
  cases init with
  | nil =>
    obtain rfl : last' = piece := by simpa using hpiece
    exact hlast
  | cons first init =>
    refine head_trimEnd h ?_
    rw [htrim]
    exact hpiece

/-- **Going up** drops the last component. -/
theorem components_parent? {p b : Path} (h : p.parent? = some b) :
    b.components = p.components.dropLast := by
  rcases hsplit : p.split with ⟨front, rest⟩
  rw [components_eq hsplit]
  simp only [parent?, hsplit] at h
  -- fillers at the end of a path name nothing
  rcases trimEnd_cases rest with htrim | ⟨init, last, htrim, hlast⟩
  · have hnone : rest.filterMap component? = [] := by rw [← filterMap_trimEnd, htrim]; rfl
    rw [htrim] at h
    split at h
    · simp at *
    · obtain rfl := Option.some.inj h
      rw [hnone]
      rfl
    · cases h
  · obtain ⟨c, hc, -⟩ := component?_of_name hlast
    have hsome : rest.filterMap component? = init.filterMap component? ++ [c] := by
      rw [← filterMap_trimEnd, htrim, List.filterMap_append]
      simp [hc]
    rw [htrim, List.dropLast_concat] at h
    rw [hsome, ← List.append_assoc, List.dropLast_concat]
    have hb : b = unsplit front (trimEnd init) := by
      split at h
      · exact (Option.some.inj h).symm
      · simp_all
      · simp_all
    -- what is left begins as the path did, so its components are those in front
    rw [hb, components_unsplit hsplit, filterMap_trimEnd]
    intro hfront piece hpiece
    refine head_of_trimEnd hsplit htrim last hlast hfront piece ?_
    obtain ⟨behind, hprefix⟩ := List.rdropWhile_prefix isFiller init
    rw [← trimEnd_eq] at hprefix
    rw [← hprefix, List.append_assoc, List.head?_append, hpiece]
    rfl

/-! ## File names -/

theorem fileName?_eq_some_iff {p : Path} {name : String} :
    p.fileName? = some name ↔ p.components.getLast? = some (.name name) := by
  unfold fileName?
  split
  · rename_i text hlast
    rw [hlast, Option.some.injEq, Option.some.injEq, Component.name.injEq]
  · rename_i hother
    exact iff_of_false (by simp) (hother name)

theorem components_of_fileName {p : Path} {name : String} (h : p.fileName? = some name) :
    p.components = p.components.dropLast ++ [.name name] := by
  obtain ⟨before, hbefore⟩ := List.getLast?_eq_some_iff.1 (fileName?_eq_some_iff.1 h)
  rw [hbefore, List.dropLast_concat]

theorem fileName?_of_components {p : Path} {before : List Component} {name : String}
    (h : p.components = before ++ [.name name]) : p.fileName? = some name :=
  fileName?_eq_some_iff.2 (by rw [h, List.getLast?_concat])

/-! ## Extensions -/

/-- An extension that is a file name's, not a dot's. -/
theorem extended_component {extension : String} (hext : extension ≠ "" ∧ extension ≠ ".")
    (stem : String) : component? (stem ++ "." ++ extension) = some (.name (stem ++ "." ++ extension)) := by
  have htext : (stem ++ "." ++ extension).toList = stem.toList ++ '.' :: extension.toList := by simp
  have hne (text : String) (h : text.toList ≠ stem.toList ++ '.' :: extension.toList) :
      stem ++ "." ++ extension ≠ text := fun heq => h (by rw [← heq, htext])
  have hext' : extension.toList ≠ [] ∧ extension.toList ≠ ['.'] :=
    ⟨fun h => hext.1 (String.toList_inj.1 h), fun h => hext.2 (String.toList_inj.1 h)⟩
  have hempty : stem ++ "." ++ extension ≠ "" := hne "" (by simp)
  have hdot : stem ++ "." ++ extension ≠ "." := by
    refine hne "." ?_
    cases hstem : stem.toList with
    | nil => simpa using hext'.1.symm
    | cons c cs => simp
  have hdots : stem ++ "." ++ extension ≠ ".." := by
    refine hne ".." ?_
    rcases stem.toList with _ | ⟨c, _ | ⟨c', cs⟩⟩
    · simpa using hext'.2.symm
    · simpa using fun _ => hext'.1
    · simp
  simp only [component?, isFiller, beq_iff_eq, hdots, Bool.or_self, if_false,
    beq_eq_false_iff_ne.2 hempty, beq_eq_false_iff_ne.2 hdot, Bool.false_eq_true]

/-- A name without dots has no extension. -/
theorem splitExtension_of_plain {name : String} (h : '.' ∉ name.toList) :
    splitExtension name = (name, none) := by
  have hall : name.toList.reverse.takeWhile (· != '.') = name.toList.reverse := by
    rw [List.takeWhile_eq_self_iff]
    intro c hc
    simp only [bne_iff_ne, ne_eq]
    rintro rfl
    exact h (List.mem_reverse.1 hc)
  simp only [splitExtension, hall, List.reverse_reverse, String.length_toList, Nat.sub_self,
    List.take_zero]

theorem extended_eq (extension piece : String) : extended extension piece =
    if (splitExtension piece).1 = "." then ".."
    else (splitExtension piece).1 ++ "." ++ extension := by
  simp only [extended, beq_iff_eq]

/-- The last piece of a path with another extension. -/
def lastWith (p : Path) (extension name : String) : String :=
  if p.split.2.getLast? == some name then extended extension name
  else (splitExtension name).1 ++ "." ++ extension

/-- Of two dots that are left nothing is a name; all else is one. -/
theorem component?_lastWith {extension : String} (hext : extension ≠ "" ∧ extension ≠ ".")
    (p : Path) (name : String) : component? (p.lastWith extension name) =
      if (splitExtension name).1 = "." ∧ p.split.2.getLast? = some name then some .parent
      else some (.name ((splitExtension name).1 ++ "." ++ extension)) := by
  have hplain := extended_component hext (splitExtension name).1
  rw [lastWith]
  by_cases hlast : p.split.2.getLast? = some name
  · rw [if_pos (by simpa using hlast), extended_eq]
    by_cases hdot : (splitExtension name).1 = "."
    · rw [if_pos hdot, if_pos ⟨hdot, hlast⟩]
      rfl
    · rw [if_neg hdot, if_neg (fun h => hdot h.1), hplain]
  · rw [if_neg (by simpa using hlast), if_neg (fun h => hlast h.2), hplain]

/-- **Another extension** is put into the last piece, and what is in front of
it stays. -/
theorem withExtension_of_fileName {p : Path} {name : String} (h : p.fileName? = some name) :
    ∃ front rest init last, p.split = (front, rest) ∧ trimEnd rest = init ++ [last] ∧
      component? last = some (.name name) ∧
      ∀ extension, p.withExtension extension = unsplit front (init ++ [p.lastWith extension name]) := by
  rcases hsplit : p.split with ⟨front, rest⟩
  have hcomponents := components_eq hsplit
  have hgetLast := fileName?_eq_some_iff.1 h
  rcases trimEnd_cases rest with htrim | ⟨init, last, htrim, hlast⟩
  · -- only a front is left, and it is no name
    have hnone : rest.filterMap component? = [] := by rw [← filterMap_trimEnd, htrim]; rfl
    rw [hcomponents, hnone, List.append_nil] at hgetLast
    rcases p.split_cases with ⟨_, _, -, h⟩ | ⟨_, -, h⟩ | ⟨h, -⟩ <;>
      · obtain ⟨rfl, -⟩ := Prod.mk.inj (h.symm.trans hsplit)
        simp at hgetLast
  · obtain ⟨c, hc, -⟩ := component?_of_name hlast
    have hsome : rest.filterMap component? = init.filterMap component? ++ [c] := by
      rw [← filterMap_trimEnd, htrim, List.filterMap_append]
      simp [hc]
    rw [hcomponents, hsome, ← List.append_assoc, List.getLast?_concat] at hgetLast
    refine ⟨front, rest, init, last, rfl, htrim, hc.trans hgetLast, fun extension => ?_⟩
    rw [withExtension, h]
    simp only [hsplit, htrim, List.dropLast_concat, lastWith]

/-- **In components**, another extension changes the last one. It stays a
name, unless dots in front of the extension are left. -/
theorem components_withExtension_eq {extension : String} (hext : extension ≠ "" ∧ extension ≠ ".")
    {p : Path} {name : String} (h : p.fileName? = some name) :
    (p.withExtension extension).components = p.components.dropLast ++
      [if (splitExtension name).1 = "." ∧ p.split.2.getLast? = some name then .parent
        else .name ((splitExtension name).1 ++ "." ++ extension)] := by
  obtain ⟨front, rest, init, last, hsplit, htrim, hlast, hwith⟩ := withExtension_of_fileName h
  have hpiece := component?_lastWith hext p name
  rw [← apply_ite some] at hpiece
  have hsome : rest.filterMap component? = init.filterMap component? ++ [.name name] := by
    rw [← filterMap_trimEnd, htrim, List.filterMap_append]
    simp [hlast]
  rw [hwith, components_unsplit hsplit (head_of_trimEnd hsplit htrim _ (name_of_component? hpiece)),
    components_eq hsplit, hsome, ← List.append_assoc, List.dropLast_concat, List.filterMap_append,
    List.filterMap_cons, hpiece, List.append_assoc]
  rfl

theorem components_withExtension {extension : String} (hext : extension ≠ "" ∧ extension ≠ ".")
    (p : Path) :
    (p.withExtension extension).components = p.components ∨
      ∃ name c, p.components.getLast? = some (.name name) ∧
        (p.withExtension extension).components = p.components.dropLast ++ [c] ∧
        ((∃ text, c = .name text) ∨ c = .parent ∧ '.' ∈ name.toList) := by
  cases hname : p.fileName? with
  | none => exact .inl (by rw [withExtension, hname])
  | some name =>
    refine .inr ⟨name, _, fileName?_eq_some_iff.1 hname, components_withExtension_eq hext hname, ?_⟩
    split
    · rename_i hdots
      refine .inr ⟨rfl, ?_⟩
      by_contra hplain
      rw [splitExtension_of_plain hplain] at hdots
      simp [show name = "." from hdots.1] at hplain
    · exact .inl ⟨_, rfl⟩

end LuaSugar.Path
