import Mathlib
import LuaSugar.Proofs.Project.Paths
import LuaSugar.Require.Resolve
/-!
# Where required files are

However often modules require one another, the files that are found stand
below the directories above the root and the entry: a name starts from the
root or goes up from the file that requires it, and from there it only
goes down. `Descends` says so of the components of a path, and the
candidates for a name required by a file that descends descend as well
(`descends_candidates`).

Going down is by names without dots. The extension that is put at the end
is the only dot, but where no name is left, an extension in the name of a
directory above may be changed; that is the second form of `Descends`.
-/

namespace LuaSugar

/-! ## Pieces between separators -/

namespace Text

theorem charPieces_ne_nil (isSeparator : Char → Bool) (cs : List Char) :
    charPieces isSeparator cs ≠ [] := by
  cases cs with
  | nil => simp [charPieces]
  | cons c cs =>
    rw [charPieces]
    split
    · simp
    · split <;> simp

theorem charPieces_plain {isSeparator : Char → Bool} {cs piece : List Char}
    (h : piece ∈ charPieces isSeparator cs) : ∀ c ∈ piece, isSeparator c = false := by
  induction cs generalizing piece with
  | nil =>
    obtain rfl := List.mem_singleton.1 h
    simp
  | cons first cs ih =>
    rw [charPieces] at h
    by_cases hfirst : isSeparator first
    · rw [if_pos hfirst] at h
      rcases List.mem_cons.1 h with rfl | h
      · simp
      · exact ih h
    · rw [if_neg hfirst] at h
      cases hpieces : charPieces isSeparator cs with
      | nil => exact absurd hpieces (charPieces_ne_nil _ _)
      | cons next rest =>
        rw [hpieces] at h ih
        rcases List.mem_cons.1 h with rfl | h
        · intro c hc
          rcases List.mem_cons.1 hc with rfl | hc
          · simpa using hfirst
          · exact ih List.mem_cons_self c hc
        · exact ih (List.mem_cons_of_mem _ h)

/-- A text without separators is one piece. -/
theorem charPieces_of_plain {isSeparator : Char → Bool} {cs : List Char}
    (h : ∀ c ∈ cs, isSeparator c = false) : charPieces isSeparator cs = [cs] := by
  induction cs with
  | nil => rfl
  | cons c cs ih =>
    rw [List.forall_mem_cons] at h
    rw [charPieces, h.1, ih h.2]
    rfl

end Text

namespace Path

/-- A path that only goes down, by names without dots. -/
structure Downward (p : Path) : Prop where
  pieces : p.pieces ≠ []
  front : ∀ rest, p.pieces = "" :: rest → rest = []
  plain : ∀ piece ∈ p.pieces, '.' ∉ piece.toList

theorem component?_of_plain {piece : String} (h : '.' ∉ piece.toList) {c : Component}
    (hc : component? piece = some c) : c = .name piece := by
  obtain ⟨c', hc', hkind⟩ := component?_of_name (name_of_component? hc)
  obtain rfl := Option.some.inj (hc.symm.trans hc')
  rcases hkind with rfl | rfl
  · unfold component? at hc
    split at hc
    · cases hc
    · split at hc
      · rename_i hdots
        rw [beq_iff_eq] at hdots
        simp [hdots] at h
      · cases hc
  · rfl

namespace Downward

variable {p : Path} (h : p.Downward)
include h

theorem components_eq : p.components = p.pieces.filterMap component? := by
  obtain ⟨pieces⟩ := p
  cases pieces with
  | nil => rfl
  | cons piece behind =>
    rw [components_cons]
    by_cases hempty : piece = ""
    · subst hempty
      obtain rfl := h.front behind rfl
      rfl
    · have hname : isFiller piece = false := by
        have hdot : piece ≠ "." := by
          rintro rfl
          exact absurd (h.plain "." List.mem_cons_self) (by decide)
        simp [isFiller, hempty, hdot]
      rw [lead_of_name hname]
      cases hc : component? piece with
      | none => simp [hc]
      | some c => simp [hc]

/-- The names by which it goes down. -/
theorem exists_names : ∃ names : List String, p.components = names.map .name ∧
    ∀ name ∈ names, '.' ∉ name.toList := by
  rw [h.components_eq]
  have hplain := h.plain
  generalize p.pieces = pieces at hplain
  induction pieces with
  | nil => exact ⟨[], rfl, by simp⟩
  | cons piece pieces ih =>
    rw [List.forall_mem_cons] at hplain
    obtain ⟨names, hnames, hplain'⟩ := ih hplain.2
    cases hc : component? piece with
    | none => exact ⟨names, by rw [List.filterMap_cons, hc, hnames], hplain'⟩
    | some c =>
      obtain rfl := component?_of_plain hplain.1 hc
      refine ⟨piece :: names, by rw [List.filterMap_cons, hc, hnames]; rfl, ?_⟩
      exact List.forall_mem_cons.2 ⟨hplain.1, hplain'⟩

theorem frontless : p.Frontless := ⟨h.pieces, h.components_eq⟩

/-- One step further down. -/
theorem join {text : String} (htext : '.' ∉ text.toList) : (p.join ⟨[text]⟩).Downward := by
  obtain ⟨pieces⟩ := p
  have habsolute : Path.isAbsolute ⟨[text]⟩ = false :=
    (frontless ⟨by simp, by simp, by simpa using htext⟩).isAbsolute
  rw [Path.join, habsolute]
  simp only [Bool.false_eq_true, if_false]
  have hplain : ∀ piece ∈ pieces ++ [text], '.' ∉ piece.toList := by
    intro piece hpiece
    rcases List.mem_append.1 hpiece with hp | hp
    · exact h.plain piece hp
    · rwa [List.mem_singleton.1 hp]
  -- an empty last piece is dropped, which leaves the front as it was
  by_cases hlast : pieces.getLast? = some ""
  · rw [if_pos (by simpa using hlast)]
    refine ⟨by simp, fun rest hrest => ?_, fun piece hpiece => hplain piece ?_⟩
    · cases hinit : pieces.dropLast with
      | nil =>
        rw [hinit] at hrest
        exact (List.cons.inj hrest).2.symm
      | cons first init =>
        exfalso
        rw [hinit] at hrest
        obtain ⟨rfl, -⟩ := List.cons.inj hrest
        have hpieces := h.front pieces.tail
        cases pieces with
        | nil => simp at hinit
        | cons first' rest' =>
          cases rest' with
          | nil => simp at hinit
          | cons second rest' =>
            obtain ⟨rfl, -⟩ := List.cons.inj hinit
            simpa using hpieces rfl
    · rcases List.mem_append.1 hpiece with hp | hp
      · exact List.mem_append_left _ (List.mem_of_mem_dropLast hp)
      · exact List.mem_append_right _ hp
  · rw [if_neg (by simpa using hlast)]
    refine ⟨by simp, fun rest hrest => ?_, hplain⟩
    exfalso
    cases pieces with
    | nil => exact h.pieces rfl
    | cons first init =>
      obtain ⟨rfl, -⟩ := List.cons.inj hrest
      obtain rfl := h.front init rfl
      simp at hlast

end Downward

end Path

namespace Require

/-- What separates the parts of a name. -/
def isSeparator (c : Char) : Bool := c == '.' || c == '/'

theorem plain_of_mem_pieces {stem text : String} (h : text ∈ Text.pieces isSeparator stem) :
    '.' ∉ text.toList ∧ '/' ∉ text.toList := by
  obtain ⟨cs, hcs, rfl⟩ := List.mem_map.1 h
  have hplain := Text.charPieces_plain hcs
  rw [String.toList_ofList]
  exact ⟨fun h => by simpa [isSeparator] using hplain _ h,
    fun h => by simpa [isSeparator] using hplain _ h⟩

/-- Joining texts goes down by those that are not empty. -/
theorem foldl_joinText {p : Path} (hp : p.Downward) {texts : List String}
    (htexts : ∀ text ∈ texts, '.' ∉ text.toList ∧ '/' ∉ text.toList) :
    (texts.foldl Path.joinText p).Downward ∧
      (texts.foldl Path.joinText p).components =
        p.components ++ texts.filterMap Path.component? := by
  induction texts generalizing p with
  | nil => exact ⟨hp, by simp⟩
  | cons text texts ih =>
    rw [List.forall_mem_cons] at htexts
    have hpieces : Path.ofText text = ⟨[text]⟩ := by
      have hone : Text.charPieces (· == '/') text.toList = [text.toList] :=
        Text.charPieces_of_plain fun c hc => by
          simp only [beq_eq_false_iff_ne, ne_eq]
          rintro rfl
          exact htexts.1.2 hc
      rw [Path.ofText, Text.pieces, hone]
      simp
    have htext : (⟨[text]⟩ : Path).Downward := ⟨by simp, by simp, by simpa using htexts.1.1⟩
    have hjoin : p.joinText text = p.join ⟨[text]⟩ := by rw [Path.joinText, hpieces]
    obtain ⟨hdown, hcomponents⟩ := ih (hp.join htexts.1.1) htexts.2
    rw [List.foldl_cons, hjoin]
    refine ⟨hdown, ?_⟩
    rw [hcomponents, Path.components_join htext.frontless, htext.components_eq, List.append_assoc,
      ← List.filterMap_append]
    rfl

/-- **The path of a name goes down**, by its parts between separators. -/
theorem relativePath_spec (stem : String) : (relativePath stem).Downward ∧
    (relativePath stem).components =
      (Text.pieces isSeparator stem).filterMap Path.component? := by
  have hstart : (Path.ofText "").Downward :=
    ⟨by decide, fun rest h => ((List.cons.inj h).2).symm, by decide⟩
  obtain ⟨hdown, hcomponents⟩ := foldl_joinText hstart fun text htext => plain_of_mem_pieces htext
  exact ⟨hdown, by rw [relativePath]; exact hcomponents⟩

/-! ## Going up and down -/

/-- Components of a directory above an origin and names without dots. -/
def Directory (origins : List Path) (cs : List Path.Component) : Prop :=
  ∃ o ∈ origins, ∃ (up : ℕ) (names : List String), (∀ name ∈ names, '.' ∉ name.toList) ∧
    cs = o.components.take up ++ names.map .name

/-- Components of a file below a directory above an origin: the last name
has an extension, or there is none and two dots are left. -/
def Descends (origins : List Path) (cs : List Path.Component) : Prop :=
  ∃ o ∈ origins, ∃ (up : ℕ), cs = o.components.take up ++ [.parent] ∨ ∃ names : List String,
    (∀ name ∈ names.dropLast, '.' ∉ name.toList) ∧ cs = o.components.take up ++ names.map .name

variable {origins : List Path} {cs : List Path.Component}

theorem directory_of_mem {o : Path} (h : o ∈ origins) : Directory origins o.components :=
  ⟨o, h, o.components.length, [], by simp, by simp⟩

theorem Directory.descends (h : Directory origins cs) : Descends origins cs := by
  obtain ⟨o, ho, up, names, hplain, rfl⟩ := h
  exact ⟨o, ho, up, .inr ⟨names, fun name hn => hplain name (List.mem_of_mem_dropLast hn), rfl⟩⟩

theorem Directory.take (h : Directory origins cs) (n : ℕ) : Directory origins (cs.take n) := by
  obtain ⟨o, ho, up, names, hplain, rfl⟩ := h
  refine ⟨o, ho, min n up, names.take (n - (o.components.take up).length),
    fun name hn => hplain name (List.mem_of_mem_take hn), ?_⟩
  rw [List.take_append, List.take_take, List.map_take]

/-- Above what descends are directories. -/
theorem Descends.dropLast (h : Descends origins cs) : Directory origins cs.dropLast := by
  obtain ⟨o, ho, up, rfl | ⟨names, hplain, rfl⟩⟩ := h
  · exact ⟨o, ho, up, [], by simp, by simp⟩
  · rcases List.eq_nil_or_concat' names with rfl | ⟨init, last, rfl⟩
    · rw [List.map_nil, List.append_nil]
      have hdirectory : Directory origins (o.components.take up) := ⟨o, ho, up, [], by simp, by simp⟩
      rw [List.dropLast_eq_take]
      exact hdirectory.take _
    · rw [List.dropLast_concat] at hplain
      refine ⟨o, ho, up, init, hplain, ?_⟩
      rw [List.map_append, List.map_singleton, ← List.append_assoc, List.dropLast_concat]

/-- Dots in front of a name lead up. -/
theorem climb_components {base base' : Path} {name rest : List Char}
    (h : climb base name = some (base', rest)) :
    ∃ n, base'.components = base.components.take n := by
  fun_induction climb base name with
  | case1 base rest' ih => exact ih h
  | case2 base rest' ih =>
    obtain ⟨parent, hparent, hclimb⟩ := Option.bind_eq_some_iff.1 h
    obtain ⟨n, hn⟩ := ih parent hclimb
    rw [hn, Path.components_parent? hparent, List.dropLast_eq_take, List.take_take]
    exact ⟨_, rfl⟩
  | case3 base rest' _ _ =>
    obtain ⟨rfl, -⟩ := Prod.mk.inj (Option.some.inj h)
    exact ⟨base.components.length, List.take_length.symm⟩

theorem Directory.join (h : Directory origins cs) {base q : Path} (hbase : base.components = cs)
    (hq : q.Downward) : Directory origins (base.join q).components := by
  obtain ⟨o, ho, up, names, hplain, rfl⟩ := h
  obtain ⟨names', hnames', hplain'⟩ := hq.exists_names
  rw [Path.components_join hq.frontless, hbase, hnames']
  refine ⟨o, ho, up, names ++ names', ?_, by simp⟩
  intro name hname
  rcases List.mem_append.1 hname with hn | hn
  · exact hplain name hn
  · exact hplain' name hn

theorem Directory.withExtension {p : Path} (h : Directory origins p.components) {extension : String}
    (hext : extension ≠ "" ∧ extension ≠ ".") :
    Descends origins (p.withExtension extension).components := by
  rcases Path.components_withExtension hext p with hsame | ⟨name, c, hlast, hcomponents, hc⟩
  · rw [hsame]
    exact h.descends
  · obtain ⟨o, ho, up, names, hplain, hp⟩ := h
    rw [hp] at hlast hcomponents
    rw [hcomponents]
    rcases List.eq_nil_or_concat' names with rfl | ⟨init, last, rfl⟩
    · have hup : ((o.components.take up ++ List.map Path.Component.name []).dropLast) =
          o.components.take (min ((o.components.take up).length - 1) up) := by
        rw [List.map_nil, List.append_nil, List.dropLast_eq_take, List.take_take]
      rw [hup]
      rcases hc with ⟨text, rfl⟩ | ⟨rfl, -⟩
      · exact ⟨o, ho, _, .inr ⟨[text], by simp, rfl⟩⟩
      · exact ⟨o, ho, _, .inl rfl⟩
    · rw [List.map_append, List.map_singleton, ← List.append_assoc] at hlast ⊢
      rw [List.getLast?_concat, Option.some.injEq, Path.Component.name.injEq] at hlast
      rw [List.dropLast_concat]
      obtain ⟨text, rfl⟩ := hc.resolve_right fun hdots =>
        hplain last (by simp) (hlast ▸ hdots.2)
      refine ⟨o, ho, up, .inr ⟨init ++ [text], ?_, by simp⟩⟩
      intro name' hname'
      rw [List.dropLast_concat] at hname'
      exact hplain name' (by simp [hname'])

/-- **Candidates descend** if the file that requires them does. -/
theorem descends_candidates {root file : Path} (hroot : root ∈ origins)
    (hfile : Descends origins file.components) {name : String} {path : Path}
    (h : path ∈ candidates name file root) : Descends origins path.components := by
  unfold candidates at h
  cases hstart : start? name file root with
  | none => simp [hstart] at h
  | some start =>
    obtain ⟨base, rest⟩ := start
    have hbase : Directory origins base.components := by
      unfold start? at hstart
      split at hstart
      · obtain ⟨parent, hparent, hbind⟩ := Option.bind_eq_some_iff.1 hstart
        obtain ⟨⟨base', rest'⟩, hclimb, hbase⟩ := Option.bind_eq_some_iff.1 hbind
        obtain ⟨rfl, -⟩ := Prod.mk.inj (Option.some.inj hbase)
        obtain ⟨n, hn⟩ := climb_components hclimb
        rw [hn, Path.components_parent? hparent]
        exact hfile.dropLast.take n
      · obtain ⟨rfl, -⟩ := Prod.mk.inj (Option.some.inj hstart)
        exact directory_of_mem hroot
    rw [hstart] at h
    dsimp only at h
    split at h
    · cases h
    · obtain ⟨extension, hextension, rfl⟩ := List.mem_map.1 h
      refine (hbase.join rfl (relativePath_spec (stem rest)).1).withExtension ?_
      rcases List.mem_pair.1 hextension with rfl | rfl <;> decide

end Require

end LuaSugar
