import Mathlib
import LuaSugar.Proofs.Project.Reach
import LuaSugar.Proofs.Project.Followed
/-!
# What stays written

A file that was written can be read until something is written to the
place its path leads to. Making directories puts them only where nothing
stood, and writing replaces one file and never a directory, so a path that
could be followed still can be and leads where it led: what a change may
have replaced is told by a set of places (`FileTree.Keeps`), and these sets
add up along a build (`Building.run_writeOutput`).
-/

namespace LuaSugar

namespace Path

/-- A last piece that is a name is the last component. -/
theorem components_concat (pieces : List String) : ∃ before, ∀ last, isFiller last = false →
    last ≠ ".." → components ⟨pieces ++ [last]⟩ = before ++ [.name last] := by
  have hcomponent {last : String} (hname : isFiller last = false) (hdots : last ≠ "..") :
      component? last = some (.name last) := by
    rw [component?, hname, if_neg Bool.false_ne_true, if_neg (by simpa using hdots)]
  cases pieces with
  | nil =>
    refine ⟨[], fun last hname hdots => ?_⟩
    rw [List.nil_append, components_cons, lead_of_name hname, hcomponent hname hdots]
    rfl
  | cons piece pieces =>
    refine ⟨lead piece [piece] ++ pieces.filterMap component?, fun last hname hdots => ?_⟩
    rw [List.cons_append, components_cons, lead_congr _ [piece] (.inr (by simp)),
      List.filterMap_append, ← List.append_assoc, List.filterMap_cons, hcomponent hname hdots,
      List.filterMap_nil]

/-- A path whose last piece is a name has that file name. -/
theorem fileName?_of_last {p : Path} {pieces : List String} {last : String}
    (h : p.pieces = pieces ++ [last]) (hname : isFiller last = false) (hdots : last ≠ "..") :
    p.fileName? = some last := by
  obtain ⟨before, hbefore⟩ := components_concat pieces
  obtain ⟨all⟩ := p
  obtain rfl : all = pieces ++ [last] := h
  exact fileName?_of_components (hbefore last hname hdots)

end Path

namespace FileTree

variable {t t' t'' : FileTree} {p : Path} {l : Location} {text : String}

/-- The root is a directory. -/
@[simp] theorem node?_nil (t : FileTree) : t.node? [] = some .directory := rfl

/-- Putting a node somewhere changes what stands there only. -/
theorem node?_put (hl : l ≠ []) (node : FileNode) (l' : Location) :
    (t.put l node).node? l' = if l' = l then some node else t.node? l' := by
  cases l' with
  | nil => rw [node?_nil, node?_nil, if_neg hl.symm]
  | cons name rest =>
    show (t.nodes.insert l node).find? (name :: rest) = if _ then _ else t.nodes.find? (name :: rest)
    rw [Index.find?_insert]
    simp only [Std.LawfulEqOrd.compare_eq_iff_eq]

/-! ## Paths that can be used -/

/-- The last of several steps. -/
theorem steps_concat_eq_ok_iff {pieces : List String} {last : String} {start : Location} :
    (pieces ++ [last]).foldlM t.step start = .ok l ↔ ∃ directory,
      pieces.foldlM t.step start = .ok directory ∧ t.step directory last = .ok l := by
  rw [List.foldlM_append]
  cases pieces.foldlM t.step start with
  | error fault => exact iff_of_false (by rintro ⟨⟩) (by simp)
  | ok directory =>
    have hlast : [last].foldlM t.step directory = t.step directory last := by
      rw [List.foldlM_cons]
      cases t.step directory last <;> rfl
    simp only [bind, Except.bind, hlast, Except.ok.injEq, exists_eq_left']

/-- A path leads somewhere if each step of it does, from the root or from the
current directory. -/
theorem follow_eq_ok_iff : t.follow p = .ok l ↔ hasNul p = false ∧ p.isEmpty = false ∧
    p.pieces.foldlM t.step (if p.isAbsolute then [] else t.current) = .ok l := by
  unfold follow
  cases hasNul p <;> cases p.isEmpty <;> simp

/-- A path that operations accept, and where it leads. -/
structure Opens (t : FileTree) (p : Path) (l : Location) : Prop where
  clean : hasNul p = false
  short : isTooLong p = false
  follows : t.follow p = .ok l

/-- A path that opens leads where its components do by themselves. -/
theorem Opens.eq_land (h : t.Opens p l) : l = t.land p.components := follow_eq h.follows

/-- What is asked of a path before it is followed. -/
theorem locate_of_checks (t : FileTree) (p : Path) : t.locate p =
    if hasNul p then .error .nulInPath
    else if isTooLong p then .error .nameTooLong else t.find p := by
  unfold locate
  split
  · rfl
  · split <;> rfl

/-- A path is located at the node that it opens. -/
theorem locate_eq_ok_iff {node : FileNode} :
    t.locate p = .ok (l, node) ↔ t.Opens p l ∧ t.node? l = some node := by
  rw [locate_of_checks, find]
  constructor
  · intro h
    split at h
    · cases h
    rename_i hclean
    split at h
    · cases h
    rename_i hshort
    cases hfollow : t.follow p with
    | error fault => rw [hfollow] at h; cases h
    | ok l' =>
      rw [hfollow] at h
      cases hnode : t.node? l' with
      | none => simp only [bind, Except.bind, hnode] at h; cases h
      | some node' =>
        simp only [bind, Except.bind, hnode] at h
        obtain ⟨rfl, rfl⟩ := Prod.mk.inj (Except.ok.inj h)
        exact ⟨⟨by simpa using hclean, by simpa using hshort, hfollow⟩, hnode⟩
  · rintro ⟨⟨hclean, hshort, hfollow⟩, hnode⟩
    rw [hclean, hshort, hfollow]
    simp only [bind, Except.bind, hnode]
    rfl

/-- A path is read as the file that it opens. -/
theorem read_eq_ok_iff : t.read p = .ok text ↔ ∃ l, t.Opens p l ∧ t.node? l = some (.file text) := by
  unfold read
  constructor
  · intro h
    cases hlocate : t.locate p with
    | error fault => rw [hlocate] at h; cases h
    | ok found =>
      obtain ⟨l, node⟩ := found
      rw [hlocate] at h
      obtain ⟨hopens, hnode⟩ := locate_eq_ok_iff.1 hlocate
      cases node with
      | file text' =>
        obtain rfl : text' = text := Except.ok.inj h
        exact ⟨l, hopens, hnode⟩
      | binary => cases h
      | directory => cases h
  · rintro ⟨l, hopens, hnode⟩
    rw [locate_eq_ok_iff.2 ⟨hopens, hnode⟩]
    rfl

/-- A file stands at a path if it can be used and leads to no directory. -/
theorem isFile_iff : t.isFile p ↔
    ∃ l node, t.Opens p l ∧ t.node? l = some node ∧ node ≠ .directory := by
  unfold isFile
  cases hlocate : t.locate p with
  | error fault =>
    simp only [Bool.false_eq_true, false_iff]
    rintro ⟨l, node, hopens, hnode, -⟩
    rw [locate_eq_ok_iff.2 ⟨hopens, hnode⟩] at hlocate
    cases hlocate
  | ok found =>
    obtain ⟨l, node⟩ := found
    obtain ⟨hopens, hnode⟩ := locate_eq_ok_iff.1 hlocate
    have hunique {l' : Location} (h : t.Opens p l') : l' = l := h.eq_land.trans hopens.eq_land.symm
    cases node with
    | directory =>
      simp only [Bool.false_eq_true, false_iff]
      rintro ⟨l', node, hopens', hnode', hfile⟩
      obtain rfl := hunique hopens'
      exact hfile (Option.some.inj (hnode'.symm.trans hnode))
    | file text => exact iff_of_true rfl ⟨l, _, hopens, hnode, by simp⟩
    | binary => exact iff_of_true rfl ⟨l, _, hopens, hnode, by simp⟩

/-! ## Last steps -/

/-- A step to a name. -/
theorem step_eq_ok {piece : String} (hname : Path.isFiller piece = false) (hdots : piece ≠ "..")
    {directory : Location} (h : t.step directory piece = .ok l) : l = directory ++ [piece] := by
  have hl := step_eq h
  unfold Path.component? at hl
  rwa [hname, if_neg Bool.false_ne_true, if_neg (by simpa using hdots)] at hl

/-- A last step to a name: the path can be used, and leads to the name in a
directory. -/
theorem lastStep_eq_name {slashes : Bool} (h : t.lastStep p = .ok (.name l, slashes)) :
    hasNul p = false ∧ isTooLong p = false ∧ p.isEmpty = false ∧
      ∃ pieces behind last directory, p.pieces = pieces ++ [last] ++ behind ∧
        (slashes = false → behind = []) ∧ Path.isFiller last = false ∧ last ≠ ".." ∧
        pieces.foldlM t.step (if p.isAbsolute then [] else t.current) = .ok directory ∧
        t.step directory last = .ok l := by
  unfold lastStep at h
  dsimp only at h
  split at h
  · cases h
  rename_i hclean
  split at h
  · cases h
  rename_i hshort
  split at h
  · cases h
  rename_i hempty
  -- what is left without the slashes at the end, and the slashes
  obtain ⟨behind, hbehind⟩ := List.rdropWhile_prefix (· == "") p.pieces
  have hend : ∀ x, (p.pieces.rdropWhile (· == "")).getLast? = some x → x ≠ "" := by
    intro x hx
    have hne : p.pieces.rdropWhile (· == "") ≠ [] := by
      intro hnil
      rw [hnil] at hx
      cases hx
    have hnot := List.rdropWhile_last_not (· == "") p.pieces hne
    rw [List.getLast?_eq_some_getLast hne, Option.some.injEq] at hx
    rw [← hx]
    simpa using hnot
  rw [List.rdropWhile] at hbehind hend
  generalize (p.pieces.reverse.dropWhile (· == "")).reverse = kept at h hbehind hend
  split at h
  · cases h
  rename_i last hlast
  obtain ⟨pieces, rfl⟩ := List.getLast?_eq_some_iff.1 hlast
  rw [List.dropLast_concat] at h
  cases hfold : pieces.foldlM t.step (if p.isAbsolute then [] else t.current) with
  | error fault => rw [hfold] at h; cases h
  | ok directory =>
    rw [hfold] at h
    cases hstep : t.step directory last with
    | error fault => simp only [bind, Except.bind, hstep] at h; cases h
    | ok location =>
      simp only [bind, Except.bind, hstep] at h
      obtain ⟨hkind, hslashes⟩ := Prod.mk.inj (Except.ok.inj h)
      split at hkind
      · cases hkind
      rename_i hdots
      obtain rfl := LastStep.name.inj hkind
      simp only [Bool.or_eq_true, beq_iff_eq, not_or] at hdots
      have hempty' := hend last hlast
      refine ⟨by simpa using hclean, by simpa using hshort, by simpa using hempty, pieces, behind,
        last, directory, hbehind.symm, fun hfalse => ?_, ?_, hdots.2, hfold, hstep⟩
      · rw [← hslashes, ← hbehind, decide_eq_false_iff_not] at hfalse
        simp only [List.length_append] at hfalse
        exact List.length_eq_zero_iff.1 (by omega)
      · simp [Path.isFiller, hempty', hdots.1]

/-- **Writing** puts a file at the place to which the path leads, which is
below the root and has no directory. -/
theorem write_eq_ok (h : t.write p text = .ok t') : ∃ l, t.Opens p l ∧ l ≠ [] ∧
    t.node? l ≠ some .directory ∧ t' = t.put l (.file text) ∧ p.fileName?.isSome := by
  unfold write at h
  cases hlast : t.lastStep p with
  | error fault => rw [hlast] at h; cases h
  | ok found =>
    obtain ⟨_ | l, slashes⟩ := found
    · rw [hlast] at h
      cases h
    -- a path that ends with a slash is refused
    cases slashes with
    | true => rw [hlast] at h; cases h
    | false =>
      rw [hlast] at h
      obtain ⟨hclean, hshort, hempty, pieces, behind, last, directory, hpieces, hbehind, hname,
        hdots, hfold, hstep⟩ := lastStep_eq_name hlast
      obtain rfl := hbehind rfl
      rw [List.append_nil] at hpieces
      have hl := step_eq_ok hname hdots hstep
      -- the directory that it is written to is the one that the path leads through
      have hfollow : t.follow p = .ok l := by
        refine follow_eq_ok_iff.2 ⟨hclean, hempty, ?_⟩
        rw [hpieces]
        exact steps_concat_eq_ok_iff.2 ⟨directory, hfold, hstep⟩
      simp only [bind, Except.bind] at h
      split at h
      · cases h
      rename_i hnode
      refine ⟨l, ⟨hclean, hshort, hfollow⟩, ?_, by simpa using hnode, (Except.ok.inj h).symm, ?_⟩
      · rw [hl]
        simp
      · rw [Path.fileName?_of_last hpieces hname hdots]
        rfl

/-- Making a directory puts it where nothing stood. -/
theorem makeDirectory_eq_ok (h : t.makeDirectory p = .ok t') : ∃ l, l ≠ [] ∧ t.node? l = none ∧
    t' = t.put l .directory := by
  unfold makeDirectory at h
  cases hlast : t.lastStep p with
  | error fault => rw [hlast] at h; cases h
  | ok found =>
    obtain ⟨_ | l, slashes⟩ := found
    · rw [hlast] at h
      cases h
    rw [hlast] at h
    obtain ⟨-, -, -, -, -, last, directory, -, -, hname, hdots, -, hstep⟩ := lastStep_eq_name hlast
    simp only [bind, Except.bind] at h
    split at h
    · cases h
    rename_i hnode
    refine ⟨l, ?_, by simpa using hnode, (Except.ok.inj h).symm⟩
    rw [step_eq_ok hname hdots hstep]
    simp

/-! ## Changes that keep what is elsewhere -/

/-- A change may have replaced files at some places, and put something where
nothing stood. -/
structure Keeps (t t' : FileTree) (replaced : Location → Prop) : Prop where
  current : t'.current = t.current
  directory : ∀ l, t.node? l = some .directory → t'.node? l = some .directory
  node : ∀ l node, ¬ replaced l → t.node? l = some node → t'.node? l = some node

namespace Keeps

variable {replaced replaced' : Location → Prop}

/-- Nothing has changed. -/
theorem refl (t : FileTree) (replaced : Location → Prop) : t.Keeps t replaced :=
  ⟨rfl, fun _ h => h, fun _ _ _ h => h⟩

/-- Of two changes in turn, either may have replaced. -/
theorem trans (h : t.Keeps t' replaced) (h' : t'.Keeps t'' replaced') :
    t.Keeps t'' fun l => replaced l ∨ replaced' l :=
  ⟨h'.current.trans h.current, fun l hl => h'.directory l (h.directory l hl),
    fun l node hl hnode => h'.node l node (mt .inr hl) (h.node l node (mt .inl hl) hnode)⟩

/-- More may be allowed to be replaced. -/
theorem mono (h : t.Keeps t' replaced) (hle : ∀ l, replaced l → replaced' l) :
    t.Keeps t' replaced' :=
  ⟨h.current, h.directory, fun l node hl => h.node l node (mt (hle l) hl)⟩

/-- Components lead where they led, as the current directory is the same. -/
theorem land (h : t.Keeps t' replaced) : t'.land = t.land := by
  funext cs
  rw [FileTree.land, FileTree.land, h.current]

/-- A step that could be made can be made still. -/
theorem step (h : t.Keeps t' replaced) {directory : Location} {piece : String}
    (hstep : t.step directory piece = .ok l) : t'.step directory piece = .ok l := by
  have hnode : t.node? directory = some .directory := by
    unfold FileTree.step at hstep
    split at hstep
    · cases hstep
    · assumption
    · cases hstep
  unfold FileTree.step at hstep ⊢
  rw [hnode] at hstep
  rwa [h.directory directory hnode]

/-- A path that leads somewhere still leads there. -/
theorem follow (h : t.Keeps t' replaced) (hfollow : t.follow p = .ok l) : t'.follow p = .ok l := by
  have hsteps {pieces : List String} {start : Location} (hpieces : pieces.foldlM t.step start = .ok l) :
      pieces.foldlM t'.step start = .ok l := by
    induction pieces generalizing start with
    | nil => exact hpieces
    | cons piece pieces ih =>
      rw [List.foldlM_cons] at hpieces ⊢
      cases hstep : t.step start piece with
      | error fault => rw [hstep] at hpieces; cases hpieces
      | ok next =>
        rw [hstep] at hpieces
        rw [h.step hstep]
        exact ih hpieces
  obtain ⟨hclean, hempty, hfold⟩ := follow_eq_ok_iff.1 hfollow
  refine follow_eq_ok_iff.2 ⟨hclean, hempty, ?_⟩
  rw [h.current]
  exact hsteps hfold

/-- A path that opened something opens it still. -/
theorem opens (h : t.Keeps t' replaced) (hopens : t.Opens p l) : t'.Opens p l :=
  ⟨hopens.clean, hopens.short, h.follow hopens.follows⟩

end Keeps

/-- **A write** replaces where its path leads, and is read back there. -/
theorem keeps_write (h : t.write p text = .ok t') :
    t.Keeps t' (· = t.land p.components) ∧ t'.read p = .ok text ∧ p.fileName?.isSome := by
  obtain ⟨l, hopens, hne, hnode, rfl, hname⟩ := write_eq_ok h
  have hkeeps : t.Keeps (t.put l (.file text)) (· = t.land p.components) := by
    refine ⟨rfl, fun l' hl' => ?_, fun l' node hl' hnode' => ?_⟩
    · rw [node?_put hne, if_neg]
      · exact hl'
      · rintro rfl
        exact hnode hl'
    · rw [node?_put hne, if_neg]
      · exact hnode'
      · rintro rfl
        exact hl' hopens.eq_land
  refine ⟨hkeeps, read_eq_ok_iff.2 ⟨l, hkeeps.opens hopens, ?_⟩, hname⟩
  rw [node?_put hne, if_pos rfl]

/-- Making a directory replaces nothing. -/
theorem keeps_makeDirectory (h : t.makeDirectory p = .ok t') : t.Keeps t' fun _ => False := by
  obtain ⟨l, hne, hnone, rfl⟩ := makeDirectory_eq_ok h
  have hnode {l' : Location} {node : FileNode} (hl' : t.node? l' = some node) :
      (t.put l .directory).node? l' = some node := by
    rw [node?_put hne, if_neg]
    · exact hl'
    · rintro rfl
      rw [hnone] at hl'
      cases hl'
  exact ⟨rfl, fun _ h => hnode h, fun _ _ _ h => hnode h⟩

/-- Nor does making the first of several that can be made. -/
theorem keeps_makeFirst : ∀ (t : FileTree) (paths : List Path),
    t.Keeps (t.makeFirst paths).1 fun _ => False
  | t, [] => .refl t _
  | t, p :: above => by
    rw [makeFirst]
    split
    · exact .refl t _
    split
    · rename_i h
      exact keeps_makeDirectory h
    · have habove := keeps_makeFirst t above
      split
      · rename_i t₁ hfirst
        rw [hfirst] at habove
        split
        · rename_i h
          exact (habove.trans (keeps_makeDirectory h)).mono (by simp)
        · split <;> exact habove
      · exact habove
    · split <;> exact .refl t _

/-- Nor does making a directory with those above it. -/
theorem keeps_makeDirectories (t : FileTree) (p : Path) :
    t.Keeps (t.makeDirectories p).1 fun _ => False := keeps_makeFirst t _

end FileTree

/-! ## Steps of a build -/

/-- Files were written one after the other, and nothing was written to
their places afterwards. -/
structure FileTree.Wrote (t t' : FileTree) (outputs : List (Path × String)) : Prop where
  keeps : t.Keeps t' fun l => ∃ o ∈ outputs, l = t.land o.1.components
  named : ∀ o ∈ outputs, o.1.fileName?.isSome
  opens : ∀ o ∈ outputs, t'.Opens o.1 (t.land o.1.components)
  /-- The last that leads to a place stands there. -/
  last : ∀ before o after, outputs = before ++ o :: after →
    (∀ o' ∈ after, t.land o'.1.components ≠ t.land o.1.components) →
    t'.node? (t.land o.1.components) = some (.file o.2)

namespace FileTree.Wrote

variable {t t₁ t' : FileTree} {outputs : List (Path × String)}

/-- A change that replaces nothing counts as writing no output. -/
theorem nil (h : t.Keeps t' fun _ => False) : t.Wrote t' [] :=
  ⟨h.mono fun _ hl => hl.elim, by simp, by simp, by simp⟩

/-- What was made before the first file is no file. -/
theorem after (hkeeps : t.Keeps t₁ fun _ => False) (h : t₁.Wrote t' outputs) :
    t.Wrote t' outputs := by
  obtain ⟨hkept, hnamed, hopens, hlast⟩ := h
  rw [hkeeps.land] at hkept hopens hlast
  refine ⟨(hkeeps.trans hkept).mono fun l hl => ?_, hnamed, hopens, hlast⟩
  exact hl.resolve_left id

/-- One file more, in front. -/
theorem cons {path : Path} {text : String}
    (hkeeps : t.Keeps t₁ (· = t.land path.components)) (hread : t₁.read path = .ok text)
    (hname : path.fileName?.isSome) (h : t₁.Wrote t' outputs) :
    t.Wrote t' ((path, text) :: outputs) := by
  obtain ⟨hkept, hnamed, hopens, hlast⟩ := h
  obtain ⟨l, hfirst, hnode⟩ := read_eq_ok_iff.1 hread
  obtain rfl := hfirst.eq_land
  rw [hkeeps.land] at hkept hfirst hnode hopens hlast
  refine ⟨(hkeeps.trans hkept).mono fun l hl => ?_, List.forall_mem_cons.2 ⟨hname, hnamed⟩,
    List.forall_mem_cons.2 ⟨hkept.opens hfirst, hopens⟩, fun before o after heq hafter => ?_⟩
  · rcases hl with rfl | ⟨o, ho, rfl⟩
    · exact ⟨_, List.mem_cons_self, rfl⟩
    · exact ⟨o, List.mem_cons_of_mem _ ho, rfl⟩
  · cases before with
    | nil =>
      obtain ⟨rfl, rfl⟩ := List.cons.inj heq
      refine hkept.node _ _ ?_ hnode
      rintro ⟨o', ho', hsame⟩
      exact hafter o' ho' hsame.symm
    | cons first before =>
      obtain ⟨-, rfl⟩ := List.cons.inj heq
      exact hlast before o after rfl hafter

/-- **The last file that leads to a place** is what all of them read as. -/
theorem read (h : t.Wrote t' outputs) {before after : List (Path × String)} {o : Path × String}
    (hsplit : outputs = before ++ o :: after)
    (hafter : ∀ o' ∈ after, t.land o'.1.components ≠ t.land o.1.components) {o' : Path × String}
    (ho' : o' ∈ outputs) (hsame : t.land o'.1.components = t.land o.1.components) :
    t'.read o'.1 = .ok o.2 := by
  have hopens := h.opens o' ho'
  rw [hsame] at hopens
  exact read_eq_ok_iff.2 ⟨_, hopens, h.last before o after hsplit hafter⟩

/-- **Files at different places** all read as what was written. -/
theorem read_of_nodup (h : t.Wrote t' outputs)
    (hnodup : outputs.Pairwise fun o o' => t.land o.1.components ≠ t.land o'.1.components)
    {o : Path × String} (ho : o ∈ outputs) : t'.read o.1 = .ok o.2 := by
  obtain ⟨before, after, rfl⟩ := List.append_of_mem ho
  obtain ⟨-, hafter, -⟩ := List.pairwise_append.1 hnodup
  exact h.read rfl (fun o' ho' => ((List.pairwise_cons.1 hafter).1 o' ho').symm) ho rfl

end FileTree.Wrote

namespace FileTree

variable {t t' : FileTree}

/-- Making directories replaces nothing. -/
theorem keeps_of_directories {path : Path} (h : Change.directories path t = (t', .ok ())) :
    t.Keeps t' fun _ => False := by
  have hkeeps := t.keeps_makeDirectories path
  rwa [Change.directories_eq_ok.1 h] at hkeeps

/-- **Texts that went through** are files that were written. -/
theorem wrote_of_writes : ∀ {outputs : List (Path × String)} {t : FileTree},
    Change.writes outputs t = (t', .ok ()) → t.Wrote t' outputs
  | [], t, h => by
    obtain ⟨rfl, -⟩ := Prod.mk.inj h
    exact .nil (.refl _ _)
  | (path, text) :: rest, t, h => by
    obtain ⟨t₁, hfirst, hrest⟩ := Change.andThen_eq_ok.1 h
    obtain ⟨hkeeps, hread, hname⟩ := keeps_write (Change.onPath_eq_ok.1 hfirst)
    exact (wrote_of_writes hrest).cons hkeeps hread hname

end FileTree

namespace Building

variable {site site' : Site} {path : Path} {text : String}

/-- A build that makes directories replaces nothing, and writes no output. -/
theorem run_makeDirectories (h : (makeDirectories path).run.run site = (.ok (), site')) :
    site.files.Keeps site'.files (fun _ => False) ∧ site'.written = site.written := by
  obtain ⟨files, hchange, -, rfl⟩ := (does_makeDirectories path).of_run_ok h
  exact ⟨FileTree.keeps_of_directories hchange, rfl⟩

/-- **What was written** can be read. -/
theorem run_write (h : (write path text).run.run site = (.ok (), site')) :
    site.files.Keeps site'.files (· = site.files.land path.components) ∧
      site'.files.read path = .ok text ∧ path.fileName?.isSome ∧ site'.written = site.written := by
  obtain ⟨files, hchange, -, rfl⟩ := (does_write path text).of_run_ok h
  obtain ⟨hkeeps, hread, hname⟩ := FileTree.keeps_write (FileTree.Change.onPath_eq_ok.1 hchange)
  exact ⟨hkeeps, hread, hname, rfl⟩

/-- Steps that succeed are steps that succeed, one after the other. -/
theorem run_bind_ok {α β : Type} {m : Building α} {f : α → Building β} {value : β}
    (h : (m >>= f).run.run site = (.ok value, site')) : ∃ a site₁,
      m.run.run site = (.ok a, site₁) ∧ (f a).run.run site₁ = (.ok value, site') := by
  rw [run_bind] at h
  rcases hm : m.run.run site with ⟨e | a, site₁⟩
  · rw [hm] at h
    cases h
  · rw [hm] at h
    exact ⟨a, site₁, rfl, h⟩

/-- A build that writes an output is able to read it back, and has it on record. -/
theorem run_writeOutput (h : (writeOutput path text).run.run site = (.ok (), site')) :
    site.files.Keeps site'.files (· = site.files.land path.components) ∧
      site'.files.read path = .ok text ∧ path.fileName?.isSome ∧
      site'.written = site.written ++ [path] := by
  unfold writeOutput at h
  -- an output without a parent needs no directories
  obtain ⟨site₁, hmade, h⟩ : ∃ site₁, (site.files.Keeps site₁.files (fun _ => False) ∧
      site₁.written = site.written) ∧
      (do write path text
          modify fun s => { s with written := s.written ++ [path] } :
        Building Unit).run.run site₁ = (.ok (), site') := by
    split at h
    · obtain ⟨_, site₁, hmake, h⟩ := run_bind_ok h
      exact ⟨site₁, run_makeDirectories hmake, h⟩
    · exact ⟨site, ⟨.refl _ _, rfl⟩, h⟩
  obtain ⟨hkeeps, hlist⟩ := hmade
  obtain ⟨_, site₂, hwrite, h⟩ := run_bind_ok h
  obtain ⟨hkeeps', hread, hname, hlist'⟩ := run_write hwrite
  obtain ⟨-, rfl⟩ := Prod.mk.inj h
  refine ⟨(hkeeps.trans hkeeps').mono fun l hl => ?_, hread, hname, ?_⟩
  · rw [← hkeeps.land]
    exact hl.resolve_left id
  · show site₂.written ++ [path] = _
    rw [hlist', hlist]

end Building

end LuaSugar
