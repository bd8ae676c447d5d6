import Mathlib
import LuaSugar.Project.Fetched
import LuaSugar.Proofs.Project.Ordered
/-!
# Modules from outside

A reference from outside the project can be told from its text, and a text
refers to one thing (`Reference.text_of_ofSpecifier?`). So what is fetched
is known by the texts it is required with: each module that comes back is
what its text asks for, and no text comes back twice (`collect_yields`).
-/

namespace LuaSugar

/-! ## References and their texts -/

namespace Reference

/-- The text that a reference was read off. -/
def text : Reference → String
  | .uri address => address
  | .package p => p.specifier
  | .localModule name => name

theorem specifier_of_package? {specifier protocol rest : String} {package : Package}
    (h : package? specifier protocol rest = some package) : package.specifier = specifier := by
  unfold package? at h
  obtain ⟨-, heq⟩ := Option.ite_none_left_eq_some.1 h
  rw [← Option.some.inj heq]

/-- **A reference has its text.** -/
theorem text_of_ofSpecifier? {specifier : String} {reference : Reference}
    (h : ofSpecifier? specifier = some reference) : reference.text = specifier := by
  unfold ofSpecifier? at h
  split at h
  · rw [← Option.some.inj h]
    rfl
  · cases hsplit : Text.splitFirst? ':' specifier with
    | none =>
      rw [hsplit] at h
      rw [← Option.some.inj h]
      rfl
    | some parts =>
      rw [hsplit] at h
      obtain ⟨package, hpackage, rfl⟩ := Option.map_eq_some_iff.1 h
      exact specifier_of_package? hpackage

end Reference

/-! ## Steps of a build that succeed -/

namespace Building

variable {α β : Type}

/-- Every value that steps succeed with has a property. -/
def Yields (m : Building α) (P : α → Prop) : Prop :=
  ∀ site value, (m.run.run site).1 = .ok value → P value

theorem Yields.mono {m : Building α} {P Q : α → Prop} (h : Yields m P) (hpq : ∀ a, P a → Q a) :
    Yields m Q :=
  fun site value hvalue => hpq value (h site value hvalue)

theorem yields_pure {P : α → Prop} {value : α} (h : P value) : Yields (pure value) P := by
  intro site value' hvalue
  obtain rfl := Except.ok.inj hvalue
  exact h

/-- Steps that follow others see what these leave. -/
theorem run_bind (m : Building α) (f : α → Building β) (site : Site) :
    (m >>= f).run.run site = match m.run.run site with
      | (.ok a, site') => (f a).run.run site'
      | (.error e, site') => (.error e, site') := by
  simp only [ExceptT.run_bind, StateT.run_bind]
  rcases m.run.run site with ⟨_ | _, _⟩ <;> rfl

theorem yields_bind {m : Building α} {f : α → Building β} {P : α → Prop} {Q : β → Prop}
    (hm : Yields m P) (hf : ∀ a, P a → Yields (f a) Q) : Yields (m >>= f) Q := by
  intro site value hvalue
  rw [run_bind] at hvalue
  rcases hfirst : m.run.run site with ⟨e | a, site'⟩
  · rw [hfirst] at hvalue
    cases hvalue
  · rw [hfirst] at hvalue
    exact hf a (hm site a (by rw [hfirst])) site' value hvalue

/-- What is fetched is known when the request is accounted for. -/
theorem fetch_bind (fetcher : Fetcher) (request : Request)
    (f : Except FetchFault String → Building β) :
    (fetch fetcher request >>= f) = (do
      ask request
      f (fetcher.fetch request.uri)) := rfl

/-- Steps whose values do not matter. -/
theorem yields_trivial (m : Building α) : Yields m fun _ => True := fun _ _ _ => trivial

theorem yields_then {m : Building α} {f : α → Building β} {Q : β → Prop}
    (hf : ∀ a, Yields (f a) Q) : Yields (m >>= f) Q :=
  yields_bind (yields_trivial m) fun a _ => hf a

end Building

/-! ## Fetching -/

namespace FetchedModule

variable {p : Project} {fetcher : Fetcher}

/-- What comes of a request: a compiled module, or the reason why there is none. -/
def obtain? (p : Project) (fetcher : Fetcher) (request : Request) : Except Notice Chunk :=
  admit? p request (fetcher.fetch request.uri)

/-- A module is what the text it is required with asks for. -/
structure Sound (p : Project) (fetcher : Fetcher) (m : FetchedModule) : Prop where
  requested : ∃ reference, Reference.ofSpecifier? m.specifier = some reference ∧
    request? p reference = some ⟨m.specifier, m.uri⟩
  obtained : ∃ source, fetcher.fetch m.uri = .ok source ∧ p.compile source = .ok m.chunk

/-- References that were read off texts. -/
def Genuine (references : List Reference) : Prop :=
  ∀ reference ∈ references, Reference.ofSpecifier? reference.text = some reference

theorem genuine_requires (c : Chunk) : Genuine (requires c) := by
  intro reference hreference
  obtain ⟨call, -, hcall⟩ := List.mem_filterMap.1 hreference
  have hsome : Reference.ofSpecifier? call.specifier = some reference := by
    split at hcall
    · cases hcall
    · cases hcall
    · rename_i hsome
      rw [hsome, Option.some.inj hcall]
  rwa [Reference.text_of_ofSpecifier? hsome]

/-- What is requested was read off the text of the request. -/
theorem specifier_of_request? {reference : Reference} {request : Request}
    (h : request? p reference = some request) : request.specifier = reference.text := by
  cases reference with
  | uri uri =>
    obtain rfl := Option.some.inj h
    rfl
  | package package =>
    obtain ⟨template, -, rfl⟩ := Option.map_eq_some_iff.1 h
    rfl
  | localModule name => cases h

theorem exists_of_nextRequest {fetched : KeySet String} {request : Request} {rest : List Reference} :
    ∀ {pending : List Reference}, (nextRequest p fetched pending).2 = some (request, rest) →
      fetched.contains request.specifier = false ∧
        (∃ reference ∈ pending, request? p reference = some request) ∧ rest ⊆ pending
  | [], h => by cases h
  | reference :: pending, h => by
    have hlater {h : (nextRequest p fetched pending).2 = some (request, rest)} :
        fetched.contains request.specifier = false ∧
          (∃ r ∈ reference :: pending, request? p r = some request) ∧
          rest ⊆ reference :: pending := by
      obtain ⟨hnew, ⟨r, hr, hrequest⟩, hsub⟩ := exists_of_nextRequest h
      exact ⟨hnew, ⟨r, List.mem_cons_of_mem _ hr, hrequest⟩, List.subset_cons_of_subset _ hsub⟩
    unfold nextRequest at h
    cases hrequest : request? p reference with
    | none =>
      simp only [hrequest] at h
      exact @hlater h
    | some found =>
      simp only [hrequest] at h
      split at h
      · exact @hlater h
      · rename_i hnew
        obtain ⟨rfl, rfl⟩ := Prod.mk.inj (Option.some.inj h)
        exact ⟨by simpa using hnew, ⟨reference, List.mem_cons_self, hrequest⟩,
          List.subset_cons_self _ _⟩

theorem obtain?_eq_ok {request : Request} {c : Chunk} (h : obtain? p fetcher request = .ok c) :
    ∃ source, fetcher.fetch request.uri = .ok source ∧ p.compile source = .ok c := by
  unfold obtain? admit? at h
  cases hfetch : fetcher.fetch request.uri with
  | error fault =>
    rw [hfetch] at h
    cases h
  | ok source =>
    refine ⟨source, rfl, ?_⟩
    rw [hfetch] at h
    cases hcompile : p.compile source with
    | error e =>
      simp only [Except.mapError, bind, Except.bind, hcompile] at h
      cases h
    | ok c' =>
      simp only [Except.mapError, bind, Except.bind, hcompile] at h
      rw [Except.ok.inj h]

/-- What following references leads to: sound modules, each with a text of
its own that was not fetched before. -/
structure Collected (p : Project) (fetcher : Fetcher) (fetched : KeySet String)
    (modules : List FetchedModule) : Prop where
  sound : ∀ m ∈ modules, m.Sound p fetcher
  fresh : ∀ m ∈ modules, fetched.contains m.specifier = false
  distinct : (modules.map FetchedModule.specifier).Nodup

theorem collected_nil (fetched : KeySet String) : Collected p fetcher fetched [] :=
  ⟨by simp, by simp, List.nodup_nil⟩

variable {fetched : KeySet String} {specifier : String} {modules : List FetchedModule}

theorem contains_add : (fetched.add specifier).contains specifier := by
  rw [Index.add, Index.contains_insert, Std.LawfulEqOrd.compare_eq_iff_eq.2 rfl]
  rfl

/-- What was fetched with one text more is also what was fetched without. -/
theorem Collected.of_add (h : Collected p fetcher (fetched.add specifier) modules) :
    Collected p fetcher fetched modules := by
  refine ⟨h.sound, fun m hm => ?_, h.distinct⟩
  have hfresh := h.fresh m hm
  rw [Index.add, Index.contains_insert, Bool.or_eq_false_iff] at hfresh
  exact hfresh.2

theorem Collected.cons (h : Collected p fetcher (fetched.add specifier) modules)
    {m : FetchedModule} (hm : m.Sound p fetcher) (hspecifier : m.specifier = specifier)
    (hfresh : fetched.contains specifier = false) :
    Collected p fetcher fetched (m :: modules) := by
  subst hspecifier
  refine ⟨List.forall_mem_cons.2 ⟨hm, h.sound⟩,
    List.forall_mem_cons.2 ⟨hfresh, h.of_add.fresh⟩, List.nodup_cons.2 ⟨fun hmem => ?_, h.distinct⟩⟩
  obtain ⟨m', hm', hsame⟩ := List.mem_map.1 hmem
  have hfresh := h.fresh m' hm'
  rw [hsame, contains_add] at hfresh
  cases hfresh

/-- **Each text is fetched once**, and for what it asks for. -/
theorem collect_yields (rounds : ℕ) {pending : List Reference} (fetched : KeySet String)
    (hpending : Genuine pending) :
    (collect p fetcher rounds pending fetched).Yields (Collected p fetcher fetched) := by
  induction rounds generalizing pending fetched with
  | zero => exact Building.yields_pure (collected_nil fetched)
  | succ rounds ih =>
    unfold collect
    refine Building.yields_then fun _ => ?_
    cases hnext : (nextRequest p fetched pending).2 with
    | none => exact Building.yields_pure (collected_nil fetched)
    | some next =>
      obtain ⟨request, rest⟩ := next
      obtain ⟨hfresh, ⟨reference, hreference, hrequest⟩, hrest⟩ := exists_of_nextRequest hnext
      have hspecifier := specifier_of_request? hrequest
      have hgenuine : Genuine rest := fun r hr => hpending r (hrest hr)
      dsimp only
      rw [Building.fetch_bind]
      refine Building.yields_then fun _ => ?_
      cases hobtain : admit? p request (fetcher.fetch request.uri) with
      | error notice =>
        refine Building.yields_then fun _ => ?_
        exact (ih (fetched.add request.specifier) hgenuine).mono fun _ h => h.of_add
      | ok c =>
        refine Building.yields_then fun _ => Building.yields_then fun _ => ?_
        refine Building.yields_bind (ih (fetched.add request.specifier) fun r hr => ?_)
          fun modules hmodules => Building.yields_pure ?_
        · exact (List.mem_append.1 hr).elim (genuine_requires c r) (hgenuine r)
        · refine hmodules.cons ⟨⟨reference, ?_, hrequest⟩, obtain?_eq_ok hobtain⟩ rfl hfresh
          rw [hspecifier]
          exact hpending reference hreference

/-- So it is with all that requirements lead to. -/
theorem fetchAll_yields (r : Requirements) (h : Genuine r.outside) :
    (fetchAll p fetcher r).Yields (Collected p fetcher .empty) := by
  unfold fetchAll
  refine Building.yields_then fun _ => Building.yields_bind (collect_yields _ _ h) fun modules hm => ?_
  refine Building.yields_then fun site => ?_
  split
  · exact Building.yields_then fun _ => Building.yields_pure hm
  · exact Building.yields_pure hm

end FetchedModule

end LuaSugar
