import Mathlib
import LuaSugar.Proofs.Project.Closure
import LuaSugar.Proofs.Project.Steps
/-!
# References followed to the end

`Follows` is the loop that follows references, without a bound on its
rounds: it takes the first pending reference, fetches what it asks for
unless that was fetched before, and puts what the fetched module requires
in front. Where finitely many texts can be reached the loop comes to an end
(`exists_follows`), each text is fetched at most once, and the modules it
finds are the closure of the references it starts from: of every reference
that can be reached there is a module or a warning (`Follows.settles`).
Fetching with rounds to spare asks for what the loop asks for and writes
what it finds (`Follows.collect_does`), so it comes to all the modules
unless the files refuse to take them (`Follows.fetchAll_does`).
-/

namespace LuaSugar

namespace FetchedModule

open FileTree (Change)

variable {p : Project} {fetcher : Fetcher}

/-! ## What a reference leads to -/

/-- A request that is answered by a module. -/
def answered (p : Project) (request : Request) (c : Chunk) : FetchedModule :=
  ⟨request.specifier, request.uri, c, p.fetchedDir.joinText (fileName request.specifier)⟩

@[simp] theorem answered_chunk (p : Project) (request : Request) (c : Chunk) :
    (answered p request c).chunk = c := rfl

/-- A module as it is written. -/
def output (p : Project) (m : FetchedModule) : Path × String :=
  (m.path, p.config.layout.render m.chunk)

/-- What following a reference brings: a module, or what there is to say. -/
def reply (p : Project) (fetcher : Fetcher) (reference : Reference) :
    Except (List Notice) FetchedModule :=
  match request? p reference with
  | none => .error (unanswerable reference)
  | some request =>
    match obtain? p fetcher request with
    | .error notice => .error [notice]
    | .ok c => .ok (answered p request c)

/-- The references that some lead to, through modules that were fetched and
compiled. -/
inductive Reaches (p : Project) (fetcher : Fetcher) (origins : List Reference) :
    Reference → Prop
  | origin {reference : Reference} : reference ∈ origins → Reaches p fetcher origins reference
  | through {reference next : Reference} {m : FetchedModule} :
      Reaches p fetcher origins reference → reply p fetcher reference = .ok m →
      next ∈ requires m.chunk → Reaches p fetcher origins next

/-- **The loop**: `requests` are what it fetches, in order, behind texts that
were fetched before. -/
inductive Follows (p : Project) (fetcher : Fetcher) : KeySet String → List Reference →
    List Request → List FetchedModule → List Notice → Prop
  | done {fetched : KeySet String} : Follows p fetcher fetched [] [] [] []
  /-- The reference asks for nothing. -/
  | unanswerable {fetched : KeySet String} {reference : Reference} {rest : List Reference}
      {requests : List Request} {modules : List FetchedModule} {notices : List Notice} :
      request? p reference = none → Follows p fetcher fetched rest requests modules notices →
      Follows p fetcher fetched (reference :: rest) requests modules
        (FetchedModule.unanswerable reference ++ notices)
  /-- What it asks for was fetched before. -/
  | again {fetched : KeySet String} {reference : Reference} {rest : List Reference}
      {request : Request} {requests : List Request} {modules : List FetchedModule}
      {notices : List Notice} :
      request? p reference = some request → fetched.contains request.specifier →
      Follows p fetcher fetched rest requests modules notices →
      Follows p fetcher fetched (reference :: rest) requests modules notices
  | failed {fetched : KeySet String} {reference : Reference} {rest : List Reference}
      {request : Request} {requests : List Request} {modules : List FetchedModule}
      {notices : List Notice} {notice : Notice} :
      request? p reference = some request → fetched.contains request.specifier = false →
      obtain? p fetcher request = .error notice →
      Follows p fetcher (fetched.add request.specifier) rest requests modules notices →
      Follows p fetcher fetched (reference :: rest) (request :: requests) modules
        (notice :: notices)
  | fetched {fetched : KeySet String} {reference : Reference} {rest : List Reference}
      {request : Request} {requests : List Request} {modules : List FetchedModule}
      {notices : List Notice} {c : Chunk} :
      request? p reference = some request → fetched.contains request.specifier = false →
      obtain? p fetcher request = .ok c →
      Follows p fetcher (fetched.add request.specifier) (requires c ++ rest) requests modules
        notices →
      Follows p fetcher fetched (reference :: rest) (request :: requests)
        (answered p request c :: modules) (remarks p request.specifier c ++ notices)

variable {fetched : KeySet String} {pending : List Reference} {requests : List Request}
variable {modules : List FetchedModule} {notices : List Notice}

theorem reply_of_none {reference : Reference} (h : request? p reference = none) :
    reply p fetcher reference = .error (FetchedModule.unanswerable reference) := by
  rw [reply, h]

theorem reply_of_error {reference : Reference} {request : Request} {notice : Notice}
    (h : request? p reference = some request) (ho : obtain? p fetcher request = .error notice) :
    reply p fetcher reference = .error [notice] := by
  simp only [reply, h, ho]

theorem reply_of_ok {reference : Reference} {request : Request} {c : Chunk}
    (h : request? p reference = some request) (ho : obtain? p fetcher request = .ok c) :
    reply p fetcher reference = .ok (answered p request c) := by
  simp only [reply, h, ho]

/-! ## The loop ends -/

/-- Where the texts that are not fetched yet are finitely many, one less
remains with each request. -/
theorem exists_follows {texts : Finset String} {fetched : KeySet String}
    {pending : List Reference} (hpending : ∀ reference ∈ pending, ∀ next,
      Reaches p fetcher [reference] next → next.text ∈ texts) :
    ∃ requests modules notices, Follows p fetcher fetched pending requests modules notices := by
  induction hleft : (texts.filter fun text => fetched.contains text = false).card
    using Nat.strong_induction_on generalizing fetched pending with
  | _ left ih =>
    induction pending with
    | nil => exact ⟨_, _, _, .done⟩
    | cons reference rest ihrest =>
      obtain ⟨hfirst, hrest⟩ := List.forall_mem_cons.1 hpending
      have hskip := ihrest hrest
      cases hrequest : request? p reference with
      | none =>
        obtain ⟨requests, modules, notices, h⟩ := hskip
        exact ⟨_, _, _, .unanswerable hrequest h⟩
      | some request =>
        cases hfetched : fetched.contains request.specifier with
        | true =>
          obtain ⟨requests, modules, notices, h⟩ := hskip
          exact ⟨_, _, _, .again hrequest hfetched h⟩
        | false =>
          -- one text less that is not fetched
          have hless : (texts.filter fun text =>
              (fetched.add request.specifier).contains text = false).card < left := by
            rw [← hleft]
            refine Finset.card_lt_card (Finset.ssubset_iff_of_subset ?_ |>.2
              ⟨request.specifier, ?_, ?_⟩)
            · intro text htext
              simp only [Finset.mem_filter, ← Bool.not_eq_true] at htext ⊢
              exact ⟨htext.1, fun h => htext.2 (Index.contains_add_iff.2 (.inr h))⟩
            · rw [specifier_of_request? hrequest] at hfetched ⊢
              exact Finset.mem_filter.2 ⟨hfirst reference (.origin (by simp)), hfetched⟩
            · simp [contains_add]
          cases hobtain : obtain? p fetcher request with
          | error notice =>
            obtain ⟨requests, modules, notices, h⟩ := ih _ hless hrest rfl
            exact ⟨_, _, _, .failed hrequest hfetched hobtain h⟩
          | ok c =>
            have hnext : ∀ next ∈ requires c ++ rest, ∀ later,
                Reaches p fetcher [next] later → later.text ∈ texts := by
              intro next hnext later hlater
              rcases List.mem_append.1 hnext with hnext | hnext
              · refine hfirst later ?_
                induction hlater with
                | origin hmem =>
                  obtain rfl := List.mem_singleton.1 hmem
                  exact .through (.origin (by simp)) (reply_of_ok hrequest hobtain) hnext
                | through _ hreply hlater ih => exact .through ih hreply hlater
              · exact hrest next hnext later hlater
            obtain ⟨requests, modules, notices, h⟩ := ih _ hless hnext rfl
            exact ⟨_, _, _, .fetched hrequest hfetched hobtain h⟩

/-! ## What the loop finds -/

namespace Follows

/-- **Each text is fetched at most once**, and none that was fetched before. -/
theorem distinct (h : Follows p fetcher fetched pending requests modules notices) :
    (requests.map Request.specifier).Nodup ∧
      ∀ request ∈ requests, fetched.contains request.specifier = false := by
  have hcons {fetched : KeySet String} {request : Request} {requests : List Request}
      (hnew : fetched.contains request.specifier = false)
      (h : (requests.map Request.specifier).Nodup ∧
        ∀ r ∈ requests, (fetched.add request.specifier).contains r.specifier = false) :
      ((request :: requests).map Request.specifier).Nodup ∧
        ∀ r ∈ request :: requests, fetched.contains r.specifier = false := by
    obtain ⟨hnodup, hfresh⟩ := h
    have hother : ∀ r ∈ requests, r.specifier ≠ request.specifier ∧
        fetched.contains r.specifier = false := fun r hr => by
      simpa [← Bool.not_eq_true, Index.contains_add_iff, not_or] using hfresh r hr
    refine ⟨List.nodup_cons.2 ⟨fun hmem => ?_, hnodup⟩,
      List.forall_mem_cons.2 ⟨hnew, fun r hr => (hother r hr).2⟩⟩
    obtain ⟨r, hr, hsame⟩ := List.mem_map.1 hmem
    exact (hother r hr).1 hsame
  induction h with
  | done => simp
  | unanswerable _ _ ih | again _ _ _ ih => exact ih
  | failed _ hnew _ _ ih | fetched _ hnew _ _ ih => exact hcons hnew ih

/-- The modules are answers to requests, in their order. -/
theorem modules_sublist (h : Follows p fetcher fetched pending requests modules notices) :
    (modules.map FetchedModule.specifier).Sublist (requests.map Request.specifier) := by
  induction h with
  | done => exact .slnil
  | unanswerable _ _ ih | again _ _ _ ih => exact ih
  | failed _ _ _ _ ih => exact ih.cons _
  | fetched _ _ _ _ ih => exact ih.cons_cons _

/-- **What is found is asked for**: a property of the pending references that
goes over to what modules require holds of the references that the modules
reply to. -/
theorem exists_reply {X : Reference → Prop}
    (h : Follows p fetcher fetched pending requests modules notices)
    (hthrough : ∀ reference m next, X reference → reply p fetcher reference = .ok m →
      next ∈ requires m.chunk → X next)
    (hpending : ∀ reference ∈ pending, X reference) :
    ∀ m ∈ modules, ∃ reference, X reference ∧ reply p fetcher reference = .ok m := by
  induction h with
  | done => simp
  | unanswerable _ _ ih | again _ _ _ ih | failed _ _ _ _ ih =>
    exact ih (List.forall_mem_cons.1 hpending).2
  | fetched hrequest _ hobtain _ ih =>
    obtain ⟨hfirst, hrest⟩ := List.forall_mem_cons.1 hpending
    have hreply := reply_of_ok hrequest hobtain
    have hnext := fun next => hthrough _ _ next hfirst hreply
    simp only [answered_chunk] at hnext
    refine List.forall_mem_cons.2 ⟨⟨_, hfirst, hreply⟩, ih fun reference hmem => ?_⟩
    exact (List.mem_append.1 hmem).elim (hnext reference) (hrest reference)

/-- **What is asked for is reached**: requests are those of references that
have a property of the pending ones, if it goes over to what modules require. -/
theorem exists_request {X : Reference → Prop}
    (h : Follows p fetcher fetched pending requests modules notices)
    (hthrough : ∀ reference m next, X reference → reply p fetcher reference = .ok m →
      next ∈ requires m.chunk → X next)
    (hpending : ∀ reference ∈ pending, X reference) :
    ∀ request ∈ requests, ∃ reference, X reference ∧ request? p reference = some request := by
  induction h with
  | done => simp
  | unanswerable _ _ ih | again _ _ _ ih => exact ih (List.forall_mem_cons.1 hpending).2
  | failed hrequest _ _ _ ih =>
    obtain ⟨hfirst, hrest⟩ := List.forall_mem_cons.1 hpending
    exact List.forall_mem_cons.2 ⟨⟨_, hfirst, hrequest⟩, ih hrest⟩
  | fetched hrequest _ hobtain _ ih =>
    obtain ⟨hfirst, hrest⟩ := List.forall_mem_cons.1 hpending
    have hnext := fun next => hthrough _ _ next hfirst (reply_of_ok hrequest hobtain)
    refine List.forall_mem_cons.2 ⟨⟨_, hfirst, hrequest⟩, ih fun reference hmem => ?_⟩
    exact (List.mem_append.1 hmem).elim (hnext reference) (hrest reference)

/-- A reference is settled: it was fetched before, or what it brings is
there. -/
def Settled (p : Project) (fetcher : Fetcher) (fetched : KeySet String)
    (modules : List FetchedModule) (notices : List Notice) (reference : Reference) : Prop :=
  fetched.contains reference.text ∨
    match reply p fetcher reference with
    | .ok m => m ∈ modules
    | .error told => ∀ notice ∈ told, notice ∈ notices

theorem Settled.mono {modules' : List FetchedModule} {notices' : List Notice} {reference : Reference}
    (h : Settled p fetcher fetched modules notices reference) (hmodules : modules ⊆ modules')
    (hnotices : notices ⊆ notices') : Settled p fetcher fetched modules' notices' reference := by
  refine h.imp_right fun h => ?_
  split at h
  · exact hmodules h
  · exact fun notice hnotice => hnotices (h notice hnotice)

/-- What is settled once a reference was fetched is settled if that reference
is. -/
theorem Settled.of_add {modules' : List FetchedModule} {notices' : List Notice}
    {first reference : Reference}
    (h : Settled p fetcher (fetched.add first.text) modules notices reference)
    (hmodules : modules ⊆ modules') (hnotices : notices ⊆ notices')
    (hfirst : Settled p fetcher fetched modules' notices' first)
    (hgenuine : Reference.ofSpecifier? first.text = some first)
    (hgenuine' : Reference.ofSpecifier? reference.text = some reference) :
    Settled p fetcher fetched modules' notices' reference := by
  rcases h.mono hmodules hnotices with hknown | h
  · rcases Index.contains_add_iff.1 hknown with hsame | hknown
    · rw [hsame, hgenuine] at hgenuine'
      exact Option.some.inj hgenuine' ▸ hfirst
    · exact .inl hknown
  · exact .inr h

/-- **Nothing that is pending is lost**, nor anything that a module
requires. -/
theorem settles (h : Follows p fetcher fetched pending requests modules notices)
    (hgenuine : Genuine pending) :
    (∀ reference ∈ pending, Settled p fetcher fetched modules notices reference) ∧
      ∀ m ∈ modules, ∀ next ∈ requires m.chunk, Settled p fetcher fetched modules notices next := by
  induction h with
  | done => simp
  | unanswerable hrequest _ ih =>
    obtain ⟨-, hrest⟩ := List.forall_mem_cons.1 hgenuine
    obtain ⟨hsettled, hclosed⟩ := ih hrest
    refine ⟨List.forall_mem_cons.2 ⟨.inr ?_, fun r hr => ?_⟩, fun m hm next hnext => ?_⟩
    · rw [reply_of_none hrequest]
      exact fun notice hnotice => List.mem_append_left _ hnotice
    · exact (hsettled r hr).mono (List.Subset.refl _) (List.subset_append_right _ _)
    · exact (hclosed m hm next hnext).mono (List.Subset.refl _) (List.subset_append_right _ _)
  | again hrequest hknown _ ih =>
    obtain ⟨-, hrest⟩ := List.forall_mem_cons.1 hgenuine
    obtain ⟨hsettled, hclosed⟩ := ih hrest
    rw [specifier_of_request? hrequest] at hknown
    exact ⟨List.forall_mem_cons.2 ⟨.inl hknown, hsettled⟩, hclosed⟩
  -- a settled reference stays settled as one more is fetched, and that one
  -- is settled by the notice
  | @failed fetched first _ _ _ modules notices notice hrequest _ hobtain _ ih =>
    obtain ⟨hfirst, hrest⟩ := List.forall_mem_cons.1 hgenuine
    obtain ⟨hsettled, hclosed⟩ := ih hrest
    rw [specifier_of_request? hrequest] at hsettled hclosed
    have hhere : Settled p fetcher fetched modules (notice :: notices) first := by
      refine .inr ?_
      rw [reply_of_error hrequest hobtain]
      simp
    have hbehind {r : Reference} (h : Settled p fetcher (fetched.add first.text) modules notices r)
        (hr : Reference.ofSpecifier? r.text = some r) :=
      h.of_add (List.Subset.refl _) (List.subset_cons_self notice _) hhere hfirst hr
    exact ⟨List.forall_mem_cons.2 ⟨hhere, fun r hr => hbehind (hsettled r hr) (hrest r hr)⟩,
      fun m hm next hn => hbehind (hclosed m hm next hn) (genuine_requires m.chunk next hn)⟩
  | @fetched fetched first rest request _ modules notices c hrequest _ hobtain _ ih =>
    obtain ⟨hfirst, hrest⟩ := List.forall_mem_cons.1 hgenuine
    have hnext : Genuine (requires c ++ rest) := fun r hr =>
      (List.mem_append.1 hr).elim (genuine_requires c r) (hrest r)
    obtain ⟨hsettled, hclosed⟩ := ih hnext
    rw [specifier_of_request? hrequest] at hsettled hclosed
    have hhere : Settled p fetcher fetched (answered p request c :: modules)
        (remarks p request.specifier c ++ notices) first := by
      refine .inr ?_
      rw [reply_of_ok hrequest hobtain]
      exact List.mem_cons_self
    have hbehind {r : Reference} (h : Settled p fetcher (fetched.add first.text) modules notices r)
        (hr : Reference.ofSpecifier? r.text = some r) :=
      h.of_add (List.subset_cons_self (answered p request c) _) (List.subset_append_right
        (remarks p request.specifier c) _) hhere hfirst hr
    have hpending : ∀ r ∈ requires c ++ rest, Settled p fetcher fetched
        (answered p request c :: modules) (remarks p request.specifier c ++ notices) r :=
      fun r hr => hbehind (hsettled r hr) (hnext r hr)
    exact ⟨List.forall_mem_cons.2 ⟨hhere, fun r hr => hpending r (List.mem_append_right _ hr)⟩,
      List.forall_mem_cons.2 ⟨fun r hr => hpending r (List.mem_append_left _ hr),
        fun m hm next hn => hbehind (hclosed m hm next hn) (genuine_requires m.chunk next hn)⟩⟩

end Follows

/-! ## Fetching is the loop -/

/-- The next request of the loop, and what it says before. -/
theorem Follows.next (h : Follows p fetcher fetched pending requests modules notices) :
    (nextRequest p fetched pending = (notices, none) ∧ requests = [] ∧ modules = []) ∨
      ∃ said request rest more, nextRequest p fetched pending = (said, some (request, rest)) ∧
        requests = request :: more ∧
        ((∃ notice later, obtain? p fetcher request = .error notice ∧
            notices = said ++ notice :: later ∧
            Follows p fetcher (fetched.add request.specifier) rest more modules later) ∨
          ∃ c found later, obtain? p fetcher request = .ok c ∧
            modules = answered p request c :: found ∧
            notices = said ++ (remarks p request.specifier c ++ later) ∧
            Follows p fetcher (fetched.add request.specifier) (requires c ++ rest) more found
              later) := by
  induction h with
  | done => exact .inl ⟨rfl, rfl, rfl⟩
  | unanswerable hrequest _ ih =>
    simp only [nextRequest, hrequest]
    rcases ih with ⟨hnext, hrequests⟩ | ⟨said, request, rest, more, hnext, hrequests, hstep⟩
    · exact .inl ⟨by rw [hnext], hrequests⟩
    · refine .inr ⟨_, request, rest, more, by rw [hnext], hrequests, ?_⟩
      rcases hstep with ⟨notice, later, hobtain, rfl, h⟩ | ⟨c, found, later, hobtain, hm, rfl, h⟩
      · exact .inl ⟨notice, later, hobtain, (List.append_assoc _ _ _).symm, h⟩
      · exact .inr ⟨c, found, later, hobtain, hm, (List.append_assoc _ _ _).symm, h⟩
  | again hrequest hknown _ ih => simpa only [nextRequest, hrequest, hknown, if_true] using ih
  | failed hrequest hnew hobtain h =>
    refine .inr ⟨[], _, _, _, ?_, rfl, .inl ⟨_, _, hobtain, rfl, h⟩⟩
    simp only [nextRequest, hrequest, hnew, Bool.false_eq_true, if_false]
  | fetched hrequest hnew hobtain h =>
    refine .inr ⟨[], _, _, _, ?_, rfl, .inr ⟨_, _, _, hobtain, rfl, rfl, h⟩⟩
    simp only [nextRequest, hrequest, hnew, Bool.false_eq_true, if_false]

section Rounds

variable {said : List Notice} {request : Request} {rest : List Reference} {rounds : ℕ}

/-- A last round. -/
theorem collect_of_none (h : nextRequest p fetched pending = (said, none)) :
    collect p fetcher (rounds + 1) pending fetched = (do
      Building.note said
      pure []) := by
  rw [collect, h]

/-- A round with a request that fails. -/
theorem collect_of_error {notice : Notice}
    (h : nextRequest p fetched pending = (said, some (request, rest)))
    (ho : obtain? p fetcher request = .error notice) :
    collect p fetcher (rounds + 1) pending fetched = (do
      Building.note said
      Building.ask request
      Building.note [notice]
      collect p fetcher rounds rest (fetched.add request.specifier)) := by
  rw [collect, h]
  unfold obtain? at ho
  simp only [Building.fetch_bind, ho]

/-- A round with a module. -/
theorem collect_of_ok {c : Chunk}
    (h : nextRequest p fetched pending = (said, some (request, rest)))
    (ho : obtain? p fetcher request = .ok c) :
    collect p fetcher (rounds + 1) pending fetched = (do
      Building.note said
      Building.ask request
      Building.note (remarks p request.specifier c)
      Building.write (answered p request c).path (p.config.layout.render c)
      let more ← collect p fetcher rounds (requires c ++ rest) (fetched.add request.specifier)
      pure (answered p request c :: more)) := by
  rw [collect, h]
  unfold obtain? at ho
  simp only [Building.fetch_bind, ho, answered]

end Rounds

/-! What a round does: the steps of one request, and what the rounds behind it do. -/

section Rounds

variable {said : List Notice} {request : Request} {rest : List Reference} {rounds : ℕ}
variable {change : Change}

theorem collect_does_of_none (h : nextRequest p fetched pending = (said, none)) :
    (collect p fetcher (rounds + 1) pending fetched).Does .none [] said [] := by
  rw [collect_of_none h]
  exact (Building.does_note said).pure

theorem collect_does_of_error {notice : Notice}
    (h : nextRequest p fetched pending = (said, some (request, rest)))
    (ho : obtain? p fetcher request = .error notice)
    (hrest : (collect p fetcher rounds rest (fetched.add request.specifier)).Does change modules
      notices requests) :
    (collect p fetcher (rounds + 1) pending fetched).Does change modules
      (said ++ notice :: notices) (request :: requests) := by
  rw [collect_of_error h ho]
  exact .noting (.asking (.noting hrest [notice]) request) said

theorem collect_does_of_ok {c : Chunk}
    (h : nextRequest p fetched pending = (said, some (request, rest)))
    (ho : obtain? p fetcher request = .ok c)
    (hrest : (collect p fetcher rounds (requires c ++ rest) (fetched.add request.specifier)).Does
      (.writes (modules.map (output p))) modules notices requests) :
    (collect p fetcher (rounds + 1) pending fetched).Does
      (.writes ((answered p request c :: modules).map (output p))) (answered p request c :: modules)
      (said ++ (remarks p request.specifier c ++ notices)) (request :: requests) := by
  rw [collect_of_ok h ho]
  refine .noting (.asking (.noting ?_ _) request) said
  exact .changing hrest.pure (Building.does_write _ _)

end Rounds

/-- **Rounds, however many,** ask for some modules and write those they get,
each under the name of its specifier. -/
theorem exists_collect_does (p : Project) (fetcher : Fetcher) (rounds : ℕ)
    (pending : List Reference) (fetched : KeySet String) : ∃ modules notices requests,
      (collect p fetcher rounds pending fetched).Does (.writes (modules.map (output p))) modules
        notices requests ∧
      ∀ m ∈ modules, m.path = p.fetchedDir.joinText (fileName m.specifier) := by
  induction rounds generalizing pending fetched with
  | zero => exact ⟨[], [], [], Building.does_pure [], by simp⟩
  | succ rounds ih =>
    rcases hnext : nextRequest p fetched pending with ⟨said, _ | ⟨request, rest⟩⟩
    · exact ⟨[], said, [], collect_does_of_none hnext, by simp⟩
    · cases ho : obtain? p fetcher request with
      | error notice =>
        obtain ⟨modules, notices, requests, hrest, hpaths⟩ :=
          ih rest (fetched.add request.specifier)
        exact ⟨modules, _, _, collect_does_of_error hnext ho hrest, hpaths⟩
      | ok c =>
        obtain ⟨modules, notices, requests, hrest, hpaths⟩ :=
          ih (requires c ++ rest) (fetched.add request.specifier)
        have hpath : (answered p request c).path =
            p.fetchedDir.joinText (fileName (answered p request c).specifier) := by
          simp only [answered]
        exact ⟨_, _, _, collect_does_of_ok hnext ho hrest,
          List.forall_mem_cons.2 ⟨hpath, hpaths⟩⟩

/-- **More rounds than requests** do what the loop does: they ask for its
requests and write its modules. -/
theorem Follows.collect_does (h : Follows p fetcher fetched pending requests modules notices)
    {rounds : ℕ} (hrounds : requests.length < rounds) :
    (collect p fetcher rounds pending fetched).Does (.writes (modules.map (output p))) modules
      notices requests := by
  -- on the rounds; each of them is the steps of one request and the rounds that are left
  induction rounds generalizing fetched pending requests modules notices with
  | zero => exact absurd hrounds (Nat.not_lt_zero _)
  | succ rounds ih =>
    rcases h.next with ⟨hnext, rfl, rfl⟩ | ⟨said, request, rest, more, hnext, rfl, hstep⟩
    · exact collect_does_of_none hnext
    · have hmore : more.length < rounds := by simpa using hrounds
      rcases hstep with ⟨notice, later, ho, rfl, hrest⟩ | ⟨c, found, later, ho, rfl, rfl, hrest⟩
      · exact collect_does_of_error hnext ho (ih hrest hmore)
      · exact collect_does_of_ok hnext ho (ih hrest hmore)

theorem obtain?_congr {fetcher' : Fetcher} (h : fetcher'.fetch = fetcher.fetch)
    (request : Request) : obtain? p fetcher' request = obtain? p fetcher request := by
  rw [obtain?, obtain?, h]

/-- What more rounds do does not depend on how many there are. -/
theorem Follows.collect_congr (h : Follows p fetcher fetched pending requests modules notices)
    {fetcher' : Fetcher} (hfetch : fetcher'.fetch = fetcher.fetch) {rounds rounds' : ℕ}
    (hrounds : requests.length < rounds) (hrounds' : requests.length < rounds') :
    collect p fetcher' rounds pending fetched = collect p fetcher rounds' pending fetched := by
  have hobtain (request : Request) : obtain? p fetcher' request = obtain? p fetcher request :=
    obtain?_congr hfetch request
  induction rounds generalizing fetched pending requests modules notices rounds' with
  | zero => exact absurd hrounds (Nat.not_lt_zero _)
  | succ rounds ih =>
    obtain ⟨rounds', rfl⟩ := Nat.exists_eq_succ_of_ne_zero (Nat.ne_zero_of_lt hrounds')
    rcases h.next with ⟨hnext, -, -⟩ | ⟨said, request, rest, more, hnext, rfl, hstep⟩
    · rw [collect_of_none hnext, collect_of_none hnext]
    · have hmore : more.length < rounds := by simpa using hrounds
      have hmore' : more.length < rounds' := by simpa using hrounds'
      rcases hstep with ⟨notice, later, ho, -, hrest⟩ | ⟨c, found, later, ho, -, -, hrest⟩
      · rw [collect_of_error hnext ho, collect_of_error hnext ((hobtain request).trans ho),
          ih hrest hmore hmore']
      · rw [collect_of_ok hnext ho, collect_of_ok hnext ((hobtain request).trans ho),
          ih hrest hmore hmore']

/-- The loop looks at the answers of a fetcher only. -/
theorem Follows.congr (h : Follows p fetcher fetched pending requests modules notices)
    {fetcher' : Fetcher} (hfetch : fetcher'.fetch = fetcher.fetch) :
    Follows p fetcher' fetched pending requests modules notices := by
  induction h with
  | done => exact .done
  | unanswerable hrequest _ ih => exact .unanswerable hrequest ih
  | again hrequest hknown _ ih => exact .again hrequest hknown ih
  | failed hrequest hnew hobtain _ ih =>
    exact .failed hrequest hnew ((obtain?_congr hfetch _).trans hobtain) ih
  | fetched hrequest hnew hobtain _ ih =>
    exact .fetched hrequest hnew ((obtain?_congr hfetch _).trans hobtain) ih

/-- The directory for modules is made, and modules are written into it. -/
def placing (p : Project) (modules : List FetchedModule) : Change :=
  (Change.directories p.fetchedDir).andThen (.writes (modules.map (output p)))

/-- The directory for modules is removed if nothing came into it. -/
def tidying (p : Project) (modules : List FetchedModule) : Change := fun t =>
  if modules.isEmpty && t.isEmptyDirectory p.fetchedDir then Change.remove p.fetchedDir t
  else Change.none t

/-- Tidying is never refused. -/
theorem tidying_snd (p : Project) (modules : List FetchedModule) (t : FileTree) :
    (tidying p modules t).2 = .ok () := by
  unfold tidying
  split
  · rename_i hempty
    obtain ⟨left, hleft⟩ := FileTree.exists_remove (Bool.and_eq_true_iff.1 hempty).2
    simp only [Change.remove, Change.onPath, hleft]
  · rfl

variable {r : Requirements}

/-- Fetching places what its rounds write, and tidies. -/
theorem fetchAll_does_of_collect
    (h : (collect p fetcher (r.outside.length + fetcher.reach + 1) r.outside .empty).Does
      (.writes (modules.map (output p))) modules notices requests) :
    (fetchAll p fetcher r).Does ((placing p modules).andThen (tidying p modules)) modules notices
      requests := by
  unfold fetchAll placing
  rw [Change.andThen_assoc, ← List.append_nil notices, ← List.append_nil requests]
  refine (Building.does_makeDirectories p.fetchedDir).bind (h.bind fun site => ?_)
  -- what is removed depends on what is there when everything is written
  rw [Building.run_get_bind]
  by_cases hempty : (modules.isEmpty && site.files.isEmptyDirectory p.fetchedDir) = true
  · have htidy : tidying p modules site.files = Change.remove p.fetchedDir site.files :=
      if_pos hempty
    rw [if_pos hempty, htidy]
    exact (Building.does_remove p.fetchedDir).pure site
  · have htidy : tidying p modules site.files = Change.none site.files := if_neg hempty
    rw [if_neg hempty, htidy]
    exact Building.does_pure modules site

/-- **Fetching** asks for what the loop asks for and places what it finds. -/
theorem Follows.fetchAll_does (h : Follows p fetcher .empty r.outside requests modules notices)
    (hreach : requests.length ≤ fetcher.reach) :
    (fetchAll p fetcher r).Does ((placing p modules).andThen (tidying p modules)) modules notices
      requests :=
  fetchAll_does_of_collect (h.collect_does (by omega))

/-- Fetchers with the same answers and rounds to spare fetch alike. -/
theorem Follows.fetchAll_congr (h : Follows p fetcher .empty r.outside requests modules notices)
    {fetcher' : Fetcher} (hfetch : fetcher'.fetch = fetcher.fetch)
    (hreach : requests.length ≤ fetcher.reach) (hreach' : requests.length ≤ fetcher'.reach) :
    fetchAll p fetcher' r = fetchAll p fetcher r := by
  have hrounds : requests.length < r.outside.length + fetcher.reach + 1 := by omega
  have hrounds' : requests.length < r.outside.length + fetcher'.reach + 1 := by omega
  unfold fetchAll
  rw [h.collect_congr hfetch hrounds' hrounds]

/-- All that fetching comes to, with any fetcher that answers alike and has
rounds to spare. -/
theorem Follows.exists_result
    (h : Follows p fetcher .empty r.outside requests modules notices) (site : Site) :
    ∃ result,
      (∀ fetcher' : Fetcher, fetcher'.fetch = fetcher.fetch →
        requests.length ≤ fetcher'.reach → (fetchAll p fetcher' r).run.run site = result) ∧
      (∀ files, placing p modules site.files = (files, .ok ()) →
        result = (.ok modules, ⟨(tidying p modules files).1, site.notices ++ notices,
          site.asked ++ requests, site.written⟩)) ∧
      ∀ files e, placing p modules site.files = (files, .error e) →
        ∃ said made, said <+: notices ∧ made <+: requests ∧
          result = (.error e, ⟨files, site.notices ++ said, site.asked ++ made, site.written⟩) := by
  -- a fetcher with rounds for exactly these requests
  let exact : Fetcher := ⟨fetcher.fetch, requests.length⟩
  have hexact : Follows p exact .empty r.outside requests modules notices := h.congr rfl
  have hdoes := hexact.fetchAll_does le_rfl
  refine ⟨(fetchAll p exact r).run.run site, fun fetcher' hfetch hreach => ?_,
    fun files hplacing => hdoes.run_ok site ?_, fun files e hplacing => hdoes.run_error site ?_⟩
  · rw [hexact.fetchAll_congr hfetch le_rfl hreach]
  · simp only [Change.andThen, hplacing]
    exact Prod.ext rfl (tidying_snd p modules files)
  · simp only [Change.andThen, hplacing]

/-! ## The closure -/

/-- The text that a warning says has no module. -/
def givenUp? : Notice → Option String
  | .noRegistry package => some package.specifier
  | .notFetched specifier _ _ | .notCompiled specifier _ => some specifier
  | _ => none

/-- Whether a reference leads out of the project. -/
def IsRemote : Reference → Prop
  | .localModule _ => False
  | .uri _ | .package _ => True

theorem isRemote_of_outside {reference : Reference} (h : reference ∈ r.outside) :
    IsRemote reference := by
  rcases Requirements.mem_outside.1 h with ⟨uri, -, rfl⟩ | ⟨package, -, rfl⟩ <;> trivial

theorem isRemote_of_requires {c : Chunk} {reference : Reference} (h : reference ∈ requires c) :
    IsRemote reference := by
  obtain ⟨call, -, hcall⟩ := List.mem_filterMap.1 h
  split at hcall
  · cases hcall
  · cases hcall
  · rename_i hlocal _
    cases reference with
    | localModule name =>
      obtain rfl := Option.some.inj hcall
      exact absurd rfl (hlocal name)
    | uri _ | package _ => trivial

/-- A remote reference without a module is warned about. -/
theorem warned_of_reply {reference : Reference} {told : List Notice}
    (h : reply p fetcher reference = .error told) (hremote : IsRemote reference) :
    ∃ notice ∈ told, notice.severity = .warning ∧ givenUp? notice = some reference.text := by
  cases hrequest : request? p reference with
  | none =>
    rw [reply_of_none hrequest] at h
    obtain rfl := Except.error.inj h
    cases reference with
    | uri _ => cases hrequest
    | package package => exact ⟨.noRegistry package, by simp [unanswerable], rfl, rfl⟩
    | localModule _ => exact absurd hremote id
  | some request =>
    rw [← specifier_of_request? hrequest]
    cases hobtain : obtain? p fetcher request with
    | ok c =>
      rw [reply_of_ok hrequest hobtain] at h
      cases h
    | error notice =>
      rw [reply_of_error hrequest hobtain] at h
      obtain rfl := Except.error.inj h
      refine ⟨notice, by simp, ?_⟩
      -- it was not fetched, or it did not compile; both are warnings
      unfold obtain? admit? at hobtain
      cases hfetch : fetcher.fetch request.uri with
      | error fault =>
        rw [hfetch] at hobtain
        obtain rfl := Except.error.inj hobtain
        exact ⟨rfl, rfl⟩
      | ok source =>
        rw [hfetch] at hobtain
        cases hcompile : p.compile source with
        | ok c =>
          simp only [Except.mapError, bind, Except.bind, hcompile] at hobtain
          cases hobtain
        | error e =>
          simp only [Except.mapError, bind, Except.bind, hcompile] at hobtain
          obtain rfl := Except.error.inj hobtain
          exact ⟨rfl, rfl⟩

/-- A reference that gets a module. -/
theorem reply_eq_ok_iff {reference : Reference} {m : FetchedModule} :
    reply p fetcher reference = .ok m ↔ ∃ request source c,
      request? p reference = some request ∧ fetcher.fetch request.uri = .ok source ∧
        p.compile source = .ok c ∧ m = answered p request c := by
  constructor
  · intro h
    cases hrequest : request? p reference with
    | none => simp [reply_of_none hrequest] at h
    | some request =>
      cases hobtain : obtain? p fetcher request with
      | error notice => simp [reply_of_error hrequest hobtain] at h
      | ok c =>
        rw [reply_of_ok hrequest hobtain] at h
        obtain ⟨source, hfetch, hcompile⟩ := obtain?_eq_ok hobtain
        exact ⟨request, source, c, rfl, hfetch, hcompile, (Except.ok.inj h).symm⟩
  · rintro ⟨request, source, c, hrequest, hfetch, hcompile, rfl⟩
    refine reply_of_ok hrequest ?_
    rw [obtain?, admit?, hfetch]
    simp only [Except.mapError, bind, Except.bind, hcompile]

/-- A module has the text of its reference. -/
theorem specifier_of_reply {reference : Reference} {m : FetchedModule}
    (h : reply p fetcher reference = .ok m) : m.specifier = reference.text := by
  obtain ⟨request, source, c, hrequest, -, -, rfl⟩ := reply_eq_ok_iff.1 h
  exact specifier_of_request? hrequest

theorem Reaches.mono {origins origins' : List Reference} {reference : Reference}
    (h : Reaches p fetcher origins reference) (hsub : origins ⊆ origins') :
    Reaches p fetcher origins' reference := by
  induction h with
  | origin hmem => exact .origin (hsub hmem)
  | through _ hreply hnext ih => exact .through ih hreply hnext

/-- Of all that can be reached, the loop finds the module or says why there
is none. -/
theorem Follows.settled_of_reaches
    (h : Follows p fetcher .empty pending requests modules notices) (hgenuine : Genuine pending)
    {reference : Reference} (hreaches : Reaches p fetcher pending reference) :
    Settled p fetcher .empty modules notices reference := by
  obtain ⟨hsettled, hclosed⟩ := h.settles hgenuine
  induction hreaches with
  | origin hmem => exact hsettled _ hmem
  | through _ hreply hnext ih =>
    rcases ih with hknown | hfound
    · cases hknown
    · rw [hreply] at hfound
      exact hclosed _ hfound _ hnext

end FetchedModule

/-- Requirements of compiled modules, together. -/
inductive Requirements.Traced (p : Project) (view : FileView) : Requirements → Prop
  | nothing : Traced p view .empty
  | ofModule (file : Path) (c : Chunk) : Traced p view (Requirements.ofModule p view file c).1
  | union {r s : Requirements} : Traced p view r → Traced p view s → Traced p view (r.union s).1

/-- What is traced was read off texts. -/
theorem Requirements.Traced.genuine {p : Project} {view : FileView} {r : Requirements}
    (h : r.Traced p view) : FetchedModule.Genuine r.outside := by
  induction h with
  | nothing => simp [FetchedModule.Genuine, empty, Index.empty, outside, Index.keys]
  | ofModule file c =>
    intro reference hreference
    obtain ⟨call, -, hcall⟩ := (ofModule_sound p view file c).outside _ hreference
    rwa [Reference.text_of_ofSpecifier? hcall]
  | union _ _ ihr ihs =>
    intro reference hreference
    exact (mem_outside_union hreference).elim (ihr reference) (ihs reference)

open FetchedModule in
/-- **What is fetched is a closure.** Where finitely many texts can be
reached from the requirements of compiled modules, following them comes to
an end, and fetching with as many rounds as that takes, or more, comes to
what it comes to. If the directory can be made and each module written, it
comes to all the modules and asks for all that is there to ask for;
otherwise it fails with the fault of the first of these changes that the
files refuse. What it asks for is reached, and no text is asked for twice.
There is one module for every reference that can be reached and is answered
by a source that compiles, and a warning about each other one. -/
theorem fetchAll_closure (p : Project) (view : FileView) (fetcher : Fetcher) {r : Requirements}
    (hr : r.Traced p view)
    (hfinite : {text | ∃ reference, Reaches p fetcher r.outside reference ∧
      reference.text = text}.Finite) :
    ∃ requests modules notices, Follows p fetcher .empty r.outside requests modules notices ∧
      (∀ site, ∃ result,
        (∀ fetcher' : Fetcher, fetcher'.fetch = fetcher.fetch →
          requests.length ≤ fetcher'.reach → (fetchAll p fetcher' r).run.run site = result) ∧
        (∀ files, placing p modules site.files = (files, .ok ()) →
          result = (.ok modules, ⟨(tidying p modules files).1, site.notices ++ notices,
            site.asked ++ requests, site.written⟩)) ∧
        ∀ files e, placing p modules site.files = (files, .error e) →
          ∃ said made, said <+: notices ∧ made <+: requests ∧
            result = (.error e, ⟨files, site.notices ++ said, site.asked ++ made, site.written⟩)) ∧
      (requests.map Request.specifier).Nodup ∧
      (∀ request ∈ requests, ∃ reference, Reaches p fetcher r.outside reference ∧
        request? p reference = some request) ∧
      (modules.map FetchedModule.specifier).Nodup ∧
      (∀ m, m ∈ modules ↔ ∃ reference request source c, Reaches p fetcher r.outside reference ∧
        request? p reference = some request ∧ fetcher.fetch request.uri = .ok source ∧
        p.compile source = .ok c ∧ m = answered p request c) ∧
      (∀ m ∈ modules, ∃ reference, Reaches p fetcher r.outside reference ∧
        m.specifier = reference.text) ∧
      ∀ reference, Reaches p fetcher r.outside reference →
        reference.text ∉ modules.map FetchedModule.specifier →
        ∃ notice ∈ notices, notice.severity = .warning ∧ givenUp? notice = some reference.text := by
  have hgenuine := hr.genuine
  -- the run is finite as what is reached is, so it is there whatever the site
  obtain ⟨requests, modules, notices, h⟩ :=
    @exists_follows p fetcher hfinite.toFinset .empty r.outside
      fun reference hreference next hnext => hfinite.mem_toFinset.2
        ⟨next, hnext.mono (by simpa using hreference), rfl⟩
  have hreply : ∀ m ∈ modules, ∃ reference, Reaches p fetcher r.outside reference ∧
      reply p fetcher reference = .ok m :=
    h.exists_reply (fun _ _ _ => .through) fun _ => .origin
  have hremote {reference : Reference} (hreaches : Reaches p fetcher r.outside reference) :
      IsRemote reference := by
    cases hreaches with
    | origin hmem => exact isRemote_of_outside hmem
    | through _ _ hnext => exact isRemote_of_requires hnext
  refine ⟨requests, modules, notices, h, fun site => h.exists_result site, h.distinct.1,
    h.exists_request (fun _ _ _ => .through) fun _ => .origin,
    h.distinct.1.sublist h.modules_sublist, fun m => ⟨fun hm => ?_, ?_⟩, fun m hm => ?_,
    fun reference hreaches hmissing => ?_⟩
  · obtain ⟨reference, hreaches, hm⟩ := hreply m hm
    obtain ⟨request, source, c, hrequest, hfetch, hcompile, rfl⟩ := reply_eq_ok_iff.1 hm
    exact ⟨reference, request, source, c, hreaches, hrequest, hfetch, hcompile, rfl⟩
  · rintro ⟨reference, request, source, c, hreaches, hrequest, hfetch, hcompile, rfl⟩
    have hm := reply_eq_ok_iff.2 ⟨request, source, c, hrequest, hfetch, hcompile, rfl⟩
    -- nothing was fetched before, so the run has settled what is reached
    rcases h.settled_of_reaches hgenuine hreaches with hknown | hfound
    · cases hknown
    · rwa [hm] at hfound
  · obtain ⟨reference, hreaches, hm⟩ := hreply m hm
    exact ⟨reference, hreaches, specifier_of_reply hm⟩
  · rcases h.settled_of_reaches hgenuine hreaches with hknown | hfound
    · cases hknown
    -- what no module answers was given up, with a warning
    · cases hm : reply p fetcher reference with
      | ok m =>
        rw [hm] at hfound
        exact absurd (specifier_of_reply hm ▸ List.mem_map_of_mem hfound) hmissing
      | error told =>
        rw [hm] at hfound
        obtain ⟨notice, hnotice, hwarning⟩ := warned_of_reply hm (hremote hreaches)
        exact ⟨notice, hfound notice hnotice, hwarning⟩

open FetchedModule in
/-- Two modules from outside that require each other, for a project whose
directory is there: both are fetched, and each of them once. -/
theorem fetchAll_closure_cycle :
    let p : Project := ⟨.ofText "/p", .named "p"⟩
    let view := FileView.listed .empty
    let fetcher := Fetcher.ofAnswers ((Index.empty.insert "http:a" (.ok "require 'http:b'")).insert
      "http:b" (.ok "require 'http:a'"))
    ∃ r, r.Traced p view ∧ r.outside = [.uri "http:a"] ∧
      {text | ∃ reference, Reaches p fetcher r.outside reference ∧ reference.text = text}.Finite ∧
      ∃ requests modules notices files,
        Follows p fetcher .empty r.outside requests modules notices ∧
        (fetchAll p fetcher r).run.run (.ofFiles ⟨Index.empty.insert ["p"] .directory, []⟩) =
          (.ok modules, ⟨files, notices, requests, []⟩) ∧
        requests = [⟨"http:a", "http:a"⟩, ⟨"http:b", "http:b"⟩] ∧
        modules.map FetchedModule.specifier = ["http:a", "http:b"] ∧ notices = [] := by
  intro p view fetcher
  have hentry : (match p.compile "require 'http:a'" with
      | .error _ => false
      | .ok c => (Requirements.ofModule p view (.ofText "/p/init.lua") c).1.outside ==
          [.uri "http:a"]) = true := by
    decide +kernel
  have hstep : ∀ text ∈ ["http:a", "http:b"], (match reply p fetcher (.uri text) with
      | .error _ => true
      | .ok m => (requires m.chunk).all fun next => ["http:a", "http:b"].contains next.text &&
          next == .uri next.text) = true := by
    decide +kernel
  let required := Requirements.empty.insertUri "http:a"
  let site := Site.ofFiles ⟨Index.empty.insert ["p"] .directory, []⟩
  have hrun : ((fetchAll p fetcher required).run.run site).1.toOption.map
        (List.map FetchedModule.specifier) = some ["http:a", "http:b"] ∧
      ((fetchAll p fetcher required).run.run site).2.asked =
        [⟨"http:a", "http:a"⟩, ⟨"http:b", "http:b"⟩] ∧
      ((fetchAll p fetcher required).run.run site).2.notices = [] := by
    decide +kernel
  split at hentry
  · cases hentry
  rename_i c hc
  have houtside := beq_iff_eq.1 hentry
  have htraced : (Requirements.ofModule p view (.ofText "/p/init.lua") c).1.Traced p view :=
    .ofModule _ c
  revert houtside htraced
  generalize (Requirements.ofModule p view (.ofText "/p/init.lua") c).1 = r
  intro houtside htraced
  -- nothing but the two addresses is ever reached
  have hreaches : ∀ reference, Reaches p fetcher r.outside reference →
      reference.text ∈ ["http:a", "http:b"] ∧ reference = .uri reference.text := by
    intro reference h
    rw [houtside] at h
    induction h with
    | origin hmem =>
      obtain rfl := List.mem_singleton.1 hmem
      exact ⟨by simp [Reference.text], rfl⟩
    | through _ hreply hnext ih =>
      have hall := hstep _ ih.1
      rw [← ih.2, hreply] at hall
      have hthis := List.all_eq_true.1 hall _ hnext
      rw [Bool.and_eq_true, List.contains_iff_mem, beq_iff_eq] at hthis
      exact hthis
  have hfinite : {text | ∃ reference, Reaches p fetcher r.outside reference ∧
      reference.text = text}.Finite := by
    refine (List.finite_toSet ["http:a", "http:b"]).subset ?_
    rintro text ⟨reference, h, rfl⟩
    exact (hreaches reference h).1
  obtain ⟨requests, modules, notices, hfollows, hsite, honce, hasked, -⟩ :=
    fetchAll_closure p view fetcher htraced hfinite
  -- so there are rounds enough
  have hrounds : requests.length ≤ fetcher.reach := by
    have hsub : requests.map Request.specifier ⊆ ["http:a", "http:b"] := by
      intro text htext
      obtain ⟨request, hrequest, rfl⟩ := List.mem_map.1 htext
      obtain ⟨reference, h, hreference⟩ := hasked request hrequest
      rw [specifier_of_request? hreference]
      exact (hreaches reference h).1
    have hlength := (honce.subperm hsub).length_le
    rw [List.length_map] at hlength
    exact hlength.trans (by decide)
  -- fetching looks at nothing but what is required from outside
  have hsame : fetchAll p fetcher required = fetchAll p fetcher r := by
    unfold fetchAll
    rw [houtside]
    rfl
  obtain ⟨result, hresult, hplaced, hrefused⟩ := hsite site
  rw [hsame, hresult fetcher rfl hrounds] at hrun
  rcases hplacing : placing p modules site.files with ⟨files, e | _⟩
  · obtain ⟨said, made, -, -, rfl⟩ := hrefused files e hplacing
    cases hrun.1
  · obtain rfl := hplaced files hplacing
    obtain ⟨hmodules, hrequests, hnotices⟩ := hrun
    exact ⟨r, htraced, houtside, hfinite, requests, modules, notices, _, hfollows,
      hresult fetcher rfl hrounds, hrequests, Option.some.inj hmodules, hnotices⟩

end LuaSugar
