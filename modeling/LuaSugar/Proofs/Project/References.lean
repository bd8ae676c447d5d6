import Mathlib
import LuaSugar.Require.Reference
/-!
# What a reference is read off

A text is cut at its first colon, and behind it at the first `@`. Nothing is
lost by that, and nothing else is looked at: a package is put together again
from its parts (`Package.written`), and every package with proper parts is
read off the text that is written for it. `ofSpecifier?_exact` says for each
kind of reference which texts are read as one.
-/

namespace LuaSugar

/-! ## Cutting texts -/

namespace Text

variable {separator : Char} {text before after beginning : String}

/-- Texts are cut at the first separator. -/
theorem splitFirst?_eq_some_iff : splitFirst? separator text = some (before, after) ↔
    text = before ++ String.singleton separator ++ after ∧ separator ∉ before.toList := by
  have hcut := List.takeWhile_append_dropWhile (p := (· != separator)) (l := text.toList)
  have hplain : ∀ c ∈ text.toList.takeWhile (· != separator), c ≠ separator := fun c hc => by
    simpa using List.mem_takeWhile_imp hc
  have hdrop : text.toList.drop (text.toList.takeWhile (· != separator)).length =
      text.toList.dropWhile (· != separator) := by
    exact (congrArg (List.drop _) hcut.symm).trans List.drop_left
  simp only [splitFirst?, hdrop]
  constructor
  · intro h
    cases hrest : text.toList.dropWhile (· != separator) with
    | nil => simp [hrest] at h
    | cons c cs =>
      rw [hrest] at h hcut
      obtain ⟨rfl, rfl⟩ := Prod.mk.inj (Option.some.inj h)
      have hc : c = separator := by
        have hhead := List.head_dropWhile_not (· != separator) (by rw [hrest]; simp)
        simpa [hrest] using hhead
      refine ⟨String.toList_inj.1 ?_, fun hmem => hplain separator (by simpa using hmem) rfl⟩
      simpa [hc] using hcut.symm
  · rintro ⟨rfl, hbefore⟩
    have hpass : ∀ c ∈ before.toList, (c != separator) = true := fun c hc => by
      simp only [bne_iff_ne, ne_eq]
      rintro rfl
      exact hbefore hc
    have hlist : (before ++ String.singleton separator ++ after).toList =
        before.toList ++ separator :: after.toList := by simp
    rw [hlist, List.dropWhile_append_of_pos hpass, List.takeWhile_append_of_pos hpass]
    simp

theorem splitFirst?_eq_none_iff : splitFirst? separator text = none ↔ separator ∉ text.toList := by
  constructor
  · intro h hmem
    obtain ⟨before, after, hcut, hbefore⟩ := List.eq_append_cons_of_mem hmem
    have hsome : splitFirst? separator text = some (String.ofList before, String.ofList after) := by
      refine splitFirst?_eq_some_iff.2 ⟨?_, by simpa using hbefore⟩
      rw [← String.toList_inj, hcut]
      simp
    simp [h] at hsome
  · intro h
    rw [Option.eq_none_iff_forall_ne_some]
    rintro ⟨before, after⟩ hsome
    rw [(splitFirst?_eq_some_iff.1 hsome).1] at h
    simp at h

theorem dropPrefix?_isSome_iff : (dropPrefix? beginning text).isSome ↔
    ∃ rest, text = beginning ++ rest := by
  unfold dropPrefix?
  by_cases h : beginning.toList.isPrefixOf text.toList
  · obtain ⟨rest, hrest⟩ := List.isPrefixOf_iff_prefix.1 h
    rw [if_pos h]
    refine iff_of_true rfl ⟨String.ofList rest, ?_⟩
    rw [← String.toList_inj, ← hrest]
    simp
  · rw [if_neg h]
    refine iff_of_false (by simp) ?_
    rintro ⟨rest, rfl⟩
    simp at h

end Text

/-! ## Packages -/

namespace Package

/-- The parts of a package as they can be told apart in its text. -/
structure Proper (p : Package) : Prop where
  protocol_ne : p.protocol ≠ ""
  protocol_plain : ':' ∉ p.protocol.toList
  /-- Texts that begin so are addresses. -/
  protocol_other : p.protocol ≠ "http" ∧ p.protocol ≠ "https"
  name_ne : p.name ≠ ""
  name_plain : '@' ∉ p.name.toList
  version_ne : ∀ version ∈ p.version, version ≠ ""

/-- What is written behind the colon. -/
def afterColon (p : Package) : String :=
  p.name ++ match p.version with
    | some version => "@" ++ version
    | none => ""

theorem written_eq (p : Package) :
    p.written = p.protocol ++ String.singleton ':' ++ p.afterColon := by
  rw [written, afterColon, ← String.append_assoc]
  rfl

end Package

namespace Reference

open Text

variable {specifier protocol rest : String} {p : Package}

/-- Whether a text begins like an address. -/
def IsAddress (specifier : String) : Prop :=
  ∃ rest, specifier = "http:" ++ rest ∨ specifier = "https:" ++ rest

theorem isUri_iff : isUri specifier ↔ IsAddress specifier := by
  rw [isUri, Bool.or_eq_true, dropPrefix?_isSome_iff, dropPrefix?_isSome_iff, ← exists_or]
  rfl

/-- What stands before the first colon tells addresses from packages. -/
theorem isAddress_iff (h : ':' ∉ protocol.toList) :
    IsAddress (protocol ++ String.singleton ':' ++ rest) ↔
      protocol = "http" ∨ protocol = "https" := by
  have hsplit : splitFirst? ':' (protocol ++ String.singleton ':' ++ rest) = some (protocol, rest) :=
    splitFirst?_eq_some_iff.2 ⟨rfl, h⟩
  have heq {scheme behind : String} (hscheme : ':' ∉ scheme.toList)
      (hs : protocol ++ String.singleton ':' ++ rest = scheme ++ String.singleton ':' ++ behind) :
      protocol = scheme := by
    rw [hs, splitFirst?_eq_some_iff.2 ⟨rfl, hscheme⟩] at hsplit
    exact (Prod.mk.inj (Option.some.inj hsplit)).1.symm
  constructor
  · rintro ⟨behind, hs | hs⟩
    · exact .inl (heq (by decide) hs)
    · exact .inr (heq (by decide) hs)
  · rintro (rfl | rfl)
    · exact ⟨rest, .inl rfl⟩
    · exact ⟨rest, .inr rfl⟩

/-- Behind the colon stand a name and perhaps a version, and no part is
empty. -/
theorem package?_eq_some_iff : package? specifier protocol rest = some p ↔
    p.specifier = specifier ∧ p.protocol = protocol ∧ rest = p.afterColon ∧ p.protocol ≠ "" ∧
      p.name ≠ "" ∧ '@' ∉ p.name.toList ∧ ∀ version ∈ p.version, version ≠ "" := by
  obtain ⟨pprotocol, pname, pversion, pspecifier⟩ := p
  unfold package? Package.afterColon
  cases hsplit : splitFirst? '@' rest with
  | none =>
    -- without an `@` there is no version
    have hplain := splitFirst?_eq_none_iff.1 hsplit
    simp only [Option.any_none, Bool.or_false, Bool.or_eq_true, String.isEmpty_iff,
      Option.ite_none_left_eq_some, Option.some.injEq, Package.mk.injEq, not_or]
    constructor
    · rintro ⟨⟨hprotocol, hname⟩, rfl, rfl, rfl, rfl⟩
      exact ⟨rfl, rfl, by simp, hprotocol, hname, hplain, by simp⟩
    · rintro ⟨rfl, rfl, rfl, hprotocol, hname, -, -⟩
      cases pversion with
      | none => exact ⟨⟨hprotocol, by simpa using hname⟩, rfl, by simp, rfl, rfl⟩
      | some version => simp at hplain
  | some parts =>
    obtain ⟨name, version⟩ := parts
    -- with one, the first of them ends the name
    obtain ⟨rfl, hplain⟩ := splitFirst?_eq_some_iff.1 hsplit
    simp only [Option.any_some, Bool.or_eq_true, String.isEmpty_iff,
      Option.ite_none_left_eq_some, Option.some.injEq, Package.mk.injEq, not_or]
    constructor
    · rintro ⟨⟨⟨hprotocol, hname⟩, hversion⟩, rfl, rfl, rfl, rfl⟩
      exact ⟨rfl, rfl, String.append_assoc, hprotocol, hname, hplain, by simpa using hversion⟩
    · rintro ⟨rfl, rfl, hrest, hprotocol, hname, hname', hversion⟩
      cases pversion with
      | none =>
        rw [String.append_empty] at hrest
        rw [← hrest] at hname'
        simp at hname'
      | some version' =>
        have hsplit' : splitFirst? '@' (pname ++ ("@" ++ version')) = some (pname, version') :=
          splitFirst?_eq_some_iff.2 ⟨String.append_assoc.symm, hname'⟩
        rw [hrest, hsplit', Option.some.injEq, Prod.mk.injEq] at hsplit
        obtain ⟨rfl, rfl⟩ := hsplit
        exact ⟨⟨⟨hprotocol, hname⟩, hversion _ rfl⟩, rfl, rfl, rfl, rfl⟩

theorem ofSpecifier?_eq_uri_iff {address : String} :
    ofSpecifier? specifier = some (.uri address) ↔ address = specifier ∧ IsAddress specifier := by
  rw [← isUri_iff]
  unfold ofSpecifier?
  by_cases haddress : isUri specifier
  · simp [haddress, eq_comm]
  · rw [if_neg haddress]
    refine iff_of_false ?_ fun h => haddress h.2
    split <;> simp

theorem ofSpecifier?_eq_localModule_iff {name : String} :
    ofSpecifier? specifier = some (.localModule name) ↔
      name = specifier ∧ ':' ∉ specifier.toList := by
  rw [← splitFirst?_eq_none_iff]
  unfold ofSpecifier?
  by_cases haddress : isUri specifier
  · have hcolon : splitFirst? ':' specifier ≠ none := by
      rw [Ne, splitFirst?_eq_none_iff, not_not]
      obtain ⟨rest, rfl | rfl⟩ := isUri_iff.1 haddress <;> simp
    simp [haddress, hcolon]
  · rw [if_neg haddress]
    cases splitFirst? ':' specifier with
    | none => simp [eq_comm]
    | some parts => simp

/-- A package is read off what is written for it. -/
theorem ofSpecifier?_eq_package_iff : ofSpecifier? specifier = some (.package p) ↔
    p.specifier = specifier ∧ p.written = specifier ∧ p.Proper := by
  rw [p.written_eq]
  constructor
  · intro h
    unfold ofSpecifier? at h
    split at h
    · cases h
    · rename_i haddress
      cases hsplit : splitFirst? ':' specifier with
      | none => simp [hsplit] at h
      | some parts =>
        obtain ⟨protocol, rest⟩ := parts
        rw [hsplit] at h
        obtain ⟨q, hq, hqp⟩ := Option.map_eq_some_iff.1 h
        obtain rfl : q = p := by simpa using hqp
        obtain ⟨hspecifier, rfl, rfl, hprotocol, hname, hplain, hversion⟩ :=
          package?_eq_some_iff.1 hq
        obtain ⟨hwritten, hcolon⟩ := splitFirst?_eq_some_iff.1 hsplit
        rw [isUri_iff, hwritten, isAddress_iff hcolon, not_or] at haddress
        exact ⟨hspecifier, hwritten.symm, hprotocol, hcolon, haddress, hname, hplain, hversion⟩
  · rintro ⟨hspecifier, hwritten, hp⟩
    have hsplit : splitFirst? ':' specifier = some (p.protocol, p.afterColon) :=
      splitFirst?_eq_some_iff.2 ⟨hwritten.symm, hp.protocol_plain⟩
    have haddress : ¬ isUri specifier := by
      rw [isUri_iff, ← hwritten, isAddress_iff hp.protocol_plain, not_or]
      exact hp.protocol_other
    rw [ofSpecifier?, if_neg haddress, hsplit]
    exact Option.map_eq_some_iff.2 ⟨p, package?_eq_some_iff.2 ⟨hspecifier, rfl, rfl,
      hp.protocol_ne, hp.name_ne, hp.name_plain, hp.version_ne⟩, rfl⟩

/-- **What a text is read as** shows in the text: addresses begin with their
scheme, names of local modules have no colon, a package is written with
proper parts, and no other text refers to anything. -/
theorem ofSpecifier?_exact (specifier : String) :
    (∀ address, ofSpecifier? specifier = some (.uri address) ↔
      address = specifier ∧ IsAddress specifier) ∧
    (∀ name, ofSpecifier? specifier = some (.localModule name) ↔
      name = specifier ∧ ':' ∉ specifier.toList) ∧
    (∀ p, ofSpecifier? specifier = some (.package p) ↔
      p.specifier = specifier ∧ p.written = specifier ∧ p.Proper) ∧
    (ofSpecifier? specifier = none ↔ ':' ∈ specifier.toList ∧ ¬ IsAddress specifier ∧
      ∀ p : Package, p.Proper → p.written ≠ specifier) := by
  refine ⟨fun _ => ofSpecifier?_eq_uri_iff, fun _ => ofSpecifier?_eq_localModule_iff,
    fun _ => ofSpecifier?_eq_package_iff, ?_⟩
  constructor
  · intro hnone
    refine ⟨?_, fun haddress => ?_, fun p hp hwritten => ?_⟩
    · by_contra hcolon
      simp [ofSpecifier?_eq_localModule_iff.2 ⟨rfl, hcolon⟩] at hnone
    · simp [ofSpecifier?_eq_uri_iff.2 ⟨rfl, haddress⟩] at hnone
    · -- the package that is read off the text has the text besides
      have hproper : { p with specifier }.Proper :=
        ⟨hp.protocol_ne, hp.protocol_plain, hp.protocol_other, hp.name_ne, hp.name_plain,
          hp.version_ne⟩
      simp [ofSpecifier?_eq_package_iff.2 ⟨rfl, hwritten, hproper⟩] at hnone
  · rintro ⟨hcolon, haddress, hpackage⟩
    cases hreference : ofSpecifier? specifier with
    | none => rfl
    | some reference =>
      cases reference with
      | uri address => exact absurd (ofSpecifier?_eq_uri_iff.1 hreference).2 haddress
      | localModule name => exact absurd hcolon (ofSpecifier?_eq_localModule_iff.1 hreference).2
      | package p =>
        obtain ⟨-, hwritten, hp⟩ := ofSpecifier?_eq_package_iff.1 hreference
        exact absurd hwritten (hpackage p hp)

/-- Further colons belong to the name, and a further `@` to the version. -/
example : ofSpecifier? "gh:a:b@1@2" = some (.package ⟨"gh", "a:b", some "1@2", "gh:a:b@1@2"⟩) := by
  decide +kernel

end Reference

end LuaSugar
