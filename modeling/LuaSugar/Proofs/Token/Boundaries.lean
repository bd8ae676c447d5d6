import Mathlib
import LuaSugar.Proofs.Token.Scanner
/-!
# Places between characters

A scanner over bytes is `At` a place if what lies before it and what comes
after are texts of their own. There the bytes ahead are those of the text
that comes after, and what is taken from one such place up to another is the
text between the two. A piece that begins or ends at any other byte is
refused (`exists_slice_iff`).
-/

namespace LuaSugar

open Lexer

namespace Utf8

/-- Nothing is lost of a text. -/
theorem pieces_encode (cs : List Char) :
    pieces (cs.flatMap String.utf8EncodeChar) = cs.map .char := by
  induction cs with
  | nil => rw [List.flatMap_nil, pieces, List.map_nil]
  | cons c cs ih => rw [List.flatMap_cons, pieces_encodeChar, ih, List.map_cons]

/-- Encoding and reading back is a text of its own. -/
theorem lossy_encode (text : String) : lossy (encode text) = text := by
  rw [lossy, encode, pieces_encode, List.map_map]
  exact (congrArg String.ofList (List.map_id _)).trans String.ofList_toList

end Utf8

namespace Scanner

variable {s : Scanner} {before after mid cs : List Char} {c d : Char}
variable {p : Char → Bool} {count : ℕ}

/-! ## Places between characters -/

/-- A scanner stands between what is before it and what comes after. -/
structure At (s : Scanner) (before after : List Char) : Prop where
  text : s.text = String.ofList (before ++ after)
  pos : s.pos = (bytewise before).length

theorem at_start (text : String) : (start text).At [] text.toList :=
  ⟨String.ofList_toList.symm, rfl⟩

/-- As many bytes as the text has. -/
theorem length_bytewise (cs : List Char) :
    (bytewise cs).length = (String.ofList cs).utf8ByteSize := by
  rw [bytewise, List.length_map, ← List.size_toByteArray, ← String.size_toByteArray,
    String.toByteArray_ofList]
  rfl

/-- A text that is not empty has a byte. -/
theorem length_bytewise_pos (hne : cs ≠ []) : 0 < (bytewise cs).length := by
  obtain ⟨c, cs, rfl⟩ := List.exists_cons_of_ne_nil hne
  have hpos := List.length_pos_iff.2 (bytewise_singleton_ne_nil c)
  rw [bytewise_cons, List.length_append]
  omega

namespace At

/-- What is ahead of a scanner are the bytes of what is left. -/
theorem ahead (h : s.At before after) : s.ahead = bytewise after := by
  rw [Scanner.ahead, h.text, Utf8.encode, String.toList_ofList, List.map_drop, h.pos]
  show (bytewise (before ++ after)).drop _ = _
  rw [bytewise_append, List.drop_left]

/-- **Such a place** is a boundary of characters. -/
theorem isValid (h : s.At before after) : String.Pos.Raw.IsValid s.text ⟨s.pos⟩ := by
  refine String.Pos.Raw.isValid_iff_exists_append.2
    ⟨String.ofList before, String.ofList after, ?_, ?_⟩
  · rw [h.text, String.ofList_append]
  · rw [h.pos, length_bytewise]
    rfl

/-- **Skipping whole characters** goes from boundary to boundary. -/
theorem skip (mid : List Char) (h : s.At before (mid ++ after))
    (hcount : count = (bytewise mid).length) : (s.skip count).At (before ++ mid) after := by
  refine ⟨?_, ?_⟩
  · rw [List.append_assoc]
    exact h.text
  · rw [bytewise_append, List.length_append, ← h.pos, ← hcount]
    rfl

theorem skipLines (h : s.At before (mid ++ after)) :
    (s.skipLines (bytewise mid)).At (before ++ mid) after :=
  ⟨(h.skip mid rfl).text, (h.skip mid rfl).pos⟩

/-- So does skipping a class that has no part of a wide character. -/
theorem skipWhile (h : s.At before after) (hp : Whole p) :
    (s.skipWhile p).At (before ++ after.takeWhile p) (after.drop (after.takeWhile p).length) := by
  refine At.skip _ ?_ ?_
  · rwa [List.prefix_iff_eq_append.1 (List.takeWhile_prefix p)]
  · rw [h.ahead, takeWhile_bytewise hp]

/-- **What is taken** from between two such places is the text between
them. -/
theorem slice (h : s.At (before ++ mid) after) {start : ℕ}
    (hstart : start = (bytewise before).length) :
    s.slice start s.pos = .ok (String.ofList mid) := by
  have hbefore : At { s with pos := start } before (mid ++ after) :=
    ⟨by rw [h.text, List.append_assoc], hstart⟩
  have hpos : s.pos = start + (bytewise mid).length := by
    rw [h.pos, hstart, bytewise_append, List.length_append]
  have hpiece : ((Utf8.encode s.text).take s.pos).drop start = Utf8.encode (String.ofList mid) := by
    rw [h.text, hpos, hstart, Utf8.encode, Utf8.encode, String.toList_ofList, String.toList_ofList,
      List.flatMap_append, List.flatMap_append, List.append_assoc, bytewise, bytewise,
      List.length_map, List.length_map, List.take_length_add_append, List.drop_left,
      List.take_left]
  rw [Scanner.slice, if_pos ⟨by omega, hbefore.isValid, h.isValid⟩, hpiece, Utf8.decode?_encode]

/-! ### The next bytes -/

/-- The next byte is the first of what is left. -/
theorem peek_zero_eq (h : s.At before after) : s.peek 0 = (bytewise after).head? := by
  rw [peek, h.ahead, ← List.head?_eq_getElem?]

theorem peek_one_eq (h : s.At before (c :: after)) (hc : IsAscii c) :
    s.peek 1 = (bytewise after).head? := by
  rw [peek, h.ahead, bytewise_ascii hc, List.getElem?_cons_succ, ← List.head?_eq_getElem?]

/-- An ASCII character ahead is seen in its byte. -/
theorem peek_zero (h : s.At before after) (hd : IsAscii d) :
    s.peek 0 = some d ↔ after.head? = some d := by
  rw [h.peek_zero_eq, head?_bytewise hd]

/-- So is one behind an ASCII character. -/
theorem peek_one (h : s.At before (c :: after)) (hc : IsAscii c) (hd : IsAscii d) :
    s.peek 1 = some d ↔ after.head? = some d := by
  rw [h.peek_one_eq hc, head?_bytewise hd]

end At

/-! ## Pieces -/

/-- A scanner could stand wherever a character begins. -/
theorem at_of_isValid {first : ℕ} (h : String.Pos.Raw.IsValid s.text ⟨first⟩) :
    ∃ before after, { s with pos := first }.At before after := by
  obtain ⟨front, back, htext, hfirst⟩ := String.Pos.Raw.isValid_iff_exists_append.1 h
  refine ⟨front.toList, back.toList, ?_, ?_⟩
  · rw [← String.toList_append, String.ofList_toList]
    exact htext
  · have hbyte : first = front.utf8ByteSize := congrArg String.Pos.Raw.byteIdx hfirst
    rw [length_bytewise, String.ofList_toList]
    exact hbyte

/-- **A piece is refused** exactly if it would cut a character. -/
theorem exists_slice_iff {first last : ℕ} : (∃ piece, s.slice first last = .ok piece) ↔
    first ≤ last ∧ String.Pos.Raw.IsValid s.text ⟨first⟩ ∧
      String.Pos.Raw.IsValid s.text ⟨last⟩ := by
  constructor
  · rintro ⟨piece, hpiece⟩
    unfold slice at hpiece
    split_ifs at hpiece with h
    exact h
  · rintro ⟨hle, hfirst, hlast⟩
    obtain ⟨before, after, hbefore⟩ := at_of_isValid hfirst
    obtain ⟨before', after', hbefore'⟩ := at_of_isValid hlast
    have hfirst : first = (bytewise before).length := hbefore.pos
    have hlast : last = (bytewise before').length := hbefore'.pos
    have htext : before ++ after = before' ++ after' :=
      String.ofList_injective (hbefore.text.symm.trans hbefore'.text)
    -- the earlier of two such places is before the later in characters, too
    have hfront : ∃ mid, before' = before ++ mid := by
      rcases List.append_eq_append_iff.1 htext with ⟨mid, rfl, -⟩ | ⟨mid, rfl, -⟩
      · exact ⟨mid, rfl⟩
      · rw [hfirst, hlast, bytewise_append, List.length_append] at hle
        obtain rfl : mid = [] := by
          by_contra hne
          have hpos := length_bytewise_pos hne
          omega
        exact ⟨[], by simp⟩
    obtain ⟨mid, rfl⟩ := hfront
    exact ⟨_, hbefore'.slice hfirst⟩

example : (start "aé").slice 1 3 = .ok "é" ∧ (start "aé").slice 1 2 = .error (.split 1 2) := by
  decide +kernel

end Scanner

end LuaSugar
