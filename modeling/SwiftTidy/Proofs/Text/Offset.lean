import Mathlib.Data.String.Basic
import Mathlib.Tactic.SplitIfs
import SwiftTidy.Proofs.Data.Except
import SwiftTidy.Text.Offset

/-!
# Offsets

Arithmetic on offsets succeeds where it stays within 32 bits.  A cut of a text succeeds where it falls
between characters: behind some characters of the text, at as many bytes as they have.
-/

namespace SwiftTidy

/-! ### Arithmetic -/

theorem Offset.add_eq_ok {a b : Nat} (h : a + b < limit) : add a b = .ok (a + b) := if_pos h

theorem Offset.sub_eq_ok {a b : Nat} (h : b ≤ a) : sub a b = .ok (a - b) := if_pos h

namespace TextRange

theorem between_eq_ok {start stop : Nat} (h : start ≤ stop) :
    between start stop = .ok ⟨start, stop, h⟩ := dif_pos h

theorem ofLength_eq_ok {start len : Nat} (h : start + len < Offset.limit) :
    ofLength start len = .ok ⟨start, start + len, Nat.le_add_right _ _⟩ := by
  rw [ofLength, Offset.add_eq_ok h]
  exact between_eq_ok (Nat.le_add_right _ _)

end TextRange

/-! ### Cuts at characters -/

namespace Text

theorem utf8ByteSize_eq (text : String) : text.utf8ByteSize = String.utf8Len text.toList := by
  rw [← String.utf8ByteSize_ofList, String.ofList_toList]

/-- A list of characters can be cut behind any of its characters. -/
theorem splitBytes_append (front rest : List Char) :
    splitBytes (String.utf8Len front) (front ++ rest) = .ok (front, rest) := by
  induction front with
  | nil => exact splitBytes.eq_1 rest
  | cons c front ih =>
    obtain ⟨n, hn⟩ := Nat.exists_eq_succ_of_ne_zero (Nat.ne_of_gt c.utf8Size_pos)
    have hsize : String.utf8Len (c :: front) = String.utf8Len front + n + 1 := by
      rw [String.utf8Len_cons, hn]
      rfl
    have hle : c.utf8Size ≤ String.utf8Len front + n + 1 := by omega
    have hrest : String.utf8Len front + n + 1 - c.utf8Size = String.utf8Len front := by omega
    rw [hsize, List.cons_append, splitBytes, if_pos hle, hrest, ih]

/-- A range of bytes that begins and ends behind characters cuts out those between. -/
theorem sliceChars_eq {cs front piece rest : List Char} {r : TextRange}
    (hcs : cs = front ++ piece ++ rest) (hstart : r.start = String.utf8Len front)
    (hstop : r.stop = String.utf8Len front + String.utf8Len piece) :
    sliceChars cs r = .ok piece := by
  have hlen : r.len = String.utf8Len piece := by
    unfold TextRange.len
    omega
  unfold sliceChars
  rw [hcs, hstart, hlen, List.append_assoc, splitBytes_append]
  show (splitBytes _ (piece ++ rest) >>= _) = _
  rw [splitBytes_append]
  rfl

/-- A range of bytes that begins and ends behind characters of a text cuts out what is between. -/
theorem slice_eq {text : String} {r : TextRange} {front piece rest : List Char}
    (htext : text.toList = front ++ piece ++ rest) (hstart : r.start = String.utf8Len front)
    (hstop : r.stop = String.utf8Len front + String.utf8Len piece) :
    slice text r = .ok (String.ofList piece) := by
  rw [slice, sliceChars_eq htext hstart hstop]
  rfl

/-- A cut that succeeds falls behind some of the characters. -/
theorem splitBytes_eq_ok {n : Nat} {cs front rest : List Char}
    (h : splitBytes n cs = .ok (front, rest)) : cs = front ++ rest ∧ String.utf8Len front = n := by
  induction cs generalizing n front with
  | nil =>
    cases n with
    | zero =>
      rw [splitBytes] at h
      cases h
      exact ⟨rfl, rfl⟩
    | succ n =>
      rw [splitBytes] at h
      cases h
  | cons c cs ih =>
    cases n with
    | zero =>
      rw [splitBytes] at h
      cases h
      exact ⟨rfl, rfl⟩
    | succ n =>
      rw [splitBytes] at h
      split_ifs at h with hle
      split at h
      · cases h
      · next front' rest' hrest =>
        cases h
        obtain ⟨rfl, hlen⟩ := ih hrest
        refine ⟨rfl, ?_⟩
        rw [String.utf8Len_cons, hlen]
        omega

/-- What a range of bytes cuts out stands between two parts of the text. -/
theorem slice_eq_ok {text piece : String} {r : TextRange} (h : slice text r = .ok piece) :
    ∃ front rest, text.toList = front ++ piece.toList ++ rest ∧ r.start = String.utf8Len front ∧
      r.stop = r.start + piece.utf8ByteSize := by
  obtain ⟨chars, hchars, rfl⟩ := Except.map_eq_ok.mp h
  obtain ⟨⟨front, behind⟩, hfront, hbehind⟩ := Except.bind_eq_ok.mp hchars
  obtain ⟨⟨middle, rest⟩, hmiddle, hpure⟩ := Except.bind_eq_ok.mp hbehind
  obtain rfl : middle = chars := Except.ok.inj hpure
  obtain ⟨htext, hstart⟩ := splitBytes_eq_ok hfront
  obtain ⟨hsplit, hlen⟩ := splitBytes_eq_ok hmiddle
  refine ⟨front, rest, ?_, hstart.symm, ?_⟩
  · rw [htext, hsplit, String.toList_ofList, List.append_assoc]
  · rw [String.utf8ByteSize_ofList, hlen, TextRange.len]
    have hle := r.start_le_stop
    omega

/-- An offset is a boundary when it lies behind some of the characters. -/
theorem isBoundary_iff {text : String} {offset : Nat} : isBoundary text offset = true ↔
    ∃ front rest, text.toList = front ++ rest ∧ offset = String.utf8Len front := by
  unfold isBoundary
  constructor
  · intro h
    cases hcut : splitBytes offset text.toList with
    | error f =>
      rw [hcut] at h
      cases h
    | ok cut =>
      obtain ⟨htext, hlen⟩ := splitBytes_eq_ok hcut
      exact ⟨cut.1, cut.2, htext, hlen.symm⟩
  · rintro ⟨front, rest, htext, rfl⟩
    rw [htext, splitBytes_append]
    rfl

end Text

end SwiftTidy
