import Mathlib.Data.String.Basic
import SwiftTidy.Parse.Lexer
import SwiftTidy.Text.Offset

/-!
# Scanning byte by byte

Two scanners step over text of any kind one byte at a time, and so through the middle of
characters: the one that looks for the end of a line, and the one that looks for the end of a block
comment.  Both stop between characters all the same, since a byte below 128 is a character by
itself.  `lineStop_bytes` and `blockCommentStop_bytes` say that they stop behind the characters that
`lineLength` and `blockCommentLength` count.

The second one keeps the number of open comments in a signed 32-bit counter.  An opening takes two
bytes, so a text whose length is counted in 32 bits does not have enough of them for the counter to
overflow.
-/

namespace SwiftTidy

namespace Lexer

/-! ### The bytes of a text -/

theorem byteLength_eq (cs : List Char) : byteLength cs = String.utf8Len cs := by
  induction cs with
  | nil => rfl
  | cons c cs ih => rw [byteLength, ih, String.utf8Len_cons, Nat.add_comm]

/-- The bytes that stand for a list of characters. -/
def bytes (cs : List Char) : List UInt8 := cs.flatMap String.utf8EncodeChar

theorem bytes_cons (c : Char) (cs : List Char) :
    bytes (c :: cs) = String.utf8EncodeChar c ++ bytes cs :=
  List.flatMap_cons

theorem length_bytes (cs : List Char) : (bytes cs).length = byteLength cs := by
  induction cs with
  | nil => rfl
  | cons c cs ih => rw [bytes_cons, List.length_append, String.length_utf8EncodeChar, ih, byteLength]

theorem utf8EncodeChar_of_ascii {c : Char} (hc : c.val ≤ 127) :
    String.utf8EncodeChar c = [c.val.toUInt8] :=
  String.utf8EncodeChar_eq_singleton (Char.utf8Size_eq_one_iff.mpr hc)

/-- A character that takes several bytes has none below 128. -/
theorem le_of_mem_utf8EncodeChar {c : Char} (hc : ¬ c.val ≤ 127) {b : UInt8}
    (hb : b ∈ String.utf8EncodeChar c) : 128 ≤ b.toNat := by
  have hnat : ¬ c.val.toNat ≤ 127 := hc
  unfold String.utf8EncodeChar at hb
  dsimp only at hb
  rw [if_neg hnat] at hb
  have hbyte : ∀ n, 128 ≤ n % 256 → 128 ≤ (UInt8.ofNat n).toNat := fun n hn => by
    rwa [UInt8.toNat_ofNat']
  split_ifs at hb
  all_goals
    simp only [List.mem_cons, List.not_mem_nil, or_false] at hb
    rcases hb with rfl | rfl | rfl | rfl <;> exact hbyte _ (by omega)

/-- A byte below 128 stands for a character by itself. -/
theorem mem_utf8EncodeChar_iff {c d : Char} (hd : d.val ≤ 127) :
    d.val.toUInt8 ∈ String.utf8EncodeChar c ↔ c = d := by
  have hsmall : d.val.toUInt8.toNat = d.val.toNat := by
    have hle : d.val.toNat ≤ 127 := hd
    rw [UInt32.toNat_toUInt8]
    omega
  constructor
  · intro hmem
    by_cases hc : c.val ≤ 127
    · rw [utf8EncodeChar_of_ascii hc, List.mem_singleton] at hmem
      have hle : c.val.toNat ≤ 127 := hc
      have hnat := congrArg UInt8.toNat hmem
      rw [hsmall, UInt32.toNat_toUInt8, Nat.mod_eq_of_lt (by omega)] at hnat
      exact Char.ext (UInt32.toNat_inj.mp hnat.symm)
    · have hle := le_of_mem_utf8EncodeChar hc hmem
      have hle' : d.val.toNat ≤ 127 := hd
      omega
  · rintro rfl
    rw [utf8EncodeChar_of_ascii hd]
    exact List.mem_singleton_self _

/-! ### The end of a line -/

/-- Whether a byte ends a line. -/
def isLineEndByte (b : UInt8) : Bool := b == '\n'.val.toUInt8 || b == '\r'.val.toUInt8

/-- The number of bytes before the end of the line. -/
def lineStop (bs : List UInt8) : Nat := (bs.takeWhile (!isLineEndByte ·)).length

theorem isLineEndByte_eq {c : Char} {b : UInt8} (hb : b ∈ String.utf8EncodeChar c)
    (h : isLineEndByte b = true) : isLineEnd c = true := by
  rw [isLineEndByte, Bool.or_eq_true] at h
  rcases h with h | h
  · rw [eq_of_beq h, mem_utf8EncodeChar_iff (by decide)] at hb
    rw [hb]
    rfl
  · rw [eq_of_beq h, mem_utf8EncodeChar_iff (by decide)] at hb
    rw [hb]
    rfl

/-- The end of a line is found between two characters. -/
theorem lineStop_bytes (cs : List Char) :
    lineStop (bytes cs) = byteLength (cs.take (lineLength cs)) := by
  induction cs with
  | nil => rfl
  | cons c cs ih =>
    unfold lineStop lineLength at *
    rw [bytes_cons, List.takeWhile_cons]
    by_cases hc : isLineEnd c = true
    · have hends : String.utf8EncodeChar c = ['\n'.val.toUInt8] ∨
          String.utf8EncodeChar c = ['\r'.val.toUInt8] := by
        rw [isLineEnd, Bool.or_eq_true] at hc
        refine hc.imp (fun hfeed => ?_) fun hreturn => ?_
        · rw [eq_of_beq hfeed]
          rfl
        · rw [eq_of_beq hreturn]
          rfl
      rcases hends with hends | hends <;> rw [hends, hc] <;> rfl
    · have hkeep : ∀ b ∈ String.utf8EncodeChar c, (!isLineEndByte b) = true := by
        intro b hb
        rw [Bool.not_eq_true', Bool.eq_false_iff]
        exact fun h => hc (isLineEndByte_eq hb h)
      rw [List.takeWhile_append_of_pos hkeep, List.length_append, String.length_utf8EncodeChar, ih,
        Bool.eq_false_iff.mpr hc]
      rfl

/-! ### The end of a block comment -/

/-- The number of open comments stays below this bound. -/
def maxOpenComments : Nat := 0x80000000

/-- The number of bytes of what is left of a block comment in which `depth` openings wait for their
end. -/
def blockCommentStop : (depth : Nat) → List UInt8 → Except Fault (Option Nat)
  | 0, _ => .ok (some 0)
  | _ + 1, [] => .ok none
  | _ + 1, [_] => .ok none
  | depth + 1, a :: b :: bs =>
    if a = '/'.val.toUInt8 ∧ b = '*'.val.toUInt8 then
      if depth + 2 < maxOpenComments then
        (blockCommentStop (depth + 2) bs).map (Option.map (· + 2))
      else .error .overflow
    else if a = '*'.val.toUInt8 ∧ b = '/'.val.toUInt8 then
      (blockCommentStop depth bs).map (Option.map (· + 2))
    else (blockCommentStop (depth + 1) (b :: bs)).map (Option.map (· + 1))

/-- A byte that neither opens nor closes a comment is stepped over. -/
theorem blockCommentStop_step {depth : Nat} {a : UInt8} {bs : List UInt8}
    (hopen : ¬ (a = '/'.val.toUInt8 ∧ bs.head? = some '*'.val.toUInt8))
    (hclose : ¬ (a = '*'.val.toUInt8 ∧ bs.head? = some '/'.val.toUInt8)) :
    blockCommentStop (depth + 1) (a :: bs)
      = (blockCommentStop (depth + 1) bs).map (Option.map (· + 1)) := by
  cases bs with
  | nil => rfl
  | cons b bs =>
    rw [blockCommentStop, if_neg fun h => hopen ⟨h.1, congrArg some h.2⟩,
      if_neg fun h => hclose ⟨h.1, congrArg some h.2⟩]

theorem map_map_add {m n : Nat} (x : Except Fault (Option Nat)) :
    (x.map (Option.map (· + m))).map (Option.map (· + n)) = x.map (Option.map (· + (m + n))) := by
  rcases x with f | (_ | k)
  · rfl
  · rfl
  · exact congrArg (fun k => Except.ok (some k)) (Nat.add_assoc k m n)

/-- A character of several bytes is stepped over byte by byte. -/
theorem blockCommentStop_append {depth : Nat} {as bs : List UInt8}
    (has : ∀ a ∈ as, 128 ≤ a.toNat) :
    blockCommentStop (depth + 1) (as ++ bs)
      = (blockCommentStop (depth + 1) bs).map (Option.map (· + as.length)) := by
  induction as with
  | nil =>
    rw [List.nil_append]
    rcases blockCommentStop (depth + 1) bs with f | (_ | k) <;> rfl
  | cons a as ih =>
    have ha : 128 ≤ a.toNat := has a List.mem_cons_self
    have hslash : a ≠ '/'.val.toUInt8 := by
      rintro rfl
      exact absurd ha (by decide)
    have hstar : a ≠ '*'.val.toUInt8 := by
      rintro rfl
      exact absurd ha (by decide)
    rw [List.cons_append, blockCommentStop_step (fun h => hslash h.1) fun h => hstar h.1,
      ih fun b hb => has b (List.mem_cons_of_mem a hb), map_map_add]
    rfl

/-- The first byte tells whether the first character is a given one below 128. -/
theorem head?_bytes_iff {d : Char} (hd : d.val ≤ 127) (cs : List Char) :
    (bytes cs).head? = some d.val.toUInt8 ↔ cs.head? = some d := by
  cases cs with
  | nil => simp [bytes]
  | cons c cs =>
    have hne : String.utf8EncodeChar c ≠ [] := by
      intro hnil
      have hlength := String.length_utf8EncodeChar c
      rw [hnil] at hlength
      exact absurd hlength (Nat.ne_of_lt c.utf8Size_pos)
    rw [bytes_cons, List.head?_append_of_ne_nil _ hne, List.head?_cons, Option.some.injEq]
    constructor
    · intro hhead
      exact (mem_utf8EncodeChar_iff hd).mp (List.mem_of_mem_head? hhead)
    · rintro rfl
      rw [utf8EncodeChar_of_ascii hd]
      rfl

/-- A character that neither opens nor closes a comment is stepped over. -/
theorem blockCommentStop_char {depth : Nat} {c : Char} {cs : List Char}
    (hopen : ¬ (c = '/' ∧ cs.head? = some '*')) (hclose : ¬ (c = '*' ∧ cs.head? = some '/')) :
    blockCommentStop (depth + 1) (bytes (c :: cs))
      = (blockCommentStop (depth + 1) (bytes cs)).map (Option.map (· + c.utf8Size)) := by
  rw [bytes_cons]
  by_cases hc : c.val ≤ 127
  · have hchar : ∀ d : Char, d.val ≤ 127 → c.val.toUInt8 = d.val.toUInt8 → c = d := by
      intro d hd heq
      rw [← mem_utf8EncodeChar_iff hd, utf8EncodeChar_of_ascii hc, heq]
      exact List.mem_singleton_self _
    rw [utf8EncodeChar_of_ascii hc, List.singleton_append, Char.utf8Size_eq_one_iff.mpr hc]
    refine blockCommentStop_step (fun h => hopen ?_) fun h => hclose ?_
    · exact ⟨hchar '/' (by decide) h.1, (head?_bytes_iff (by decide) cs).mp h.2⟩
    · exact ⟨hchar '*' (by decide) h.1, (head?_bytes_iff (by decide) cs).mp h.2⟩
  · rw [blockCommentStop_append fun b hb => le_of_mem_utf8EncodeChar hc hb,
      String.length_utf8EncodeChar]

/-- What is stepped over is counted in characters on one side and in bytes on the other. -/
theorem map_stepped {cs rest : List Char} {chars size : Nat} (o : Option Nat)
    (h : ∀ n, byteLength (cs.take (n + chars)) = byteLength (rest.take n) + size) :
    (Except.ok (ε := Fault) (o.map fun n => byteLength (rest.take n))).map (Option.map (· + size))
      = .ok ((o.map (· + chars)).map fun n => byteLength (cs.take n)) := by
  cases o with
  | none => rfl
  | some n => exact congrArg (fun k => Except.ok (some k)) (h n).symm

/-- The end of a block comment is found between two characters, and the counter of open comments
does not overflow on the way: two bytes less are left for each that is open. -/
theorem blockCommentStop_bytes (depth : Nat) (cs : List Char)
    (hlength : 2 * depth + byteLength cs < Offset.limit) :
    blockCommentStop depth (bytes cs)
      = .ok ((blockCommentLength depth cs).map fun n => byteLength (cs.take n)) := by
  have hmark : ∀ (c d : Char) (cs : List Char), c.utf8Size = 1 → d.utf8Size = 1 →
      byteLength (c :: d :: cs) = byteLength cs + 2 := by
    intro c d cs hc hd
    rw [byteLength, byteLength, hc, hd]
    omega
  induction depth, cs using blockCommentLength.induct with
  | case1 cs =>
    unfold blockCommentStop blockCommentLength
    rfl
  | case2 depth cs ih =>
    have hsize := hmark '/' '*' cs rfl rfl
    -- each comment that is open has cost two bytes, so there is room for one more
    have hopen : depth + 2 < maxOpenComments := by
      unfold maxOpenComments
      unfold Offset.limit at hlength
      omega
    have hbytes : bytes ('/' :: '*' :: cs) = '/'.val.toUInt8 :: '*'.val.toUInt8 :: bytes cs := rfl
    rw [hbytes, blockCommentStop, if_pos ⟨rfl, rfl⟩, if_pos hopen, ih (by omega), blockCommentLength]
    exact map_stepped _ fun n => hmark '/' '*' (cs.take n) rfl rfl
  | case3 depth cs ih =>
    have hsize := hmark '*' '/' cs rfl rfl
    have hbytes : bytes ('*' :: '/' :: cs) = '*'.val.toUInt8 :: '/'.val.toUInt8 :: bytes cs := rfl
    have hother : ¬ ('*'.val.toUInt8 = '/'.val.toUInt8 ∧ '/'.val.toUInt8 = '*'.val.toUInt8) := by
      decide
    rw [hbytes, blockCommentStop, if_neg hother, if_pos ⟨rfl, rfl⟩, ih (by omega),
      blockCommentLength]
    exact map_stepped _ fun n => hmark '*' '/' (cs.take n) rfl rfl
  | case4 depth c cs hopen hclose ih =>
    have hsize : byteLength (c :: cs) = c.utf8Size + byteLength cs := rfl
    have hopen' : ¬ (c = '/' ∧ cs.head? = some '*') := by
      rintro ⟨rfl, hhead⟩
      obtain ⟨rest, rfl⟩ := List.head?_eq_some_iff.mp hhead
      exact hopen rest rfl rfl
    have hclose' : ¬ (c = '*' ∧ cs.head? = some '/') := by
      rintro ⟨rfl, hhead⟩
      obtain ⟨rest, rfl⟩ := List.head?_eq_some_iff.mp hhead
      exact hclose rest rfl rfl
    rw [blockCommentStop_char hopen' hclose', ih (by omega), blockCommentLength.eq_4]
    · exact map_stepped _ fun n => Nat.add_comm _ _
    · exact hopen
    · exact hclose
  | case5 depth => rfl

end Lexer

end SwiftTidy
