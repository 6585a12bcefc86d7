import Highlight.Json.Reader
import Highlight.Text.Grapheme

/-! Texts as UTF-16 units. A character beyond the first 65536 takes two of them, the halves of a
pair. A text can be cut at a position counted in units by taking the units before it and reading
them back; that gives part of the text as long as no pair is torn. -/

namespace Highlight.Json

theorem not_surrogate (c : Char) : isHighSurrogate c.toNat = false ∧ isLowSurrogate c.toNat = false := by
  have valid : c.toNat < 0xd800 ∨ 0xdfff < c.toNat ∧ c.toNat < 0x110000 := c.valid
  simp only [isHighSurrogate, isLowSurrogate, Bool.and_eq_false_iff, decide_eq_false_iff_not]
  omega

theorem isHighSurrogate_high (index : Fin 0x400) : isHighSurrogate (0xd800 + index.val) = true := by
  simp only [isHighSurrogate, Bool.and_eq_true, decide_eq_true_eq]
  omega

theorem isHighSurrogate_low (index : Fin 0x400) : isHighSurrogate (0xdc00 + index.val) = false := by
  simp only [isHighSurrogate, Bool.and_eq_false_iff, decide_eq_false_iff_not]
  omega

theorem isLowSurrogate_high (index : Fin 0x400) : isLowSurrogate (0xd800 + index.val) = false := by
  simp only [isLowSurrogate, Bool.and_eq_false_iff, decide_eq_false_iff_not]
  omega

theorem isLowSurrogate_low (index : Fin 0x400) : isLowSurrogate (0xdc00 + index.val) = true := by
  simp only [isLowSurrogate, Bool.and_eq_true, decide_eq_true_eq]
  omega

/-- A character that takes two units takes the halves of a pair. -/
theorem surrogates_of_large {c : Char} (large : 0x10000 ≤ c.toNat) :
    isHighSurrogate (0xd800 + (c.toNat - 0x10000) / 0x400) = true ∧
      isLowSurrogate (0xdc00 + (c.toNat - 0x10000) % 0x400) = true := by
  have valid : c.toNat < 0xd800 ∨ 0xdfff < c.toNat ∧ c.toNat < 0x110000 := c.valid
  simp only [isHighSurrogate, isLowSurrogate, Bool.and_eq_true, decide_eq_true_eq]
  omega

end Highlight.Json

namespace Highlight.Text

open Json (isHighSurrogate isLowSurrogate not_surrogate surrogates_of_large)

def encodeChar (c : Char) : List Nat :=
  if c.toNat < 0x10000 then [c.toNat] else [0xd800 + (c.toNat - 0x10000) / 0x400, 0xdc00 + (c.toNat - 0x10000) % 0x400]

def encode (text : List Char) : List Nat := text.flatMap encodeChar

/-- The code points that units stand for. Half of a pair that stands alone is passed on. -/
def decode : List Nat → List Nat
  | high :: low :: rest =>
    if isHighSurrogate high && isLowSurrogate low then
      (0x10000 + (high - 0xd800) * 0x400 + (low - 0xdc00)) :: decode rest
    else high :: decode (low :: rest)
  | units => units

def insidePair (units : List Nat) (position : Nat) : Bool :=
  (units.take position).getLast?.any isHighSurrogate && (units.drop position).head?.any isLowSurrogate

/-- What lies between the positions that advance, read back from the units of a text. -/
def sliceFrom (units : List Nat) (start : Nat) : List Nat → List (List Nat)
  | [] => if start < units.length then [decode (units.drop start)] else []
  | position :: others =>
    if start < position then decode ((units.take position).drop start) :: sliceFrom units position others
    else sliceFrom units start others

def sliceAt (positions : List Nat) (text : List Char) : List (List Nat) :=
  if text.isEmpty then [] else sliceFrom (encode text) 0 positions

theorem encodeChar_small {c : Char} (small : c.toNat < 0x10000) : encodeChar c = [c.toNat] := if_pos small

theorem encodeChar_large {c : Char} (large : 0x10000 ≤ c.toNat) :
    encodeChar c = [0xd800 + (c.toNat - 0x10000) / 0x400, 0xdc00 + (c.toNat - 0x10000) % 0x400] :=
  if_neg (Nat.not_lt.mpr large)

theorem length_encodeChar (c : Char) : (encodeChar c).length = units c := by
  unfold encodeChar units
  split <;> rfl

theorem units_pos (c : Char) : 0 < units c := by
  unfold units
  split <;> decide

theorem encode_cons (c : Char) (rest : List Char) : encode (c :: rest) = encodeChar c ++ encode rest := rfl

theorem encode_append (first last : List Char) : encode (first ++ last) = encode first ++ encode last :=
  List.flatMap_append

theorem length_encode_cons (c : Char) (rest : List Char) : (encode (c :: rest)).length = units c + (encode rest).length := by
  rw [encode_cons, List.length_append, length_encodeChar]

theorem length_encode_append (first last : List Char) :
    (encode (first ++ last)).length = (encode first).length + (encode last).length := by
  rw [encode_append, List.length_append]

theorem length_encode_pos {text : List Char} (filled : text ≠ []) : 0 < (encode text).length := by
  obtain ⟨c, rest, rfl⟩ := List.exists_cons_of_ne_nil filled
  rw [length_encode_cons]
  exact Nat.lt_of_lt_of_le (units_pos c) (Nat.le_add_right ..)

/-- No character reads what stands behind it as its second half. -/
theorem decode_encodeChar (c : Char) (rest : List Nat) : decode (encodeChar c ++ rest) = c.toNat :: decode rest := by
  rcases Nat.lt_or_ge c.toNat 0x10000 with small | large
  · rw [encodeChar_small small]
    cases rest with
    | nil => rfl
    | cons low rest => simp [decode, (not_surrogate c).1]
  · obtain ⟨high, low⟩ := surrogates_of_large large
    have code : 0x10000 + (0xd800 + (c.toNat - 0x10000) / 0x400 - 0xd800) * 0x400 +
        (0xdc00 + (c.toNat - 0x10000) % 0x400 - 0xdc00) = c.toNat := by omega
    rw [encodeChar_large large, List.cons_append, List.cons_append, List.nil_append, decode, high, low, code]
    rfl

theorem decode_encode (text : List Char) : decode (encode text) = text.map Char.toNat := by
  induction text with
  | nil => rfl
  | cons c rest ih => rw [encode_cons, decode_encodeChar, ih, List.map_cons]

theorem splitUnits_encode (before after : List Char) :
    splitUnits (encode before).length (before ++ after) = (before, after) := by
  induction before with
  | nil => rw [encode, List.flatMap_nil, List.length_nil, splitUnits, List.nil_append]
  | cons c rest ih =>
    obtain ⟨count, more⟩ := Nat.exists_eq_add_of_le' (Nat.le_trans (units_pos c) (Nat.le_add_right (units c) (encode rest).length))
    have left : count + 1 - units c = (encode rest).length := by omega
    rw [length_encode_cons, more, List.cons_append, splitUnits, left, ih]

end Highlight.Text
