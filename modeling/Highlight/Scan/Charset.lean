/-! The character classes of the line scanners. Letters and digits are the ASCII ones, and
blanks are the spaces that can stand inside a line. -/

namespace Highlight.Scan

/-- The spaces a scanner skips. A line feed is not among them: it never occurs in a line. -/
def isSpace (c : Char) : Bool :=
  let n := c.toNat
  n == 0x20 || n == 0x9 || n == 0xd || n == 0xb || n == 0xc || n == 0xa0 || n == 0x1680 ||
  (0x2000 ≤ n && n ≤ 0x200a) || n == 0x2028 || n == 0x2029 || n == 0x202f || n == 0x205f || n == 0x3000

def isNameStart (c : Char) : Bool := c.isAlpha || c == '_' || c == '$'

def isNamePart (c : Char) : Bool := c.isAlphanum || c == '_' || c == '$'

def isHexDigit (c : Char) : Bool := c.isDigit || ('a' ≤ c && c ≤ 'f') || ('A' ≤ c && c ≤ 'F')

theorem isHexDigit_iff {c : Char} : isHexDigit c = true ↔ c ∈ "0123456789abcdefABCDEF".toList := by
  constructor
  · intro hex
    have ascii : c.toNat < 128 := by
      simp only [isHexDigit, Char.isDigit, Bool.or_eq_true, Bool.and_eq_true, decide_eq_true_eq, Char.le_def, ge_iff_le,
        UInt32.le_iff_toNat_le] at hex
      rcases hex with (⟨-, high⟩ | ⟨-, high⟩) | ⟨-, high⟩ <;> exact Nat.lt_of_le_of_lt high (by decide)
    have each : ∀ n < 128, isHexDigit (Char.ofNat n) = true → Char.ofNat n ∈ "0123456789abcdefABCDEF".toList := by decide
    rw [← Char.ofNat_toNat c] at hex ⊢
    exact each _ ascii hex
  · have each : ∀ c ∈ "0123456789abcdefABCDEF".toList, isHexDigit c = true := List.all_eq_true.mp rfl
    exact each c

def isBinaryDigit (c : Char) : Bool := c == '0' || c == '1'

def isOctalDigit (c : Char) : Bool := '0' ≤ c && c ≤ '7'

end Highlight.Scan
