import Highlight.Text.Blank
import Highlight.Text.Letter

/-! Graphemes: what a reader takes for one character, such as a letter with its accents, a
flag, or a joined emoji. Whether two neighbouring characters belong together depends on the
two and, for the letters of flags, on how many of these stand in a row before. -/

namespace Highlight.Text

def isControl (c : Char) : Bool :=
  let n := c.toNat
  n ≤ 0x1f || (0x7f ≤ n && n ≤ 0x9f) || n == 0x200b || n == 0x2028 || n == 0x2029 || n == 0xfeff

def isExtender (c : Char) : Bool :=
  let n := c.toNat
  (0x300 ≤ n && n ≤ 0x36f) || n == 0x200d || n == 0xfe0f || (0x1f3fb ≤ n && n ≤ 0x1f3ff)

def isRegional (c : Char) : Bool := 0x1f1e6 ≤ c.toNat && c.toNat ≤ 0x1f1ff

def isPictograph (c : Char) : Bool :=
  let n := c.toNat
  ((0x1f300 ≤ n && n ≤ 0x1faff) || (0x2600 ≤ n && n ≤ 0x27bf)) && !isExtender c

def isJoiner (c : Char) : Bool := c.toNat == 0x200d

/-- Whether a grapheme ends between two neighbours. `odd` tells whether the row of regional
letters that ends in `left` has odd length. -/
def isBoundary (odd : Bool) (left right : Char) : Bool :=
  if left == '\r' && right == '\n' then false
  else if isControl left || isControl right then true
  else if isExtender right then false
  else if isRegional right && odd then false
  else if isJoiner left && isPictograph right then false
  else true

def oddRow (odd : Bool) (c : Char) : Bool := isRegional c && !odd

section
variable {γ : Type} [Letter γ]

/-- What belongs to the grapheme of `left` in the text after it, and the graphemes that
follow. -/
def continueGrapheme (odd : Bool) (left : γ) : List γ → List γ × List (List γ)
  | [] => ([], [])
  | c :: rest =>
    let (taken, others) := continueGrapheme (oddRow odd (Letter.seen c)) c rest
    if isBoundary odd (Letter.seen left) (Letter.seen c) then ([], (c :: taken) :: others) else (c :: taken, others)

def graphemes : List γ → List (List γ)
  | [] => []
  | c :: rest =>
    let (taken, others) := continueGrapheme (oddRow false (Letter.seen c)) c rest
    (c :: taken) :: others

def hasBlank (text : List γ) : Bool := text.any fun c => isBlank (Letter.seen c)

theorem continueGrapheme_cons (odd : Bool) (left c : γ) (rest : List γ) :
    continueGrapheme odd left (c :: rest) =
      if isBoundary odd (Letter.seen left) (Letter.seen c) then
        ([], (c :: (continueGrapheme (oddRow odd (Letter.seen c)) c rest).1) ::
          (continueGrapheme (oddRow odd (Letter.seen c)) c rest).2)
      else
        (c :: (continueGrapheme (oddRow odd (Letter.seen c)) c rest).1,
          (continueGrapheme (oddRow odd (Letter.seen c)) c rest).2) := rfl

theorem graphemes_cons (c : γ) (rest : List γ) :
    graphemes (c :: rest) =
      (c :: (continueGrapheme (oddRow false (Letter.seen c)) c rest).1) ::
        (continueGrapheme (oddRow false (Letter.seen c)) c rest).2 := rfl

theorem continueGrapheme_text (odd : Bool) (left : γ) (text : List γ) :
    (continueGrapheme odd left text).1 ++ (continueGrapheme odd left text).2.flatten = text := by
  induction text generalizing odd left with
  | nil => rfl
  | cons c rest ih =>
    have same := ih (oddRow odd (Letter.seen c)) c
    unfold continueGrapheme
    dsimp only
    split <;> simp [same]

theorem flatten_graphemes (text : List γ) : (graphemes text).flatten = text := by
  cases text with
  | nil => rfl
  | cons c rest => simp [graphemes, continueGrapheme_text]

end

def units (c : Char) : Nat := if c.toNat < 0x10000 then 1 else 2

def splitUnits : Nat → List Char → List Char × List Char
  | 0, text => ([], text)
  | _, [] => ([], [])
  | count + 1, c :: rest =>
    let (taken, others) := splitUnits (count + 1 - units c) rest
    (c :: taken, others)

/-- Cuts a text that begins at `start` at each position, counted in UTF-16 units, that lies
beyond all positions before it. What remains after the last one is the last piece. -/
def cutFrom (start : Nat) (positions : List Nat) (text : List Char) : List (List Char) :=
  match positions with
  | [] => if text.isEmpty then [] else [text]
  | position :: others =>
    if start < position then
      let (piece, rest) := splitUnits (position - start) text
      piece :: cutFrom position others rest
    else cutFrom start others text

def cutAt (positions : List Nat) (text : List Char) : List (List Char) :=
  if text.isEmpty then [] else cutFrom 0 positions text

end Highlight.Text
