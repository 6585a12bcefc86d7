/-! Blank characters: the whitespace of Unicode together with the four information
separators. Words, trimming and blank lines are all told apart by this one class. The
line scanners skip a smaller class of their own. -/

namespace Highlight.Text

def isBlank (c : Char) : Bool :=
  let n := c.toNat
  (0x9 ≤ n && n ≤ 0xd) || (0x1c ≤ n && n ≤ 0x20) || n == 0x85 || n == 0xa0 || n == 0x1680 ||
  (0x2000 ≤ n && n ≤ 0x200a) || n == 0x2028 || n == 0x2029 || n == 0x202f || n == 0x205f || n == 0x3000

def words : List Char → List (List Char)
  | [] => []
  | c :: rest =>
    if isBlank c then words rest
    else (c :: rest.takeWhile fun d => !isBlank d) :: words (rest.dropWhile fun d => !isBlank d)
termination_by text => text.length
decreasing_by
  · simp
  · have : (rest.dropWhile fun d => !isBlank d).length ≤ rest.length := (List.dropWhile_suffix _).length_le
    simp only [List.length_cons]; omega

def trim (text : List Char) : List Char :=
  ((text.dropWhile isBlank).reverse.dropWhile isBlank).reverse

end Highlight.Text
