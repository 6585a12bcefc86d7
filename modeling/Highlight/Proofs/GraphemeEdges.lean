import Highlight.Piece.Clusters

/-! Where a text may be cut without tearing a grapheme. What a grapheme takes depends only on the
text before its end, and a grapheme that begins anew knows nothing of the text before it. So
a text that is cut at such a place has the graphemes of its two parts. -/

namespace Highlight.Text

/-- One grapheme of a text ends at the place, or the text begins or ends there. -/
def IsEdge (text : List Char) (place : Nat) : Prop :=
  ∃ before after, graphemes text = before ++ after ∧ before.flatten.length = place

/-- Every piece is made of whole graphemes of the text, and together they are all of these. -/
def KeepsGraphemes (text : List Char) (pieces : List (List Char)) : Prop :=
  ∃ groups : List (List (List Char)), groups.flatten = graphemes text ∧ groups.map List.flatten = pieces

/-- Graphemes are found from left to right: the first ones do not depend on what follows. -/
theorem continueGrapheme_front {odd : Bool} {left : Char} {text taken : List Char} {front back : List (List Char)}
    (found : continueGrapheme odd left text = (taken, front ++ back)) :
    continueGrapheme odd left (taken ++ front.flatten) = (taken, front) := by
  induction text generalizing odd left taken front with
  | nil =>
    obtain ⟨rfl, none⟩ := Prod.mk.inj found
    obtain ⟨rfl, -⟩ := List.append_eq_nil_iff.mp none.symm
    rfl
  | cons c rest ih =>
    rw [continueGrapheme_cons] at found
    split at found
    next boundary =>
      obtain ⟨rfl, others⟩ := Prod.mk.inj found
      cases front with
      | nil => rfl
      | cons first front =>
        obtain ⟨rfl, later⟩ := List.cons.inj others
        have same := ih (Prod.ext rfl later)
        rw [List.nil_append, List.flatten_cons, List.cons_append, continueGrapheme_cons, if_pos boundary, same]
    next joined =>
      obtain ⟨rfl, later⟩ := Prod.mk.inj found
      have same := ih (Prod.ext rfl later)
      rw [List.cons_append, continueGrapheme_cons, if_neg joined, same]

private theorem isRegional_iff {c : Char} : isRegional c = true ↔ 0x1f1e6 ≤ c.toNat ∧ c.toNat ≤ 0x1f1ff := by
  simp [isRegional]

private theorem isControl_of_isRegional {c : Char} (regional : isRegional c = true) : isControl c = false := by
  obtain ⟨above, below⟩ := isRegional_iff.mp regional
  simp only [isControl, Bool.or_eq_false_iff, Bool.and_eq_false_iff, decide_eq_false_iff_not, beq_eq_false_iff_ne]
  omega

private theorem isExtender_of_isRegional {c : Char} (regional : isRegional c = true) : isExtender c = false := by
  obtain ⟨above, below⟩ := isRegional_iff.mp regional
  simp only [isExtender, Bool.or_eq_false_iff, Bool.and_eq_false_iff, decide_eq_false_iff_not, beq_eq_false_iff_ne]
  omega

/-- A flag is not torn: behind an odd row of its letters, one more letter joins the grapheme. -/
theorem isBoundary_regional {left c : Char} (before : isRegional left = true) (letter : isRegional c = true) :
    isBoundary true left c = false := by
  have notReturn : (left == '\r' && c == '\n') = false := by
    rw [Bool.and_eq_false_iff]
    refine Or.inl (beq_eq_false_iff_ne.mpr ?_)
    rintro rfl
    exact absurd before (by decide)
  simp only [isBoundary, notReturn, isControl_of_isRegional before, isControl_of_isRegional letter,
    isExtender_of_isRegional letter, letter]
  rfl

/-- At a boundary the row of regional letters begins anew. -/
theorem oddRow_of_isBoundary {odd : Bool} {left c : Char} (row : odd = true → isRegional left = true)
    (boundary : isBoundary odd left c = true) : oddRow odd c = oddRow false c := by
  cases odd with
  | false => rfl
  | true =>
    cases letter : isRegional c with
    | false => simp only [oddRow, letter, Bool.false_and]
    | true => exact absurd boundary (Bool.eq_false_iff.mp (isBoundary_regional (row rfl) letter))

private theorem continueGrapheme_back {odd : Bool} {left : Char} {text taken : List Char} {front back : List (List Char)}
    (row : odd = true → isRegional left = true) (found : continueGrapheme odd left text = (taken, front ++ back)) :
    graphemes back.flatten = back := by
  induction text generalizing odd left taken front with
  | nil =>
    obtain ⟨-, none⟩ := Prod.mk.inj found
    obtain ⟨-, rfl⟩ := List.append_eq_nil_iff.mp none.symm
    rfl
  | cons c rest ih =>
    have letter : oddRow odd c = true → isRegional c = true := fun both => (Bool.and_eq_true_iff.mp both).1
    rw [continueGrapheme_cons] at found
    split at found
    next boundary =>
      obtain ⟨-, others⟩ := Prod.mk.inj found
      cases front with
      | nil =>
        have anew : oddRow odd (Letter.seen c) = oddRow false (Letter.seen c) := oddRow_of_isBoundary row boundary
        have whole := continueGrapheme_text (oddRow odd (Letter.seen c)) c rest
        rw [List.nil_append] at others
        rw [← others, List.flatten_cons, List.cons_append, whole, graphemes_cons, anew]
      | cons first front => exact ih letter (Prod.ext rfl (List.cons.inj others).2)
    next joined => exact ih letter (Prod.ext rfl (Prod.mk.inj found).2)

section
variable {text : List Char} {front back : List (List Char)}

private theorem graphemes_front (found : graphemes text = front ++ back) : graphemes front.flatten = front := by
  cases front with
  | nil => rfl
  | cons first front =>
    cases text with
    | nil => cases found
    | cons c rest =>
      rw [graphemes_cons] at found
      obtain ⟨rfl, later⟩ := List.cons.inj found
      have same := continueGrapheme_front (Prod.ext rfl later)
      rw [List.flatten_cons, List.cons_append, graphemes_cons, same]

private theorem graphemes_back (found : graphemes text = front ++ back) : graphemes back.flatten = back := by
  cases front with
  | nil =>
    rw [List.nil_append] at found
    rw [← found, flatten_graphemes]
  | cons first front =>
    cases text with
    | nil => cases found
    | cons c rest =>
      rw [graphemes_cons] at found
      have letter : oddRow false c = true → isRegional c = true := fun both => (Bool.and_eq_true_iff.mp both).1
      exact continueGrapheme_back letter (Prod.ext rfl (List.cons.inj found).2)

theorem isEdge_zero (text : List Char) : IsEdge text 0 := ⟨[], graphemes text, rfl, rfl⟩

theorem graphemes_append {first last : List Char} (edge : IsEdge (first ++ last) first.length) :
    graphemes (first ++ last) = graphemes first ++ graphemes last := by
  obtain ⟨before, after, found, place⟩ := edge
  have whole : before.flatten ++ after.flatten = first ++ last := by
    rw [← List.flatten_append, ← found, flatten_graphemes]
  obtain ⟨same, rest⟩ := List.append_inj whole place
  have front := graphemes_front found
  have back := graphemes_back found
  rw [same] at front
  rw [rest] at back
  rw [found, front, back]

theorem IsEdge.behind {first last : List Char} {place : Nat} (cut : IsEdge (first ++ last) first.length)
    (edge : IsEdge (first ++ last) (first.length + place)) : IsEdge last place := by
  obtain ⟨before, after, found, length⟩ := edge
  rw [graphemes_append cut] at found
  rcases List.append_eq_append_iff.mp found with ⟨more, rfl, rest⟩ | ⟨more, front, rfl⟩
  · refine ⟨more, after, rest, ?_⟩
    rw [List.flatten_append, List.length_append, flatten_graphemes] at length
    exact Nat.add_left_cancel length
  · -- nothing lies between the two edges
    have short : before.flatten.length ≤ first.length := by
      rw [← flatten_graphemes first, front, List.flatten_append, List.length_append]
      exact Nat.le_add_right ..
    obtain rfl : place = 0 := by omega
    exact isEdge_zero last

end

theorem KeepsGraphemes.edge {text : List Char} {first last : List (List Char)} (keeps : KeepsGraphemes text (first ++ last)) :
    IsEdge text first.flatten.length := by
  obtain ⟨groups, whole, texts⟩ := keeps
  obtain ⟨front, back, rfl, rfl, rfl⟩ := List.map_eq_append_iff.mp texts
  refine ⟨front.flatten, back.flatten, ?_, ?_⟩
  · rw [← whole, List.flatten_append]
  · rw [List.flatten_flatten]

end Highlight.Text
