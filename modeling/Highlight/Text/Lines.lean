import Highlight.Text.Letter

/-! A text is a list of letters. Its lines are the pieces between line feeds, so a text
always has at least one line and its lines joined by line feeds are the text again. -/

namespace Highlight.Text

section
variable {γ : Type} [Letter γ]

def lines : List γ → List (List γ)
  | [] => [[]]
  | c :: rest =>
    if Letter.seen c = '\n' then [] :: lines rest
    else match lines rest with
      | first :: others => (c :: first) :: others
      | [] => [[c]]

def unlines : List (List γ) → List γ
  | [] => []
  | [line] => line
  | line :: next :: others => line ++ Letter.of '\n' :: unlines (next :: others)

theorem seen_newline_iff {c : γ} : Letter.seen c = '\n' ↔ c = Letter.of '\n' := Letter.seen_eq_iff (by decide)

theorem lines_break (rest : List γ) : lines (Letter.of '\n' :: rest) = [] :: lines rest := by
  rw [lines, if_pos (Letter.seen_of '\n')]

theorem lines_ne_nil (text : List γ) : lines text ≠ [] := by
  cases text with
  | nil => simp [lines]
  | cons c rest =>
    unfold lines
    split
    · simp
    · split <;> simp

theorem lines_append {piece : List γ} (oneLine : Letter.of '\n' ∉ piece) (rest : List γ) :
    lines (piece ++ rest) = (lines rest).modifyHead (piece ++ ·) := by
  obtain ⟨first, others, shape⟩ := List.exists_cons_of_ne_nil (lines_ne_nil rest)
  rw [shape, List.modifyHead_cons]
  induction piece with
  | nil => exact shape
  | cons c piece ih =>
    have other : ¬ Letter.seen c = '\n' := mt seen_newline_iff.mp (List.ne_of_not_mem_cons oneLine).symm
    rw [List.cons_append, lines, if_neg other, ih (List.not_mem_of_not_mem_cons oneLine)]
    rfl

theorem lines_of_not_mem {line : List γ} (oneLine : Letter.of '\n' ∉ line) : lines line = [line] := by
  have whole := lines_append oneLine []
  rwa [List.append_nil, lines, List.modifyHead_cons, List.append_nil] at whole

theorem lines_append_break {line : List γ} (oneLine : Letter.of '\n' ∉ line) (text : List γ) :
    lines (line ++ Letter.of '\n' :: text) = line :: lines text := by
  rw [lines_append oneLine, lines_break, List.modifyHead_cons, List.append_nil]

theorem unlines_lines (text : List γ) : unlines (lines text) = text := by
  induction text with
  | nil => rfl
  | cons c rest ih =>
    have present := lines_ne_nil rest
    unfold lines
    split
    next feed =>
      cases shape : lines rest with
      | nil => exact absurd shape present
      | cons first others => rw [shape] at ih; simp [unlines, ih, seen_newline_iff.mp feed]
    next =>
      split
      next first others shape =>
        rw [shape] at ih
        cases others with
        | nil => simpa [unlines] using ih
        | cons next more => simpa [unlines] using ih
      next shape => exact absurd shape present

theorem lines_inj {first second : List γ} : lines first = lines second ↔ first = second :=
  ⟨fun same => by rw [← unlines_lines first, same, unlines_lines], congrArg lines⟩

/-- Lines that are joined come apart again. -/
theorem lines_unlines {line : List γ} {others : List (List γ)} (oneLine : ∀ each ∈ line :: others, Letter.of '\n' ∉ each) :
    lines (unlines (line :: others)) = line :: others := by
  obtain ⟨here, rest⟩ := List.forall_mem_cons.mp oneLine
  induction others generalizing line with
  | nil => exact lines_of_not_mem here
  | cons next more ih =>
    obtain ⟨first, behind⟩ := List.forall_mem_cons.mp rest
    rw [unlines, lines_append_break here, ih rest first behind]

theorem newline_not_mem_lines {text line : List γ} (member : line ∈ lines text) : Letter.of '\n' ∉ line := by
  induction text generalizing line with
  | nil => simp_all [lines]
  | cons c rest ih =>
    unfold lines at member
    split at member
    · rcases List.mem_cons.mp member with rfl | inside
      · simp
      · exact ih inside
    next other =>
      have apart : Letter.of '\n' ≠ c := Ne.symm (mt seen_newline_iff.mpr other)
      split at member
      next first others shape =>
        rw [shape] at ih
        rcases List.mem_cons.mp member with rfl | inside
        · simpa [apart] using ih (List.mem_cons_self ..)
        · exact ih (List.mem_cons_of_mem _ inside)
      · simp only [List.mem_singleton] at member
        subst member
        simpa using apart

end

theorem lines_newline (rest : List Char) : lines ('\n' :: rest) = [] :: lines rest := lines_break rest

theorem lines_append_newline {line : List Char} (oneLine : '\n' ∉ line) (text : List Char) :
    lines (line ++ '\n' :: text) = line :: lines text := lines_append_break oneLine text

end Highlight.Text
