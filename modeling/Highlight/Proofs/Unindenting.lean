import Highlight.Block.Basic
import Mathlib.Data.List.Basic
import Mathlib.Data.List.TakeWhile

/-! Undoing an indentation that has been undone before. One pass takes one blank line away from the
front of a text. What it leaves begins with a blank line again if the text began with two of them
and goes on behind them, and only then does another pass find anything to do. -/

namespace Highlight

namespace Text

def opensBlank (text : List Char) : Bool := (lines text).head?.any isBlankLine

/-- Whether a text has two blank lines at its front and another line behind them. -/
def opensBlankTwice (text : List Char) : Bool :=
  match lines text with
  | first :: second :: _ :: _ => isBlankLine first && isBlankLine second
  | _ => false

theorem removeIndent_suffix (indent line : List Char) : removeIndent indent line <:+ line := by
  unfold removeIndent
  split
  · exact List.drop_suffix _ _
  · exact List.suffix_refl _

private theorem removeIndent_indentOf (line : List Char) : removeIndent (indentOf line) line = line.dropWhile isBlank := by
  have front : (indentOf line).isPrefixOf line = true := List.isPrefixOf_iff_prefix.mpr (List.takeWhile_prefix _)
  have whole : line = indentOf line ++ line.dropWhile isBlank := List.takeWhile_append_dropWhile.symm
  rw [removeIndent, if_pos front]
  exact (congrArg (List.drop (indentOf line).length) whole).trans List.drop_left

private theorem isBlankLine_dropWhile (line : List Char) : isBlankLine (line.dropWhile isBlank) = isBlankLine line := by
  induction line with
  | nil => rfl
  | cons c rest ih =>
    cases blank : isBlank c with
    | true => rw [List.dropWhile_cons_of_pos blank, ih, isBlankLine, isBlankLine, List.all_cons, Letter.seen_char, blank, Bool.true_and]
    | false => rw [List.dropWhile_cons_of_neg (Bool.eq_false_iff.mp blank)]

private theorem unlines_map_sublist {f : List Char → List Char} (shrinks : ∀ line, (f line).Sublist line)
    (lines : List (List Char)) :
    (unlines (lines.map f)).Sublist (unlines lines) := by
  induction lines with
  | nil => exact List.Sublist.refl _
  | cons line others ih =>
    cases others with
    | nil => exact shrinks line
    | cons next more => exact (shrinks line).append (ih.cons_cons '\n')

section
variable {text first second : List Char} {others : List (List Char)}

theorem opensBlank_eq (shape : lines text = first :: others) : opensBlank text = isBlankLine first := by
  rw [opensBlank, shape]
  rfl

theorem unindent_of_solid (solid : opensBlank text = false) : unindent text = text := by
  obtain ⟨first, others, shape⟩ := List.exists_cons_of_ne_nil (lines_ne_nil text)
  rw [opensBlank_eq shape] at solid
  simp only [unindent, shape, solid, Bool.not_false, if_true]

theorem unindent_of_line (shape : lines text = [first]) (blank : isBlankLine first = true) : unindent text = [] := by
  simp only [unindent, shape, blank, Bool.not_true, Bool.false_eq_true, if_false]

theorem unindent_of_lines (shape : lines text = first :: second :: others) (blank : isBlankLine first = true) :
    unindent text = unlines ((second :: others).map (removeIndent (indentOf second))) := by
  simp only [unindent, shape, blank, Bool.not_true, Bool.false_eq_true, if_false]

/-- The lines that a pass leaves. -/
theorem lines_unindent (shape : lines text = first :: second :: others) (blank : isBlankLine first = true) :
    lines (unindent text) = second.dropWhile isBlank :: others.map (removeIndent (indentOf second)) := by
  have oneLine : ∀ line ∈ (second :: others).map (removeIndent (indentOf second)), '\n' ∉ line := by
    intro line member
    obtain ⟨whole, inside, rfl⟩ := List.mem_map.mp member
    have apart : '\n' ∉ whole := newline_not_mem_lines (shape ▸ List.mem_cons_of_mem first inside)
    exact fun held => apart ((removeIndent_suffix _ whole).subset held)
  rw [unindent_of_lines shape blank, ← removeIndent_indentOf second]
  exact lines_unlines oneLine

private theorem opensBlank_unindent (shape : lines text = first :: second :: others) (blank : isBlankLine first = true) :
    opensBlank (unindent text) = isBlankLine second :=
  (opensBlank_eq (lines_unindent shape blank)).trans (isBlankLine_dropWhile second)

/-- A pass over two lines leaves no blank line. -/
theorem unindent_of_two_lines (shape : lines text = [first, second]) (blank : isBlankLine first = true) :
    unindent text = [] ∨ opensBlank (unindent text) = false := by
  rw [opensBlank_unindent shape blank]
  refine or_iff_not_imp_right.mpr fun bare => ?_
  have gone : second.dropWhile isBlank = [] :=
    List.dropWhile_eq_nil_iff.mpr (List.all_eq_true.mp (Bool.of_not_eq_false bare))
  rw [unindent_of_lines shape blank, List.map_singleton, unlines, removeIndent_indentOf, gone]

end

/-- A pass takes away a line, unless it finds no blank line to begin with or nothing at all. -/
theorem unindent_eq_self_iff (text : List Char) : unindent text = text ↔ text = [] ∨ opensBlank text = false := by
  constructor
  · intro same
    refine or_iff_not_imp_right.mpr fun opens => ?_
    obtain ⟨first, others, shape⟩ := List.exists_cons_of_ne_nil (lines_ne_nil text)
    have blank : isBlankLine first = true := by
      rw [← opensBlank_eq shape]
      exact Bool.of_not_eq_false opens
    cases others with
    | nil => exact same.symm.trans (unindent_of_line shape blank)
    | cons second others =>
      have fewer := congrArg List.length (lines_unindent shape blank)
      rw [same, shape] at fewer
      simp at fewer
  · rintro (rfl | solid)
    · rfl
    · exact unindent_of_solid solid

private theorem unindent_unindent_iff (text : List Char) :
    unindent (unindent text) = unindent text ↔ opensBlankTwice text = false := by
  rw [unindent_eq_self_iff, opensBlankTwice]
  obtain ⟨first, others, shape⟩ := List.exists_cons_of_ne_nil (lines_ne_nil text)
  rw [shape]
  cases blank : isBlankLine first with
  | false =>
    have solid : opensBlank text = false := (opensBlank_eq shape).trans blank
    rw [unindent_of_solid solid]
    refine iff_of_true (Or.inr solid) ?_
    match others with
    | [] | [_] => rfl
    | second :: _ :: _ => exact (congrArg (· && isBlankLine second) blank).trans (Bool.false_and _)
  | true =>
    match others, shape with
    | [], shape => exact iff_of_true (Or.inl (unindent_of_line shape blank)) rfl
    | [second], shape => exact iff_of_true (unindent_of_two_lines shape blank) rfl
    | second :: third :: others, shape =>
      have filled : unindent text ≠ [] := by
        intro empty
        have left := congrArg List.length (lines_unindent shape blank)
        rw [empty] at left
        simp [lines] at left
      simp only [opensBlank_unindent shape blank, filled, blank, false_or, Bool.true_and]

/-- Undoing an indentation only takes characters away. -/
theorem unindent_sublist (text : List Char) : (unindent text).Sublist text := by
  obtain ⟨first, others, shape⟩ := List.exists_cons_of_ne_nil (lines_ne_nil text)
  cases blank : isBlankLine first with
  | false =>
    rw [unindent_of_solid ((opensBlank_eq shape).trans blank)]
  | true =>
    cases others with
    | nil =>
      rw [unindent_of_line shape blank]
      exact List.nil_sublist text
    | cons second others =>
      have whole : first ++ '\n' :: unlines (second :: others) = text := by
        rw [← unlines_lines text, shape]
        rfl
      have shrunk := unlines_map_sublist (fun line => (removeIndent_suffix (indentOf second) line).sublist) (second :: others)
      have behind := (shrunk.cons '\n').trans (List.sublist_append_right first _)
      rwa [whole, ← unindent_of_lines shape blank] at behind

private theorem unifyLineEnds_sublist (text : List Char) : (unifyLineEnds text).Sublist text := by
  fun_induction unifyLineEnds text with
  | case1 c d rest _ ih => exact (ih.cons_cons d).cons c
  | case2 c d rest _ ih => exact ih.cons_cons c
  | case3 text _ => exact List.Sublist.refl text

/-- Neither step puts anything in, so what both leave as it is each of them leaves as it is. -/
theorem normalize_eq_self_iff (text : List Char) :
    normalize text = text ↔ unifyLineEnds text = text ∧ (text = [] ∨ opensBlank text = false) := by
  rw [← unindent_eq_self_iff]
  refine ⟨fun same => ?_, fun ⟨unified, same⟩ => by rw [normalize, unified, same]⟩
  have kept : text.Sublist (unifyLineEnds text) := by
    have shrunk := unindent_sublist (unifyLineEnds text)
    rwa [← normalize, same] at shrunk
  have unified : unifyLineEnds text = text := (unifyLineEnds_sublist text).antisymm kept
  rw [normalize, unified] at same
  exact ⟨unified, same⟩

end Text

theorem Block.setCode_eq_self_iff {θ α : Type} (block : Block θ α) (code : List Char) :
    block.setCode code = block ↔ Text.normalize code = block.code := by
  unfold setCode
  dsimp only
  split
  next same => exact iff_of_true rfl same
  next differs => exact iff_of_false (fun same => differs (congrArg Block.code same)) differs

/-- Undoing an indentation once more changes nothing, unless the text began with two blank lines and
went on behind them. So a block may be given its own code again if its line ends are unified and
it is empty or begins with a line that is not blank, and in no other case. -/
theorem unindent_twice_iff {θ α : Type} :
    (∀ text, Text.unindent (Text.unindent text) = Text.unindent text ↔ Text.opensBlankTwice text = false) ∧
      ∀ block : Block θ α, block.setCode block.code = block ↔
        Text.unifyLineEnds block.code = block.code ∧ (block.code = [] ∨ Text.opensBlank block.code = false) := by
  refine ⟨Text.unindent_unindent_iff, fun block => ?_⟩
  rw [block.setCode_eq_self_iff, Text.normalize_eq_self_iff]

/-- Of two blank lines at the front each pass takes one. -/
theorem unindent_not_settled : ¬ ∀ text : List Char, Text.unindent (Text.unindent text) = Text.unindent text := by
  intro law
  have once : Text.unindent "\n\nx".toList = "\nx".toList := by decide
  have twice : Text.unindent "\nx".toList = "x".toList := by decide
  have same := law "\n\nx".toList
  rw [once, twice] at same
  exact absurd same (by decide)

end Highlight
