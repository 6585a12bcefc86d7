import Highlight.Proofs.Unindenting
import Mathlib.Data.List.Forall2

/-! Code that is pushed in by some blanks and put behind a blank line is got back line by line. The
blanks are told from the first line of the code, which has none of its own, so deeper indentation
stays, and so does a line that begins with only some of them. -/

namespace Highlight.Text

/-- How a line of code may stand in pushed code: behind the blanks, or as it is if it does not begin
with them. -/
inductive Indented (indent : List Char) : List Char → List Char → Prop
  | pushed (line : List Char) : Indented indent line (indent ++ line)
  | kept {line : List Char} (apart : ¬ indent <+: line) : Indented indent line line

section
variable {indent line shown : List Char}

theorem removeIndent_append (indent line : List Char) : removeIndent indent (indent ++ line) = line := by
  have front : indent.isPrefixOf (indent ++ line) = true := List.isPrefixOf_iff_prefix.mpr (List.prefix_append indent line)
  rw [removeIndent, if_pos front, List.drop_left]

theorem removeIndent_of_apart (apart : ¬ indent <+: line) : removeIndent indent line = line :=
  if_neg (mt List.isPrefixOf_iff_prefix.mp apart)

/-- Taking the blanks away is the only way back from a line that may have been pushed in. -/
theorem indented_iff : Indented indent line shown ↔ removeIndent indent shown = line := by
  constructor
  · intro indented
    cases indented with
    | pushed => exact removeIndent_append indent line
    | kept apart => exact removeIndent_of_apart apart
  · rintro rfl
    by_cases front : indent <+: shown
    · obtain ⟨rest, rfl⟩ := front
      rw [removeIndent_append]
      exact .pushed rest
    · rw [removeIndent_of_apart front]
      exact .kept front

theorem Indented.oneLine (indented : Indented indent line shown) (blanks : '\n' ∉ indent) (clean : '\n' ∉ line) :
    '\n' ∉ shown := by
  cases indented with
  | pushed => exact List.not_mem_append blanks clean
  | kept => exact clean

private theorem indentOf_append {c : Char} {rest : List Char} (blanks : isBlankLine indent = true)
    (solid : isBlank c = false) :
    indentOf (indent ++ c :: rest) = indent := by
  have stop : (c :: rest).takeWhile (fun c => isBlank (Letter.seen c)) = [] :=
    List.takeWhile_cons_of_neg (Bool.eq_false_iff.mp solid)
  rw [indentOf, List.takeWhile_append_of_pos (List.all_eq_true.mp blanks), stop, List.append_nil]

end

private theorem forall_indented_iff {indent : List Char} {others shown : List (List Char)} :
    List.Forall₂ (Indented indent) others shown ↔ shown.map (removeIndent indent) = others := by
  constructor
  · intro indented
    induction indented with
    | nil => rfl
    | cons first _ ih => rw [List.map_cons, indented_iff.mp first, ih]
  · rintro rfl
    exact List.forall₂_map_left_iff.mpr (List.forall₂_same.mpr fun _ _ => indented_iff.mpr rfl)

/-- Lines without line feeds are told by the text they join to. -/
theorem unlines_inj {first second : List Char} {others more : List (List Char)} (left : ∀ line ∈ first :: others, '\n' ∉ line)
    (right : ∀ line ∈ second :: more, '\n' ∉ line) :
    unlines (first :: others) = unlines (second :: more) ↔ first :: others = second :: more := by
  refine ⟨fun same => ?_, congrArg unlines⟩
  rw [← lines_unlines left, same, lines_unlines right]

/-- Code is got back from behind a blank line exactly if each of its lines was pushed in by the blanks
before the first one, or was left as it is and does not begin with them. -/
theorem indentation_is_undone {indent opening rest : List Char} {c : Char} {others : List (List Char)}
    (blanks : isBlankLine indent = true) (inside : '\n' ∉ indent) (blank : isBlankLine opening = true)
    (openingLine : '\n' ∉ opening) (solid : isBlank c = false) (clean : ∀ line ∈ (c :: rest) :: others, '\n' ∉ line)
    (shown : List (List Char)) :
    List.Forall₂ (Indented indent) others shown ↔
      (∀ line ∈ shown, '\n' ∉ line) ∧
        unindent (opening ++ '\n' :: unlines ((indent ++ c :: rest) :: shown)) = unlines ((c :: rest) :: others) := by
  obtain ⟨first, behind⟩ := List.forall_mem_cons.mp clean
  have undone : (∀ line ∈ shown, '\n' ∉ line) →
      unindent (opening ++ '\n' :: unlines ((indent ++ c :: rest) :: shown)) =
        unlines ((c :: rest) :: shown.map (removeIndent indent)) := by
    intro apart
    have shape : lines (opening ++ '\n' :: unlines ((indent ++ c :: rest) :: shown)) = opening :: (indent ++ c :: rest) :: shown := by
      rw [lines_append_newline openingLine, lines_unlines (List.forall_mem_cons.mpr ⟨List.not_mem_append inside first, apart⟩)]
    rw [unindent_of_lines shape blank, indentOf_append blanks solid, List.map_cons, removeIndent_append]
  constructor
  · intro indented
    have apart : ∀ line ∈ shown, '\n' ∉ line := by
      intro line member
      have original : removeIndent indent line ∈ others := forall_indented_iff.mp indented ▸ List.mem_map_of_mem member
      exact (indented_iff.mpr rfl).oneLine inside (behind _ original)
    exact ⟨apart, by rw [undone apart, forall_indented_iff.mp indented]⟩
  · rintro ⟨apart, same⟩
    have left : ∀ line ∈ (c :: rest) :: shown.map (removeIndent indent), '\n' ∉ line := by
      refine List.forall_mem_cons.mpr ⟨first, List.forall_mem_map.mpr fun line member held => ?_⟩
      exact apart line member ((removeIndent_suffix indent line).subset held)
    rw [undone apart, unlines_inj left clean] at same
    exact forall_indented_iff.mpr (List.cons.inj same).2

/-- A line with fewer blanks and an empty line are left as they are, and deeper blanks stay. -/
theorem indentation_is_undone_braces :
    isBlankLine "  ".toList = true ∧ isBlankLine ['\t'] = true ∧ isBlank '\x7b' = false ∧
      unindent "\t\n  \x7b\n x\n\n    y\n  \x7d".toList = "\x7b\n x\n\n  y\n\x7d".toList := by
  have clean : ∀ line ∈ [['\x7b'], " x".toList, [], "  y".toList, ['\x7d']], '\n' ∉ line := by decide
  have indented : List.Forall₂ (Indented "  ".toList) [" x".toList, [], "  y".toList, ['\x7d']]
      [" x".toList, [], "    y".toList, "  \x7d".toList] :=
    .cons (.kept (by decide)) (.cons (.kept (by decide)) (.cons (.pushed _) (.cons (.pushed _) .nil)))
  have undone := (@indentation_is_undone "  ".toList ['\t'] [] '\x7b' _ (by decide) (by decide) (by decide) (by decide) (by decide)
    clean _).mp indented
  exact ⟨by decide, by decide, by decide, undone.2⟩

end Highlight.Text
