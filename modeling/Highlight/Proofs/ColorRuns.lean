import Highlight.Proofs.Segments
import Mathlib.Data.List.Chain

/-! Runs of one colour. Joining equal neighbours leaves runs that are as long as they can be, and a
coloured text falls into such runs in one way only. So the runs of a text can be told from those of
its parts: nothing changes but where two parts meet. -/

namespace Highlight.Piece

variable {γ : Type}

private theorem isChain_join {piece : Piece γ} {others : List (Piece γ)}
    (chain : others.IsChain fun a b => a.color ≠ b.color) :
    (join piece others).IsChain fun a b => a.color ≠ b.color := by
  cases others with
  | nil => exact .singleton _
  | cons next others =>
    by_cases same : piece.color = next.color
    · rw [join, if_pos same]
      cases others with
      | nil => exact .singleton _
      | cons more others =>
        obtain ⟨differ, rest⟩ := List.isChain_cons_cons.mp chain
        exact .cons_cons differ rest
    · rw [join, if_neg same]
      exact .cons_cons same chain

theorem isChain_merge (pieces : List (Piece γ)) : (merge pieces).IsChain fun a b => a.color ≠ b.color := by
  induction pieces with
  | nil => exact .nil
  | cons piece others ih => exact isChain_join ih

private theorem filled_join {piece : Piece γ} {others : List (Piece γ)} (here : piece.text ≠ [])
    (filled : ∀ other ∈ others, other.text ≠ []) :
    ∀ other ∈ join piece others, other.text ≠ [] := by
  cases others with
  | nil => exact List.forall_mem_singleton.mpr here
  | cons next others =>
    by_cases same : piece.color = next.color
    · rw [join, if_pos same]
      have rest := (List.forall_mem_cons.mp filled).2
      exact List.forall_mem_cons.mpr ⟨List.append_ne_nil_of_left_ne_nil here _, rest⟩
    · rw [join, if_neg same]
      exact List.forall_mem_cons.mpr ⟨here, filled⟩

theorem filled_merge {pieces : List (Piece γ)} (filled : ∀ piece ∈ pieces, piece.text ≠ []) :
    ∀ piece ∈ merge pieces, piece.text ≠ [] := by
  induction pieces with
  | nil => exact fun _ none => absurd none List.not_mem_nil
  | cons piece others ih =>
    obtain ⟨here, rest⟩ := List.forall_mem_cons.mp filled
    exact filled_join here (ih rest)

theorem filled_cells (coloured : List (γ × Option String)) : ∀ piece ∈ coloured.map cell, piece.text ≠ [] := by
  intro piece member
  obtain ⟨_, _, rfl⟩ := List.mem_map.mp member
  exact List.cons_ne_nil _ _

/-- A coloured text cut into runs that are as long as they can be. -/
structure Runs (coloured : List (γ × Option String)) (runs : List (Piece γ)) : Prop where
  whole : chars runs = coloured
  filled : ∀ run ∈ runs, run.text ≠ []
  apart : runs.IsChain fun first next => first.color ≠ next.color

theorem runs_merge (coloured : List (γ × Option String)) : Runs coloured (merge (coloured.map cell)) where
  whole := by rw [chars_merge, chars_cells]
  filled := filled_merge (filled_cells coloured)
  apart := isChain_merge _

/-- The characters of a run come together again in front of what does not have their colour. -/
private theorem join_run {text : List γ} (filled : text ≠ []) {color : Option String} {others : List (Piece γ)}
    (apart : ∀ next ∈ others.head?, color ≠ next.color) :
    (text.map fun c => cell (c, color)).foldr join others = ⟨text, color⟩ :: others := by
  induction text with
  | nil => exact absurd rfl filled
  | cons c more ih =>
    rw [List.map_cons, List.foldr_cons]
    cases more with
    | nil =>
      cases others with
      | nil => rfl
      | cons next others => exact if_neg (apart next rfl)
    | cons d more =>
      rw [ih (List.cons_ne_nil _ _)]
      exact if_pos rfl

theorem Runs.eq_merge {coloured : List (γ × Option String)} {runs : List (Piece γ)} (cut : Runs coloured runs) :
    merge (coloured.map cell) = runs := by
  obtain ⟨rfl, filled, apart⟩ := cut
  induction runs with
  | nil => rfl
  | cons run others ih =>
    obtain ⟨here, rest⟩ := List.forall_mem_cons.mp filled
    obtain ⟨differ, later⟩ := List.isChain_cons.mp apart
    have merged : ((chars others).map cell).foldr join [] = others := ih rest later
    rw [chars_cons, List.map_append, List.map_map, merge, List.foldr_append, merged]
    exact join_run here differ

def glue (first last : List (Piece γ)) : List (Piece γ) :=
  match first.getLast?, last with
  | some left, right :: others =>
    if left.color = right.color then first.dropLast ++ ⟨left.text ++ right.text, left.color⟩ :: others
    else first ++ last
  | _, _ => first ++ last

private theorem glue_nil (last : List (Piece γ)) : glue [] last = last := by cases last <;> rfl

private theorem glue_concat (front : List (Piece γ)) (left : Piece γ) (last : List (Piece γ)) :
    glue (front ++ [left]) last = front ++ join left last := by
  rw [glue.eq_def, List.getLast?_concat]
  cases last with
  | nil => exact List.append_nil _
  | cons right others =>
    by_cases same : left.color = right.color
    · simp only [join, same, if_true, List.dropLast_concat]
    · simp only [join, same, if_false, List.append_assoc, List.singleton_append]

private theorem runs_glue {coloured others : List (γ × Option String)} {first last : List (Piece γ)}
    (cut : Runs coloured first)
    (cutLast : Runs others last) : Runs (coloured ++ others) (glue first last) := by
  obtain ⟨rfl, filled, apart⟩ := cut
  obtain ⟨rfl, filledLast, apartLast⟩ := cutLast
  rcases List.eq_nil_or_concat' first with rfl | ⟨front, left, rfl⟩
  · rw [glue_nil]
    exact ⟨rfl, filledLast, apartLast⟩
  · obtain ⟨filledFront, filledLeft⟩ := List.forall_mem_append.mp filled
    obtain ⟨apartFront, -, apartLeft⟩ := List.isChain_append.mp apart
    rw [glue_concat]
    refine ⟨?_, ?_, List.isChain_append.mpr ⟨apartFront, isChain_join apartLast, ?_⟩⟩
    · rw [chars_append, chars_join, ← chars_append, List.append_cons, chars_append]
    · have joined := filled_join (filledLeft left (List.mem_singleton_self left)) filledLast
      exact List.forall_mem_append.mpr ⟨filledFront, joined⟩
    · intro before ends after begins
      -- joining does not change the colour at the front
      have color : after.color = left.color := by
        have front := head?_join left last
        rw [Option.mem_def.mp begins] at front
        exact Option.some.inj front
      rw [color]
      exact apartLeft before ends left rfl

private theorem merge_append (coloured others : List (γ × Option String)) :
    merge ((coloured ++ others).map cell) = glue (merge (coloured.map cell)) (merge (others.map cell)) :=
  (runs_glue (runs_merge coloured) (runs_merge others)).eq_merge

/-- The runs of a text can be found from the front, one character after the other. -/
theorem foldl_glue (coloured : List (γ × Option String)) :
    coloured.foldl (fun runs next => glue runs [cell next]) [] = merge (coloured.map cell) := by
  induction coloured using List.reverseRecOn with
  | nil => rfl
  | append_singleton before next ih =>
    rw [List.foldl_concat, ih, merge_append]
    rfl

/-- The merged pieces of a coloured text are its runs of one colour, and nothing else is. The runs
of two texts, one behind the other, are those of each, but that the two which meet become one if
they have one colour. So they can also be found from the front, with only the last one changing. -/
theorem merged_runs_are_canonical (coloured : List (γ × Option String)) :
    (∀ runs, merge (coloured.map cell) = runs ↔ Runs coloured runs) ∧
      (∀ others, merge ((coloured ++ others).map cell) = glue (merge (coloured.map cell)) (merge (others.map cell))) ∧
      coloured.foldl (fun runs next => glue runs [cell next]) [] = merge (coloured.map cell) := by
  refine ⟨fun runs => ⟨?_, Runs.eq_merge⟩, merge_append coloured, foldl_glue coloured⟩
  rintro rfl
  exact runs_merge coloured

end Highlight.Piece
