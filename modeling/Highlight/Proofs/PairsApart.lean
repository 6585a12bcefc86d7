import Highlight.Proofs.ColorRuns
import Highlight.Proofs.FusedText

/-! Pairs of halves in a coloured text. Each run of one colour goes through UTF-16 by itself, so two
halves side by side become one character where they have one colour, and only there. No unit is lost
by that. -/

namespace Highlight.Piece

variable {γ : Type} [Letter γ]

/-- No two halves of a pair stand side by side in one colour. -/
def PairsApart (coloured : List (γ × Option String)) : Prop :=
  coloured.IsChain fun first second => Letter.IsPair first.1 second.1 → first.2 ≠ second.2

theorem pairsApart_of_unpaired {coloured : List (γ × Option String)} (unpaired : Letter.Unpaired (coloured.map Prod.fst)) :
    PairsApart coloured :=
  ((List.isChain_map Prod.fst).mp unpaired).imp fun _ _ none pair => absurd pair none

private theorem pairsApart_run_iff {text : List γ} (color : Option String) :
    PairsApart (text.map fun c => (c, color)) ↔ Letter.Unpaired text := by
  rw [PairsApart, List.isChain_map, Letter.Unpaired]
  simp only [ne_eq, not_true_eq_false, imp_false]

/-- Between two runs the colour changes, so only the halves within a run can come together. -/
theorem Runs.pairsApart_iff {coloured : List (γ × Option String)} {runs : List (Piece γ)} (cut : Runs coloured runs) :
    PairsApart coloured ↔ ∀ run ∈ runs, Letter.Unpaired run.text := by
  obtain ⟨rfl, filled, apart⟩ := cut
  induction runs with
  | nil => exact iff_of_true .nil fun _ none => absurd none List.not_mem_nil
  | cons run others ih =>
    obtain ⟨here, rest⟩ := List.forall_mem_cons.mp filled
    obtain ⟨differ, later⟩ := List.isChain_cons.mp apart
    have border : ∀ last ∈ (run.text.map fun c => (c, run.color)).getLast?, ∀ first ∈ (chars others).head?,
        Letter.IsPair last.1 first.1 → last.2 ≠ first.2 := by
      intro last ends first begins _
      obtain ⟨c, -, rfl⟩ := List.mem_map.mp (List.mem_of_getLast? ends)
      cases others with
      | nil => cases begins
      | cons next more =>
        obtain ⟨d, text, shape⟩ := List.exists_cons_of_ne_nil (rest next (List.mem_cons_self ..))
        rw [chars_cons, shape] at begins
        obtain rfl : (d, next.color) = first := Option.some.inj begins
        exact differ next rfl
    rw [PairsApart, chars_cons, List.isChain_append, List.forall_mem_cons, ← pairsApart_run_iff run.color, ← ih rest later]
    exact and_congr_right fun _ => and_iff_left border

private theorem length_textOf_fuse_le (pieces : List (Piece γ)) : (textOf (pieces.map fuse)).length ≤
    (textOf pieces).length := by
  induction pieces with
  | nil => exact Nat.le_refl 0
  | cons piece others ih =>
    rw [List.map_cons, textOf_cons, textOf_cons, List.length_append, List.length_append]
    exact Nat.add_le_add (Letter.length_fused_le piece.text) ih

/-- Fusing only ever shortens a text, so all of it is left as it is if its length is. -/
theorem textOf_fuse_iff (pieces : List (Piece γ)) :
    textOf (pieces.map fuse) = textOf pieces ↔ ∀ piece ∈ pieces, Letter.fused piece.text = piece.text := by
  induction pieces with
  | nil => exact iff_of_true rfl fun _ none => absurd none List.not_mem_nil
  | cons piece others ih =>
    rw [List.map_cons, textOf_cons, textOf_cons, List.forall_mem_cons, ← ih]
    refine ⟨fun same => ?_, fun ⟨here, later⟩ => congrArg₂ (· ++ ·) here later⟩
    have lengths := congrArg List.length same
    rw [List.length_append, List.length_append] at lengths
    have here : (Letter.fused piece.text).length ≤ piece.text.length := Letter.length_fused_le piece.text
    have later := length_textOf_fuse_le others
    have kept : piece.fuse.text = piece.text := Letter.fused_eq_of_length (by
      change piece.fuse.text.length = _
      change piece.fuse.text.length ≤ _ at here
      omega)
    rw [kept] at same
    exact ⟨kept, List.append_cancel_left same⟩

private theorem units_textOf_fuse (pieces : List (Piece γ)) :
    Letter.units (textOf (pieces.map fuse)) = Letter.units (textOf pieces) := by
  induction pieces with
  | nil => rfl
  | cons piece others ih =>
    rw [List.map_cons, textOf_cons, textOf_cons, Letter.units_append, Letter.units_append, ih]
    exact congrArg (· ++ _) (Letter.units_fused piece.text)

theorem textOf_segment_iff (coloured : List (γ × Option String)) :
    textOf (segment coloured) = coloured.map Prod.fst ↔ PairsApart coloured := by
  have runs := runs_merge coloured
  have text : textOf (merge (coloured.map cell)) = coloured.map Prod.fst := by rw [← map_fst_chars, runs.whole]
  rw [runs.pairsApart_iff, segment, textOf_clusters, ← text, textOf_fuse_iff]
  simp only [Letter.fused_eq_self_iff]

/-- A stream shows a coloured text letter by letter exactly if no pair of halves stands in one colour. -/
theorem chars_segment_iff (coloured : List (γ × Option String)) : chars (segment coloured) = coloured ↔ PairsApart coloured := by
  have runs := runs_merge coloured
  refine ⟨fun same => ?_, fun apart => ?_⟩
  · rw [← textOf_segment_iff, ← map_fst_chars, same]
  · have kept : (merge (coloured.map cell)).map fuse = merge (coloured.map cell) := by
      refine (List.map_congr_left (g := id) fun run member => ?_).trans (List.map_id _)
      have whole := (Letter.fused_eq_self_iff run.text).mpr (runs.pairsApart_iff.mp apart run member)
      rw [fuse, whole]
      rfl
    rw [segment, chars_clusters, kept, runs.whole]

theorem units_segment (coloured : List (γ × Option String)) :
    Letter.units (textOf (segment coloured)) = Letter.units (coloured.map Prod.fst) := by
  rw [segment, textOf_clusters, units_textOf_fuse, ← map_fst_chars, (runs_merge coloured).whole]

end Highlight.Piece
