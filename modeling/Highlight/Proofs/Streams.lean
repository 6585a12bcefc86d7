import Highlight.Piece.Clusters

/-! A stream of pieces as the letters it draws. Joining neighbours and cutting clusters only move
the borders of pieces, so neither changes a letter or its colour, but for the halves of pairs that
come together inside a piece. -/

namespace Highlight.Piece

variable {γ : Type}

theorem chars_cons (piece : Piece γ) (others : List (Piece γ)) :
    chars (piece :: others) = piece.text.map (fun c => (c, piece.color)) ++ chars others := List.flatMap_cons

theorem chars_append (first last : List (Piece γ)) : chars (first ++ last) = chars first ++ chars last :=
  List.flatMap_append

theorem map_fst_chars (pieces : List (Piece γ)) : (chars pieces).map Prod.fst = textOf pieces := by
  induction pieces with
  | nil => rfl
  | cons piece others ih =>
    rw [chars_cons, List.map_append, ih, List.map_map, textOf, textOf, List.flatMap_cons]
    exact congrArg (· ++ _) (List.map_id' piece.text)

theorem textOf_cons (piece : Piece γ) (others : List (Piece γ)) : textOf (piece :: others) = piece.text ++ textOf others :=
  List.flatMap_cons

theorem textOf_singleton (piece : Piece γ) : textOf [piece] = piece.text := List.flatMap_singleton ..

theorem textOf_append (first last : List (Piece γ)) : textOf (first ++ last) = textOf first ++ textOf last :=
  List.flatMap_append

theorem textOf_eq_flatten (pieces : List (Piece γ)) : textOf pieces = (pieces.map Piece.text).flatten := List.flatMap_def

theorem length_chars (pieces : List (Piece γ)) : (chars pieces).length = (textOf pieces).length := by
  rw [← map_fst_chars, List.length_map]

theorem chars_join (piece : Piece γ) (others : List (Piece γ)) : chars (join piece others) = chars (piece :: others) := by
  cases others with
  | nil => rfl
  | cons next others =>
    by_cases same : piece.color = next.color
    · simp only [join, same, if_true, chars_cons, List.map_append, List.append_assoc]
    · simp only [join, same, if_false]

theorem chars_merge (pieces : List (Piece γ)) : chars (merge pieces) = chars pieces := by
  induction pieces with
  | nil => rfl
  | cons piece others ih =>
    change chars (join piece (merge others)) = _
    rw [chars_join, chars_cons, chars_cons, ih]

variable [Letter γ]

private theorem chars_clustersOf (color : Option String) (graphemes : List (List γ)) :
    chars (clustersOf color graphemes) = graphemes.flatten.map fun c => (c, color) := by
  fun_induction clustersOf color graphemes with
  | case1 => rfl
  | case2 first others blank ih => rw [chars_cons, ih, List.flatten_cons, List.map_append]
  | case3 first others solid ih =>
    -- the run that is joined and what follows it make up the other graphemes
    have whole : others = others.takeWhile (fun g => !Text.hasBlank g) ++ others.dropWhile fun g => !Text.hasBlank g :=
      List.takeWhile_append_dropWhile.symm
    rw [chars_cons, ih]
    conv => rhs; rw [whole]
    simp only [List.flatten_cons, List.flatten_append, List.map_append, List.append_assoc]

/-- A piece whose text has gone through UTF-16. -/
def fuse (piece : Piece γ) : Piece γ := ⟨Letter.fused piece.text, piece.color⟩

theorem map_fuse_char (pieces : List Piece) : pieces.map fuse = pieces := List.map_id pieces

theorem chars_clusters (pieces : List (Piece γ)) : chars (clusters pieces) = chars (pieces.map fuse) := by
  induction pieces with
  | nil => rfl
  | cons piece others ih =>
    have split : chars piece.split = piece.fuse.text.map fun c => (c, piece.color) := by
      rw [Piece.split, chars_clustersOf, Text.flatten_graphemes]
      rfl
    rw [clusters, List.flatMap_cons, chars_append, split, ← clusters, ih, List.map_cons, chars_cons]
    rfl

theorem textOf_clusters (pieces : List (Piece γ)) : textOf (clusters pieces) = textOf (pieces.map fuse) := by
  rw [← map_fst_chars, chars_clusters, map_fst_chars]

end Highlight.Piece
