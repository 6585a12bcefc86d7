import Highlight.Proofs.Streams

/-! Where the pieces of a stream end. A coloured text has just one stream of clusters, and its
borders depend on where the colour changes, not on the colours. Two themes that change colour at
the same characters therefore cut a text alike. -/

namespace Highlight.Piece

variable {γ : Type}

def cell (coloured : γ × Option String) : Piece γ := ⟨[coloured.1], coloured.2⟩

def segment [Letter γ] (coloured : List (γ × Option String)) : List (Piece γ) := clusters (merge (coloured.map cell))

theorem chars_cells (coloured : List (γ × Option String)) : chars (coloured.map cell) = coloured := by
  induction coloured with
  | nil => rfl
  | cons first others ih =>
    rw [List.map_cons, chars_cons, ih]
    rfl

theorem chars_segment (coloured : List (Char × Option String)) : chars (segment coloured) = coloured := by
  rw [segment, chars_clusters, map_fuse_char, chars_merge, chars_cells]

theorem map_fst_mapIdx (text : List γ) (color : Nat → Option String) :
    (text.mapIdx fun index c => (c, color index)).map Prod.fst = text := by
  rw [List.mapIdx_eq_zipIdx_map, List.map_map]
  exact List.zipIdx_map_fst 0 text

/-- The colour of the piece that holds the character at an index. -/
def colorOf? (pieces : List (Piece γ)) (index : Nat) : Option (Option String) := (chars pieces)[index]?.map Prod.snd

theorem head?_join (piece : Piece γ) (others : List (Piece γ)) : (join piece others).head?.map Piece.color = some piece.color := by
  cases others with
  | nil => rfl
  | cons next more =>
    by_cases same : piece.color = next.color
    · simp only [join, same, if_true, List.head?_cons, Option.map_some]
    · simp only [join, same, if_false, List.head?_cons, Option.map_some]

private theorem head?_merge (pieces : List (Piece γ)) :
    (merge pieces).head?.map Piece.color = pieces.head?.map Piece.color := by
  cases pieces with
  | nil => rfl
  | cons piece others => exact head?_join piece (merge others)

private theorem map_text_join {first second : Piece γ} {firsts seconds : List (Piece γ)} (text : first.text = second.text)
    (texts : firsts.map Piece.text = seconds.map Piece.text)
    (border : some first.color = firsts.head?.map Piece.color ↔ some second.color = seconds.head?.map Piece.color) :
    (join first firsts).map Piece.text = (join second seconds).map Piece.text := by
  cases firsts with
  | nil =>
    obtain rfl := List.map_eq_nil_iff.mp texts.symm
    simp only [join, List.map_cons, List.map_nil, text]
  | cons next others =>
    obtain ⟨partner, more, rfl, here, rest⟩ := List.map_eq_cons_iff.mp texts.symm
    simp only [List.head?_cons, Option.map_some, Option.some.injEq] at border
    by_cases same : first.color = next.color
    · rw [join, join, if_pos same, if_pos (border.mp same), List.map_cons, List.map_cons, text, here, rest]
    · rw [join, join, if_neg same, if_neg (same ∘ border.mpr), List.map_cons, texts, text]
      rfl

private theorem map_text_clustersOf [Letter γ] (color other : Option String) (graphemes : List (List γ)) :
    (clustersOf color graphemes).map Piece.text = (clustersOf other graphemes).map Piece.text := by
  fun_induction clustersOf color graphemes with
  | case1 => simp only [clustersOf]
  | case2 first others blank ih =>
    rw [clustersOf, if_pos blank, List.map_cons, List.map_cons, ih]
  | case3 first others solid ih =>
    rw [clustersOf, if_neg solid, List.map_cons, List.map_cons, ih]

private theorem map_text_clusters [Letter γ] {first second : List (Piece γ)}
    (same : first.map Piece.text = second.map Piece.text) :
    (clusters first).map Piece.text = (clusters second).map Piece.text := by
  induction first generalizing second with
  | nil =>
    obtain rfl := List.map_eq_nil_iff.mp same.symm
    rfl
  | cons piece others ih =>
    obtain ⟨other, more, rfl, text, rest⟩ := List.map_eq_cons_iff.mp same.symm
    have later := ih rest.symm
    simp only [clusters, List.flatMap_cons, List.map_append] at later ⊢
    rw [later, split, split, text, map_text_clustersOf piece.color other.color]

/-- Two coloured texts change colour at the same characters. -/
def SameBorders (first second : List (γ × Option String)) : Prop :=
  ∀ index, index + 1 < first.length →
    (first[index]?.map Prod.snd = first[index + 1]?.map Prod.snd ↔
      second[index]?.map Prod.snd = second[index + 1]?.map Prod.snd)

private theorem map_text_merge {first second : List (γ × Option String)}
    (letters : first.map Prod.fst = second.map Prod.fst) (borders : SameBorders first second) :
    (merge (first.map cell)).map Piece.text = (merge (second.map cell)).map Piece.text := by
  induction first generalizing second with
  | nil =>
    obtain rfl := List.map_eq_nil_iff.mp letters.symm
    rfl
  | cons here others ih =>
    obtain ⟨there, more, rfl, letter, rest⟩ := List.map_eq_cons_iff.mp letters.symm
    have later := ih rest.symm fun index inside => borders (index + 1) (Nat.succ_lt_succ inside)
    refine map_text_join (congrArg (fun c => [c]) letter.symm) later ?_
    -- what is merged behind the first character begins with the colour of the second one
    rw [← merge, ← merge, head?_merge, head?_merge, List.head?_map, List.head?_map, Option.map_map, Option.map_map]
    cases others with
    | nil =>
      obtain rfl := List.map_eq_nil_iff.mp rest
      simp
    | cons next _ =>
      have border := borders 0 (by simp)
      obtain ⟨partner, _, rfl, _⟩ := List.map_eq_cons_iff.mp rest
      simpa [cell] using border

theorem map_text_segment [Letter γ] {first second : List (γ × Option String)}
    (letters : first.map Prod.fst = second.map Prod.fst) (borders : SameBorders first second) :
    (segment first).map Piece.text = (segment second).map Piece.text :=
  map_text_clusters (map_text_merge letters borders)

end Highlight.Piece
