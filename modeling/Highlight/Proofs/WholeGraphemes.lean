import Highlight.Proofs.BlockColours
import Highlight.Proofs.ColorRuns
import Highlight.Proofs.GraphemeEdges

/-! Whether the clusters of a block are made of whole graphemes. A text is cut into runs of one
colour before it is cut into graphemes, so a grapheme stays whole unless the colour changes
inside it, and is torn if it does. -/

namespace Highlight

namespace Piece

private theorem colorOf?_clusters (pieces : List Piece) (index : Nat) : colorOf?
    (clusters pieces) index = colorOf? pieces index := by
  rw [colorOf?, chars_clusters, map_fuse_char, colorOf?]

private theorem clustersOf_groups (color : Option String) (graphemes : List (List Char)) :
    ∃ groups : List (List (List Char)), groups.flatten = graphemes ∧ groups.map List.flatten = (clustersOf color graphemes).map Piece.text := by
  fun_induction clustersOf color graphemes with
  | case1 => exact ⟨[], rfl, rfl⟩
  | case2 first others blank ih =>
    obtain ⟨groups, whole, texts⟩ := ih
    refine ⟨[first] :: groups, congrArg (first :: ·) whole, ?_⟩
    rw [List.map_cons, List.map_cons, texts, List.flatten_singleton]
  | case3 first others solid ih =>
    obtain ⟨groups, whole, texts⟩ := ih
    refine ⟨(first :: others.takeWhile fun g => !Text.hasBlank g) :: groups, ?_, ?_⟩
    · rw [List.flatten_cons, whole, List.cons_append, List.takeWhile_append_dropWhile]
    · rw [List.map_cons, List.map_cons, texts, List.flatten_cons]

def CutAtEdges (pieces : List Piece) : Prop :=
  ∀ first last, pieces = first ++ last → Text.IsEdge (textOf pieces) (textOf first).length

theorem CutAtEdges.head {piece : Piece} {others : List Piece} (edges : CutAtEdges (piece :: others)) :
    Text.IsEdge (piece.text ++ textOf others) piece.text.length := by
  have edge := edges [piece] others rfl
  rwa [textOf_cons, textOf_singleton] at edge

theorem CutAtEdges.tail {piece : Piece} {others : List Piece} (edges : CutAtEdges (piece :: others)) :
    CutAtEdges others := by
  rintro first last rfl
  have edge := edges (piece :: first) last rfl
  rw [textOf_cons, textOf_cons, List.length_append] at edge
  exact edges.head.behind edge

theorem CutAtEdges.keeps {pieces : List Piece} (edges : CutAtEdges pieces) :
    Text.KeepsGraphemes (textOf pieces) ((clusters pieces).map Piece.text) := by
  induction pieces with
  | nil => exact ⟨[], rfl, rfl⟩
  | cons piece others ih =>
    obtain ⟨later, rest, laterTexts⟩ := ih edges.tail
    obtain ⟨groups, whole, texts⟩ := clustersOf_groups piece.color (Text.graphemes piece.text)
    refine ⟨groups ++ later, ?_, ?_⟩
    · rw [List.flatten_append, whole, rest, textOf_cons, Text.graphemes_append edges.head]
    · rw [clusters, List.flatMap_cons, List.map_append, List.map_append, texts, laterTexts]
      rfl

private theorem border_of_change {pieces : List Piece} {index : Nat} (inside : index + 1 < (chars pieces).length)
    (change : colorOf? pieces index ≠ colorOf? pieces (index + 1)) :
    ∃ first last, pieces = first ++ last ∧ (textOf first).length = index + 1 := by
  induction pieces generalizing index with
  | nil => cases inside
  | cons piece others ih =>
    rw [chars_cons, List.length_append, List.length_map] at inside
    rw [colorOf?, colorOf?, chars_cons] at change
    by_cases here : index + 1 < piece.text.length
    · -- both characters are in this piece
      have bound : index < piece.text.length := Nat.lt_of_succ_lt here
      apply absurd _ change
      rw [List.getElem?_append_left (by simpa using bound), List.getElem?_append_left (by simpa using here),
        List.getElem?_map, List.getElem?_map, List.getElem?_eq_getElem bound, List.getElem?_eq_getElem here]
      rfl
    by_cases border : piece.text.length = index + 1
    · refine ⟨[piece], others, rfl, ?_⟩
      rw [textOf_singleton, border]
    · obtain ⟨later, rfl⟩ : ∃ later, index = piece.text.length + later := ⟨index - piece.text.length, by omega⟩
      have skip : ∀ place, ((piece.text.map fun c => (c, piece.color)) ++ chars others)[piece.text.length + place]? = (chars others)[place]? := by
        intro place
        rw [List.getElem?_append_right (by simp), List.length_map, Nat.add_sub_cancel_left]
      rw [Nat.add_assoc, skip, skip] at change
      obtain ⟨first, last, rfl, length⟩ := ih (by omega) change
      refine ⟨piece :: first, last, rfl, ?_⟩
      rw [textOf_cons, List.length_append, length, Nat.add_assoc]

private theorem change_of_border {first last : List Piece} {left right : Piece} (differ : left.color ≠ right.color)
    (leftFilled : left.text ≠ []) (rightFilled : right.text ≠ []) :
    ∃ index, (textOf (first ++ [left])).length = index + 1 ∧
      index + 1 < (chars (first ++ left :: right :: last)).length ∧
      colorOf? (first ++ left :: right :: last) index ≠ colorOf? (first ++ left :: right :: last) (index + 1) := by
  obtain ⟨before, c, leftText⟩ := (List.eq_nil_or_concat' left.text).resolve_left leftFilled
  obtain ⟨d, after, rightText⟩ := List.exists_cons_of_ne_nil rightFilled
  have split : chars (first ++ left :: right :: last) = (chars first ++ before.map fun c => (c, left.color)) ++
      (c, left.color) :: (d, right.color) :: (after.map (fun c => (c, right.color)) ++ chars last) := by
    rw [chars_append, chars_cons, chars_cons, leftText, rightText]
    simp only [List.map_append, List.map_cons, List.map_nil, List.append_assoc, List.cons_append, List.nil_append]
  have length : (textOf (first ++ [left])).length = (chars first ++ before.map fun c => (c, left.color)).length + 1 := by
    rw [textOf_append, textOf_singleton, leftText, List.length_append, List.length_append, List.length_append,
      List.length_map, length_chars]
    rfl
  refine ⟨_, length, ?_, ?_⟩
  · simp only [split, List.length_append, List.length_cons]
    omega
  · rw [colorOf?, colorOf?, split, List.getElem?_append_right (Nat.le_refl _), List.getElem?_append_right (Nat.le_add_right ..),
      Nat.sub_self, Nat.add_sub_cancel_left]
    exact fun same => differ (Option.some.inj same)

/-- Runs of one colour keep the graphemes of their text if and only if no colour changes inside
a grapheme. -/
theorem keepsGraphemes_clusters_iff {pieces : List Piece} (filled : ∀ piece ∈ pieces, piece.text ≠ [])
    (chain : pieces.IsChain fun a b => a.color ≠ b.color) :
    Text.KeepsGraphemes (textOf pieces) ((clusters pieces).map Piece.text) ↔
      ∀ index, index + 1 < (chars pieces).length → colorOf? pieces index ≠ colorOf? pieces (index + 1) →
        Text.IsEdge (textOf pieces) (index + 1) := by
  constructor
  · intro keeps index inside change
    rw [← map_fuse_char pieces, ← chars_clusters] at inside
    rw [← colorOf?_clusters pieces index, ← colorOf?_clusters pieces (index + 1)] at change
    obtain ⟨first, last, split, length⟩ := border_of_change inside change
    rw [split, List.map_append] at keeps
    rw [← length, textOf_eq_flatten]
    exact keeps.edge
  · intro edges
    refine CutAtEdges.keeps ?_
    intro first last split
    rcases List.eq_nil_or_concat' first with rfl | ⟨before, left, rfl⟩
    · exact Text.isEdge_zero _
    cases last with
    | nil =>
      rw [List.append_nil] at split
      rw [split]
      exact ⟨_, [], (List.append_nil _).symm, by rw [Text.flatten_graphemes]⟩
    | cons right after =>
      rw [List.append_assoc, List.singleton_append] at split
      subst split
      have differ : left.color ≠ right.color := by
        have rest := (List.isChain_append.mp chain).2.1
        exact (List.isChain_cons_cons.mp rest).1
      obtain ⟨index, length, inside, change⟩ :=
        @change_of_border before after left right differ (filled left (by simp)) (filled right (by simp))
      rw [length]
      exact edges index inside change

private theorem keepsGraphemes_segment_iff (coloured : List (Char × Option String)) :
    Text.KeepsGraphemes (coloured.map Prod.fst) ((segment coloured).map Piece.text) ↔
      ∀ index, index + 1 < coloured.length → colorOf? (segment coloured) index ≠ colorOf? (segment coloured) (index + 1) →
        Text.IsEdge (coloured.map Prod.fst) (index + 1) := by
  have runs := keepsGraphemes_clusters_iff (filled_merge (filled_cells coloured)) (isChain_merge (coloured.map cell))
  have whole : chars (merge (coloured.map cell)) = coloured := by rw [chars_merge, chars_cells]
  have text : textOf (merge (coloured.map cell)) = coloured.map Prod.fst := by rw [← map_fst_chars, whole]
  have colours := fun index => (colorOf?_clusters (merge (coloured.map cell)) index).symm
  rw [text, whole] at runs
  simp only [colours] at runs
  exact runs

end Piece

namespace Block

variable {θ α : Type} [DecidableEq θ] [Add α] [Sub α] [Mul α] [Div α] [Neg α] [LT α] [DecidableLT α] [LE α] [DecidableLE α]
  [OfNat α 0] [OfNat α 1] [OfNat α 2] [FractionalPart α]
  {around : Surroundings θ α} {block : Block θ α} {rules : Rules} {grammar : Grammar}

/-- The clusters of a block that stands still are made of whole graphemes of its code if and
only if its colours change at the ends of graphemes only. -/
theorem graphemes_whole_iff (reached : Reachable around block) (still : block.transition.phase = .idle)
    (known : around.registry.grammar? block.language = some grammar)
    (ruled : (around.theme block.theme).rules = some rules) :
    let shown := (block.clusters around).value
    Text.KeepsGraphemes block.code (shown.map Piece.text) ↔
      ∀ index, index + 1 < block.code.length → Piece.colorOf? shown index ≠ Piece.colorOf? shown (index + 1) →
        Text.IsEdge block.code (index + 1) := by
  intro shown
  have stream : shown = Piece.segment _ := (reached.coherent.still still).trans (freshStream_eq known ruled)
  rw [stream]
  have iff := Piece.keepsGraphemes_segment_iff (block.code.mapIdx fun index c =>
      (c, colorAt rules (block.fallbackFor (around.theme block.theme)) (grammar.tokens block.dialect block.code) index))
  rw [List.length_mapIdx, Piece.map_fst_mapIdx] at iff
  exact iff

/-- A letter with an accent stays whole as long as one colour goes over both. -/
theorem graphemes_whole_iff_accent :
    let plain : Theme := ⟨"plain", some ⟨[("tok-identifier", some "#111111"), ("tok-error", some "#111111")]⟩, some "#222222"⟩
    let around : Surroundings Unit Rat := ⟨.builtin, fun _ => plain, ⟨fun _ => ⟨0, 0, 0⟩, fun _ => ""⟩⟩
    let block := (create () "e\u0301 ".toList .javascript "" none).run around []
    Reachable around block ∧ block.transition.phase = .idle ∧
      around.registry.grammar? block.language = some .javascript ∧ (around.theme block.theme).rules = plain.rules ∧
      Text.KeepsGraphemes block.code ((block.clusters around).value.map Piece.text) := by
  intro plain around block
  have reached : Reachable around block := ⟨_, _, _, _, _, _, rfl⟩
  have still : block.transition.phase = .idle := rfl
  have known : around.registry.grammar? block.language = some .javascript := rfl
  have ruled : (around.theme block.theme).rules = plain.rules := rfl
  refine ⟨reached, still, known, ruled, (graphemes_whole_iff reached still known ruled).mpr ?_⟩
  have colours : Piece.chars (block.clusters around).value =
      [('e', some "#111111"), ('\u0301', some "#111111"), (' ', some "#222222")] := by decide +kernel
  have code : block.code = "e\u0301 ".toList := by decide +kernel
  intro index inside
  rw [code] at inside
  have within : index < 2 := Nat.lt_of_succ_lt_succ inside
  clear inside
  rw [Piece.colorOf?, Piece.colorOf?, colours]
  intro change
  obtain rfl : index = 1 := by
    revert index
    decide
  exact ⟨[['e', '\u0301']], [[' ']], by decide +kernel, rfl⟩

/-- Where a colour changes between a letter and its accent, the two are torn apart: the scanner
of scripts takes a mark that stands alone for an error. -/
theorem not_every_grapheme_whole :
    ¬ ∀ (around : Surroundings Unit Rat) (block : Block Unit Rat) (grammar : Grammar) (rules : Rules),
      Reachable around block → block.transition.phase = .idle → around.registry.grammar? block.language = some grammar →
        (around.theme block.theme).rules = some rules →
        Text.KeepsGraphemes block.code ((block.clusters around).value.map Piece.text) := by
  intro law
  let rules : Rules := ⟨[("tok-identifier", some "#111111"), ("tok-error", some "#222222")]⟩
  let around : Surroundings Unit Rat := ⟨.builtin, fun _ => ⟨"t", some rules, some "#ff0000"⟩, ⟨fun _ => ⟨0, 0, 0⟩, fun _ => ""⟩⟩
  let block := (create () "e\u0301".toList .javascript "" none).run around []
  obtain ⟨groups, whole, texts⟩ := law around block .javascript rules ⟨_, _, _, _, _, _, rfl⟩ rfl rfl rfl
  have single : Text.graphemes block.code = [['e', '\u0301']] := by decide +kernel
  have torn : (block.clusters around).value.map Piece.text = [['e'], ['\u0301']] := by decide +kernel
  rw [single] at whole
  rw [torn] at texts
  obtain ⟨first, others, rfl, letter, rest⟩ := List.map_eq_cons_iff.mp texts
  -- the only grapheme is in the first group or behind it
  rw [List.flatten_cons] at whole
  rcases List.append_eq_singleton_iff.mp whole with ⟨rfl, -⟩ | ⟨rfl, -⟩
  · cases letter
  · cases letter

end Block

end Highlight
