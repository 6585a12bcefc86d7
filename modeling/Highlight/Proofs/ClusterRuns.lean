import Highlight.Proofs.TextKept
import Mathlib.Data.List.TakeWhile

/-! What clusters are made of. A grapheme with a blank in it is drawn by itself, and the graphemes
between two of these are drawn together, as long as they have one colour. These rules leave no
choice: a stream that keeps to them is the stream of clusters. The graphemes are those of a text that
went through UTF-16. -/

namespace Highlight.Piece

variable {γ : Type} [Letter γ]

def Solid (group : List (List γ)) : Prop := ∀ grapheme ∈ group, Text.hasBlank grapheme = false

private theorem solid_iff {group : List (List γ)} : Solid group ↔ Text.hasBlank group.flatten = false := by
  simp only [Solid, Text.hasBlank, List.any_flatten, List.any_eq_false, Bool.not_eq_true]

/-- Graphemes in groups that are drawn one by one. -/
structure Grouped (graphemes : List (List γ)) (groups : List (List (List γ))) : Prop where
  whole : groups.flatten = graphemes
  each : ∀ group ∈ groups, (∃ grapheme, group = [grapheme] ∧ Text.hasBlank grapheme = true) ∨ group ≠ [] ∧ Solid group
  apart : groups.IsChain fun first next => ¬ (Solid first ∧ Solid next)

namespace Grouped

variable {first : List γ} {graphemes others : List (List γ)} {groups : List (List (List γ))}

theorem nil (grouped : Grouped [] groups) : groups = [] := by
  cases groups with
  | nil => rfl
  | cons group later =>
    obtain ⟨none, -⟩ := List.append_eq_nil_iff.mp grouped.whole
    rcases grouped.each group (List.mem_cons_self ..) with ⟨grapheme, single, -⟩ | ⟨filled, -⟩
    · exact absurd (single.symm.trans none) (List.cons_ne_nil _ _)
    · exact absurd none filled

/-- The first group begins with the first grapheme, and the others group what it leaves. -/
theorem cons (grouped : Grouped (first :: others) groups) :
    ∃ run later, groups = (first :: run) :: later ∧ run ++ later.flatten = others ∧ Grouped later.flatten later := by
  cases groups with
  | nil => cases grouped.whole
  | cons group later =>
    have rest : Grouped later.flatten later :=
      ⟨rfl, fun other member => grouped.each other (List.mem_cons_of_mem _ member), grouped.apart.tail⟩
    have whole : group ++ later.flatten = first :: others := grouped.whole
    rcases List.append_eq_cons_iff.mp whole with ⟨none, -⟩ | ⟨run, rfl, behind⟩
    · rcases grouped.each group (List.mem_cons_self ..) with ⟨grapheme, single, -⟩ | ⟨filled, -⟩
      · exact absurd (single.symm.trans none) (List.cons_ne_nil _ _)
      · exact absurd none filled
    · exact ⟨run, later, rfl, behind.symm, rest⟩

/-- A grapheme with a blank makes up its group. -/
theorem of_blank (grouped : Grouped (first :: others) groups) (blank : Text.hasBlank first = true) :
    ∃ later, groups = [first] :: later ∧ Grouped others later := by
  obtain ⟨run, later, rfl, whole, rest⟩ := grouped.cons
  rcases grouped.each _ (List.mem_cons_self ..) with ⟨grapheme, single, -⟩ | ⟨-, solid⟩
  · obtain ⟨-, rfl⟩ := List.cons.inj single
    exact ⟨later, rfl, whole ▸ rest⟩
  · exact absurd (blank.symm.trans (solid first (List.mem_cons_self ..))) Bool.noConfusion

/-- A grapheme without one is drawn with all that follow up to the next blank. -/
theorem of_solid (grouped : Grouped (first :: others) groups) (solid : Text.hasBlank first = false) :
    ∃ later, groups = (first :: others.takeWhile fun grapheme => !Text.hasBlank grapheme) :: later ∧
      Grouped (others.dropWhile fun grapheme => !Text.hasBlank grapheme) later := by
  obtain ⟨run, later, rfl, whole, rest⟩ := grouped.cons
  have together : Solid (first :: run) := by
    rcases grouped.each _ (List.mem_cons_self ..) with ⟨grapheme, single, blank⟩ | ⟨-, solid⟩
    · obtain ⟨rfl, -⟩ := List.cons.inj single
      exact absurd (blank.symm.trans solid) Bool.noConfusion
    · exact solid
  have runs : ∀ grapheme ∈ run, (!Text.hasBlank grapheme) = true := by
    intro grapheme member
    rw [together grapheme (List.mem_cons_of_mem _ member)]
    rfl
  -- the group behind a run without blanks is a grapheme with one
  have stops : later.flatten.takeWhile (fun grapheme => !Text.hasBlank grapheme) = [] ∧
      later.flatten.dropWhile (fun grapheme => !Text.hasBlank grapheme) = later.flatten := by
    cases later with
    | nil => exact ⟨rfl, rfl⟩
    | cons next more =>
      have apart := (List.isChain_cons_cons.mp grouped.apart).1
      rcases grouped.each next (List.mem_cons_of_mem _ (List.mem_cons_self ..)) with ⟨grapheme, rfl, blank⟩ | ⟨-, solid⟩
      · simp [blank]
      · exact absurd ⟨together, solid⟩ apart
  obtain ⟨none, all⟩ := stops
  rw [← whole, List.takeWhile_append_of_pos runs, List.dropWhile_append_of_pos runs, none, all, List.append_nil]
  exact ⟨later, rfl, rest⟩

/-- What a run of graphemes without blanks leaves begins with a blank. -/
theorem head_blank {group : List (List γ)}
    (grouped : Grouped (graphemes.dropWhile fun grapheme => !Text.hasBlank grapheme) (group :: groups)) :
    ∃ grapheme ∈ group, Text.hasBlank grapheme = true := by
  have stop := List.head?_dropWhile_not (fun grapheme => !Text.hasBlank grapheme) graphemes
  cases found : graphemes.dropWhile (fun grapheme => !Text.hasBlank grapheme) with
  | nil =>
    rw [found] at grouped
    exact absurd grouped.nil (List.cons_ne_nil _ _)
  | cons first others =>
    rw [found] at grouped stop
    obtain ⟨run, later, same, -⟩ := grouped.cons
    obtain ⟨rfl, -⟩ := List.cons.inj same
    exact ⟨first, List.mem_cons_self .., by simpa using stop⟩

private theorem cons_blank (grouped : Grouped others groups) (blank : Text.hasBlank first = true) :
    Grouped (first :: others) ([first] :: groups) := by
  refine ⟨congrArg (first :: ·) grouped.whole, List.forall_mem_cons.mpr ⟨Or.inl ⟨first, rfl, blank⟩, grouped.each⟩, ?_⟩
  refine List.isChain_cons.mpr ⟨fun next _ both => ?_, grouped.apart⟩
  exact absurd (blank.symm.trans (both.1 first (List.mem_cons_self ..))) Bool.noConfusion

private theorem cons_solid (grouped : Grouped (others.dropWhile fun grapheme => !Text.hasBlank grapheme) groups)
    (solid : Text.hasBlank first = false) :
    Grouped (first :: others) ((first :: others.takeWhile fun grapheme => !Text.hasBlank grapheme) :: groups) := by
  have run : Solid (first :: others.takeWhile fun grapheme => !Text.hasBlank grapheme) := by
    refine List.forall_mem_cons.mpr ⟨solid, fun grapheme member => ?_⟩
    simpa using List.mem_takeWhile_imp member
  refine ⟨?_, List.forall_mem_cons.mpr ⟨Or.inr ⟨List.cons_ne_nil _ _, run⟩, grouped.each⟩, ?_⟩
  · rw [List.flatten_cons, grouped.whole, List.cons_append, List.takeWhile_append_dropWhile]
  · refine List.isChain_cons.mpr ⟨fun next found both => ?_, grouped.apart⟩
    obtain ⟨more, rfl⟩ := List.head?_eq_some_iff.mp found
    obtain ⟨grapheme, inside, blank⟩ := grouped.head_blank
    exact absurd (blank.symm.trans (both.2 grapheme inside)) Bool.noConfusion

end Grouped

/-- The clusters of graphemes are their groups, and there is only one way to group them. -/
theorem clustersOf_eq_iff (color : Option String) (graphemes : List (List γ)) (clusters : List (Piece γ)) :
    clustersOf color graphemes = clusters ↔
      ∃ groups, Grouped graphemes groups ∧ clusters = groups.map fun group => ⟨group.flatten, color⟩ := by
  constructor
  · rintro rfl
    fun_induction clustersOf color graphemes with
    | case1 => exact ⟨[], ⟨rfl, fun _ none => absurd none List.not_mem_nil, .nil⟩, rfl⟩
    | case2 first others blank ih =>
      obtain ⟨groups, grouped, same⟩ := ih
      exact ⟨_, grouped.cons_blank blank, by rw [same, List.map_cons, List.flatten_singleton]⟩
    | case3 first others solid ih =>
      obtain ⟨groups, grouped, same⟩ := ih
      exact ⟨_, grouped.cons_solid (Bool.eq_false_iff.mpr solid), by rw [same, List.map_cons, List.flatten_cons]⟩
  · rintro ⟨groups, grouped, rfl⟩
    fun_induction clustersOf color graphemes generalizing groups with
    | case1 =>
      rw [grouped.nil]
      rfl
    | case2 first others blank ih =>
      obtain ⟨later, rfl, rest⟩ := grouped.of_blank blank
      rw [ih later rest, List.map_cons, List.flatten_singleton]
    | case3 first others solid ih =>
      obtain ⟨later, rfl, rest⟩ := grouped.of_solid (Bool.eq_false_iff.mpr solid)
      rw [ih later rest, List.map_cons, List.flatten_cons]

/-- What the clusters of one piece owe it. Each is a grapheme with a blank or a run of graphemes
without one, and no two neighbours could have been drawn together. -/
structure Drawn (piece : Piece γ) (clusters : List (Piece γ)) : Prop where
  text : textOf clusters = Letter.fused piece.text
  color : ∀ cluster ∈ clusters, cluster.color = piece.color
  filled : ∀ cluster ∈ clusters, cluster.text ≠ []
  graphemes : ∃ groups : List (List (List γ)), groups.flatten = Text.graphemes (Letter.fused piece.text) ∧
    groups.map List.flatten = clusters.map Piece.text ∧
    ∀ group ∈ groups, (∃ grapheme, group = [grapheme] ∧ Text.hasBlank grapheme = true) ∨ group ≠ [] ∧ Solid group
  apart : clusters.IsChain fun first next => Text.hasBlank first.text = true ∨ Text.hasBlank next.text = true

private theorem not_both_solid_iff {first next : List (List γ)} :
    ¬ (Solid first ∧ Solid next) ↔ Text.hasBlank first.flatten = true ∨ Text.hasBlank next.flatten = true := by
  rw [solid_iff, solid_iff, Decidable.not_and_iff_or_not, Bool.not_eq_false, Bool.not_eq_false]

/-- Nothing but the clusters of a piece is drawn like that. -/
theorem drawn_iff {piece : Piece γ} {clusters : List (Piece γ)} : Drawn piece clusters ↔ piece.split = clusters := by
  constructor
  · intro drawn
    obtain ⟨groups, whole, texts, each⟩ := drawn.graphemes
    have coloured : (clusters.map Piece.text).map (fun text => ⟨text, piece.color⟩) = clusters := by
      rw [List.map_map]
      refine (List.map_congr_left fun cluster member => ?_).trans (List.map_id clusters)
      rw [Function.comp_apply, ← drawn.color cluster member]
      rfl
    have same : clusters = groups.map fun group => ⟨group.flatten, piece.color⟩ := by
      rw [← coloured, ← texts, List.map_map]
      rfl
    have apart := drawn.apart
    rw [same, List.isChain_map] at apart
    apply (clustersOf_eq_iff ..).mpr
    exact ⟨groups, ⟨whole, each, apart.imp fun first next => not_both_solid_iff.mpr⟩, same⟩
  · rintro rfl
    obtain ⟨groups, grouped, same⟩ := (clustersOf_eq_iff piece.color (Text.graphemes (Letter.fused piece.text)) piece.split).mp rfl
    have texts : piece.split.map Piece.text = groups.map List.flatten := by
      rw [same, List.map_map]
      rfl
    refine ⟨?_, ?_, filled_clustersOf _ (Text.filled_graphemes _), ⟨groups, grouped.whole, texts.symm, grouped.each⟩, ?_⟩
    · rw [textOf_eq_flatten, texts, ← List.flatten_flatten, grouped.whole, Text.flatten_graphemes]
    · rw [same]
      simp only [List.forall_mem_map, implies_true]
    · rw [same, List.isChain_map]
      exact grouped.apart.imp fun first next => not_both_solid_iff.mp

private theorem split_drawn (piece : Piece γ) : Drawn piece piece.split := drawn_iff.mpr rfl

private theorem clusters_cons (piece : Piece γ) (others : List (Piece γ)) : clusters
    (piece :: others) = piece.split ++ clusters others :=
  List.flatMap_cons

/-- Streams of clusters that are drawn piece by piece. -/
theorem clusters_eq_iff (pieces stream : List (Piece γ)) :
    clusters pieces = stream ↔ ∃ parts, List.Forall₂ Drawn pieces parts ∧ parts.flatten = stream := by
  constructor
  · rintro rfl
    have each : List.Forall₂ Drawn pieces (pieces.map split) :=
      List.forall₂_map_right_iff.mpr (List.forall₂_same.mpr fun piece _ => split_drawn piece)
    exact ⟨pieces.map split, each, List.flatMap_def.symm⟩
  · rintro ⟨parts, drawn, rfl⟩
    induction drawn with
    | nil => rfl
    | cons here _ ih => rw [clusters_cons, drawn_iff.mp here, ih, List.flatten_cons]

/-- The first cluster comes from the first piece, if this holds any text. -/
theorem head?_clusters_color {piece cluster : Piece γ} {others : List (Piece γ)} (filled : piece.text ≠ [])
    (found : cluster ∈ (clusters (piece :: others)).head?) : cluster.color = piece.color := by
  have drawn := split_drawn piece
  obtain ⟨first, rest, shape⟩ : ∃ first rest, piece.split = first :: rest := by
    apply List.exists_cons_of_ne_nil
    intro none
    rw [none] at drawn
    exact filled (Letter.fused_eq_nil_iff.mp drawn.text.symm)
  rw [clusters_cons, shape] at found
  obtain rfl : first = cluster := Option.some.inj found
  exact drawn.color first (shape ▸ List.mem_cons_self ..)

/-- Where neighbours differ in colour, two clusters of one colour never stand side by side unless one
of them holds a blank. -/
theorem apart_clusters {pieces : List (Piece γ)} (filled : ∀ piece ∈ pieces, piece.text ≠ [])
    (chain : pieces.IsChain fun first next => first.color ≠ next.color) :
    (clusters pieces).IsChain fun first next =>
      first.color = next.color → Text.hasBlank first.text = true ∨ Text.hasBlank next.text = true := by
  induction pieces with
  | nil => exact .nil
  | cons piece others ih =>
    rw [clusters_cons]
    apply List.isChain_append.mpr
    refine ⟨(split_drawn piece).apart.imp fun _ _ blank _ => blank, ih (List.forall_mem_cons.mp filled).2 chain.tail, ?_⟩
    intro last ends first begins same
    -- over the border between two pieces the colour changes
    cases others with
    | nil => cases begins
    | cons next more =>
      have left := (split_drawn piece).color last (List.mem_of_getLast? ends)
      have right := head?_clusters_color (filled next (List.mem_cons_of_mem _ (List.mem_cons_self ..))) begins
      have change := (List.isChain_cons_cons.mp chain).1
      exact absurd (left.symm.trans (same.trans right)) change

/-- The clusters of pieces are those that keep, piece by piece, to the rules of drawing, and no other
stream does. They make up what the UTF-16 units of their piece are decoded to, which is its text exactly
if no two halves of a pair stand side by side in it. Where equal neighbours were joined before, two clusters of one colour never
stand side by side unless one of them holds a blank. -/
theorem clusters_are_canonical (pieces : List (Piece γ)) :
    (∀ stream, clusters pieces = stream ↔ ∃ parts, List.Forall₂ Drawn pieces parts ∧ parts.flatten = stream) ∧
      (∀ (piece : Piece γ) (part : List (Piece γ)), Drawn piece part →
        (textOf part).map (fun c => (Letter.point c).value) = Text.decode (Letter.units piece.text) ∧
          Letter.units (textOf part) = Letter.units piece.text ∧ (textOf part = piece.text ↔ Letter.Unpaired piece.text)) ∧
      ∀ coloured : List (γ × Option String), (clusters (merge (coloured.map cell))).IsChain fun first next =>
        first.color = next.color → Text.hasBlank first.text = true ∨ Text.hasBlank next.text = true := by
  refine ⟨clusters_eq_iff pieces, fun piece part drawn => ⟨?_, ?_, ?_⟩, fun coloured => ?_⟩
  · rw [drawn.text, Letter.decode_units]
  · rw [drawn.text, Letter.units_fused]
  · rw [drawn.text, Letter.fused_eq_self_iff]
  · exact apart_clusters (filled_merge (filled_cells coloured)) (isChain_merge _)

/-- A piece of two halves that make up a pair does not come back from its clusters. -/
theorem not_every_piece_joins :
    ¬ ∀ pieces : List (Piece CodePoint), ∃ parts,
      List.Forall₂ (fun piece part => textOf part = piece.text) pieces parts ∧ parts.flatten = clusters pieces := by
  intro law
  obtain ⟨parts, joins, whole⟩ := law [⟨[.high 0x3d, .low 0x200], none⟩]
  obtain ⟨part, others, text, rest, rfl⟩ := List.forall₂_cons_left_iff.mp joins
  obtain rfl := List.forall₂_nil_left_iff.mp rest
  have shown : clusters [(⟨[.high 0x3d, .low 0x200], none⟩ : Piece CodePoint)] = [⟨[.scalar '😀'], none⟩] := by decide +kernel
  rw [List.flatten_singleton, shown] at whole
  rw [whole] at text
  cases text

end Highlight.Piece
