import Highlight.Layout
import Mathlib.Algebra.Order.BigOperators.Group.List
import Mathlib.Algebra.Order.Ring.Rat
import Mathlib.Data.List.DropRight
import Mathlib.Data.Nat.Cast.Order.Ring
import Mathlib.Tactic.Ring

/-! Drawing a stream in the box that it was measured at. Measuring and drawing go over the stream
apart from each other; both are told by the rows that its line breaks leave. A row is as wide as its
pieces together, the box is as wide as the widest row, and a piece is drawn behind the pieces
before it on its row. -/

namespace Highlight

namespace Piece

variable {γ : Type} [Letter γ]

/-- The pieces between the line breaks of a stream. -/
def rows (pieces : List (Piece γ)) : List (List (Piece γ)) := pieces.splitOnP isNewline

def lastRow (pieces : List (Piece γ)) : List (Piece γ) := pieces.rtakeWhile fun piece => !piece.isNewline

section
variable {piece : Piece γ}

theorem rows_cons_newline (feed : piece.isNewline = true) (others : List (Piece γ)) :
    rows (piece :: others) = [] :: rows others := by
  rw [rows, List.splitOnP_cons_eq_if_modifyHead, if_pos feed, rows]

theorem rows_cons_text (solid : piece.isNewline = false) (others : List (Piece γ)) :
    rows (piece :: others) = (rows others).modifyHead (piece :: ·) := by
  rw [rows, List.splitOnP_cons_eq_if_modifyHead, if_neg (Bool.eq_false_iff.mp solid), rows]

private theorem length_rows (pieces : List (Piece γ)) : (rows pieces).length = pieces.countP isNewline + 1 := by
  induction pieces with
  | nil => rfl
  | cons piece others ih =>
    cases feed : piece.isNewline with
    | true => rw [rows_cons_newline feed, List.length_cons, ih, List.countP_cons_of_pos feed]
    | false => rw [rows_cons_text feed, List.length_modifyHead, ih, List.countP_cons_of_neg (Bool.eq_false_iff.mp feed)]

private theorem lastRow_newline (before : List (Piece γ)) (feed : piece.isNewline = true) : lastRow
    (before ++ [piece]) = [] := by
  rw [lastRow, List.rtakeWhile_concat_neg _ _ _ (by simp [feed])]

private theorem lastRow_text (before : List (Piece γ)) (solid : piece.isNewline = false) :
    lastRow (before ++ [piece]) = lastRow before ++ [piece] := by
  rw [lastRow, List.rtakeWhile_concat_pos _ _ _ (by simp [solid]), lastRow]

end

end Piece

private theorem greater_eq_max {α : Type} [LinearOrder α] (a b : α) : greater a b = max a b := (max_def_lt a b).symm

namespace Measurer

structure NonNegative {α γ : Type} [Zero α] [LE α] (measurer : Measurer α γ) : Prop where
  width : ∀ text, 0 ≤ measurer.width text
  lineHeight : 0 ≤ measurer.lineHeight

variable {α γ : Type} [Field α]

def rowWidth (measurer : Measurer α γ) (row : List (Piece γ)) : α := (row.map fun piece => measurer.width piece.text).sum

/-- How a piece is drawn behind the pieces before it: not at all if it is a line break, and
otherwise in its colour, right of what stands on its row and below the rows above. -/
def callsBehind [Letter γ] (measurer : Measurer α γ) (before : List (Piece γ)) (piece : Piece γ) : List (DrawCall α γ) :=
  if piece.isNewline then []
  else
    [.color (drawColor piece.color),
      .text piece.text (measurer.rowWidth (Piece.lastRow before)) (before.countP Piece.isNewline * measurer.lineHeight)]

private theorem rowWidth_nil (measurer : Measurer α γ) : measurer.rowWidth [] = 0 := rfl

theorem rowWidth_cons (measurer : Measurer α γ) (piece : Piece γ) (row : List (Piece γ)) :
    measurer.rowWidth (piece :: row) = measurer.width piece.text + measurer.rowWidth row := rfl

private theorem rowWidth_concat (measurer : Measurer α γ) (row : List (Piece γ)) (piece : Piece γ) :
    measurer.rowWidth (row ++ [piece]) = measurer.rowWidth row + measurer.width piece.text := by
  rw [rowWidth, List.map_append, List.sum_append]
  exact congrArg (measurer.rowWidth row + ·) (List.sum_singleton ..)

private theorem rowWidth_nonneg [LinearOrder α] [IsStrictOrderedRing α] {measurer : Measurer α γ}
    (nonneg : ∀ text, 0 ≤ measurer.width text) (row : List (Piece γ)) : 0 ≤ measurer.rowWidth row :=
  List.sum_nonneg (List.forall_mem_map.mpr fun piece _ => nonneg piece.text)

end Measurer

section
variable {α γ : Type} [Letter γ] [Field α]

/-- Behind `before`, the two numbers that drawing carries along are the width of the last row and
the height of the rows above it. -/
theorem drawFrom_eq (measurer : Measurer α γ) (before pieces : List (Piece γ)) :
    drawFrom measurer (measurer.rowWidth (Piece.lastRow before)) (before.countP Piece.isNewline * measurer.lineHeight) pieces =
      (pieces.mapIdx fun index piece => measurer.callsBehind (before ++ pieces.take index) piece).flatten := by
  induction pieces generalizing before with
  | nil => rfl
  | cons piece others ih =>
    have next := ih (before ++ [piece])
    simp only [List.append_assoc, List.singleton_append] at next
    simp only [List.mapIdx_cons, List.flatten_cons, List.take_zero, List.append_nil, List.take_succ_cons]
    rw [← next, drawFrom, Measurer.callsBehind]
    cases feed : piece.isNewline with
    | true =>
      have below : (((before ++ [piece]).countP Piece.isNewline : Nat) : α) = before.countP Piece.isNewline + 1 := by
        rw [List.countP_append, List.countP_cons_of_pos feed, List.countP_nil, Nat.cast_add, Nat.cast_one]
      rw [Piece.lastRow_newline before feed, Measurer.rowWidth_nil, below, add_one_mul]
      rfl
    | false =>
      have beside : (before ++ [piece]).countP Piece.isNewline = before.countP Piece.isNewline := by
        rw [List.countP_append, List.countP_cons_of_neg (Bool.eq_false_iff.mp feed), List.countP_nil, Nat.add_zero]
      rw [Piece.lastRow_text before feed, Measurer.rowWidth_concat, beside]
      rfl

private theorem drawFrom_start (measurer : Measurer α γ) (pieces : List (Piece γ)) :
    drawFrom measurer 0 0 pieces =
      (pieces.mapIdx fun index piece => measurer.callsBehind (pieces.take index) piece).flatten := by
  have start := drawFrom_eq measurer [] pieces
  rw [List.countP_nil, Nat.cast_zero, zero_mul] at start
  exact start

/-- Each text is drawn at the place of a piece that is no line break. -/
theorem exists_of_text_mem_drawFrom {measurer : Measurer α γ} {pieces : List (Piece γ)} {content : List γ} {x y : α}
    (drawn : .text content x y ∈ drawFrom measurer 0 0 pieces) :
    ∃ before piece after, pieces = before ++ piece :: after ∧ piece.isNewline = false ∧ content = piece.text ∧
      x = measurer.rowWidth (Piece.lastRow before) ∧ y = before.countP Piece.isNewline * measurer.lineHeight := by
  rw [drawFrom_start] at drawn
  obtain ⟨calls, member, inside⟩ := List.mem_flatten.mp drawn
  obtain ⟨index, bound, rfl⟩ := List.mem_mapIdx.mp member
  refine ⟨pieces.take index, pieces[index], pieces.drop (index + 1), ?_, ?_⟩
  · rw [List.getElem_cons_drop, List.take_append_drop]
  rw [Measurer.callsBehind] at inside
  cases feed : pieces[index].isNewline with
  | true =>
    rw [if_pos feed] at inside
    cases inside
  | false => simpa [feed] using inside

variable [LinearOrder α] {measurer : Measurer α γ} {piece : Piece γ}

theorem Extent.add_newline (extent : Extent α) (feed : piece.isNewline = true) :
    extent.add measurer piece = ⟨max extent.widest extent.current, 0, extent.height + measurer.lineHeight⟩ := by
  rw [Extent.add, if_pos feed, greater_eq_max]

theorem Extent.add_text (extent : Extent α) (solid : piece.isNewline = false) :
    extent.add measurer piece = ⟨extent.widest, extent.current + measurer.width piece.text, extent.height⟩ := by
  rw [Extent.add, if_neg (Bool.eq_false_iff.mp solid)]

def Measurer.extentBehind (measurer : Measurer α γ) (before : List (Piece γ)) : Extent α :=
  before.foldl (Extent.add measurer) ⟨0, 0, measurer.lineHeight⟩

private theorem measure_eq {pieces : List (Piece γ)} (filled : pieces ≠ []) :
    measure measurer pieces = ⟨max (measurer.extentBehind pieces).widest (measurer.extentBehind pieces).current,
      (measurer.extentBehind pieces).height⟩ := by
  rw [measure, if_neg (by simpa using filled)]
  simp only [greater_eq_max, Measurer.extentBehind]

theorem Measurer.extentBehind_concat (measurer : Measurer α γ) (before : List (Piece γ)) (piece : Piece γ) :
    measurer.extentBehind (before ++ [piece]) = (measurer.extentBehind before).add measurer piece := List.foldl_append

theorem Measurer.current_extentBehind (measurer : Measurer α γ) (before : List (Piece γ)) :
    (measurer.extentBehind before).current = measurer.rowWidth (Piece.lastRow before) := by
  induction before using List.reverseRecOn with
  | nil => rfl
  | append_singleton before piece ih =>
    rw [Measurer.extentBehind_concat]
    cases feed : piece.isNewline with
    | true => rw [Extent.add_newline _ feed, Piece.lastRow_newline before feed, Measurer.rowWidth_nil]
    | false => rw [Extent.add_text _ feed, Piece.lastRow_text before feed, Measurer.rowWidth_concat, ih]

/-- What a stream adds to an extent: its first row goes on with the current line, and every row
behind it is a line of its own. -/
theorem foldl_extent (pieces : List (Piece γ)) (extent : Extent α) :
    ∃ first others, Piece.rows pieces = first :: others ∧
      let last := pieces.foldl (Extent.add measurer) extent
      max last.widest last.current =
          (others.map measurer.rowWidth).foldl max (max extent.widest (extent.current + measurer.rowWidth first)) ∧
        last.height = extent.height + others.length * measurer.lineHeight := by
  induction pieces generalizing extent with
  | nil => exact ⟨[], [], rfl, by simp [Measurer.rowWidth_nil]⟩
  | cons piece more ih =>
    rw [List.foldl_cons]
    obtain ⟨first, others, shape, width, height⟩ := ih (extent.add measurer piece)
    cases feed : piece.isNewline with
    | true =>
      rw [extent.add_newline feed] at width height ⊢
      refine ⟨[], first :: others, by rw [Piece.rows_cons_newline feed, shape], ?_, ?_⟩
      · rw [width, zero_add, Measurer.rowWidth_nil, add_zero, List.map_cons, List.foldl_cons]
      · rw [height, List.length_cons, Nat.cast_succ]
        ring
    | false =>
      rw [extent.add_text feed] at width height ⊢
      refine ⟨piece :: first, others, by rw [Piece.rows_cons_text feed, shape]; rfl, ?_, height⟩
      rw [width, Measurer.rowWidth_cons, add_assoc]

variable [IsStrictOrderedRing α]

/-- A stream that is not empty is as wide as the widest of its rows and as high as all of them. -/
theorem measure_rows (nonneg : ∀ text, 0 ≤ measurer.width text) {pieces : List (Piece γ)} (filled : pieces ≠ []) :
    ((Piece.rows pieces).map measurer.rowWidth).max? = some (measure measurer pieces).width ∧
      (measure measurer pieces).height = (Piece.rows pieces).length * measurer.lineHeight := by
  obtain ⟨first, others, shape, width, height⟩ := foldl_extent pieces ⟨0, 0, measurer.lineHeight⟩
  rw [zero_add, max_eq_right (Measurer.rowWidth_nonneg nonneg first)] at width
  rw [measure_eq filled, Measurer.extentBehind, width, height, shape, List.map_cons, List.max?_cons', List.length_cons,
    Nat.cast_succ]
  exact ⟨rfl, by ring⟩

/-- A stream does not become narrower behind any of its pieces. -/
theorem reach_le_foldl (nonneg : ∀ text, 0 ≤ measurer.width text) (pieces : List (Piece γ)) (extent : Extent α) :
    let last := pieces.foldl (Extent.add measurer) extent
    max extent.widest extent.current ≤ max last.widest last.current := by
  induction pieces generalizing extent with
  | nil => exact le_rfl
  | cons piece more ih =>
    refine le_trans ?_ (ih (extent.add measurer piece))
    cases feed : piece.isNewline with
    | true =>
      rw [extent.add_newline feed]
      exact le_max_left ..
    | false =>
      rw [extent.add_text feed]
      exact max_le_max le_rfl (le_add_of_nonneg_right (nonneg piece.text))

private theorem rowWidth_lastRow_le (nonneg : ∀ text, 0 ≤ measurer.width text) {before : List (Piece γ)}
    (filled : before ≠ [])
    (after : List (Piece γ)) : measurer.rowWidth (Piece.lastRow before) ≤ (measure measurer (before ++ after)).width := by
  rw [measure_eq (List.append_ne_nil_of_left_ne_nil filled after), Measurer.extentBehind, List.foldl_append,
    ← Measurer.current_extentBehind]
  exact (le_max_right ..).trans (reach_le_foldl nonneg after _)

/-- Drawing stays in the box that was measured. The calls are those of the pieces one after another,
each at the place that the pieces before it tell, and no text reaches beyond the box. The box is no
larger than it must be: one row fills its width, and the rows fill its height. -/
theorem drawing_fills_measure (nonneg : measurer.NonNegative) (pieces : List (Piece γ)) :
    let size := measure measurer pieces
    draw measurer size pieces =
        .save :: .translate (-size.width / 2) (-size.height / 2) ::
          (pieces.mapIdx fun index piece => measurer.callsBehind (pieces.take index) piece).flatten ++ [.restore] ∧
      (∀ content x y, .text content x y ∈ draw measurer size pieces →
        0 ≤ x ∧ 0 ≤ y ∧ x + measurer.width content ≤ size.width ∧ y + measurer.lineHeight ≤ size.height) ∧
      (pieces ≠ [] → (∃ row ∈ Piece.rows pieces, measurer.rowWidth row = size.width) ∧
        size.height = (1 + pieces.countP Piece.isNewline) * measurer.lineHeight) := by
  intro size
  have sized : ∀ filled : pieces ≠ [], size.height = (1 + pieces.countP Piece.isNewline) * measurer.lineHeight := by
    intro filled
    rw [(measure_rows nonneg.width filled).2, Piece.length_rows, Nat.cast_succ, add_comm]
  refine ⟨by rw [draw, drawFrom_start], ?_, ?_⟩
  · intro content x y drawn
    have inside : .text content x y ∈ drawFrom measurer 0 0 pieces := by simpa [draw] using drawn
    obtain ⟨before, piece, after, rfl, solid, rfl, rfl, rfl⟩ := exists_of_text_mem_drawFrom inside
    refine ⟨Measurer.rowWidth_nonneg nonneg.width _, mul_nonneg (Nat.cast_nonneg _) nonneg.lineHeight, ?_, ?_⟩
    · have reach := rowWidth_lastRow_le nonneg.width (List.concat_ne_nil piece before) after
      rwa [Piece.lastRow_text before solid, Measurer.rowWidth_concat, List.append_assoc] at reach
    · have above : before.countP Piece.isNewline ≤ (before ++ piece :: after).countP Piece.isNewline :=
        (List.sublist_append_left ..).countP_le
      rw [sized (by simp), add_comm, ← one_add_mul]
      exact mul_le_mul_of_nonneg_right (add_le_add le_rfl (Nat.cast_le.mpr above)) nonneg.lineHeight
  · intro filled
    refine ⟨?_, sized filled⟩
    obtain ⟨row, member, width⟩ := List.mem_map.mp (List.max?_mem (measure_rows nonneg.width filled).1)
    exact ⟨row, member, width⟩

end

/-- A carriage return with its line feed, an empty row and a trailing line break. -/
theorem drawing_fills_measure_empty_rows :
    let measurer : Measurer Rat := ⟨fun text => text.length / 2, 3⟩
    let pieces : List Piece := [⟨['a', 'b'], some "#111111"⟩, ⟨[' '], none⟩, ⟨['\r', '\n'], none⟩, ⟨['\n'], some "#222222"⟩,
      ⟨['c'], some ""⟩, ⟨['\n'], none⟩]
    let size := measure measurer pieces
    measurer.NonNegative ∧ pieces ≠ [] ∧ size = ⟨3 / 2, 12⟩ ∧
      draw measurer size pieces =
        .save :: .translate (-size.width / 2) (-size.height / 2) ::
          (pieces.mapIdx fun index piece => measurer.callsBehind (pieces.take index) piece).flatten ++ [.restore] ∧
      draw measurer size pieces = [.save, .translate (-3 / 4) (-6), .color "#111111", .text ['a', 'b'] 0 0,
        .color defaultDrawColor, .text [' '] 1 0, .color defaultDrawColor, .text ['c'] 0 6, .restore] ∧
      (∀ content x y, .text content x y ∈ draw measurer size pieces →
        0 ≤ x ∧ 0 ≤ y ∧ x + measurer.width content ≤ size.width ∧ y + measurer.lineHeight ≤ size.height) ∧
      (∃ row ∈ Piece.rows pieces, measurer.rowWidth row = size.width) ∧
      size.height = (1 + pieces.countP Piece.isNewline) * measurer.lineHeight := by
  intro measurer pieces size
  have nonneg : measurer.NonNegative := ⟨fun text => div_nonneg (Nat.cast_nonneg _) zero_le_two, by decide +kernel⟩
  have filled : pieces ≠ [] := List.cons_ne_nil _ _
  have measured : size = ⟨3 / 2, 12⟩ := by decide +kernel
  have drawn : draw measurer size pieces = [.save, .translate (-3 / 4) (-6), .color "#111111", .text ['a', 'b'] 0 0,
      .color defaultDrawColor, .text [' '] 1 0, .color defaultDrawColor, .text ['c'] 0 6, .restore] := by decide +kernel
  obtain ⟨calls, inside, tight⟩ := drawing_fills_measure nonneg pieces
  obtain ⟨row, height⟩ := tight filled
  exact ⟨nonneg, filled, measured, calls, drawn, inside, row, height⟩

end Highlight
