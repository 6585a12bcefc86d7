import Highlight.Block.Display
import Highlight.Proofs.Drawing
import Highlight.Proofs.TextKept

/-! The lines and the size of a block. A line feed is drawn as a cluster of its own, unless it ends
a carriage return, so what stands between these clusters are the lines of the code. The size is
told by the code alone: neither colours nor a running transition can change it. -/

namespace Highlight

namespace Text

variable {γ : Type} [Letter γ]

def Unbroken (piece : List γ) : Prop := piece = [Letter.of '\n'] ∨ Letter.of '\n' ∉ piece

private theorem unbroken_singleton (c : γ) : Unbroken [c] := by
  by_cases feed : c = Letter.of '\n'
  · exact Or.inl (congrArg (fun c => [c]) feed)
  · exact Or.inr fun member => feed (List.mem_singleton.mp member).symm

private theorem length_lines [DecidableEq γ] (text : List γ) : (lines text).length = text.count (Letter.of '\n') + 1 := by
  induction text with
  | nil => rfl
  | cons c rest ih =>
    by_cases feed : c = Letter.of '\n'
    · rw [feed, lines_break, List.length_cons, ih, List.count_cons_self]
    · rw [← List.singleton_append, lines_append (mt List.mem_singleton.mp (Ne.symm feed)), List.length_modifyHead, ih,
        List.singleton_append, List.count_cons_of_ne feed]

private theorem isBoundary_newline_left (odd : Bool) (c : Char) : isBoundary odd '\n' c = true := rfl

private theorem isBoundary_newline_right (odd : Bool) {left : Char} (other : left ≠ '\r') :
    isBoundary odd left '\n' = true := by
  have control : isControl '\n' = true := rfl
  simp [isBoundary, other, control]

/-- A grapheme with more than a line feed could only be a carriage return with its line feed. -/
theorem unbroken_continueGrapheme (odd : Bool) {left : γ} {text : List γ}
    (apart : ¬ [Letter.of '\r', Letter.of '\n'] <:+: left :: text) :
    ∀ grapheme ∈ (left :: (continueGrapheme odd left text).1) :: (continueGrapheme odd left text).2, Unbroken grapheme := by
  induction text generalizing odd left with
  | nil => exact List.forall_mem_singleton.mpr (unbroken_singleton left)
  | cons c rest ih =>
    have later := ih (oddRow odd (Letter.seen c)) fun pair => apart (pair.trans (List.suffix_cons left _).isInfix)
    rw [continueGrapheme_cons]
    split
    · exact List.forall_mem_cons.mpr ⟨unbroken_singleton left, later⟩
    next joined =>
      obtain ⟨here, others⟩ := List.forall_mem_cons.mp later
      have noFeed : left ≠ Letter.of '\n' := by
        rintro rfl
        rw [Letter.seen_of] at joined
        exact joined (isBoundary_newline_left odd _)
      have solid : c ≠ Letter.of '\n' := by
        rintro rfl
        have pair : left = Letter.of '\r' := by
          rw [← Letter.seen_eq_iff (by decide)]
          by_contra other
          rw [Letter.seen_of] at joined
          exact joined (isBoundary_newline_right odd other)
        exact apart ⟨[], rest, by rw [pair]; rfl⟩
      refine List.forall_mem_cons.mpr ⟨Or.inr ?_, others⟩
      rcases here with single | clean
      · exact absurd (List.cons.inj single).1 solid
      · exact List.not_mem_cons_of_ne_of_not_mem noFeed.symm clean

private theorem unbroken_graphemes {text : List γ} (apart : ¬ [Letter.of '\r', Letter.of '\n'] <:+: text) :
    ∀ grapheme ∈ graphemes text, Unbroken grapheme := by
  cases text with
  | nil => exact fun _ none => absurd none List.not_mem_nil
  | cons c rest => exact unbroken_continueGrapheme _ apart

end Text

namespace Piece

variable {γ : Type} [Letter γ]

private theorem unbroken_clustersOf (color : Option String) {graphemes : List (List γ)}
    (unbroken : ∀ grapheme ∈ graphemes, Text.Unbroken grapheme) :
    ∀ piece ∈ clustersOf color graphemes, Text.Unbroken piece.text := by
  have solid : ∀ grapheme ∈ graphemes, Text.hasBlank grapheme = false → Letter.of '\n' ∉ grapheme := by
    intro grapheme member filled
    rcases unbroken grapheme member with rfl | clean
    · rw [Text.hasBlank, List.any_cons, Letter.seen_of] at filled
      cases filled
    · exact clean
  fun_induction clustersOf color graphemes with
  | case1 => exact fun _ none => absurd none List.not_mem_nil
  | case2 first others blank ih =>
    obtain ⟨here, rest⟩ := List.forall_mem_cons.mp unbroken
    exact List.forall_mem_cons.mpr ⟨here, ih rest fun grapheme member => solid grapheme (List.mem_cons_of_mem _ member)⟩
  | case3 first others filled ih =>
    obtain ⟨firstSolid, restSolid⟩ := List.forall_mem_cons.mp solid
    have kept := (List.dropWhile_sublist (fun g => !Text.hasBlank g) (l := others)).subset
    have later := ih (fun grapheme member => unbroken grapheme (List.mem_cons_of_mem _ (kept member)))
      fun grapheme member => restSolid grapheme (kept member)
    refine List.forall_mem_cons.mpr ⟨Or.inr ?_, later⟩
    intro member
    rcases List.mem_append.mp member with here | joined
    · exact firstSolid (Bool.eq_false_iff.mpr filled) here
    · obtain ⟨grapheme, inside, feed⟩ := List.mem_flatten.mp joined
      have clear := List.mem_takeWhile_imp inside
      exact restSolid grapheme ((List.takeWhile_sublist _).subset inside) (by simpa using clear) feed

/-- A pair of line end characters in what a piece has become was one before. -/
theorem unbroken_clusters {pieces : List (Piece γ)} (apart : ¬ [Letter.of '\r', Letter.of '\n'] <:+: textOf pieces) :
    ∀ cluster ∈ clusters pieces, Text.Unbroken cluster.text := by
  intro cluster member
  obtain ⟨piece, inside, found⟩ := List.mem_flatMap.mp member
  have part : piece.text <:+: textOf pieces := by
    rw [textOf_eq_flatten]
    exact List.infix_of_mem_flatten (List.mem_map_of_mem inside)
  have within : ¬ [Letter.of '\r', Letter.of '\n'] <:+: Letter.fused piece.text :=
    fun pair => apart ((Letter.infix_of_fused (by decide) (by decide) pair).trans part)
  exact unbroken_clustersOf piece.color (Text.unbroken_graphemes within) cluster found

/-- The texts between the line breaks of a stream. -/
def lines (pieces : List (Piece γ)) : List (List γ) := (pieces.splitOnP isNewline).map textOf

private theorem lines_eq_rows (pieces : List (Piece γ)) : lines pieces = (rows pieces).map textOf := rfl

private theorem lines_cons_newline {piece : Piece γ} (feed : piece.isNewline = true) (others : List (Piece γ)) :
    lines (piece :: others) = [] :: lines others := by
  rw [lines_eq_rows, rows_cons_newline feed]
  rfl

private theorem lines_cons_text {piece : Piece γ} (solid : piece.isNewline = false) (others : List (Piece γ)) :
    lines (piece :: others) = (lines others).modifyHead (piece.text ++ ·) := by
  obtain ⟨first, more, shape⟩ := List.exists_cons_of_ne_nil (List.splitOnP_ne_nil isNewline others)
  rw [lines_eq_rows, rows_cons_text solid, lines, rows, shape]
  rfl

private theorem isNewline_of_not_mem {piece : Piece γ} (oneLine : Letter.of '\n' ∉ piece.text) :
    piece.isNewline = false := by
  have feed : ∀ text : List Char, '\n' ∈ text → Letter.chars piece.text ≠ text := by
    rintro text member rfl
    rw [Letter.chars_eq] at member
    obtain ⟨c, inside, seen⟩ := List.mem_map.mp member
    rw [Text.seen_newline_iff.mp seen] at inside
    exact oneLine inside
  simp only [isNewline, Bool.or_eq_false_iff, beq_eq_false_iff_ne]
  exact ⟨feed _ (by decide), feed _ (by decide)⟩

private theorem isNewline_break (color : Option String) : isNewline (⟨[Letter.of '\n'], color⟩ : Piece γ) = true := by
  rw [isNewline, Letter.chars_eq, List.map_singleton, Letter.seen_of]
  rfl

private theorem lines_eq {pieces : List (Piece γ)} (unbroken : ∀ piece ∈ pieces, Text.Unbroken piece.text) :
    lines pieces = Text.lines (textOf pieces) := by
  induction pieces with
  | nil => rfl
  | cons piece others ih =>
    obtain ⟨here, rest⟩ := List.forall_mem_cons.mp unbroken
    rw [textOf_cons]
    rcases here with feed | oneLine
    · obtain ⟨text, color⟩ := piece
      obtain rfl : text = [Letter.of '\n'] := feed
      rw [lines_cons_newline (isNewline_break color), ih rest, List.singleton_append, Text.lines_break]
    · rw [lines_cons_text (isNewline_of_not_mem oneLine), ih rest, Text.lines_append oneLine]

end Piece

/-- Widths that add up over texts side by side, none of which is negative. -/
structure Measurer.Additive {α γ : Type} [Zero α] [Add α] [LE α] (measurer : Measurer α γ) : Prop where
  append : ∀ first last, measurer.width (first ++ last) = measurer.width first + measurer.width last
  nonneg : ∀ text, 0 ≤ measurer.width text

section
variable {α γ : Type} [Field α] [LinearOrder α] [IsStrictOrderedRing α] {measurer : Measurer α γ}

theorem Measurer.Additive.width_nil (additive : measurer.Additive) : measurer.width [] = 0 :=
  left_eq_add.mp (additive.append [] [])

theorem Measurer.Additive.width_textOf (additive : measurer.Additive) (row : List (Piece γ)) :
    measurer.width (Piece.textOf row) = measurer.rowWidth row := by
  induction row with
  | nil => exact additive.width_nil
  | cons piece others ih => rw [Piece.textOf_cons, additive.append, ih, Measurer.rowWidth_cons]

/-- A stream that is not empty is as wide as the widest of its lines and as high as all of them. -/
theorem measure_lines [Letter γ] (additive : measurer.Additive) {pieces : List (Piece γ)} (filled : pieces ≠ []) :
    ((Piece.lines pieces).map measurer.width).max? = some (measure measurer pieces).width ∧
      (measure measurer pieces).height = (Piece.lines pieces).length * measurer.lineHeight := by
  have widths : (Piece.lines pieces).map measurer.width = (Piece.rows pieces).map measurer.rowWidth := by
    rw [Piece.lines_eq_rows, List.map_map]
    exact List.map_congr_left fun row _ => additive.width_textOf row
  rw [widths, Piece.lines_eq_rows, List.length_map]
  exact measure_rows additive.nonneg filled

end

namespace Block

variable {θ α γ : Type} [Letter γ] {around : Surroundings θ α} {block : Block θ α γ} {rules : Rules}
  {grammar : Grammar}

private theorem freshStream_unbroken {theme : θ} (known : around.registry.grammar? block.language = some grammar)
    (ruled : (around.theme theme).rules = some rules) (apart : ¬ [Letter.of '\r', Letter.of '\n'] <:+: block.code) :
    ∀ piece ∈ block.freshStream around theme, Text.Unbroken piece.text := by
  obtain ⟨tokens, -, -, stream⟩ := freshStream_coloured known ruled
  rw [stream]
  refine Piece.unbroken_clusters ?_
  rwa [← Piece.map_fst_chars, (Piece.runs_merge _).whole, map_fst_coloured]

variable [DecidableEq θ] [DecidableEq γ] [Field α] [LinearOrder α] [IsStrictOrderedRing α] [FractionalPart α]

/-- After any history the texts between the line breaks of a block are the lines of its code, exactly if
no two halves of a pair stand side by side in one colour. With widths that add up its size is told by
its code: as high as all lines together, and then as wide as the widest line. -/
theorem size_of_code_iff (reached : Reachable around block) (known : around.registry.grammar? block.language = some grammar)
    (ruled : (around.theme block.theme).rules = some rules) (apart : ¬ [Letter.of '\r', Letter.of '\n'] <:+: block.code) :
    ∃ tokens, around.registry.parse block.language block.dialect (Letter.chars block.code) = .ok tokens ∧
      let coloured := block.coloured (around.theme block.theme) rules tokens
      (Piece.lines (block.clusters around).value = Text.lines block.code ↔ Piece.PairsApart coloured) ∧
      ∀ measurer : Measurer α γ, measurer.Additive →
        (block.code = [] → (block.size around measurer).value = ⟨0, 0⟩) ∧
        (block.code ≠ [] →
          (block.size around measurer).value.height = (1 + block.code.count (Letter.of '\n')) * measurer.lineHeight ∧
          (Piece.PairsApart coloured →
            ((Text.lines block.code).map measurer.width).max? = some (block.size around measurer).value.width)) := by
  have texts := reached.coherent.texts
  have shows := reached.shows known ruled
  obtain ⟨tokens, parsed, whole⟩ := reached.textOf_iff known ruled
  have unbroken : ∀ piece ∈ (block.clusters around).value, Text.Unbroken piece.text := by
    refine List.forall_mem_map.mp ?_
    rw [texts]
    exact List.forall_mem_map.mpr (freshStream_unbroken known ruled apart)
  have lines : Piece.lines (block.clusters around).value = Text.lines (Piece.textOf (block.clusters around).value) :=
    Piece.lines_eq unbroken
  refine ⟨tokens, parsed, ?_, fun measurer additive => ⟨?_, ?_⟩⟩
  · rw [lines, Text.lines_inj, whole]
  · intro empty
    rw [size, shows.eq_nil_iff.mpr empty]
    rfl
  · intro filled
    obtain ⟨width, height⟩ := measure_lines additive (mt shows.eq_nil_iff.mp filled)
    refine ⟨?_, fun pairs => ?_⟩
    · have feeds : (Piece.textOf (block.clusters around).value).count (Letter.of '\n') = block.code.count (Letter.of '\n') := by
        rw [← Letter.count_units (by decide), shows.units, Letter.count_units (by decide)]
      rw [lines, Text.length_lines, Nat.cast_succ, add_comm, feeds] at height
      exact height
    · rwa [lines, whole.mpr pairs] at width

/-- In the middle of a transition, with a comment over three lines, an accent on a line feed, and halves
that do not make up a pair. -/
theorem size_of_code_iff_fading :
    let rules : Rules := ⟨[("tok-comment", some "#111111")]⟩
    let around : Surroundings Bool Rat := ⟨.builtin, fun id => if id then ⟨"plain", some rules, none⟩ else ⟨"bare", none, none⟩,
      ⟨fun _ => ⟨0, 0, 0⟩, fun _ => ""⟩⟩
    let code : List CodePoint := "/*\n\n\u0301*/ ab\n".toList.map .scalar ++ [.low 0x200, .high 0x3d]
    let block := (create false code .javascript "" none).run around [.tween true 2 linear, .advance 1]
    let measurer : Measurer Rat CodePoint := ⟨fun text => text.length / 2, 3⟩
    Reachable around block ∧ block.transition.phase = .running false (1 / 2) ∧
      around.registry.grammar? block.language = some .javascript ∧ (around.theme block.theme).rules = some rules ∧
      ¬ [Letter.of '\r', Letter.of '\n'] <:+: block.code ∧ block.code ≠ [] ∧ measurer.Additive ∧
      Piece.lines (block.clusters around).value = Text.lines block.code ∧
      ((Text.lines block.code).map measurer.width).max? = some (block.size around measurer).value.width ∧
      (block.size around measurer).value.height = (1 + block.code.count (Letter.of '\n')) * measurer.lineHeight := by
  intro rules around code block measurer
  have reached : Reachable around block := ⟨_, _, _, _, _, _, rfl⟩
  have running : block.transition.phase = .running false (1 / 2) := by decide +kernel
  have known : around.registry.grammar? block.language = some .javascript := by decide +kernel
  have ruled : (around.theme block.theme).rules = some rules := by decide +kernel
  have apart : ¬ [Letter.of '\r', Letter.of '\n'] <:+: block.code := by decide +kernel
  have filled : block.code ≠ [] := by decide +kernel
  have unpaired : Letter.Unpaired block.code := by decide +kernel
  have additive : measurer.Additive := by
    refine ⟨fun first last => ?_, fun text => ?_⟩
    · change ((first ++ last).length : Rat) / 2 = first.length / 2 + last.length / 2
      rw [List.length_append, Nat.cast_add, add_div]
    · exact div_nonneg (Nat.cast_nonneg _) zero_le_two
  obtain ⟨tokens, -, lines, sized⟩ := size_of_code_iff reached known ruled apart
  have pairs : Piece.PairsApart (block.coloured (around.theme block.theme) rules tokens) := by
    apply Piece.pairsApart_of_unpaired
    rwa [map_fst_coloured]
  obtain ⟨height, width⟩ := (sized measurer additive).2 filled
  exact ⟨reached, running, known, ruled, apart, filled, additive, lines.mpr pairs, width pairs, height⟩

/-- The line of a code that is one pair of halves is shown as another one. -/
theorem not_every_line_shown :
    ¬ ∀ (around : Surroundings Unit Rat) (block : Block Unit Rat CodePoint) (grammar : Grammar) (rules : Rules),
      Reachable around block → around.registry.grammar? block.language = some grammar →
        (around.theme block.theme).rules = some rules → ¬ [Letter.of '\r', Letter.of '\n'] <:+: block.code → block.code ≠ [] →
        Piece.lines (block.clusters around).value = Text.lines block.code := by
  intro law
  let around : Surroundings Unit Rat := ⟨.builtin, fun _ => ⟨"plain", some ⟨[]⟩, some "#808080"⟩, ⟨fun _ => ⟨0, 0, 0⟩, fun _ => ""⟩⟩
  let block : Block Unit Rat CodePoint := create () [.high 0x3d, .low 0x200] .javascript "" none
  have lines := law around block .javascript ⟨[]⟩ ⟨_, _, _, _, _, [], rfl⟩ rfl rfl (by decide +kernel) (by decide +kernel)
  have shown : Piece.lines (block.clusters around).value = [[.scalar '😀']] := by decide +kernel
  have written : Text.lines block.code = [[.high 0x3d, .low 0x200]] := by decide +kernel
  rw [shown, written] at lines
  cases lines

end Block

end Highlight
