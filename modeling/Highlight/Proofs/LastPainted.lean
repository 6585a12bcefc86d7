import Highlight.Piece.Painter
import Highlight.Proofs.Painting
import Mathlib.Data.List.Forall2

/-! A painter makes its cells as ranges reach them. Cells that it has not made yet would still be
unpainted, so at any time its cells and as many unpainted ones as the text has left are the row of
cells that painting all of the text at once has come to. What was painted before, in an earlier
build too, is forgotten where a build begins. -/

namespace Highlight

namespace Piece

private theorem unpainted_append (fallback : Option String) (first last : List Char) :
    unpainted fallback (first ++ last) = unpainted fallback first ++ unpainted fallback last := List.map_append

private theorem length_unpainted (fallback : Option String) (text : List Char) :
    (unpainted fallback text).length = text.length :=
  List.length_map ..

private theorem length_cover (range : Range) (color : String) (cells : List Piece) :
    (cover range color cells).length = cells.length :=
  List.length_mapIdx

private theorem length_paint (rules : Rules) (cells : List Piece) (ranges : List Range) :
    (paint rules cells ranges).1.length = cells.length := by
  induction ranges generalizing cells with
  | nil => rfl
  | cons range others ih =>
    unfold paint
    cases rules.resolve? range.classList with
    | some color => exact (ih _).trans (length_cover range color cells)
    | none => exact ih cells

private theorem paint_append (rules : Rules) (cells : List Piece) (first last : List Range) :
    paint rules cells (first ++ last) =
      ((paint rules (paint rules cells first).1 last).1,
        (paint rules cells first).2 ++ (paint rules (paint rules cells first).1 last).2) := by
  induction first generalizing cells with
  | nil => rfl
  | cons range others ih =>
    cases resolved : rules.resolve? range.classList with
    | some color =>
      simp only [List.cons_append, paint, resolved]
      exact ih (cover range color cells)
    | none => simp only [List.cons_append, paint, resolved, ih cells]

/-- A range that ends before the cells behind does not reach them. -/
theorem cover_append {range : Range} (color : String) {first last : List Piece}
    (apart : range.stop ≤ first.length ∨ last = []) : cover range color (first ++ last) = cover range color first ++ last := by
  rcases apart with ended | rfl
  · apply List.ext_getElem?
    intro index
    rw [cover_getElem?]
    by_cases inside : index < first.length
    · rw [List.getElem?_append_left inside, List.getElem?_append_left ((length_cover range color first).symm ▸ inside), cover_getElem?]
    · have outside : first.length ≤ index := Nat.le_of_not_lt inside
      have free : range.covers index = false := by
        apply Bool.eq_false_iff.mpr
        intro covered
        have passed := (Range.covers_iff.mp covered).2
        omega
      have length := length_cover range color first
      rw [List.getElem?_append_right outside, List.getElem?_append_right (length ▸ outside), length, free]
      exact Option.map_id' ..
  · simp only [List.append_nil]

end Piece

namespace Painter

variable {painter : Painter} {rules : Rules}

def row (painter : Painter) : List Piece :=
  painter.cells ++ Piece.unpainted painter.fallback (painter.text.drop painter.cells.length)

private theorem extend_row (painter : Painter) (stop : Int) : (painter.extend stop).row = painter.row := by
  have made : (painter.text.take stop.toNat).drop painter.cells.length <+: painter.text.drop painter.cells.length := by
    rw [List.drop_take]
    apply List.take_prefix
  have whole := List.prefix_iff_eq_append.mp made
  rw [List.drop_drop] at whole
  simp only [row, extend, List.length_append, Piece.length_unpainted, List.append_assoc, ← Piece.unpainted_append, whole]

/-- The cells reach as far as they were asked to, unless the text ends before. -/
theorem extend_reaches (painter : Painter) (stop : Int) :
    stop ≤ (painter.extend stop).cells.length ∨ painter.text.drop (painter.extend stop).cells.length = [] := by
  simp only [extend, List.length_append, Piece.length_unpainted, List.length_drop, List.length_take, List.drop_eq_nil_iff]
  omega

private theorem extend_finished (painter : Painter) : painter.extend painter.text.length =
    { painter with cells := painter.row } := by
  simp only [extend, Int.toNat_natCast, List.take_length, row]

/-- Painting a range paints it in the row of the whole text. -/
theorem add_row (ruled : painter.theme.rules = some rules) (range : Range) :
    ∃ cells, painter.add range = .ok ({ painter with cells := cells }, (Piece.paint rules painter.row [range]).2) ∧
      ({ painter with cells := cells } : Painter).row = (Piece.paint rules painter.row [range]).1 := by
  have reached : range.stop ≤ (painter.extend range.stop).cells.length ∨
      Piece.unpainted painter.fallback (painter.text.drop (painter.extend range.stop).cells.length) = [] :=
    (painter.extend_reaches range.stop).imp_right fun none => by rw [none]; rfl
  have kept := painter.extend_row range.stop
  unfold add
  simp only [ruled, Rules.resolve, Piece.paint]
  cases rules.resolve? range.classList with
  | none => exact ⟨(painter.extend range.stop).cells, rfl, kept⟩
  | some color =>
    refine ⟨Piece.cover range color (painter.extend range.stop).cells, rfl, ?_⟩
    calc ({ painter with cells := Piece.cover range color (painter.extend range.stop).cells } : Painter).row
      _ = Piece.cover range color (painter.extend range.stop).cells ++
            Piece.unpainted painter.fallback (painter.text.drop (painter.extend range.stop).cells.length) := by
          rw [row, Piece.length_cover]
      _ = Piece.cover range color (painter.extend range.stop).row := (Piece.cover_append color reached).symm
      _ = Piece.cover range color painter.row := by rw [kept]

private theorem addAll_row (ruled : painter.theme.rules = some rules) (ranges : List Range) :
    ∃ cells, painter.addAll ranges = .ok ({ painter with cells := cells }, (Piece.paint rules painter.row ranges).2) ∧
      ({ painter with cells := cells } : Painter).row = (Piece.paint rules painter.row ranges).1 := by
  induction ranges generalizing painter with
  | nil => exact ⟨painter.cells, rfl, rfl⟩
  | cons range others ih =>
    obtain ⟨cells, here, row⟩ := add_row ruled range
    obtain ⟨last, later, finished⟩ := @ih { painter with cells := cells } ruled
    have both := Piece.paint_append rules painter.row [range] others
    rw [List.singleton_append] at both
    rw [row] at later finished
    refine ⟨last, ?_, ?_⟩
    · rw [addAll, here, both]
      simp only [bind, Except.bind, later]
    · rw [both]
      exact finished

/-- Whatever a painter has painted before, it paints as if for the first time. -/
theorem build_eq_paint (painter : Painter) (ranges : List Range) :
    painter.build ranges = (painter.theme.paint painter.fallback painter.text ranges).map fun painted =>
      ({ painter with cells := painted.1 }, painted.2) := by
  unfold build Theme.paint
  cases ruled : painter.theme.rules with
  | some rules =>
    obtain ⟨cells, added, row⟩ := @addAll_row { painter with cells := [] } rules ruled ranges
    have blank : ({ painter with cells := [] } : Painter).row = Piece.unpainted painter.fallback painter.text := rfl
    have finished := extend_finished { painter with cells := cells }
    rw [row, blank] at finished
    simp only [bind, Except.bind, added, blank, finished, Piece.length_paint, Piece.length_unpainted]
    rfl
  | none =>
    cases ranges with
    | nil =>
      have finished : ({ painter with cells := [] } : Painter).extend painter.text.length =
          { painter with cells := Piece.unpainted painter.fallback painter.text } := extend_finished { painter with cells := [] }
      simp only [addAll, bind, Except.bind, finished, Piece.length_unpainted]
      rfl
    | cons range others =>
      simp only [addAll, add, ruled, bind, Except.bind]
      rfl

def buildEach (painter : Painter) : List (List Range) → Except NoRules (List (List Piece × List Notice))
  | [] => .ok []
  | ranges :: others => do
    let (next, notices) ← painter.build ranges
    let answers ← next.buildEach others
    .ok ((next.cells, notices) :: answers)

end Painter

/-- The colour of a place, given what was reported. -/
inductive LastColor (rules : Rules) (fallback : Option String) (ranges : List Range) (index : Nat) : Option String → Prop
  | painted {before after : List Range} {range : Range} {color : String}
      (reported : ranges = before ++ range :: after)
      (inside : range.start ≤ index ∧ index < range.stop)
      (resolved : rules.resolve? range.classList = some color)
      (last : ∀ later ∈ after, later.start ≤ index ∧ index < later.stop → rules.resolve? later.classList = none) :
      LastColor rules fallback ranges index (some color)
  | unpainted
      (never : ∀ range ∈ ranges, range.start ≤ index ∧ index < range.stop → rules.resolve? range.classList = none) :
      LastColor rules fallback ranges index fallback

/-- What painting a text once has to give. -/
structure Painted (rules : Rules) (fallback : Option String) (text : List Char) (ranges : List Range)
    (answer : List Piece × List Notice) : Prop where
  length : answer.1.length = text.length
  cell : ∀ index c, text[index]? = some c →
    ∃ color, answer.1[index]? = some ⟨[c], color⟩ ∧ LastColor rules fallback ranges index color
  notices : answer.2 = (ranges.filter fun range => (rules.resolve? range.classList).isNone).map
    (fun range => .unknownClass range.classList) ++ [.coloured text.length]

theorem Range.colorAt?_eq_none_iff {rules : Rules} {index : Int} {range : Range} :
    range.colorAt? rules index = none ↔
      (range.start ≤ index ∧ index < range.stop → rules.resolve? range.classList = none) := by
  rw [colorAt?, ite_eq_right_iff, covers_iff]

theorem Range.colorAt?_eq_some_iff {rules : Rules} {index : Int} {range : Range} {color : String} :
    range.colorAt? rules index = some color ↔
      (range.start ≤ index ∧ index < range.stop) ∧ rules.resolve? range.classList = some color := by
  rw [colorAt?, Option.ite_none_right_eq_some, covers_iff]

/-- The last range that paints a place is the first one from behind. -/
theorem LastColor.of_reverse (rules : Rules) (fallback : Option String) (ranges : List Range) (index : Nat) :
    LastColor rules fallback ranges index ((ranges.reverse.findSome? (Range.colorAt? rules index)).or fallback) := by
  cases found : ranges.reverse.findSome? (Range.colorAt? rules index) with
  | some color =>
    obtain ⟨behind, range, before, split, paints, last⟩ := List.findSome?_eq_some_iff.mp found
    obtain ⟨inside, resolved⟩ := Range.colorAt?_eq_some_iff.mp paints
    have reported : ranges = before.reverse ++ range :: behind.reverse := by
      rw [← List.reverse_reverse ranges, split, List.reverse_append, List.reverse_cons, List.append_assoc, List.singleton_append]
    refine LastColor.painted reported inside resolved fun later member => ?_
    exact Range.colorAt?_eq_none_iff.mp (last later (List.mem_reverse.mp member))
  | none =>
    have never := List.findSome?_eq_none_iff.mp found
    exact LastColor.unpainted fun range member => Range.colorAt?_eq_none_iff.mp (never range (List.mem_reverse.mpr member))

/-- Painting reports the ranges that have no colour, in their order. -/
theorem Piece.paint_reports (rules : Rules) (cells : List Piece) (ranges : List Range) :
    (paint rules cells ranges).2 = (ranges.filter fun range => (rules.resolve? range.classList).isNone).map
      fun range => .unknownClass range.classList := by
  induction ranges generalizing cells with
  | nil => rfl
  | cons range others ih =>
    cases resolved : rules.resolve? range.classList with
    | some color =>
      rw [List.filter_cons_of_neg (by simp [resolved])]
      simp only [paint, resolved, ih]
    | none =>
      rw [List.filter_cons_of_pos (by simp [resolved])]
      simp only [paint, resolved, ih, List.map_cons]

theorem Theme.paint_painted {theme : Theme} {rules : Rules} (ruled : theme.rules = some rules) (fallback : Option String)
    (text : List Char) (ranges : List Range) :
    ∃ answer, theme.paint fallback text ranges = .ok answer ∧ Painted rules fallback text ranges answer := by
  refine ⟨((Piece.paint rules (Piece.unpainted fallback text) ranges).1,
    (Piece.paint rules (Piece.unpainted fallback text) ranges).2 ++ [.coloured text.length]), ?_, ?_, ?_, ?_⟩
  · rw [paint, ruled]
  · exact (Piece.length_paint ..).trans (Piece.length_unpainted ..)
  · intro index c here
    refine ⟨_, ?_, LastColor.of_reverse rules fallback ranges index⟩
    rw [Piece.paint_getElem?, Piece.unpainted_getElem?, here]
    cases ranges.reverse.findSome? (Range.colorAt? rules index) <;> rfl
  · rw [Piece.paint_reports]

namespace Painter

variable {painter : Painter} {rules : Rules}

/-- A painter that has rules builds every time. Each time a place gets the colour of the last range
over it that has one, as if the painter had not built before. -/
theorem last_range_shows (ruled : painter.theme.rules = some rules) (walks : List (List Range)) :
    ∃ answers, painter.buildEach walks = .ok answers ∧
      List.Forall₂ (fun ranges answer =>
        ({ painter with cells := [] } : Painter).build ranges = .ok ({ painter with cells := answer.1 }, answer.2) ∧
        Painted rules painter.fallback painter.text ranges answer) walks answers := by
  induction walks generalizing painter with
  | nil => exact ⟨[], rfl, List.Forall₂.nil⟩
  | cons ranges others ih =>
    obtain ⟨answer, paints, painted⟩ := Theme.paint_painted ruled painter.fallback painter.text ranges
    have fresh : ({ painter with cells := [] } : Painter).build ranges = .ok ({ painter with cells := answer.1 }, answer.2) := by
      rw [build_eq_paint, paints]
      rfl
    have built : painter.build ranges = .ok ({ painter with cells := answer.1 }, answer.2) := fresh
    obtain ⟨answers, later, each⟩ := @ih { painter with cells := answer.1 } ruled
    refine ⟨answer :: answers, ?_, List.Forall₂.cons ⟨fresh, painted⟩ each⟩
    simp only [buildEach, built, later, bind, Except.bind]

def stained : Painter where
  text := ['x', 'y', 'z']
  fallback := some "grey"
  theme := { name := "t", rules := some (Rules.ofList [("a", some "red"), ("b", some "blue")]) }
  cells := [⟨['x'], some "green"⟩]

/-- Ranges that overlap, run backwards, end behind the text or have no colour, and after them none. -/
theorem last_range_shows_stained :
    stained.theme.rules = some (Rules.ofList [("a", some "red"), ("b", some "blue")]) ∧
    ∃ answers, stained.buildEach [[⟨-3, 2, "a"⟩, ⟨1, 9, "c b"⟩, ⟨2, 1, "a"⟩, ⟨0, 3, "d"⟩], []] = .ok answers ∧
      List.Forall₂ (Painted (Rules.ofList [("a", some "red"), ("b", some "blue")]) (some "grey") ['x', 'y', 'z'])
        [[⟨-3, 2, "a"⟩, ⟨1, 9, "c b"⟩, ⟨2, 1, "a"⟩, ⟨0, 3, "d"⟩], []] answers ∧
      answers =
        [([⟨['x'], some "red"⟩, ⟨['y'], some "blue"⟩, ⟨['z'], some "blue"⟩], [.unknownClass "d", .coloured 3]),
         ([⟨['x'], some "grey"⟩, ⟨['y'], some "grey"⟩, ⟨['z'], some "grey"⟩], [.coloured 3])] := by
  have ruled : stained.theme.rules = some (Rules.ofList [("a", some "red"), ("b", some "blue")]) := rfl
  obtain ⟨answers, built, each⟩ :=
    last_range_shows ruled [[⟨-3, 2, "a"⟩, ⟨1, 9, "c b"⟩, ⟨2, 1, "a"⟩, ⟨0, 3, "d"⟩], []]
  refine ⟨ruled, answers, built, each.imp fun _ _ both => both.2, Except.ok.inj (built.symm.trans ?_)⟩
  with_unfolding_all rfl

end Painter

end Highlight
