import Highlight.Piece.Painting

/-! Ranges are painted over one another. What a cell shows in the end is the colour of the last
range over it that has one. -/

namespace Highlight

namespace Range

def covers (range : Range) (index : Int) : Bool := range.start ≤ index && index < range.stop

theorem covers_iff {range : Range} {index : Int} :
    range.covers index = true ↔ range.start ≤ index ∧ index < range.stop := by
  simp [covers]

def colorAt? (rules : Rules) (index : Int) (range : Range) : Option String :=
  if range.covers index then rules.resolve? range.classList else none

end Range

namespace Piece

variable {γ : Type}

def recolor (cell : Piece γ) : Option String → Piece γ
  | some color => { cell with color := some color }
  | none => cell

private theorem recolor_or (cell : Piece γ) (last first : Option String) :
    cell.recolor (last.or first) = (cell.recolor first).recolor last := by
  cases last <;> cases first <;> rfl

theorem cover_getElem? (range : Range) (color : String) (cells : List (Piece γ)) (index : Nat) :
    (cover range color cells)[index]? =
      cells[index]?.map fun cell => cell.recolor (if range.covers index then some color else none) := by
  rw [cover, List.getElem?_mapIdx]
  congr 1
  funext cell
  by_cases inside : range.start ≤ (index : Int) ∧ (index : Int) < range.stop
  · simp only [inside, Range.covers_iff.mpr inside, if_true, and_self, recolor]
  · rw [if_neg inside, if_neg (fun covered => inside (Range.covers_iff.mp covered))]
    rfl

/-- Later ranges stand behind earlier ones here, for the last one that paints is what shows. -/
theorem paint_getElem? (rules : Rules) (cells : List (Piece γ)) (ranges : List Range) (index : Nat) :
    (paint rules cells ranges).1[index]? =
      cells[index]?.map fun cell => cell.recolor (ranges.reverse.findSome? (Range.colorAt? rules index)) := by
  induction ranges generalizing cells with
  | nil => simp [paint, recolor]
  | cons range others ih =>
    rw [List.reverse_cons, List.findSome?_append]
    unfold paint
    cases resolved : rules.resolve? range.classList with
    | some color =>
      simp only
      rw [ih, cover_getElem?, Option.map_map]
      congr 1
      funext cell
      simp only [Function.comp_apply, recolor_or, List.findSome?_singleton, Range.colorAt?, resolved]
    | none =>
      have unpainted : [range].findSome? (Range.colorAt? rules index) = none := by
        simp [Range.colorAt?, resolved]
      rw [unpainted, Option.or_none]
      exact ih cells

theorem unpainted_getElem? (fallback : Option String) (text : List γ) (index : Nat) :
    (unpainted fallback text)[index]? = text[index]?.map fun c => ⟨[c], fallback⟩ := by
  rw [unpainted, List.getElem?_map]

theorem paint_notices (rules : Rules) (cells : List (Piece γ)) (ranges : List Range) :
    ∀ notice ∈ (paint rules cells ranges).2, ∃ classList, notice = .unknownClass classList := by
  induction ranges generalizing cells with
  | nil => exact fun _ none => absurd none List.not_mem_nil
  | cons range others ih =>
    unfold paint
    split
    · exact ih _
    · exact List.forall_mem_cons.mpr ⟨⟨_, rfl⟩, ih cells⟩

end Piece

/-- What painting has to report. -/
theorem Theme.paint_notices {γ : Type} {theme : Theme} {fallback : Option String} {text : List γ} {ranges : List Range}
    {cells : List (Piece γ)} {notices : List Notice} (painted : theme.paint fallback text ranges = .ok (cells, notices)) :
    ∀ notice ∈ notices, (∃ classList, notice = .unknownClass classList) ∨ ∃ count, notice = .coloured count := by
  unfold Theme.paint at painted
  dsimp only at painted
  split at painted
  next rules _ =>
    cases painted
    intro notice member
    rcases List.mem_append.mp member with unknown | coloured
    · exact Or.inl (Piece.paint_notices rules _ ranges notice unknown)
    · exact Or.inr ⟨_, List.mem_singleton.mp coloured⟩
  next =>
    split at painted
    · cases painted
      exact fun notice member => Or.inr ⟨_, List.mem_singleton.mp member⟩
    · cases painted

end Highlight
