import Highlight.Text.Units

/-! Cutting a text at positions that a boundary finder reports, counted in UTF-16 units. Whatever is
reported, nothing of the text is lost: the pieces end at the positions that lie beyond all before
them and at the end of the text. -/

namespace Highlight.Text

/-- A position in a text: not beyond its end, and not inside a pair. -/
structure IsPlace (text : List Char) (position : Nat) : Prop where
  within : position ≤ (encode text).length
  whole : insidePair (encode text) position = false

def IsCut (pieces : List (List Char)) (place : Nat) : Prop :=
  ∃ first last, pieces = first ++ last ∧ first ≠ [] ∧ (encode first.flatten).length = place

/-- The place is reported, and lies beyond all that was reported before. -/
def Advances (positions : List Nat) (place : Nat) : Prop :=
  ∃ earlier later, positions = earlier ++ place :: later ∧ ∀ position ∈ earlier, position < place

/-- Pieces of a text, told by where they end. No piece ends where the text begins. -/
structure CutsInto (positions : List Nat) (text : List Char) (pieces : List (List Char)) : Prop where
  filled : ∀ piece ∈ pieces, piece ≠ []
  whole : pieces.flatten = text
  cuts : ∀ place, IsCut pieces place ↔ 0 < place ∧ (Advances positions place ∨ place = (encode text).length)

private theorem insidePair_append {first last : List Nat} {position : Nat} (inside : insidePair last position = true) :
    insidePair (first ++ last) (first.length + position) = true := by
  obtain ⟨high, low⟩ := Bool.and_eq_true_iff.mp inside
  refine Bool.and_eq_true_iff.mpr ⟨?_, ?_⟩
  · rw [List.take_length_add_append, List.getLast?_append]
    cases found : (last.take position).getLast? with
    | none => rw [found] at high; cases high
    | some unit => rw [found] at high; exact high
  · rwa [List.drop_length_add_append]

private theorem insidePair_encodeChar {c : Char} {position : Nat} (begun : 0 < position) (unfinished : position < units c)
    (rest : List Nat) : insidePair (encodeChar c ++ rest) position = true := by
  rcases Nat.lt_or_ge c.toNat 0x10000 with small | large
  · rw [units, if_pos small] at unfinished
    omega
  · rw [units, if_neg (Nat.not_lt.mpr large)] at unfinished
    obtain rfl : position = 1 := by omega
    obtain ⟨high, low⟩ := Json.surrogates_of_large large
    rw [encodeChar_large large, insidePair, List.cons_append, List.take_succ_cons, List.drop_succ_cons, List.take_zero,
      List.drop_zero, List.getLast?_singleton, List.cons_append, List.head?_cons, Option.any_some, Option.any_some, high, low]
    rfl

/-- A position in a text has a part of the text before it. -/
theorem IsPlace.split {text : List Char} {position : Nat} (place : IsPlace text position) :
    ∃ before after, text = before ++ after ∧ (encode before).length = position := by
  induction text generalizing position with
  | nil => exact ⟨[], [], rfl, (Nat.le_zero.mp place.within).symm⟩
  | cons c rest ih =>
    rcases Nat.eq_zero_or_pos position with rfl | begun
    · exact ⟨[], c :: rest, rfl, rfl⟩
    rcases Nat.lt_or_ge position (units c) with unfinished | behind
    · exact absurd (insidePair_encodeChar begun unfinished (encode rest)) (Bool.eq_false_iff.mp place.whole)
    obtain ⟨more, rfl⟩ := Nat.exists_eq_add_of_le behind
    have within : more ≤ (encode rest).length := by
      have bound := place.within
      rw [length_encode_cons] at bound
      exact Nat.le_of_add_le_add_left bound
    have whole : insidePair (encode rest) more = false := by
      refine Bool.eq_false_iff.mpr fun inside => Bool.eq_false_iff.mp place.whole ?_
      have shifted := @insidePair_append (encodeChar c) _ _ inside
      rwa [length_encodeChar] at shifted
    obtain ⟨before, after, rfl, length⟩ := ih ⟨within, whole⟩
    exact ⟨c :: before, after, rfl, by rw [length_encode_cons, length]⟩

section
variable {piece : List Char} {others : List (List Char)} {place : Nat}

private theorem isCut_cons : IsCut (piece :: others) place ↔
    place = (encode piece).length ∨ ∃ more, IsCut others more ∧ place = (encode piece).length + more := by
  constructor
  · rintro ⟨first, last, split, filled, rfl⟩
    rcases List.cons_eq_append_iff.mp split with ⟨none, -⟩ | ⟨first, rfl, rest⟩
    · exact absurd none filled
    rw [List.flatten_cons, length_encode_append]
    cases first with
    | nil => exact Or.inl rfl
    | cons next first => exact Or.inr ⟨_, ⟨next :: first, last, rest, List.cons_ne_nil _ _, rfl⟩, rfl⟩
  · rintro (rfl | ⟨more, ⟨first, last, rfl, -, rfl⟩, rfl⟩)
    · exact ⟨[piece], others, rfl, List.cons_ne_nil _ _, by rw [List.flatten_singleton]⟩
    · exact ⟨piece :: first, last, rfl, List.cons_ne_nil _ _, by rw [List.flatten_cons, length_encode_append]⟩

private theorem not_isCut_nil : ¬ IsCut [] place := by
  rintro ⟨first, last, split, filled, -⟩
  exact filled (List.append_eq_nil_iff.mp split.symm).1

theorem IsCut.pos (cut : IsCut others place) (filled : ∀ piece ∈ others, piece ≠ []) : 0 < place := by
  obtain ⟨first, last, rfl, some, rfl⟩ := cut
  obtain ⟨piece, more, rfl⟩ := List.exists_cons_of_ne_nil some
  rw [List.flatten_cons]
  exact length_encode_pos (List.append_ne_nil_of_left_ne_nil (filled piece (List.mem_cons_self ..)) _)

/-- No piece ends before the first one does. -/
theorem IsCut.le (cut : IsCut (piece :: others) place) : (encode piece).length ≤ place := by
  rcases isCut_cons.mp cut with rfl | ⟨more, -, rfl⟩
  · exact Nat.le_refl _
  · exact Nat.le_add_right ..

private theorem isCut_behind {more : Nat} (begun : 0 < more) : IsCut (piece :: others)
    ((encode piece).length + more) ↔ IsCut others more := by
  rw [isCut_cons]
  constructor
  · rintro (here | ⟨behind, cut, same⟩)
    · omega
    · rwa [Nat.add_left_cancel same]
  · exact fun cut => Or.inr ⟨more, cut, rfl⟩

private theorem advances_cons {position : Nat} {positions : List Nat} :
    Advances (position :: positions) place ↔ place = position ∨ position < place ∧ Advances positions place := by
  constructor
  · rintro ⟨earlier, later, split, before⟩
    cases earlier with
    | nil => exact Or.inl (List.cons.inj split).1.symm
    | cons first earlier =>
      obtain ⟨rfl, rest⟩ := List.cons.inj split
      obtain ⟨here, others⟩ := List.forall_mem_cons.mp before
      exact Or.inr ⟨here, earlier, later, rest, others⟩
  · rintro (rfl | ⟨here, earlier, later, rfl, before⟩)
    · exact ⟨[], positions, rfl, fun _ none => absurd none List.not_mem_nil⟩
    · exact ⟨position :: earlier, later, rfl, List.forall_mem_cons.mpr ⟨here, before⟩⟩

end

/-- A text has one list of pieces at most that ends at given places. -/
theorem eq_of_cuts {pieces others : List (List Char)} (filled : ∀ piece ∈ pieces, piece ≠ [])
    (othersFilled : ∀ piece ∈ others, piece ≠ []) (text : pieces.flatten = others.flatten)
    (cuts : ∀ place, IsCut pieces place ↔ IsCut others place) : pieces = others := by
  induction pieces generalizing others with
  | nil =>
    cases others with
    | nil => rfl
    | cons other rest => exact absurd ((cuts _).mpr (isCut_cons.mpr (Or.inl rfl))) not_isCut_nil
  | cons piece pieces ih =>
    cases others with
    | nil => exact absurd ((cuts _).mp (isCut_cons.mpr (Or.inl rfl))) not_isCut_nil
    | cons other rest =>
      have laterFilled := (List.forall_mem_cons.mp filled).2
      have restFilled := (List.forall_mem_cons.mp othersFilled).2
      have length : (encode piece).length = (encode other).length :=
        Nat.le_antisymm ((cuts _).mpr (isCut_cons.mpr (Or.inl rfl))).le ((cuts _).mp (isCut_cons.mpr (Or.inl rfl))).le
      rw [List.flatten_cons, List.flatten_cons] at text
      have front := splitUnits_encode piece pieces.flatten
      rw [text, length, splitUnits_encode] at front
      obtain ⟨rfl, same⟩ := Prod.mk.inj front
      refine congrArg (other :: ·) (ih laterFilled restFilled same.symm fun more => ⟨fun cut => ?_, fun cut => ?_⟩)
      · have begun := cut.pos laterFilled
        exact (isCut_behind begun).mp ((cuts _).mp ((isCut_behind begun).mpr cut))
      · have begun := cut.pos restFilled
        exact (isCut_behind begun).mp ((cuts _).mpr ((isCut_behind begun).mpr cut))

/-- How the text behind `before` comes apart: a position that advances cuts a piece off, any other
is passed over, and what is left when no position is left is the last piece. -/
inductive Cutting : (before : List Char) → (positions : List Nat) → (rest : List Char) → (pieces : List (List Char)) → Prop
  | done {before : List Char} : Cutting before [] [] []
  | last {before rest : List Char} (filled : rest ≠ []) : Cutting before [] rest [rest]
  | advance {before piece after : List Char} {others : List Nat} {pieces : List (List Char)} (filled : piece ≠ [])
      (behind : Cutting (before ++ piece) others after pieces) :
      Cutting before ((encode (before ++ piece)).length :: others) (piece ++ after) (piece :: pieces)
  | skip {before rest : List Char} {position : Nat} {others : List Nat} {pieces : List (List Char)}
      (passed : position ≤ (encode before).length) (behind : Cutting before others rest pieces) :
      Cutting before (position :: others) rest pieces

private theorem cutFrom_cutting {positions : List Nat} {before rest : List Char}
    (places : ∀ position ∈ positions, IsPlace (before ++ rest) position) :
    Cutting before positions rest (cutFrom (encode before).length positions rest) := by
  induction positions generalizing before rest with
  | nil =>
    cases rest with
    | nil => exact .done
    | cons c rest => exact .last (List.cons_ne_nil _ _)
  | cons position others ih =>
    obtain ⟨place, later⟩ := List.forall_mem_cons.mp places
    rw [cutFrom]
    split
    next advances =>
      obtain ⟨first, after, split, rfl⟩ := place.split
      rcases List.append_eq_append_iff.mp split with ⟨piece, rfl, rfl⟩ | ⟨more, rfl, -⟩
      · rw [length_encode_append] at advances
        have filled : piece ≠ [] := by
          rintro rfl
          exact Nat.lt_irrefl _ advances
        rw [← List.append_assoc] at later
        rw [length_encode_append, Nat.add_sub_cancel_left, splitUnits_encode, ← length_encode_append]
        exact .advance filled (ih later)
      · rw [length_encode_append] at advances
        exact absurd advances (Nat.not_lt.mpr (Nat.le_add_right ..))
    next passed => exact .skip (Nat.not_lt.mp passed) (ih later)

namespace Cutting

variable {before rest : List Char} {positions : List Nat} {pieces : List (List Char)}

theorem filled (cutting : Cutting before positions rest pieces) : ∀ piece ∈ pieces, piece ≠ [] := by
  induction cutting with
  | done => exact fun _ none => absurd none List.not_mem_nil
  | last filled => exact List.forall_mem_singleton.mpr filled
  | advance filled _ ih => exact List.forall_mem_cons.mpr ⟨filled, ih⟩
  | skip _ _ ih => exact ih

theorem whole (cutting : Cutting before positions rest pieces) : pieces.flatten = rest := by
  induction cutting with
  | done => rfl
  | last _ => exact List.flatten_singleton
  | advance _ _ ih => rw [List.flatten_cons, ih]
  | skip _ _ ih => exact ih

theorem cuts (cutting : Cutting before positions rest pieces) (place : Nat) :
    IsCut pieces place ↔ 0 < place ∧ (Advances positions ((encode before).length + place) ∨ place = (encode rest).length) := by
  induction cutting generalizing place with
  | done =>
    refine iff_of_false not_isCut_nil ?_
    rintro ⟨begun, ⟨earlier, later, split, -⟩ | rfl⟩
    · exact absurd split (by simp)
    · exact Nat.lt_irrefl _ begun
  | last filled =>
    rw [isCut_cons]
    constructor
    · rintro (rfl | ⟨more, cut, -⟩)
      · exact ⟨length_encode_pos filled, Or.inr rfl⟩
      · exact absurd cut not_isCut_nil
    · rintro ⟨-, ⟨earlier, later, split, -⟩ | whole⟩
      · exact absurd split (by simp)
      · exact Or.inl whole
  | @advance before piece after others pieces filled _ ih =>
    have begun := length_encode_pos filled
    rw [isCut_cons, advances_cons, length_encode_append, length_encode_append]
    constructor
    · rintro (rfl | ⟨more, cut, rfl⟩)
      · exact ⟨begun, Or.inl (Or.inl rfl)⟩
      · obtain ⟨some, advances | whole⟩ := (ih more).mp cut
        · rw [length_encode_append, Nat.add_assoc] at advances
          exact ⟨by omega, Or.inl (Or.inr ⟨by omega, advances⟩)⟩
        · exact ⟨by omega, Or.inr (by omega)⟩
    · rintro ⟨some, (here | ⟨behind, advances⟩) | whole⟩
      · exact Or.inl (Nat.add_left_cancel here)
      · obtain ⟨more, rfl⟩ := Nat.exists_eq_add_of_lt (Nat.lt_of_add_lt_add_left behind)
        refine Or.inr ⟨more + 1, (ih _).mpr ⟨Nat.succ_pos _, Or.inl ?_⟩, rfl⟩
        rwa [length_encode_append, Nat.add_assoc]
      · rcases Nat.eq_zero_or_pos (encode after).length with none | more
        · exact Or.inl (by omega)
        · exact Or.inr ⟨_, (ih _).mpr ⟨more, Or.inr rfl⟩, whole⟩
  | skip passed _ ih =>
    rw [ih, advances_cons]
    refine and_congr_right fun begun => or_congr_left ?_
    constructor
    · exact fun advances => Or.inr ⟨by omega, advances⟩
    · rintro (here | ⟨-, advances⟩)
      · omega
      · exact advances

/-- The pieces are what the units between the positions stand for. -/
theorem slices (cutting : Cutting before positions rest pieces) :
    sliceFrom (encode (before ++ rest)) (encode before).length positions = pieces.map (List.map Char.toNat) := by
  induction cutting with
  | done => rw [sliceFrom, List.append_nil, if_neg (Nat.lt_irrefl _), List.map_nil]
  | last filled =>
    have more := length_encode_pos filled
    rw [sliceFrom, length_encode_append, if_pos (by omega), encode_append, List.drop_left, decode_encode, List.map_cons,
      List.map_nil]
  | @advance before piece after others pieces filled _ ih =>
    have more := length_encode_pos filled
    have slice : ((encode (before ++ (piece ++ after))).take (encode (before ++ piece)).length).drop (encode before).length =
        encode piece := by
      rw [← List.append_assoc, encode_append _ after, List.take_left, encode_append, List.drop_left]
    rw [sliceFrom, length_encode_append before piece, if_pos (by omega), ← length_encode_append, slice, decode_encode,
      ← List.append_assoc, ih, List.map_cons]
  | skip passed _ ih => rw [sliceFrom, if_neg (Nat.not_lt.mpr passed), ih]

end Cutting

private theorem eq_nil_of_flatten {pieces : List (List Char)} (filled : ∀ piece ∈ pieces, piece ≠ [])
    (none : pieces.flatten = []) :
    pieces = [] := by
  cases pieces with
  | nil => rfl
  | cons piece others => exact absurd (List.append_eq_nil_iff.mp none).1 (filled piece (List.mem_cons_self ..))

/-- An empty text is left whole, which nothing but an empty list of pieces would do anyway. -/
theorem cutAt_eq {positions : List Nat} {text : List Char} (places : ∀ position ∈ positions, IsPlace text position) :
    cutAt positions text = cutFrom 0 positions text ∧ sliceAt positions text = sliceFrom (encode text) 0 positions := by
  have cutting : Cutting [] positions text (cutFrom 0 positions text) := cutFrom_cutting places
  have slices : sliceFrom (encode text) 0 positions = _ := cutting.slices
  cases text with
  | nil =>
    have none : cutFrom 0 positions [] = [] := eq_nil_of_flatten cutting.filled cutting.whole
    rw [none] at slices ⊢
    exact ⟨rfl, slices.symm⟩
  | cons c rest => exact ⟨rfl, rfl⟩

/-- Cutting loses nothing whatever a boundary finder reports. The pieces are not empty, they make up
the text, and they end at the positions that lie beyond all before them and at the end of the
text; no other pieces do. They are also what the units between these positions stand for. -/
theorem cutAt_loses_nothing {positions : List Nat} {text : List Char}
    (places : ∀ position ∈ positions, IsPlace text position) :
    CutsInto positions text (cutAt positions text) ∧
      (∀ pieces, CutsInto positions text pieces → pieces = cutAt positions text) ∧
      sliceAt positions text = (cutAt positions text).map (List.map Char.toNat) := by
  have cutting : Cutting [] positions text (cutFrom 0 positions text) := cutFrom_cutting places
  obtain ⟨cut, slice⟩ := cutAt_eq places
  have into : CutsInto positions text (cutFrom 0 positions text) := by
    refine ⟨cutting.filled, cutting.whole, fun place => ?_⟩
    have cuts := cutting.cuts place
    rwa [encode, List.flatMap_nil, List.length_nil, Nat.zero_add] at cuts
  rw [cut, slice]
  refine ⟨into, fun pieces other => ?_, cutting.slices⟩
  refine eq_of_cuts other.filled into.filled (other.whole.trans into.whole.symm) fun place => ?_
  rw [other.cuts, into.cuts]

/-- Behind a smiley that takes two units, before it and in front of what was reported already. -/
theorem cutAt_loses_nothing_smiley :
    let text : List Char := ['a', Char.ofNat 0x1f600, 'e', '\u0301', Char.ofNat 0x1f600]
    let positions := [0, 3, 1, 3, 5, 4]
    (∀ position ∈ positions, IsPlace text position) ∧ CutsInto positions text (cutAt positions text) ∧
      cutAt positions text = [['a', Char.ofNat 0x1f600], ['e', '\u0301'], [Char.ofNat 0x1f600]] ∧
      sliceAt positions text = (cutAt positions text).map (List.map Char.toNat) := by
  intro text positions
  have inside : ∀ position ∈ positions, position ≤ (encode text).length ∧ insidePair (encode text) position = false := by decide +kernel
  have places : ∀ position ∈ positions, IsPlace text position := fun position member =>
    ⟨(inside position member).1, (inside position member).2⟩
  obtain ⟨into, -, slices⟩ := cutAt_loses_nothing places
  exact ⟨places, into, by decide +kernel, slices⟩

end Highlight.Text
