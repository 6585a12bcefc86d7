import Highlight.Fade.Hsl
import Mathlib.Data.Rat.Floor
import Mathlib.Tactic.Linarith

/-! Mixing colours in exact fractions. A mix lies on the shorter way between the two hues, at the
share of it that is the progress; the share of the way that is left leads back to the same colour
from the other side. Grey goes no way at all: it borrows the other hue. -/

namespace Highlight

/-- How far two places of the circle are apart, whichever way round is shorter. -/
def hueDistance (first second : Rat) : Rat := min |first - second| (1 - |first - second|)

namespace Hsl

/-- The colours there are. A negative hue is none; the other parts are shares. -/
structure Proper (color : Hsl Rat) : Prop where
  hue : color.hue < 1
  saturation : 0 ≤ color.saturation ∧ color.saturation ≤ 1
  lightness : 0 ≤ color.lightness ∧ color.lightness ≤ 1

def IsGrey (color : Hsl Rat) : Prop := color.hue < 0

end Hsl

private theorem clampUnit_of_share {x : Rat} (low : 0 ≤ x) (high : x ≤ 1) : clampUnit x = x := by
  have capped : lesser 1 x = x := by
    unfold lesser
    split
    · rfl
    next full => exact (le_antisymm high (not_lt.mp full)).symm
  rw [clampUnit, capped, greater]
  split
  · rfl
  next none => exact le_antisymm low (not_lt.mp none)

section
variable {old new progress : Rat}

/-- A mix of two shares is a share, so nothing is cut off. -/
theorem clampUnit_between (oldShare : 0 ≤ old ∧ old ≤ 1) (newShare : 0 ≤ new ∧ new ≤ 1) (begun : 0 ≤ progress)
    (within : progress ≤ 1) : clampUnit (old + (new - old) * progress) = (1 - progress) * old + progress * new := by
  have left : 0 ≤ 1 - progress := sub_nonneg.mpr within
  have low : 0 ≤ (1 - progress) * old + progress * new :=
    add_nonneg (mul_nonneg left oldShare.1) (mul_nonneg begun newShare.1)
  have high : (1 - progress) * old + progress * new ≤ 1 := by
    calc (1 - progress) * old + progress * new ≤ (1 - progress) * 1 + progress * 1 :=
          add_le_add (mul_le_mul_of_nonneg_left oldShare.2 left) (mul_le_mul_of_nonneg_left newShare.2 begun)
      _ = 1 := by ring
  have same : old + (new - old) * progress = (1 - progress) * old + progress * new := by ring
  rw [same, clampUnit_of_share low high]

/-- The shorter way ends at the other hue, up to whole turns. -/
theorem shorterWay_turns (old new : Rat) : ∃ turns : Int, new = old + shorterWay old new + turns := by
  simp only [shorterWay]
  split
  · exact ⟨1, by push_cast; ring⟩
  split
  · exact ⟨-1, by push_cast; ring⟩
  · exact ⟨0, by push_cast; ring⟩

/-- The way back is the same way. Between opposite hues the two directions are equally long, and
the way back takes the one that the way there has taken. -/
theorem shorterWay_swap (old new : Rat) : shorterWay new old = -shorterWay old new := by
  simp only [shorterWay]
  split_ifs <;> linarith

private theorem abs_shorterWay_le (apart : |new - old| < 1) : |shorterWay old new| ≤ 1 / 2 := by
  obtain ⟨low, high⟩ := abs_lt.mp apart
  simp only [shorterWay]
  refine abs_le.mpr ?_
  split_ifs <;> constructor <;> linarith

private theorem commonHues_colored (oldColored : ¬ old < 0) (newColored : ¬ new < 0) : commonHues old new = (old, new) := by
  rw [commonHues, if_neg (fun both => oldColored both.1), if_neg oldColored, if_neg newColored]

private theorem commonHues_grey_old (grey : old < 0) (colored : ¬ new < 0) : commonHues old new = (new, new) := by
  rw [commonHues, if_neg (fun both => colored both.2), if_pos grey]

private theorem commonHues_swap (old new : Rat) : commonHues new old = (commonHues old new).swap := by
  by_cases oldGrey : old < 0 <;> by_cases newGrey : new < 0 <;> simp [commonHues, oldGrey, newGrey]

/-- A way of at most half the circle is the distance of its ends. -/
theorem hueDistance_eq {first second way : Rat} (apart : |first - second| < 1) (turns : Int)
    (reached : first - second = way + turns) (short : |way| ≤ 1 / 2) : hueDistance first second = |way| := by
  obtain ⟨low, high⟩ := abs_lt.mp apart
  obtain ⟨wayLow, wayHigh⟩ := abs_le.mp short
  have below : (turns : Rat) < 2 := by linarith
  have above : (-2 : Rat) < turns := by linarith
  have turnsBelow : turns < 2 := by exact_mod_cast below
  have turnsAbove : -2 < turns := by exact_mod_cast above
  rw [hueDistance]
  obtain rfl | rfl | rfl : turns = -1 ∨ turns = 0 ∨ turns = 1 := by omega
  · push_cast at reached
    rw [abs_of_neg (by linarith : first - second < 0), abs_of_nonneg (by linarith : 0 ≤ way), min_eq_right (by linarith)]
    linarith
  · push_cast at reached
    rw [reached, add_zero, min_eq_left (by linarith)]
  · push_cast at reached
    rw [abs_of_pos (by linarith : 0 < first - second), abs_of_nonpos (by linarith : way ≤ 0), min_eq_right (by linarith)]
    linarith

private theorem shorterWay_self (hue : Rat) : shorterWay hue hue = 0 := by
  have swap := shorterWay_swap hue hue
  linarith

def placeBetween (old new progress : Rat) : Rat := Int.fract (old + shorterWay old new * progress)

/-- From the other end the same place is reached by the share that is left. -/
theorem placeBetween_swap (old new progress : Rat) :
    placeBetween new old (1 - progress) = placeBetween old new progress := by
  obtain ⟨turns, reached⟩ := shorterWay_turns old new
  refine Int.fract_eq_fract.mpr ⟨turns, ?_⟩
  rw [shorterWay_swap]
  linarith

private theorem placeBetween_self {hue : Rat} (low : 0 ≤ hue) (high : hue < 1) (progress : Rat) :
    placeBetween hue hue progress = hue := by
  rw [placeBetween, shorterWay_self, zero_mul, add_zero]
  exact Int.fract_eq_self.mpr ⟨low, high⟩

private theorem abs_sub_lt_of_places {first second : Rat} (firstPlace : 0 ≤ first ∧ first < 1)
    (secondPlace : 0 ≤ second ∧ second < 1) :
    |first - second| < 1 := abs_sub_lt_of_nonneg_of_lt firstPlace.1 firstPlace.2 secondPlace.1 secondPlace.2

private theorem hueDistance_comm (first second : Rat) : hueDistance first second = hueDistance second first := by
  rw [hueDistance, hueDistance, abs_sub_comm]

private theorem hueDistance_eq_abs_shorterWay (oldPlace : 0 ≤ old ∧ old < 1) (newPlace : 0 ≤ new ∧ new < 1) :
    hueDistance old new = |shorterWay old new| := by
  obtain ⟨turns, reached⟩ := shorterWay_turns old new
  have apart := abs_sub_lt_of_places newPlace oldPlace
  rw [hueDistance_comm]
  refine hueDistance_eq apart turns ?_ (abs_shorterWay_le apart)
  linarith

/-- The place is as far from the first hue as the progress says. -/
theorem hueDistance_placeBetween (oldPlace : 0 ≤ old ∧ old < 1) (newPlace : 0 ≤ new ∧ new < 1) (begun : 0 ≤ progress)
    (within : progress ≤ 1) : hueDistance old (placeBetween old new progress) = progress * hueDistance old new := by
  have place : 0 ≤ placeBetween old new progress ∧ placeBetween old new progress < 1 :=
    ⟨Int.fract_nonneg _, Int.fract_lt_one _⟩
  have whole := Int.floor_add_fract (old + shorterWay old new * progress)
  have gone : |shorterWay old new * progress| = progress * |shorterWay old new| := by
    rw [abs_mul, abs_of_nonneg begun, mul_comm]
  have short : |shorterWay old new * progress| ≤ 1 / 2 := by
    rw [gone]
    exact (mul_le_of_le_one_left (abs_nonneg _) within).trans (abs_shorterWay_le (abs_sub_lt_of_places newPlace oldPlace))
  rw [hueDistance_eq_abs_shorterWay oldPlace newPlace, ← gone, hueDistance_comm]
  refine hueDistance_eq (abs_sub_lt_of_places place oldPlace) (-⌊old + shorterWay old new * progress⌋) ?_ short
  rw [placeBetween]
  push_cast
  linarith

end

namespace Hsl

variable {old new : Hsl Rat} {progress : Rat}

private theorem mix_hue (old new : Hsl Rat) (progress : Rat) :
    (old.mix new progress).hue =
      placeBetween (commonHues old.hue new.hue).1 (commonHues old.hue new.hue).2 progress := rfl

theorem Proper.place (proper : old.Proper) (colored : ¬ old.IsGrey) : 0 ≤ old.hue ∧ old.hue < 1 :=
  ⟨not_lt.mp colored, proper.hue⟩

private theorem mix_hue_colored (oldColored : ¬ old.IsGrey) (newColored : ¬ new.IsGrey) (progress : Rat) :
    (old.mix new progress).hue = placeBetween old.hue new.hue progress := by
  rw [mix_hue, commonHues_colored oldColored newColored]

private theorem mix_hue_of_grey_old (grey : old.IsGrey) (proper : new.Proper) (colored : ¬ new.IsGrey) (progress : Rat) :
    (old.mix new progress).hue = new.hue := by
  obtain ⟨low, high⟩ := proper.place colored
  rw [mix_hue, commonHues_grey_old grey colored, placeBetween_self low high]

private theorem mix_hue_grey (oldGrey : old.IsGrey) (newGrey : new.IsGrey) (progress : Rat) :
    (old.mix new progress).hue = 0 := by
  have common : commonHues old.hue new.hue = (0, 0) := if_pos ⟨oldGrey, newGrey⟩
  rw [mix_hue, common, placeBetween_self le_rfl zero_lt_one]

/-- Exchanging the colours is the same as counting the progress from the other end. -/
theorem mix_swap (old new : Hsl Rat) (progress : Rat) : new.mix old (1 - progress) = old.mix new progress := by
  have hue : (new.mix old (1 - progress)).hue = (old.mix new progress).hue := by
    rw [mix_hue, mix_hue, commonHues_swap old.hue new.hue]
    exact placeBetween_swap _ _ progress
  have same : ∀ first last : Rat, last + (first - last) * (1 - progress) = first + (last - first) * progress := by
    intro first last
    ring
  have saturation : (new.mix old (1 - progress)).saturation = (old.mix new progress).saturation :=
    congrArg clampUnit (same old.saturation new.saturation)
  have lightness : (new.mix old (1 - progress)).lightness = (old.mix new progress).lightness :=
    congrArg clampUnit (same old.lightness new.lightness)
  have parts : ∀ color : Hsl Rat, color = ⟨color.hue, color.saturation, color.lightness⟩ := fun _ => rfl
  rw [parts (new.mix old (1 - progress)), hue, saturation, lightness]

end Hsl

variable {model : ColorModel Rat} {old new : Option String} {progress : Rat}

private theorem mixColor_between (begun : 0 < progress) (unfinished : progress < 1) :
    mixColor model old new progress =
      model.name ((model.parts (drawColor old)).mix (model.parts (drawColor new)) progress) := by
  rw [mixColor, if_neg (not_le.mpr begun), if_neg (not_le.mpr unfinished)]

/-- Between its ends a mix has the shares of saturation and lightness that the progress says, and
its hue divides the shorter way between the two hues so. A grey leaves the hue to the other
colour, and two of them give the hue zero. -/
theorem mix_takes_shorter_way (oldProper : (model.parts (drawColor old)).Proper)
    (newProper : (model.parts (drawColor new)).Proper) (begun : 0 < progress) (unfinished : progress < 1) :
    let first := model.parts (drawColor old)
    let last := model.parts (drawColor new)
    let mixed := first.mix last progress
    mixColor model old new progress = model.name mixed ∧
      mixed.saturation = (1 - progress) * first.saturation + progress * last.saturation ∧
      mixed.lightness = (1 - progress) * first.lightness + progress * last.lightness ∧
      0 ≤ mixed.hue ∧ mixed.hue < 1 ∧
      (¬ first.IsGrey → ¬ last.IsGrey →
        hueDistance first.hue mixed.hue = progress * hueDistance first.hue last.hue ∧
          hueDistance mixed.hue last.hue = (1 - progress) * hueDistance first.hue last.hue) ∧
      (first.IsGrey → ¬ last.IsGrey → mixed.hue = last.hue) ∧
      (¬ first.IsGrey → last.IsGrey → mixed.hue = first.hue) ∧
      (first.IsGrey → last.IsGrey → mixed.hue = 0) := by
  intro first last mixed
  have saturation := clampUnit_between oldProper.saturation newProper.saturation begun.le unfinished.le
  have lightness := clampUnit_between oldProper.lightness newProper.lightness begun.le unfinished.le
  refine ⟨mixColor_between begun unfinished, saturation, lightness, Int.fract_nonneg _, Int.fract_lt_one _, ?_, ?_, ?_, ?_⟩
  · intro firstColored lastColored
    have firstPlace := oldProper.place firstColored
    have lastPlace := newProper.place lastColored
    rw [Hsl.mix_hue_colored firstColored lastColored]
    refine ⟨hueDistance_placeBetween firstPlace lastPlace begun.le unfinished.le, ?_⟩
    -- the other distance is the first one of the way back
    rw [hueDistance_comm, ← placeBetween_swap, hueDistance_comm first.hue]
    exact hueDistance_placeBetween lastPlace firstPlace (sub_nonneg.mpr unfinished.le) (sub_le_self 1 begun.le)
  · exact fun firstGrey lastColored => Hsl.mix_hue_of_grey_old firstGrey newProper lastColored progress
  · intro firstColored lastGrey
    have back : mixed = last.mix first (1 - progress) := (Hsl.mix_swap first last progress).symm
    rw [back, Hsl.mix_hue_of_grey_old lastGrey oldProper firstColored]
  · exact fun firstGrey lastGrey => Hsl.mix_hue_grey firstGrey lastGrey progress

/-- From yellow to purple through red, over the place where the circle is closed. -/
theorem mix_takes_shorter_way_over_zero :
    let model : ColorModel Rat := ⟨fun name => if name = "#e4e400" then ⟨1 / 6, 1, 38 / 85⟩
        else if name = "#a854a8" then ⟨5 / 6, 1 / 3, 42 / 85⟩ else ⟨-1, 0, 0⟩,
      fun color => if color = ⟨0, 2 / 3, 8 / 17⟩ then "#c82828" else "#000000"⟩
    let yellow := model.parts (drawColor (some "#e4e400"))
    let purple := model.parts (drawColor (some "#a854a8"))
    let mixed := yellow.mix purple (1 / 2)
    yellow.Proper ∧ purple.Proper ∧ ¬ yellow.IsGrey ∧ ¬ purple.IsGrey ∧
      mixColor model (some "#e4e400") (some "#a854a8") (1 / 2) = model.name mixed ∧ model.name mixed = "#c82828" ∧
      mixed.saturation = (1 - 1 / 2) * yellow.saturation + 1 / 2 * purple.saturation ∧
      mixed.lightness = (1 - 1 / 2) * yellow.lightness + 1 / 2 * purple.lightness ∧ 0 ≤ mixed.hue ∧ mixed.hue < 1 ∧
      hueDistance yellow.hue mixed.hue = 1 / 2 * hueDistance yellow.hue purple.hue ∧
      hueDistance mixed.hue purple.hue = (1 - 1 / 2) * hueDistance yellow.hue purple.hue := by
  intro model yellow purple mixed
  have yellowProper : yellow.Proper := ⟨by decide +kernel, by decide +kernel, by decide +kernel⟩
  have purpleProper : purple.Proper := ⟨by decide +kernel, by decide +kernel, by decide +kernel⟩
  have yellowColored : ¬ yellow.hue < 0 := by decide +kernel
  have purpleColored : ¬ purple.hue < 0 := by decide +kernel
  have begun : (0 : Rat) < 1 / 2 := by decide +kernel
  have unfinished : (1 / 2 : Rat) < 1 := by decide +kernel
  have named : model.name mixed = "#c82828" := by decide +kernel
  obtain ⟨shown, saturation, lightness, low, high, divided, -⟩ :=
    mix_takes_shorter_way yellowProper purpleProper begun unfinished
  obtain ⟨fromYellow, toPurple⟩ := divided yellowColored purpleColored
  exact ⟨yellowProper, purpleProper, yellowColored, purpleColored, shown, named, saturation, lightness, low, high,
    fromYellow, toPurple⟩

/-- A fade back shows the same colours in the opposite order, whatever the two colours are and
also beyond the ends of the fade. -/
theorem mix_back_is_same (model : ColorModel Rat) (old new : Option String) (progress : Rat) :
    mixColor model old new progress = mixColor model new old (1 - progress) := by
  rcases le_or_gt progress 0 with unbegun | begun
  · have past : 1 ≤ 1 - progress := by linarith
    have late : ¬ 1 - progress ≤ 0 := by linarith
    rw [mixColor, if_pos unbegun, mixColor, if_neg late, if_pos past]
  rcases le_or_gt 1 progress with past | unfinished
  · have unbegun : 1 - progress ≤ 0 := by linarith
    rw [mixColor, if_neg (not_le.mpr begun), if_pos past, mixColor, if_pos unbegun]
  · rw [mixColor_between begun unfinished, mixColor_between (sub_pos.mpr unfinished) (sub_lt_self 1 begun), Hsl.mix_swap]

end Highlight
