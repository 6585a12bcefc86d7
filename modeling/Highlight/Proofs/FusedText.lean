import Highlight.Text.Letter
import Highlight.Text.Units
import Mathlib.Data.List.Chain

/-! Texts that go through UTF-16. Their units come back as they were, but where a high half stands
directly before a low one they come back as one character. So no such text is lost, and one comes
back letter by letter exactly if it holds no pair of halves. -/

namespace Highlight

namespace CodePoint

open Json (isHighSurrogate isLowSurrogate not_surrogate isHighSurrogate_low isLowSurrogate_high)

def units : CodePoint → List Nat
  | scalar c => Text.encodeChar c
  | high index => [0xd800 + index.val]
  | low index => [0xdc00 + index.val]

private theorem units_ne_nil (c : CodePoint) : c.units ≠ [] := by
  cases c with
  | scalar c =>
    rw [units, Text.encodeChar]
    split <;> exact List.cons_ne_nil _ _
  | high _ | low _ => exact List.cons_ne_nil _ _

private theorem toNat_ofPair (first second : Fin 0x400) :
    (ofPair first second).toNat = 0x10000 + first * 0x400 + second := by
  have valid : (0x10000 + first * 0x400 + second : Nat).isValidChar := Or.inr (by omega)
  rw [ofPair, Char.ofNat, dif_pos valid]
  rfl

private theorem units_ofPair (first second : Fin 0x400) :
    units (scalar (ofPair first second)) = units (high first) ++ units (low second) := by
  have code := toNat_ofPair first second
  have firstUnit : 0xd800 + ((ofPair first second).toNat - 0x10000) / 0x400 = 0xd800 + first.val := by omega
  have secondUnit : 0xdc00 + ((ofPair first second).toNat - 0x10000) % 0x400 = 0xdc00 + second.val := by omega
  rw [units, Text.encodeChar_large (by omega), firstUnit, secondUnit]
  rfl

/-- A character before the halves is counted in units. -/
theorem count_units {c : Char} (small : c.toNat < 0xd800) (d : CodePoint) :
    d.units.count c.toNat = if d = scalar c then 1 else 0 := by
  cases d with
  | scalar d =>
    rcases Nat.lt_or_ge d.toNat 0x10000 with one | two
    · rw [units, Text.encodeChar_small one, List.count_singleton]
      simp only [beq_iff_eq, scalar.injEq, Char.toNat_inj]
    · have other : scalar d ≠ scalar c := fun same => by rw [scalar.inj same] at two; omega
      rw [units, Text.encodeChar_large two, List.count_cons_of_ne (by omega), List.count_cons_of_ne (by omega), if_neg other]
      rfl
  | high index | low index =>
    rw [units, List.count_cons_of_ne (by omega), if_neg CodePoint.noConfusion]
    rfl

/-- Fusing changes no unit. -/
theorem units_fuse (text : List CodePoint) : (fuse text).flatMap units = text.flatMap units := by
  fun_induction fuse text with
  | case1 first second rest ih => rw [List.flatMap_cons, ih, units_ofPair, List.append_assoc, List.flatMap_cons, List.flatMap_cons]
  | case2 c rest _ ih => rw [List.flatMap_cons, ih, List.flatMap_cons]
  | case3 => rfl

/-- The first unit of a text is that of a low half only where the text begins with one. -/
theorem isLowSurrogate_head {text : List CodePoint} (apart : ∀ index more, text ≠ low index :: more) :
    ∀ unit ∈ (text.flatMap units).head?, isLowSurrogate unit = false := by
  cases text with
  | nil => exact nofun
  | cons c rest =>
    cases c with
    | scalar c =>
      have valid : c.toNat < 0xd800 ∨ 0xdfff < c.toNat ∧ c.toNat < 0x110000 := c.valid
      rcases Nat.lt_or_ge c.toNat 0x10000 with small | large
      · simp [units, Text.encodeChar_small small, (not_surrogate c).2]
      · simp only [List.flatMap_cons, units, Text.encodeChar_large large, List.cons_append, List.head?_cons,
          Option.mem_def, Option.some.injEq, forall_eq', isLowSurrogate, Bool.and_eq_false_iff, decide_eq_false_iff_not]
        omega
    | high index =>
      intro unit first
      obtain rfl := Option.some.inj first
      exact isLowSurrogate_high index
    | low index => exact absurd rfl (apart index rest)

private theorem decode_cons {unit : Nat} {behind : List Nat}
    (apart : isHighSurrogate unit = true → ∀ next ∈ behind.head?, isLowSurrogate next = false) :
    Text.decode (unit :: behind) = unit :: Text.decode behind := by
  cases behind with
  | nil => rfl
  | cons next more =>
    rw [Text.decode]
    refine if_neg fun pair => ?_
    obtain ⟨isHigh, isLow⟩ := (Bool.and_eq_true _ _).mp pair
    exact Bool.false_ne_true ((apart isHigh next rfl).symm.trans isLow)

theorem decode_units (text : List CodePoint) : Text.decode (text.flatMap units) = (fuse text).map value := by
  fun_induction fuse text with
  | case1 first second rest ih =>
    rw [List.flatMap_cons, List.flatMap_cons, ← List.append_assoc, ← units_ofPair, units, Text.decode_encodeChar, ih,
      List.map_cons]
    rfl
  | case2 c rest apart ih =>
    rw [List.flatMap_cons, List.map_cons, ← ih]
    cases c with
    | scalar c => exact Text.decode_encodeChar c _
    | high index =>
      refine decode_cons fun _ => isLowSurrogate_head ?_
      rintro second more rfl
      exact apart index second more rfl rfl
    | low index =>
      refine decode_cons fun isHigh => ?_
      exact absurd ((isHighSurrogate_low index).symm.trans isHigh) Bool.false_ne_true
  | case3 => rfl

private theorem scalar_ofPair_ne {c : Char} (small : c.toNat < 0x10000) (first second : Fin 0x400) :
    scalar c ≠ scalar (ofPair first second) := by
  intro same
  have code := toNat_ofPair first second
  rw [← scalar.inj same] at code
  omega

private theorem prefix_of_fuse {c : Char} (small : c.toNat < 0x10000) {text : List CodePoint}
    (front : [scalar c] <+: fuse text) :
    [scalar c] <+: text := by
  revert front
  fun_cases fuse text with
  | case1 first second rest => exact fun front => absurd (List.cons_prefix_cons.mp front).1 (scalar_ofPair_ne small first second)
  | case2 d rest _ => exact fun front => List.cons_prefix_cons.mpr ⟨(List.cons_prefix_cons.mp front).1, List.nil_prefix⟩
  | case3 => exact id

/-- Characters of one unit that come to stand side by side stood so before. -/
theorem infix_of_fuse {c d : Char} (small : c.toNat < 0x10000) (smallNext : d.toNat < 0x10000) {text : List CodePoint}
    (inside : [scalar c, scalar d] <:+: fuse text) : [scalar c, scalar d] <:+: text := by
  fun_induction fuse text with
  | case1 first second rest ih =>
    rcases List.infix_cons_iff.mp inside with front | later
    · exact absurd (List.cons_prefix_cons.mp front).1 (scalar_ofPair_ne small first second)
    · exact (ih later).trans (List.suffix_append [high first, low second] rest).isInfix
  | case2 e rest _ ih =>
    rcases List.infix_cons_iff.mp inside with front | later
    · obtain ⟨rfl, next⟩ := List.cons_prefix_cons.mp front
      exact (List.cons_prefix_cons.mpr ⟨rfl, prefix_of_fuse smallNext next⟩).isInfix
    · exact (ih later).trans (List.suffix_cons e rest).isInfix
  | case3 => exact inside

end CodePoint

namespace Letter

variable {γ : Type} [Letter γ]

def IsPair (first second : γ) : Prop := ∃ high low, point first = .high high ∧ point second = .low low

instance (first second : γ) : Decidable (IsPair first second) :=
  match shape : point first, shape' : point second with
  | .high high, .low low => isTrue ⟨high, low, shape, shape'⟩
  | .scalar _, _ | .low _, _ => isFalse fun ⟨_, _, front, _⟩ => CodePoint.noConfusion (shape.symm.trans front)
  | _, .scalar _ | _, .high _ => isFalse fun ⟨_, _, _, back⟩ => CodePoint.noConfusion (shape'.symm.trans back)

/-- No two halves of a pair stand side by side. -/
def Unpaired (text : List γ) : Prop := text.IsChain fun first second => ¬ IsPair first second

instance (text : List γ) : Decidable (Unpaired text) :=
  inferInstanceAs (Decidable (text.IsChain fun first second => ¬ IsPair first second))

def units (text : List γ) : List Nat := text.flatMap fun c => (point c).units

private theorem units_eq (text : List γ) : units text = (text.map point).flatMap CodePoint.units :=
    (List.flatMap_map ..).symm

theorem units_append (first last : List γ) : units (first ++ last) = units first ++ units last := List.flatMap_append

theorem units_eq_nil_iff {text : List γ} : units text = [] ↔ text = [] := by
  rw [units, List.flatMap_eq_nil_iff]
  exact ⟨fun none => List.eq_nil_iff_forall_not_mem.mpr fun c member => absurd (none c member) (point c).units_ne_nil,
    fun empty _ member => absurd member (empty ▸ List.not_mem_nil)⟩

theorem count_units [DecidableEq γ] {c : Char} (small : c.toNat < 0xd800) (text : List γ) :
    (units text).count c.toNat = text.count (of c) := by
  induction text with
  | nil => rfl
  | cons d rest ih =>
    have same : point d = .scalar c ↔ d = of c := by
      rw [← (point_of c : point (of c : γ) = _), Function.Injective.eq_iff fun _ _ => point_inj]
    rw [units, List.flatMap_cons, List.count_append, CodePoint.count_units small, ← units, ih, List.count_cons, Nat.add_comm]
    simp only [same, beq_iff_eq]

theorem units_fused (text : List γ) : units (fused text) = units text := by
  rw [units_eq, fused_eq, CodePoint.units_fuse, units_eq]

/-- Fusing is what encoding a text and decoding it again comes to. -/
theorem decode_units (text : List γ) : Text.decode (units text) = (fused text).map fun c => (point c).value := by
  rw [units_eq, CodePoint.decode_units, ← fused_eq, List.map_map]
  rfl

private theorem fuse_eq_self_iff (text : List CodePoint) : CodePoint.fuse text = text ↔ Unpaired text := by
  fun_induction CodePoint.fuse text with
  | case1 first second rest ih =>
    have shorter := CodePoint.length_fuse_le rest
    refine iff_of_false (fun same => ?_) fun unpaired => ?_
    · have lengths := congrArg List.length same
      simp only [List.length_cons] at lengths
      omega
    · exact (List.isChain_cons_cons.mp unpaired).1 ⟨first, second, rfl, rfl⟩
  | case2 c rest apart ih =>
    have front : ∀ d ∈ rest.head?, ¬ IsPair c d := by
      rintro d found ⟨first, second, rfl, rfl⟩
      obtain ⟨more, rfl⟩ := List.head?_eq_some_iff.mp found
      exact apart first second more rfl rfl
    rw [List.cons_inj_right, ih, Unpaired, Unpaired, List.isChain_cons]
    exact (and_iff_right front).symm
  | case3 => exact iff_of_true rfl .nil

private theorem map_point_inj {first second : List γ} : first.map point = second.map point ↔ first = second :=
  List.map_inj_right fun _ _ => point_inj

/-- A text comes back letter by letter exactly if it holds no pair of halves. -/
theorem fused_eq_self_iff (text : List γ) : fused text = text ↔ Unpaired text := by
  rw [← map_point_inj, fused_eq, fuse_eq_self_iff, Unpaired, List.isChain_map]
  rfl

theorem length_fused_le (text : List γ) : (fused text).length ≤ text.length := by
  rw [← List.length_map point, fused_eq]
  exact (CodePoint.length_fuse_le _).trans_eq (List.length_map point)

theorem fused_eq_of_length {text : List γ} (same : (fused text).length = text.length) : fused text = text := by
  rw [← map_point_inj, fused_eq]
  apply CodePoint.fuse_eq_of_length
  rw [← fused_eq, List.length_map, List.length_map, same]

theorem fused_eq_nil_iff {text : List γ} : fused text = [] ↔ text = [] := by
  rw [← List.map_eq_nil_iff (f := point), fused_eq, CodePoint.fuse_eq_nil_iff, List.map_eq_nil_iff]

private theorem infix_of_map_point {first second : List γ} (inside : first.map point <:+: second.map point) :
    first <:+: second := by
  obtain ⟨before, after, whole⟩ := inside
  obtain ⟨front, last, rfl, whole, -⟩ := List.map_eq_append_iff.mp whole.symm
  obtain ⟨start, part, rfl, -, same⟩ := List.map_eq_append_iff.mp whole
  rw [map_point_inj.mp same]
  exact ⟨start, last, rfl⟩

theorem infix_of_fused {c d : Char} (small : c.toNat < 0x10000) (smallNext : d.toNat < 0x10000) {text : List γ}
    (inside : [of c, of d] <:+: fused text) : [of c, of d] <:+: text := by
  have points : ([of c, of d] : List γ).map point = [.scalar c, .scalar d] := by simp [point_of]
  have mapped := List.IsInfix.map point inside
  rw [fused_eq, points] at mapped
  apply infix_of_map_point
  rw [points]
  exact CodePoint.infix_of_fuse small smallNext mapped

end Letter

end Highlight
