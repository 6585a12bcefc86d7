/-! What texts are written in. A text is a list of letters. These are characters as a rule, but a text
may also hold halves of pairs, which are code points without being characters. -/

namespace Highlight

inductive CodePoint
  | scalar (c : Char)
  /-- The first half of a pair. -/
  | high (index : Fin 0x400)
  /-- The second half of a pair. -/
  | low (index : Fin 0x400)
deriving Repr

namespace CodePoint

def value : CodePoint → Nat
  | scalar c => c.toNat
  | high index => 0xd800 + index
  | low index => 0xdc00 + index

theorem value_inj {first second : CodePoint} : first.value = second.value ↔ first = second := by
  have outside (c : Char) : c.toNat < 0xd800 ∨ 0xdfff < c.toNat ∧ c.toNat < 0x110000 := c.valid
  refine ⟨fun same => ?_, congrArg value⟩
  cases first <;> cases second
  case scalar.scalar => exact congrArg scalar (Char.toNat_inj.mp same)
  case high.high => exact congrArg high (Fin.ext (Nat.add_left_cancel same))
  case low.low => exact congrArg low (Fin.ext (Nat.add_left_cancel same))
  case scalar.high c _ | scalar.low c _ | high.scalar _ c | low.scalar _ c =>
    have range := outside c
    simp only [value] at same
    omega
  case high.low | low.high =>
    simp only [value] at same
    omega

instance : DecidableEq CodePoint := fun _ _ => decidable_of_iff _ value_inj

instance : LT CodePoint := ⟨fun first second => first.value < second.value⟩

instance : DecidableLT CodePoint := fun first second => Nat.decLt first.value second.value

/-- A string as a text. It holds no halves. -/
@[coe]
def ofString (text : String) : List CodePoint := text.toList.map scalar

instance : Coe String (List CodePoint) := ⟨ofString⟩

@[simp] theorem ofString_inj {first second : String} : ofString first = ofString second ↔ first = second :=
  (List.map_inj_right fun _ _ => scalar.inj).trans String.toList_inj

@[simp] theorem ofString_beq (first second : String) : (ofString first == ofString second) = (first == second) := by
  rw [Bool.eq_iff_iff, beq_iff_eq, beq_iff_eq, ofString_inj]

/-- What a scanner takes a code point for. No rule of any scanner is about halves. -/
def seen : CodePoint → Char
  | scalar c => c
  | high _ | low _ => '\ufffd'

def ofPair (first second : Fin 0x400) : Char := Char.ofNat (0x10000 + first * 0x400 + second)

/-- A text as it comes back from its UTF-16 units: two halves that stand side by side have become
the character of their pair. -/
def fuse : List CodePoint → List CodePoint
  | high first :: low second :: rest => scalar (ofPair first second) :: fuse rest
  | c :: rest => c :: fuse rest
  | [] => []

theorem fuse_scalars (text : List Char) : fuse (text.map scalar) = text.map scalar := by
  induction text with
  | nil => rfl
  | cons c rest ih => rw [List.map_cons, fuse, ih]; exact nofun

theorem fuse_ofString (text : String) : fuse text = text := fuse_scalars text.toList

theorem length_fuse_le (text : List CodePoint) : (fuse text).length ≤ text.length := by
  fun_induction fuse text with
  | case1 first second rest ih =>
    simp only [List.length_cons]
    omega
  | case2 c rest _ ih => exact Nat.succ_le_succ ih
  | case3 => exact Nat.le_refl 0

/-- Where a pair is fused the text gets shorter. -/
theorem fuse_eq_of_length {text : List CodePoint} (same : (fuse text).length = text.length) : fuse text = text := by
  fun_induction fuse text with
  | case1 first second rest ih =>
    have shorter := length_fuse_le rest
    simp only [List.length_cons] at same
    omega
  | case2 c rest _ ih => rw [ih (Nat.succ.inj same)]
  | case3 => rfl

theorem fuse_eq_nil_iff {text : List CodePoint} : fuse text = [] ↔ text = [] := by
  fun_cases fuse text with
  | case1 first second rest => exact iff_of_false (List.cons_ne_nil _ _) (List.cons_ne_nil _ _)
  | case2 c rest _ => exact iff_of_false (List.cons_ne_nil _ _) (List.cons_ne_nil _ _)
  | case3 => exact Iff.rfl

end CodePoint

/-- A type of letters. Each stands for a code point, and every character is one of them. What is done
with texts of letters is told by their code points. -/
class Letter (γ : Type) where
  point : γ → CodePoint
  seen : γ → Char
  of : Char → γ
  /-- A text as a scanner sees it. -/
  chars : List γ → List Char
  fused : List γ → List γ
  point_inj {first second : γ} : point first = point second → first = second
  point_of (c : Char) : point (of c) = .scalar c
  seen_eq (c : γ) : seen c = (point c).seen
  chars_eq (text : List γ) : chars text = text.map seen
  fused_eq (text : List γ) : (fused text).map point = CodePoint.fuse (text.map point)

namespace Letter

instance : Letter Char where
  point := .scalar
  seen c := c
  of c := c
  chars text := text
  fused text := text
  point_inj := CodePoint.scalar.inj
  point_of _ := rfl
  seen_eq _ := rfl
  chars_eq text := (List.map_id text).symm
  fused_eq text := (CodePoint.fuse_scalars text).symm

instance : Letter CodePoint where
  point c := c
  seen := CodePoint.seen
  of := .scalar
  chars text := text.map CodePoint.seen
  fused := CodePoint.fuse
  point_inj same := same
  point_of _ := rfl
  seen_eq _ := rfl
  chars_eq _ := rfl
  fused_eq text := by rw [List.map_id', List.map_id']

@[simp] theorem seen_char (c : Char) : seen c = c := rfl

@[simp] theorem of_char (c : Char) : (of c : Char) = c := rfl

@[simp] theorem chars_ofString (text : String) : chars (text : List CodePoint) = text.toList :=
  List.map_map.trans (List.map_id _)

variable {γ : Type} [Letter γ]

theorem seen_of (c : Char) : seen (of c : γ) = c := by
  rw [seen_eq, point_of, CodePoint.seen]

/-- Only halves are taken for something else. -/
theorem seen_eq_iff {c : γ} {d : Char} (whole : d ≠ '\ufffd') : seen c = d ↔ c = of d := by
  refine ⟨fun same => point_inj ?_, fun same => same ▸ seen_of d⟩
  rw [seen_eq] at same
  rw [point_of]
  cases found : point c with
  | scalar c =>
    rw [found] at same
    exact congrArg CodePoint.scalar same
  | high _ | low _ =>
    rw [found] at same
    exact absurd same.symm whole

end Letter

end Highlight
