import Highlight.Json.Reader
import Highlight.Json.Writer
import Mathlib.Data.List.TakeWhile

/-! Integers and names are read back from what is written for them, whatever the file goes on with,
and so is every double that is read back by itself. A number ends where a comma, a line feed or nothing
follows, and what is read before that does not depend on it. -/

namespace Highlight.Json

/-- What can stand behind a value in a written file. -/
def Free (rest : List Char) : Prop := ∀ c ∈ rest.head?, c = ',' ∨ c = '\n'

variable {text rest after word : List Char} {p : Char → Bool} {value : Json}

theorem Free.cases (free : Free rest) : rest = [] ∨ (∃ more, rest = ',' :: more) ∨ ∃ more, rest = '\n' :: more := by
  cases rest with
  | nil => exact .inl rfl
  | cons c rest =>
    obtain rfl | rfl := free c rfl
    · exact .inr (.inl ⟨rest, rfl⟩)
    · exact .inr (.inr ⟨rest, rfl⟩)

theorem Free.stops (free : Free rest) (comma : p ',' = false) (feed : p '\n' = false) :
    rest.takeWhile p = [] ∧ rest.dropWhile p = rest := by
  obtain rfl | ⟨more, rfl⟩ | ⟨more, rfl⟩ := free.cases <;> simp [comma, feed]

theorem Free.while_append (free : Free rest) (comma : p ',' = false) (feed : p '\n' = false) (text : List Char) :
    (text ++ rest).takeWhile p = text.takeWhile p ∧ (text ++ rest).dropWhile p = text.dropWhile p ++ rest := by
  obtain ⟨take, drop⟩ := free.stops comma feed
  induction text with
  | nil => exact ⟨take, drop⟩
  | cons c text ih =>
    cases first : p c <;> simp [first, ih]

private theorem isPrefixOf_append (free : Free rest) (plain : ∀ c ∈ word, c ≠ ',' ∧ c ≠ '\n') :
    word.isPrefixOf (text ++ rest) = word.isPrefixOf text := by
  induction word generalizing text with
  | nil => simp
  | cons w word ih =>
    cases text with
    | cons c text =>
      rw [List.cons_append, List.isPrefixOf_cons_cons, List.isPrefixOf_cons_cons,
        ih fun c inside => plain c (List.mem_cons_of_mem w inside)]
    | nil =>
      cases rest with
      | nil => rfl
      | cons c rest =>
        have apart : (w == c) = false := by
          obtain ⟨comma, feed⟩ := plain w List.mem_cons_self
          obtain rfl | rfl := free c rfl
          · exact beq_false_of_ne comma
          · exact beq_false_of_ne feed
        rw [List.nil_append, List.isPrefixOf_cons_cons, apart, Bool.false_and, List.isPrefixOf_cons_nil]

private theorem stripText?_append (free : Free rest) (plain : ∀ c ∈ word, c ≠ ',' ∧ c ≠ '\n') :
    stripText? word (text ++ rest) = (stripText? word text).map (· ++ rest) := by
  unfold stripText?
  rw [isPrefixOf_append free plain]
  split
  next starts =>
    have fits := (List.isPrefixOf_iff_prefix.mp starts).length_le
    rw [Option.map_some, List.drop_append_of_le_length fits]
  next => rfl

private theorem fractionDigits_append (free : Free rest) :
    fractionDigits (text ++ rest) = Prod.map id (· ++ rest) (fractionDigits text) := by
  cases text with
  | nil => obtain rfl | ⟨more, rfl⟩ | ⟨more, rfl⟩ := free.cases <;> rfl
  | cons c text =>
    by_cases point : c = '.'
    · subst point
      obtain ⟨take, drop⟩ := free.while_append (show Char.isDigit ',' = false by decide) (by decide) text
      simp only [List.cons_append, fractionDigits, take, drop]
      split <;> rfl
    · simp [fractionDigits, point]

private theorem exponentSign_append (free : Free rest) :
    exponentSign (text ++ rest) = Prod.map id (· ++ rest) (exponentSign text) := by
  cases text with
  | nil => obtain rfl | ⟨more, rfl⟩ | ⟨more, rfl⟩ := free.cases <;> rfl
  | cons c text =>
    by_cases minus : c = '-'
    · subst minus
      rfl
    by_cases plus : c = '+'
    · subst plus
      rfl
    · simp [exponentSign, minus, plus]

private theorem exponentPart?_append (free : Free rest) :
    exponentPart? (text ++ rest) = (exponentPart? text).map (Prod.map id (· ++ rest)) := by
  cases text with
  | nil => obtain rfl | ⟨more, rfl⟩ | ⟨more, rfl⟩ := free.cases <;> rfl
  | cons c text =>
    simp only [List.cons_append, exponentPart?, exponentSign_append free, Prod.map]
    obtain ⟨negative, digits⟩ := exponentSign text
    obtain ⟨take, drop⟩ := free.while_append (show Char.isDigit ',' = false by decide) (by decide) digits
    simp only [take, drop]
    split
    next => split <;> rfl
    next => rfl

private theorem wholeDigits_append (free : Free rest) : wholeDigits (text ++ rest) = wholeDigits text := by
  cases text with
  | nil => obtain rfl | ⟨more, rfl⟩ | ⟨more, rfl⟩ := free.cases <;> rfl
  | cons c text =>
    by_cases zero : c = '0'
    · subst zero
      rfl
    · have take := (free.while_append (show Char.isDigit ',' = false by decide) (by decide) (c :: text)).1
      simpa [wholeDigits, zero] using take

private theorem wholeDigits_length_le (text : List Char) : (wholeDigits text).length ≤ text.length := by
  unfold wholeDigits
  split
  next => simp
  next => exact (List.takeWhile_prefix _).length_le

private theorem magnitude?_append (free : Free rest) (negative : Bool) :
    magnitude? negative (text ++ rest) = (magnitude? negative text).map (Prod.map id (· ++ rest)) := by
  unfold magnitude?
  dsimp only
  rw [wholeDigits_append free, List.drop_append_of_le_length (wholeDigits_length_le text), fractionDigits_append free]
  obtain ⟨fraction, behind⟩ := fractionDigits (text.drop (wholeDigits text).length)
  simp only [Prod.map, exponentPart?_append free]
  by_cases empty : (wholeDigits text).isEmpty
  · simp only [if_pos empty, Option.map_none]
  · simp only [if_neg empty]
    cases exponentPart? behind with
    | none =>
      simp only [Option.map_none, id]
      split <;> rfl
    | some found => rfl

private theorem findName_append (free : Free rest) (words : List (List Char × Json))
    (plain : ∀ entry ∈ words, ∀ c ∈ entry.1, c ≠ ',' ∧ c ≠ '\n') :
    (words.findSome? fun (word, value) => (stripText? word (text ++ rest)).map fun after => (value, after)) =
      (words.findSome? fun (word, value) => (stripText? word text).map fun after => (value, after)).map
        (Prod.map id (· ++ rest)) := by
  induction words with
  | nil => rfl
  | cons entry words ih =>
    obtain ⟨word, value⟩ := entry
    simp only [List.findSome?_cons, stripText?_append free (plain (word, value) List.mem_cons_self)]
    cases stripText? word text with
    | none => exact ih fun entry inside => plain entry (List.mem_cons_of_mem _ inside)
    | some after => rfl

theorem scalar?_append (free : Free rest) : scalar? (text ++ rest) = (scalar? text).map (Prod.map id (· ++ rest)) := by
  have plain : ∀ entry ∈ names, ∀ c ∈ entry.1, c ≠ ',' ∧ c ≠ '\n' := by
    have all : (names.all fun entry => entry.1.all fun c => c != ',' && c != '\n') = true := by rfl
    simpa using all
  unfold scalar?
  rw [findName_append free names plain]
  cases names.findSome? fun (word, value) => (stripText? word text).map fun after => (value, after) with
  | some found => rfl
  | none =>
    cases text with
    | nil => obtain rfl | ⟨more, rfl⟩ | ⟨more, rfl⟩ := free.cases <;> rfl
    | cons c text =>
      by_cases minus : c = '-'
      · subst minus
        exact magnitude?_append free true
      · simp [minus, ← magnitude?_append free false]

private theorem scalar?_digit {c : Char} (digit : c.isDigit) (text : List Char) :
    scalar? (c :: text) = magnitude? false (c :: text) ∧ scalar? ('-' :: c :: text) = magnitude? true (c :: text) := by
  have apart {letter : Char} (other : letter.isDigit = false) : ¬ letter = c := by
    rintro rfl
    rw [digit] at other
    cases other
  have minus : ¬ c = '-' := fun same => apart rfl same.symm
  simp [scalar?, names, stripText?, apart, minus]

private theorem isDigit_toDigits {n : Nat} {c : Char} (inside : c ∈ Nat.toDigits 10 n) : c.isDigit :=
  Nat.isDigit_of_mem_toDigits (by decide) (by decide) inside

private theorem head_toDigits {n : Nat} (positive : 0 < n) : (Nat.toDigits 10 n).head? ≠ some '0' := by
  induction n using Nat.base_induction 10 (by decide) with
  | single n small =>
    have each : ∀ n < 10, 0 < n → n.digitChar ≠ '0' := by decide
    rw [Nat.toDigits_of_lt_base small]
    simpa using each n small positive
  | digit n last small some ih =>
    rw [← Nat.toDigits_append_toDigits (by decide) some small]
    rw [List.head?_append, Option.or_of_isSome (by simp [Nat.toDigits_ne_nil])]
    exact ih some

private theorem wholeDigits_toDigits (n : Nat) : wholeDigits (Nat.toDigits 10 n) = Nat.toDigits 10 n := by
  have digits : (Nat.toDigits 10 n).takeWhile Char.isDigit = Nat.toDigits 10 n :=
    List.takeWhile_eq_self_iff.mpr fun _ => isDigit_toDigits
  unfold wholeDigits
  split
  next zero =>
    cases n with
    | zero => rfl
    | succ n => exact absurd (by rw [zero]; rfl) (head_toDigits n.succ_pos)
  next => exact digits

private theorem magnitude?_toDigits (negative : Bool) (n : Nat) :
    magnitude? negative (Nat.toDigits 10 n) = some (integer (if negative then -n else n), []) := by
  have value : digitsValue (Nat.toDigits 10 n) = n := Nat.ofDigitChars_ten_toDigits
  have filled : (Nat.toDigits 10 n).isEmpty = false := by simp [Nat.toDigits_ne_nil]
  simp [magnitude?, wholeDigits_toDigits, filled, value, fractionDigits, exponentPart?]

private theorem toList_toString (n : Int) :
    (toString n).toList = if 0 ≤ n then Nat.toDigits 10 n.toNat else '-' :: Nat.toDigits 10 (-n).toNat := by
  rw [Int.toString_eq_repr, Int.repr_eq_if]
  split
  next => exact Nat.toList_repr
  next => simp [Nat.toList_repr]

theorem scalar?_integer (n : Int) : scalar? (toString n).toList = some (integer n, []) := by
  have digits (n : Nat) : ∃ c text, c.isDigit ∧ Nat.toDigits 10 n = c :: text := by
    obtain ⟨c, text, shape⟩ := List.exists_cons_of_ne_nil (Nat.toDigits_ne_nil : Nat.toDigits 10 n ≠ [])
    exact ⟨c, text, isDigit_toDigits (shape ▸ List.mem_cons_self), shape⟩
  rw [toList_toString]
  split
  next least =>
    obtain ⟨c, text, digit, shape⟩ := digits n.toNat
    rw [shape, (scalar?_digit digit text).1, ← shape, magnitude?_toDigits, if_neg (by decide), Int.toNat_of_nonneg least]
  next below =>
    obtain ⟨c, text, digit, shape⟩ := digits (-n).toNat
    rw [shape, (scalar?_digit digit text).2, ← shape, magnitude?_toDigits, if_pos rfl,
      Int.toNat_of_nonneg (by omega), Int.neg_neg]

private theorem fractionDigits_suffix (text : List Char) : (fractionDigits text).2 <:+ text := by
  unfold fractionDigits
  split
  next following =>
    split
    next => exact List.suffix_refl _
    next => exact (List.dropWhile_suffix _).trans (List.suffix_cons _ _)
  next => exact List.suffix_refl _

private theorem exponentSign_suffix (text : List Char) : (exponentSign text).2 <:+ text := by
  unfold exponentSign
  split
  next => exact List.suffix_cons _ _
  next => exact List.suffix_cons _ _
  next => exact List.suffix_refl _

private theorem exponentPart?_suffix {exponent : Int} (read : exponentPart? text = some (exponent, after)) :
    after <:+ text := by
  unfold exponentPart? at read
  split at read
  next mark following =>
    split at read
    next =>
      dsimp only at read
      split at read
      next => cases read
      next =>
        cases read
        exact (List.dropWhile_suffix _).trans ((exponentSign_suffix following).trans (List.suffix_cons _ _))
    next => cases read
  next => cases read

private theorem magnitude?_suffix {negative : Bool} (read : magnitude? negative text = some (value, after)) :
    after <:+ text := by
  unfold magnitude? at read
  dsimp only at read
  split at read
  next => cases read
  next =>
    have behind := (fractionDigits_suffix (text.drop (wholeDigits text).length)).trans (List.drop_suffix _ _)
    split at read
    next =>
      split at read
      all_goals
        cases read
        exact behind
    next exponent rest found =>
      cases read
      exact (exponentPart?_suffix found).trans behind

private theorem scalar?_suffix (read : scalar? text = some (value, after)) : after <:+ text := by
  unfold scalar? at read
  split at read
  next found named =>
    cases read
    obtain ⟨⟨word, value⟩, -, stripped⟩ := List.exists_of_findSome?_eq_some named
    obtain ⟨rest, strip, same⟩ := Option.map_eq_some_iff.mp stripped
    cases same
    unfold stripText? at strip
    split at strip
    next =>
      cases strip
      exact List.drop_suffix _ _
    next => cases strip
  next =>
    split at read
    next => exact (magnitude?_suffix read).trans (List.suffix_cons _ _)
    next => exact magnitude?_suffix read

theorem isSpace_iff {c : Char} : isSpace c ↔ c ∈ [' ', '\t', '\n', '\r'] := by
  simp [isSpace, or_assoc]

private theorem isSpace_of_isDigit {c : Char} (digit : c.isDigit) : isSpace c = false := by
  have spaces : ∀ c ∈ [' ', '\t', '\n', '\r'], c.isDigit = false := by simp
  refine Bool.eq_false_iff.mpr fun space => ?_
  rw [spaces c (isSpace_iff.mp space)] at digit
  cases digit

def Solid (text : List Char) : Prop := ∀ c ∈ text, isSpace c = false

instance (text : List Char) : Decidable (Solid text) := List.decidableBAll _ text

private theorem solid_append : Solid (text ++ rest) ↔ Solid text ∧ Solid rest := List.forall_mem_append

private theorem solid_cons {c : Char} : Solid (c :: text) ↔ isSpace c = false ∧ Solid text := List.forall_mem_cons

private theorem solid_nil : Solid [] := fun _ inside => nomatch inside

private theorem solid_toDigits (n : Nat) : Solid (Nat.toDigits 10 n) := fun _ inside => isSpace_of_isDigit
    (isDigit_toDigits inside)

private theorem solid_zeros (count : Nat) : Solid
    (Decimal.zeros count) := fun _ inside => List.eq_of_mem_replicate inside ▸ rfl

private theorem solid_positional (decimal : Decimal) : Solid decimal.positional := by
  have digits : Solid decimal.digitText := solid_toDigits _
  unfold Decimal.positional
  dsimp only
  split
  next => exact solid_append.mpr ⟨solid_append.mpr ⟨digits, solid_zeros _⟩, by decide⟩
  next =>
    split
    next =>
      have front (count : Nat) : Solid (decimal.digitText.take count) := fun c inside => digits c (List.mem_of_mem_take inside)
      have back (count : Nat) : Solid (decimal.digitText.drop count) := fun c inside => digits c (List.mem_of_mem_drop inside)
      exact solid_append.mpr ⟨front _, solid_cons.mpr ⟨rfl, back _⟩⟩
    next => exact solid_append.mpr ⟨solid_cons.mpr ⟨rfl, solid_cons.mpr ⟨rfl, solid_zeros _⟩⟩, digits⟩

private theorem solid_exponentText (exponent : Int) : Solid (Decimal.exponentText exponent) := by
  have digits : Solid (Nat.toDigits 10 exponent.natAbs) := solid_toDigits _
  unfold Decimal.exponentText
  refine solid_cons.mpr ⟨by split <;> rfl, ?_⟩
  split
  next => exact solid_cons.mpr ⟨rfl, digits⟩
  next => exact digits

private theorem solid_scientific (decimal : Decimal) : Solid decimal.scientific := by
  have digits : Solid decimal.digitText := solid_toDigits _
  unfold Decimal.scientific
  refine solid_append.mpr ⟨?_, solid_cons.mpr ⟨rfl, solid_exponentText _⟩⟩
  split
  next only => exact only ▸ digits
  next first others shape =>
    rw [shape] at digits
    obtain ⟨front, back⟩ := solid_cons.mp digits
    exact solid_cons.mpr ⟨front, solid_cons.mpr ⟨rfl, back⟩⟩
  next => exact solid_nil

private theorem solid_floatText (x : Float) : Solid (floatText jsonFloats x).toList := by
  unfold floatText
  split
  next => decide
  next =>
    have sign : Solid (if (Binary.ofFloat x).negative then "-" else "").toList := by split <;> decide
    dsimp only
    split
    all_goals
      rw [String.toList_append]
      refine solid_append.mpr ⟨sign, ?_⟩
    · decide
    · rw [String.toList_ofList]
      unfold Decimal.written
      split
      next => exact solid_positional _
      next => exact solid_scientific _

theorem Solid.skipSpace (solid : Solid text) : Json.skipSpace text = text := by
  cases text with
  | nil => rfl
  | cons c text => exact List.dropWhile_cons_of_neg (by simp [(solid_cons.mp solid).1])

private theorem value?_double {fuel : Nat} {x : Float} (read : value? (fuel + 1) text = some (double x, rest)) :
    scalar? text = some (double x, rest) := by
  unfold value? at read
  split at read
  next =>
    obtain ⟨found, -, same⟩ := Option.map_eq_some_iff.mp read
    cases same
  next =>
    split at read
    next => cases read
    next =>
      obtain ⟨found, -, same⟩ := Option.map_eq_some_iff.mp read
      cases same
  next =>
    split at read
    next => cases read
    next =>
      obtain ⟨found, -, same⟩ := Option.map_eq_some_iff.mp read
      cases same
  next => exact read

/-- A double that is read back from its own text is read back within a file too. -/
theorem scalar?_double {x : Float} (kept : ofText? (double x).toText.toList = some (double x)) :
    scalar? (floatText jsonFloats x).toList = some (double x, []) := by
  have solid := solid_floatText x
  have text : (double x).toText = floatText jsonFloats x := by rw [toText, render]
  unfold ofText? at kept
  rw [text, solid.skipSpace] at kept
  split at kept
  next value rest read =>
    split at kept
    next empty =>
      cases kept
      have whole := value?_double read
      have behind : Solid rest := fun c inside => solid c ((scalar?_suffix whole).subset inside)
      rw [behind.skipSpace, List.isEmpty_iff] at empty
      rw [whole, empty]
    next => cases kept
  next => cases kept

end Highlight.Json
