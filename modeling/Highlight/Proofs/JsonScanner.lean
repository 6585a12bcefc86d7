import Highlight.Proofs.JsonGrammar
import Highlight.Scan.JsonLine

/-! The JSON scanner agrees with the rules both ways. What it accepts is spelled by them, if any
character may stand in a string, and it reads each spelling as one lexeme as long as the text
behind does not go on with the number or name. -/

namespace Highlight

namespace Scan

namespace JsonLine
open JsonText

variable {plain : Char → Prop} {text rest : List Char}

private theorem digits_append (spelled : Digits text) (outside : ∀ c ∈ rest.head?, c.isDigit = false) :
    digits (text ++ rest) = ⟨⟨text, rest⟩, true⟩ := by
  have filled : text.isEmpty = false := List.isEmpty_eq_false_iff.mpr spelled.filled
  unfold digits
  rw [Cut.run_append spelled.digits outside]
  simp only [filled, Bool.not_false]

private theorem digits_spelled (complete : (digits text).complete = true) : Digits (digits text).taken := by
  refine ⟨?_, fun c member => List.all_eq_true.mp List.all_takeWhile c member⟩
  intro empty
  change (!(digits text).taken.isEmpty) = true at complete
  rw [empty] at complete
  cases complete

private theorem fraction_append (spelled : Fraction text) (outside : ∀ c ∈ rest.head?, c.isDigit = false ∧ c ≠ '.') :
    fraction (text ++ rest) = ⟨⟨text, rest⟩, true⟩ := by
  cases spelled with
  | none =>
    rw [List.nil_append]
    unfold fraction
    split
    next following => exact absurd rfl (outside '.' rfl).2
    next => rfl
  | point spelled =>
    change (digits (_ ++ rest)).push '.' = _
    rw [digits_append spelled fun c head => (outside c head).1]
    rfl

private theorem fraction_spelled (complete : (fraction text).complete = true) : Fraction (fraction text).taken := by
  unfold fraction at complete ⊢
  split at complete
  · exact .point (digits_spelled complete)
  · exact .none

private theorem exponent_append (spelled : Exponent text) (ends : Ends rest) : exponent
    (text ++ rest) = ⟨⟨text, rest⟩, true⟩ := by
  have opened : ∀ {e : Char}, e = 'e' ∨ e = 'E' → ∀ following, exponent (e :: following) = (signedDigits following).push e := by
    rintro e (rfl | rfl) following <;> rfl
  cases spelled with
  | none =>
    rw [List.nil_append]
    unfold exponent
    split
    next => cases (ends 'e' rfl).1
    next => cases (ends 'E' rfl).1
    next => rfl
  | @plain e text mark spelled =>
    have unsigned : signedDigits (text ++ rest) = digits (text ++ rest) := by
      obtain ⟨c, others, rfl⟩ := List.exists_cons_of_ne_nil spelled.filled
      have digit := spelled.digits c (List.mem_cons_self ..)
      rw [List.cons_append]
      unfold signedDigits
      split
      next same => cases same; cases digit
      next same => cases same; cases digit
      next => rfl
    rw [List.cons_append, opened mark, unsigned, digits_append spelled ends.no_digit]
    rfl
  | @signed e sign text mark known spelled =>
    have signed : signedDigits (sign :: (text ++ rest)) = (digits (text ++ rest)).push sign := by
      rcases known with rfl | rfl <;> rfl
    rw [List.cons_append, List.cons_append, opened mark, signed, digits_append spelled ends.no_digit]
    rfl

private theorem exponent_spelled (complete : (exponent text).complete = true) : Exponent (exponent text).taken := by
  have signed : ∀ {e : Char} (following : List Char), e = 'e' ∨ e = 'E' → (signedDigits following).complete = true →
      Exponent (e :: (signedDigits following).taken) := by
    intro e following mark complete
    unfold signedDigits at complete ⊢
    split at complete
    · exact .signed mark (Or.inl rfl) (digits_spelled complete)
    · exact .signed mark (Or.inr rfl) (digits_spelled complete)
    · exact .plain mark (digits_spelled complete)
  unfold exponent at complete ⊢
  split at complete
  · exact signed _ (Or.inl rfl) complete
  · exact signed _ (Or.inr rfl) complete
  · exact .none

/-- A leading zero that no digit follows is read as any other leading digit. -/
theorem numberTail_eq {leading : Char} (allowed : leading = '0' → ∀ c ∈ text.head?, c.isDigit = false) :
    numberTail leading text = ((⟨Cut.run Char.isDigit text, true⟩ : Tail).followedBy fraction).followedBy exponent := by
  unfold numberTail
  split
  next c following =>
    have other := allowed rfl c rfl
    rw [if_neg (Bool.eq_false_iff.mp other), Cut.run, List.takeWhile_cons_of_neg (by simpa using other),
      List.dropWhile_cons_of_neg (by simpa using other)]
    rfl
  next => rfl

private theorem numberTail_append {c : Char} (magnitude : Magnitude (c :: text)) (ends : Ends rest) :
    numberTail c (text ++ rest) = ⟨⟨text, rest⟩, true⟩ := by
  generalize same : c :: text = full at magnitude
  obtain @⟨whole, fractionText, exponentText, first, second, third⟩ := magnitude
  obtain ⟨leading, run, rfl, inside, zero⟩ := first.cut
  cases same
  have exponentHead := third.head ends
  have fractionHead := second.head fun d head => (exponentHead d head).1
  have allowed : c = '0' → ∀ d ∈ (run ++ (fractionText ++ (exponentText ++ rest))).head?, d.isDigit = false := by
    intro leading
    rw [zero leading]
    exact fractionHead
  have whole : (⟨⟨run, fractionText ++ (exponentText ++ rest)⟩, true⟩ : Tail).followedBy fraction =
      ⟨⟨run ++ fractionText, exponentText ++ rest⟩, true⟩ := by
    rw [Tail.followedBy_of_complete rfl, fraction_append second exponentHead]
  change numberTail c (run ++ (fractionText ++ exponentText) ++ rest) = ⟨⟨run ++ (fractionText ++ exponentText), rest⟩, true⟩
  rw [List.append_assoc, List.append_assoc, numberTail_eq allowed, Cut.run_append inside fractionHead, whole,
    Tail.followedBy_of_complete rfl, exponent_append third ends, List.append_assoc]

private theorem parts_spelled {cut : Cut}
    (complete : (((⟨cut, true⟩ : Tail).followedBy fraction).followedBy exponent).complete = true) :
    ∃ first second, Fraction first ∧ Exponent second ∧
      (((⟨cut, true⟩ : Tail).followedBy fraction).followedBy exponent).taken = cut.taken ++ (first ++ second) := by
  have before := Tail.complete_of_followedBy complete
  rw [Tail.followedBy_of_complete before] at complete ⊢
  rw [Tail.followedBy_of_complete rfl] at before complete ⊢
  exact ⟨_, _, fraction_spelled before, exponent_spelled complete, List.append_assoc ..⟩

private theorem numberTail_spelled {c : Char} (digit : c.isDigit = true) (complete : (numberTail c text).complete = true) :
    Magnitude (c :: (numberTail c text).taken) := by
  unfold numberTail at complete ⊢
  split at complete
  next d following =>
    split at complete
    next => cases complete
    next other =>
      obtain ⟨first, second, fraction, exponent, same⟩ := parts_spelled complete
      rw [if_neg other, same]
      exact .parts .zero fraction exponent
  next notZero =>
    obtain ⟨first, second, fraction, exponent, same⟩ := parts_spelled complete
    have whole : Whole (c :: text.takeWhile Char.isDigit) := by
      by_cases zero : c = '0'
      · have ended : text = [] := by
          cases text with
          | nil => rfl
          | cons d others => exact absurd rfl (notZero d others zero)
        rw [zero, ended]
        exact .zero
      · refine .leading zero ⟨List.cons_ne_nil _ _, List.forall_mem_cons.mpr ⟨digit, ?_⟩⟩
        exact fun d member => List.all_eq_true.mp List.all_takeWhile d member
    rw [same]
    exact .parts whole fraction exponent

private theorem negativeTail_append (magnitude : Magnitude text) (ends : Ends rest) :
    negativeTail (text ++ rest) = ⟨⟨text, rest⟩, true⟩ := by
  obtain ⟨c, others, rfl, digit⟩ := magnitude.exists_digit
  rw [List.cons_append, negativeTail, if_pos digit, numberTail_append magnitude ends]
  rfl

private theorem negativeTail_spelled (complete : (negativeTail text).complete = true) : Magnitude
    (negativeTail text).taken := by
  unfold negativeTail at complete ⊢
  split at complete
  next c following =>
    split at complete
    next digit =>
      rw [if_pos digit]
      exact numberTail_spelled digit complete
    next => cases complete
  next => cases complete

theorem stringTail_plain {c : Char} (quote : c ≠ '"') (backslash : c ≠ '\\') (following : List Char) :
    stringTail (c :: following) = (stringTail following).push c := by
  rw [stringTail]
  · exact quote
  · exact fun same _ => backslash same
  · exact fun _ _ _ _ _ same _ => backslash same
  · exact fun _ _ same _ => backslash same

theorem stringTail_escape {c : Char} (known : isSimpleEscape c = true) (following : List Char) :
    stringTail ('\\' :: c :: following) = ((stringTail following).push c).push '\\' := by
  have other : c ≠ 'u' := by
    rintro rfl
    exact absurd known (by decide)
  rw [stringTail, if_pos known]
  exact fun _ _ _ _ _ same _ => other same

theorem stringTail_append (body : Body plain text) : stringTail (text ++ '"' :: rest) = ⟨⟨text ++ ['"'], rest⟩, true⟩ := by
  induction body with
  | done => rw [List.nil_append, stringTail, List.nil_append]
  | plain _ quote backslash _ ih =>
    rw [List.cons_append, stringTail_plain quote backslash, ih]
    rfl
  | escape known _ ih =>
    rw [List.cons_append, List.cons_append, stringTail_escape (List.contains_iff_mem.mpr known), ih]
    rfl
  | unicode hex _ ih =>
    simp only [List.forall_mem_cons] at hex
    obtain ⟨first, second, third, fourth, -⟩ := hex
    simp only [List.cons_append]
    rw [stringTail, ih, isHexDigit_iff.mpr first, isHexDigit_iff.mpr second, isHexDigit_iff.mpr third,
      isHexDigit_iff.mpr fourth]
    rfl

private theorem stringTail_spelled (complete : (stringTail text).complete = true) :
    ∃ body, Body (fun _ => True) body ∧ (stringTail text).taken = body ++ ['"'] := by
  fun_induction stringTail text with
  | case1 => cases complete
  | case2 => exact ⟨[], .done, rfl⟩
  | case3 => cases complete
  | case4 a b c d following hex ih =>
    obtain ⟨body, spelled, same⟩ := ih complete
    simp only [Bool.and_eq_true, isHexDigit_iff] at hex
    obtain ⟨⟨⟨first, second⟩, third⟩, fourth⟩ := hex
    refine ⟨'\\' :: 'u' :: a :: b :: c :: d :: body, .unicode ?_ spelled, ?_⟩
    · simp only [List.forall_mem_cons]
      exact ⟨first, second, third, fourth, fun _ none => absurd none List.not_mem_nil⟩
    · simp only [Tail.push, same, List.cons_append]
  | case5 => cases complete
  | case6 c following _ known ih =>
    obtain ⟨body, spelled, same⟩ := ih complete
    refine ⟨'\\' :: c :: body, .escape (List.contains_iff_mem.mp known) spelled, ?_⟩
    simp only [Tail.push, same, List.cons_append]
  | case7 => cases complete
  | case8 c following quote ended _ escaped ih =>
    have backslash : c ≠ '\\' := by
      intro same
      cases following with
      | nil => exact ended same rfl
      | cons d others => exact escaped d others same rfl
    obtain ⟨body, spelled, same⟩ := ih complete
    refine ⟨c :: body, .plain trivial quote backslash spelled, ?_⟩
    simp only [Tail.push, same, List.cons_append]

theorem read_digit {c : Char} (digit : c.isDigit = true) (following : List Char) :
    read c following = ofTail .number (numberTail c following) := by
  have solid := solid_of_isDigit digit
  have mark : isPunctuation c = false := by
    rw [Bool.eq_false_iff]
    intro found
    have each : ∀ d ∈ "\x7b\x7d[],:".toList, d.isDigit = false := by simp
    exact Bool.false_ne_true ((each c (List.contains_iff_mem.mp found)).symm.trans digit)
  have minus : c ≠ '-' := by
    rintro rfl
    cases digit
  simp [read, solid.not_isSpace, solid.2.2, mark, minus, digit]

private theorem read_mark {c : Char} (known : c ∈ marks) (following : List Char) :
    read c following = ⟨some .operator, Cut.none following, .neutral⟩ := by
  simp only [marks, List.mem_cons, List.not_mem_nil, or_false] at known
  rcases known with rfl | rfl | rfl | rfl | rfl | rfl <;> rfl

/-- A letter that begins a name is no other token's first character. -/
theorem read_name {c : Char} (known : c :: text ∈ names) (ends : Ends rest) :
    read c (text ++ rest) = ⟨some .keyword, ⟨text, rest⟩, .neutral⟩ := by
  have inside : ∀ name ∈ names, ∀ d ∈ name, d.isAlpha = true := by simp [names]
  have run : Cut.run Char.isAlpha (text ++ rest) = ⟨text, rest⟩ :=
    Cut.run_append (fun d member => inside _ known d (List.mem_cons_of_mem c member)) ends.no_letter
  have word : read c (text ++ rest) = ⟨some (if literals.contains (c :: (Cut.run Char.isAlpha (text ++ rest)).taken)
      then .keyword else .error), Cut.run Char.isAlpha (text ++ rest), .neutral⟩ := by
    simp only [names, List.mem_cons, List.not_mem_nil, or_false] at known
    rcases known with same | same | same <;> cases same <;> rfl
  have literal : literals.contains (c :: text) = true := List.contains_iff_mem.mpr known
  rw [word, run, if_pos literal]

/-- The scanner takes a spelled token for what it is. -/
theorem read_append {kind : TokenKind} {c : Char} (lexical : Lexical plain kind (c :: text))
    (ends : kind = .number ∨ kind = .keyword → Ends rest) :
    read c (text ++ rest) = ⟨some kind, ⟨text, rest⟩, .neutral⟩ := by
  generalize same : c :: text = full at lexical
  cases lexical with
  | @string body spelled =>
    cases same
    change ofTail .string (stringTail (body ++ ['"'] ++ rest)) = _
    rw [List.append_assoc, List.singleton_append, stringTail_append spelled]
    rfl
  | number spelled =>
    cases spelled with
    | positive magnitude =>
      obtain ⟨d, others, rfl, digit⟩ := magnitude.exists_digit
      cases same
      rw [read_digit digit, numberTail_append magnitude (ends (Or.inl rfl))]
      rfl
    | negative magnitude =>
      cases same
      change ofTail .number (negativeTail _) = _
      rw [negativeTail_append magnitude (ends (Or.inl rfl))]
      rfl
  | name known =>
    subst same
    exact read_name known (ends (Or.inr rfl))
  | mark known =>
    cases same
    exact read_mark known rest

private theorem complete_of_ofTail {expected kind : TokenKind} {tail : Tail}
    (token : (ofTail expected tail).kind = some kind)
    (right : kind ≠ .error) : tail.complete = true ∧ kind = expected := by
  cases complete : tail.complete with
  | true =>
    rw [ofTail, complete] at token
    exact ⟨rfl, (Option.some.inj token).symm⟩
  | false =>
    rw [ofTail, complete] at token
    exact absurd (Option.some.inj token).symm right

/-- What the scanner does not call an error is spelled by the rules, unless a string holds
characters that must be escaped. -/
theorem read_spelled {kind : TokenKind} {c : Char} (token : (read c text).kind = some kind) (right : kind ≠ .error) :
    Lexical (fun _ => True) kind (c :: (read c text).body.taken) := by
  generalize found : read c text = reading at token ⊢
  unfold read at found
  split at found
  next =>
    subst found
    cases token
  split at found
  next quote =>
    subst found
    obtain ⟨complete, rfl⟩ := complete_of_ofTail token right
    obtain ⟨body, spelled, same⟩ := stringTail_spelled complete
    change Lexical _ _ (c :: (stringTail text).taken)
    rw [same, eq_of_beq quote]
    exact .string spelled
  split at found
  next mark =>
    subst found
    cases token
    have known : ∀ d ∈ "\x7b\x7d[],:".toList, d ∈ marks := by simp [marks]
    exact .mark (known c (List.contains_iff_mem.mp mark))
  split at found
  next minus =>
    subst found
    obtain ⟨complete, rfl⟩ := complete_of_ofTail token right
    rw [eq_of_beq minus]
    exact .number (.negative (negativeTail_spelled complete))
  split at found
  next digit =>
    subst found
    obtain ⟨complete, rfl⟩ := complete_of_ofTail token right
    exact .number (.positive (numberTail_spelled digit complete))
  next =>
    subst found
    dsimp only at token ⊢
    split at token
    next literal =>
      cases token
      exact .name (List.contains_iff_mem.mp literal)
    next =>
      cases token
      exact absurd rfl right

end JsonLine

end Scan

end Highlight
