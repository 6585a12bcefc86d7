import Highlight.Proofs.JsonScanner
import Highlight.Proofs.Positions

/-! Lines of JSON by positions. Strings and numbers may turn out to be incomplete on the way; then
they are read as far as they go. -/

namespace Highlight.Scan

namespace JsonPositions

section Readers

variable (line : List Char)

def readEscape (position : Nat) : Except Fault (Nat × Bool) := do
  let next ← itemAt? line (position + 1)
  let digits := slice line (position + 2) (position + 6)
  if next.any JsonLine.isSimpleEscape then .ok (position + 2, true)
  else if next == some 'u' && digits.length == 4 && digits.all isHexDigit then .ok (position + 6, true)
  else .ok (min (position + 2) line.length, false)

def stringTurn (state : Nat × Bool) : Except Fault (ForInStep (Nat × Bool)) := do
  let (position, _) := state
  if position < line.length then do
    let c ← itemAt line position
    if c = '"' then .ok (.done (position + 1, true))
    else if c = '\\' then do
      let (next, valid) ← readEscape line position
      .ok (if valid then .yield (next, false) else .done (next, false))
    else .ok (.yield (position + 1, false))
  else .ok (.done (position, false))

def readString (head : Head) : Except Fault Head := do
  let (stop, complete) ← loop (stringTurn line) (line.length + 1) (head.position + 1, false)
  .ok (head.emit line (if complete then .string else .error) head.position stop)

def goOn (read : Nat → Except Fault (Nat × Bool)) (before : Nat × Bool) : Except Fault (Nat × Bool) :=
  if before.2 then read before.1 else .ok before

def readDigits (position : Nat) : Except Fault (Nat × Bool) := do
  let stop ← skipWhile Char.isDigit line position
  .ok (stop, decide (position < stop))

def readFraction (position : Nat) : Except Fault (Nat × Bool) := do
  if ← testAt (· == '.') line position then readDigits line (position + 1) else .ok (position, true)

def readExponent (position : Nat) : Except Fault (Nat × Bool) := do
  if ← testAt (fun c => c == 'e' || c == 'E') line position then do
    let digits ← skipOne (fun c => c == '+' || c == '-') line (position + 1)
    readDigits line digits
  else .ok (position, true)

def readMagnitude (position : Nat) : Except Fault (Nat × Bool) := do
  let zero ← testAt (· == '0') line position
  let longer ← testAt Char.isDigit line (position + 1)
  if zero && longer then .ok (position + 2, false)
  else do
    let whole ← readDigits line position
    let fraction ← goOn (readFraction line) whole
    goOn (readExponent line) fraction

def readNumber (head : Head) : Except Fault Head := do
  let sign ← itemAt line head.position
  let (stop, valid) ← readMagnitude line (if sign = '-' then head.position + 1 else head.position)
  .ok (head.emit line (if valid then .number else .error) head.position stop)

def readName (head : Head) : Except Fault Head := do
  let stop ← skipWhile Char.isAlpha line (head.position + 1)
  let kind := if JsonLine.literals.contains (slice line head.position stop) then .keyword else .error
  .ok (head.emit line kind head.position stop)

def readPunctuation (head : Head) : Except Fault Head :=
  .ok (head.emit line .operator head.position (head.position + 1))

def jsonReader (c : Char) : Head → Except Fault Head :=
  if isSpace c then readBlanks line
  else if c == '"' then readString line
  else if JsonLine.isPunctuation c then readPunctuation line
  else if c == '-' || c.isDigit then readNumber line
  else readName line

def readJson (head : Head) : Except Fault Head := do
  let c ← itemAt line head.position
  jsonReader line c head

end Readers

variable {line following : List Char} {c : Char}

/-- A reading by positions that goes as far as an unfinished cut takes, and says whether it is whole. -/
structure Attempts (line : List Char) (attempt : Nat → Except Fault (Nat × Bool)) (tail : List Char → Tail) : Prop where
  covers : ∀ text, (tail text).Covers text
  reaches : ∀ position text, Stands line position text →
    attempt position = .ok (position + (tail text).taken.length, (tail text).complete)

theorem Attempts.followedBy {first second : Nat → Except Fault (Nat × Bool)} {tail reader : List Char → Tail}
    (begins : Attempts line first tail) (goesOn : Attempts line second reader) :
    Attempts line (fun position => first position >>= goOn second) fun text => (tail text).followedBy reader := by
  refine ⟨fun text => Tail.followedBy_covers (begins.covers text) goesOn.covers, fun position text stands => ?_⟩
  simp only [begins.reaches position text stands, bind, Except.bind, goOn, Tail.followedBy]
  cases complete : (tail text).complete with
  | true =>
    have later := goesOn.reaches _ _ (stands.covers (begins.covers text))
    simp only [if_true, later, List.length_append, Nat.add_assoc]
  | false => simp only [Bool.false_eq_true, if_false, complete]

private theorem readDigits_attempts (line : List Char) : Attempts line (readDigits line) JsonLine.digits := by
  refine ⟨JsonLine.digits_covers, fun position text stands => ?_⟩
  have filled : decide (position < position + (Cut.run Char.isDigit text).taken.length) = !(Cut.run Char.isDigit text).taken.isEmpty := by
    cases (Cut.run Char.isDigit text).taken with
    | nil => simp
    | cons digit digits => simp
  rw [readDigits, (skipWhile_skips Char.isDigit line).reaches _ _ stands]
  simp only [bind, Except.bind, filled]
  rfl

private theorem readFraction_attempts (line : List Char) : Attempts line (readFraction line) JsonLine.fraction := by
  have digits := readDigits_attempts line
  refine ⟨JsonLine.fraction_covers, fun position text stands => ?_⟩
  rw [readFraction, stands.testAt]
  unfold JsonLine.fraction
  split
  next following =>
    rw [Tail.length_push]
    exact digits.reaches _ _ stands.next
  next other =>
    rw [any_head?_eq_false other]
    rfl

private theorem readSigned_attempts (line : List Char) :
    Attempts line (fun position => skipOne (fun c => c == '+' || c == '-') line position >>= readDigits line) JsonLine.signedDigits := by
  have digits := readDigits_attempts line
  refine ⟨JsonLine.signedDigits_covers, fun position text stands => ?_⟩
  simp only [skipOne, stands.testAt]
  unfold JsonLine.signedDigits
  split
  next following =>
    rw [Tail.length_push]
    exact digits.reaches _ _ stands.next
  next following =>
    rw [Tail.length_push]
    exact digits.reaches _ _ stands.next
  next plus minus =>
    rw [any_head?_or_eq_false plus minus]
    exact digits.reaches _ _ stands

private theorem readExponent_attempts (line : List Char) : Attempts line (readExponent line) JsonLine.exponent := by
  have signed := readSigned_attempts line
  refine ⟨JsonLine.exponent_covers, fun position text stands => ?_⟩
  rw [readExponent, stands.testAt]
  unfold JsonLine.exponent
  split
  next following =>
    rw [Tail.length_push]
    exact signed.reaches _ _ stands.next
  next following =>
    rw [Tail.length_push]
    exact signed.reaches _ _ stands.next
  next small capital =>
    rw [any_head?_or_eq_false small capital]
    rfl

private theorem followedBy_push (c : Char) (tail : Tail) (reader : List Char → Tail) :
    (tail.push c).followedBy reader = (tail.followedBy reader).push c := by
  unfold Tail.followedBy
  cases complete : tail.complete with
  | true => simp only [Tail.push, complete, if_true, List.cons_append]
  | false => simp only [Tail.push, complete, Bool.false_eq_true, if_false]

/-- A number read digit by digit comes to the same as one whose first digit is read apart. -/
theorem parts_eq {digit : Char} (isDigit : digit.isDigit = true) {text : List Char}
    (allowed : digit = '0' → ∀ c ∈ text.head?, c.isDigit = false) :
    ((JsonLine.digits (digit :: text)).followedBy JsonLine.fraction).followedBy JsonLine.exponent =
      (JsonLine.numberTail digit text).push digit := by
  have first : JsonLine.digits (digit :: text) = (⟨Cut.run Char.isDigit text, true⟩ : Tail).push digit := by
    rw [JsonLine.digits, Cut.run_cons isDigit]
    rfl
  rw [first, followedBy_push, followedBy_push, JsonLine.numberTail_eq allowed]

private theorem parts_of_no_digit {text : List Char} (none : text.head?.any Char.isDigit = false) :
    ((JsonLine.digits text).followedBy JsonLine.fraction).followedBy JsonLine.exponent = JsonLine.negativeTail text := by
  cases text with
  | nil => rfl
  | cons c following =>
    have other : c.isDigit = false := none
    rw [JsonLine.digits, Cut.run_stop other, JsonLine.negativeTail, other]
    rfl

private theorem readMagnitude_attempts (line : List Char) : Attempts line (readMagnitude line) JsonLine.negativeTail := by
  have parts := ((readDigits_attempts line).followedBy (readFraction_attempts line)).followedBy (readExponent_attempts line)
  refine ⟨JsonLine.negativeTail_covers, fun position text stands => ?_⟩
  have reached := parts.reaches position text stands
  have longer : testAt Char.isDigit line (position + 1) = .ok (text.tail.head?.any Char.isDigit) := by
    rw [testAt_eq, ← List.head?_drop, stands.drop, List.drop_one]
  rw [readMagnitude, stands.testAt, longer]
  simp only [bind_assoc] at reached
  cases text with
  | nil => exact reached
  | cons c following =>
    cases zeros : c == '0' && following.head?.any Char.isDigit with
    | true =>
      obtain ⟨zero, digit⟩ := (Bool.and_eq_true _ _).mp zeros
      cases following with
      | nil => cases digit
      | cons d others =>
        obtain rfl := beq_iff_eq.mp zero
        have isDigit : d.isDigit = true := digit
        have early : JsonLine.negativeTail ('0' :: d :: others) = ⟨⟨['0', d], others⟩, false⟩ := by
          rw [JsonLine.negativeTail, if_pos (by decide), JsonLine.numberTail, if_pos isDigit]
          rfl
        simp only [bind, Except.bind, List.head?_cons, Option.any_some, List.tail_cons, isDigit, early]
        rfl
    | false =>
      have plain : ((JsonLine.digits (c :: following)).followedBy JsonLine.fraction).followedBy JsonLine.exponent =
          JsonLine.negativeTail (c :: following) := by
        cases digit : c.isDigit with
        | true =>
          rw [JsonLine.negativeTail, if_pos digit]
          refine parts_eq digit fun zero d next => ?_
          rw [zero, next] at zeros
          exact zeros
        | false => exact parts_of_no_digit digit
      rw [plain] at reached
      simp only [bind, Except.bind, List.head?_cons, Option.any_some, List.tail_cons, zeros]
      exact reached

theorem readNumber_reads (following : List Char) :
    ReadsAs line (readNumber line) '-' following (JsonLine.ofTail .number (JsonLine.negativeTail following)) := by
  refine ReadsAs.of_emit (JsonLine.negativeTail_covers following) fun head stands => ?_
  have reached := (readMagnitude_attempts line).reaches _ _ stands.next
  simp only [readNumber, stands.itemAt, bind, Except.bind, if_true, reached]

private theorem readNumber_digit (digit : c.isDigit = true) (following : List Char) :
    ReadsAs line (readNumber line) c following (JsonLine.ofTail .number (JsonLine.numberTail c following)) := by
  refine ReadsAs.of_emit (JsonLine.numberTail_covers c following) fun head stands => ?_
  have reached := (readMagnitude_attempts line).reaches _ _ stands
  have unsigned : c ≠ '-' := by
    rintro rfl
    cases digit
  rw [JsonLine.negativeTail, if_pos digit, Tail.length_push] at reached
  simp only [readNumber, stands.itemAt, bind, Except.bind, if_neg unsigned, reached]
  rfl

theorem readName_reads (following : List Char) : ReadsAs line (readName line) c following
    ⟨some (if JsonLine.literals.contains (c :: (Cut.run Char.isAlpha following).taken) then .keyword else .error),
      Cut.run Char.isAlpha following, .neutral⟩ := by
  refine ReadsAs.of_emit (Cut.run_covers Char.isAlpha following) fun head stands => ?_
  rw [readName, (skipWhile_skips Char.isAlpha line).reaches _ _ stands.next]
  simp only [bind, Except.bind, stands.piece (Cut.run_covers Char.isAlpha following)]

section Strings

variable {position : Nat} {text : List Char}

private theorem readEscape_eq (stands : Stands line position ('\\' :: following)) :
    readEscape line position = .ok
      (if following.head?.any JsonLine.isSimpleEscape then (position + 2, true)
      else if following.head? == some 'u' && (following.tail.take 4).length == 4 && (following.tail.take 4).all isHexDigit then
        (position + 6, true)
      else (min (position + 2) line.length, false)) := by
  have digits : slice line (position + 2) (position + 6) = following.tail.take 4 := by
    rw [slice, List.drop_take, stands.drop, List.drop_succ_cons, List.drop_one]
    congr 1
    omega
  rw [readEscape, stands.next.itemAt?, digits]
  simp only [bind, Except.bind, apply_ite Except.ok]

private theorem stringTurn_escape (stands : Stands line position ('\\' :: following)) {next : Nat} {valid : Bool}
    (escape : readEscape line position = .ok (next, valid)) :
    stringTurn line (position, false) = .ok (if valid then .yield (next, false) else .done (next, false)) := by
  simp only [stringTurn, if_pos stands.lt_length, stands.itemAt, escape, bind, Except.bind]
  rfl

private theorem stringTurn_plain (stands : Stands line position (c :: following)) (quote : c ≠ '"') (escape : c ≠ '\\') :
    stringTurn line (position, false) = .ok (.yield (position + 1, false)) := by
  simp only [stringTurn, if_pos stands.lt_length, stands.itemAt, bind, Except.bind, if_neg quote, if_neg escape]

/-- The reading of a string stops behind its closing quote, behind an escape that JSON does not have,
or at the end of the line. -/
theorem stringTurn_ends (stands : Stands line position text) :
    EndsWithin (stringTurn line) (text.length + 1) (position, false)
      (position + (JsonLine.stringTail text).taken.length, (JsonLine.stringTail text).complete) := by
  fun_induction JsonLine.stringTail text generalizing position with
  | case1 => exact EndsWithin.done (if_neg (Nat.not_lt_of_le (Nat.le_of_eq stands.length.symm)))
  | case2 following =>
    apply EndsWithin.done
    simp only [stringTurn, if_pos stands.lt_length, stands.itemAt, bind, Except.bind, if_true]
    rfl
  | case3 =>
    have escape := readEscape_eq stands
    rw [← stands.length] at escape
    apply EndsWithin.done
    rw [stringTurn_escape stands escape]
    simp
  | case4 a b c d following hex ih =>
    have escape : readEscape line position = .ok (position + 6, true) := by
      rw [readEscape_eq stands, List.head?_cons, Option.any_some, if_neg (by decide), if_pos]
      simpa [and_assoc] using hex
    simp only [Tail.length_push]
    refine EndsWithin.yield (stringTurn_escape stands escape) ?_
    exact (ih stands.next.next.next.next.next.next).mono (Nat.add_le_add_right (Nat.le_add_right _ 5) 1)
  | case5 a b c d following hex =>
    have escape : readEscape line position = .ok (position + 2, false) := by
      rw [readEscape_eq stands, List.head?_cons, Option.any_some, if_neg (by decide), if_neg]
      · rw [Nat.min_eq_left stands.next.lt_length]
      · simpa [and_assoc] using hex
    exact EndsWithin.done (stringTurn_escape stands escape)
  | case6 c following notUnit simple ih =>
    have escape : readEscape line position = .ok (position + 2, true) := by
      rw [readEscape_eq stands, List.head?_cons, Option.any_some, if_pos simple]
    simp only [Tail.length_push]
    refine EndsWithin.yield (stringTurn_escape stands escape) ?_
    exact (ih stands.next.next).mono (Nat.add_le_add_right (Nat.le_add_right _ 1) 1)
  | case7 c following notUnit simple =>
    have escape : readEscape line position = .ok (position + 2, false) := by
      rw [readEscape_eq stands, List.head?_cons, Option.any_some, if_neg simple, if_neg]
      · rw [Nat.min_eq_left stands.next.lt_length]
      · intro unit
        simp only [List.tail_cons, Bool.and_eq_true, beq_iff_eq, Option.some_inj] at unit
        obtain ⟨⟨letter, four⟩, -⟩ := unit
        rcases following with _ | ⟨a, _ | ⟨b, _ | ⟨d, _ | ⟨e, others⟩⟩⟩⟩
        case cons.cons.cons.cons => exact notUnit a b d e others letter rfl
        all_goals cases four
    exact EndsWithin.done (stringTurn_escape stands escape)
  | case8 c following quote last unit escape ih =>
    have unescaped : c ≠ '\\' := by
      rintro rfl
      cases following with
      | nil => exact last rfl rfl
      | cons d others => exact escape d others rfl rfl
    rw [Tail.length_push]
    exact EndsWithin.yield (stringTurn_plain stands quote unescaped) (ih stands.next)

end Strings

theorem readString_reads (following : List Char) :
    ReadsAs line (readString line) c following (JsonLine.ofTail .string (JsonLine.stringTail following)) := by
  refine ReadsAs.of_emit (JsonLine.stringTail_covers following) fun head stands => ?_
  simp only [readString, bind, Except.bind, stringTurn_ends stands.next _ stands.next.turns_le]

private theorem jsonReader_reads (c : Char) (following : List Char) : ReadsAs line (jsonReader line c) c following
    (JsonLine.read c following) := by
  unfold jsonReader JsonLine.read
  by_cases space : isSpace c = true
  · simp only [if_pos space]
    exact readBlanks_reads following
  by_cases quote : (c == '"') = true
  · simp only [if_neg space, if_pos quote]
    exact readString_reads following
  by_cases punctuation : JsonLine.isPunctuation c = true
  · simp only [if_neg space, if_neg quote, if_pos punctuation]
    exact emit_one_reads .operator following
  simp only [if_neg space, if_neg quote, if_neg punctuation]
  by_cases minus : c = '-'
  · subst minus
    exact readNumber_reads following
  by_cases digit : c.isDigit = true
  · simp only [beq_eq_false_iff_ne.mpr minus, digit]
    exact readNumber_digit digit following
  · simp only [beq_eq_false_iff_ne.mpr minus, digit]
    exact readName_reads following

theorem readJson_reads {head : Head} (stands : Stands line head.position (c :: following)) :
    head.ReadsAs (readJson line) c (JsonLine.read c following) := by
  rw [Head.ReadsAs, readJson, stands.itemAt]
  exact jsonReader_reads c following head stands

end JsonPositions

end Highlight.Scan
