import Highlight.Proofs.Constructs
import Highlight.Proofs.Positions

/-! Script lines by positions. Each reader starts at the position of a head and moves it on; what it
asks for on the way is there, its loops come to their ends, and it gets as far as the reader that
takes the line apart. -/

namespace Highlight.Scan

namespace ScriptPositions

section Script

variable (words : Vocabulary) (line : List Char)

def readName (head : Head) : Except Fault Head := do
  let stop ← skipWhile isNamePart line (head.position + 1)
  .ok (head.emit line (words.kindOf (slice line head.position stop)) head.position stop)

def readOperator (head : Head) : Except Fault Head := do
  let first ← itemAt line head.position
  match ((scriptOperators.tails first).map (first :: ·)).find? fun operator => operator.isPrefixOf (line.drop head.position) with
  | some operator =>
    .ok { head with
      position := head.position + operator.length
      tokens := head.tokens ++ [⟨.operator, operator, head.position⟩] }
  | none =>
    let c ← itemAt line head.position
    .ok { head with position := head.position + 1, tokens := head.tokens ++ [⟨.error, [c], head.position⟩] }

def skipFraction (position : Nat) : Except Fault Nat := do
  if ← testAt (· == '.') line position then skipWhile Char.isDigit line (position + 1) else .ok position

def skipExponent (position : Nat) : Except Fault Nat := do
  if ← testAt (fun c => c == 'e' || c == 'E') line position then do
    let digits ← skipOne (fun c => c == '+' || c == '-') line (position + 1)
    skipWhile Char.isDigit line digits
  else .ok position

def skipDecimal (position : Nat) : Except Fault Nat := do
  let whole ← skipWhile (fun c => c.isDigit || c == '_') line position
  let fraction ← skipFraction line whole
  skipExponent line fraction

def radices : List (Char × (Char → Bool)) := [('x', isHexDigit), ('b', isBinaryDigit), ('o', isOctalDigit)]

def radixDigit (mark : Char) : Except Fault (Char → Bool) :=
  match radices.lookup mark with
  | some digit => .ok digit
  | none => .error (.missing mark)

def skipNumber (position : Nat) : Except Fault Nat := do
  let mark ← itemAt? line (position + 1)
  let first ← itemAt line position
  match mark.map Char.toLower with
  | some mark =>
    if first == '0' && ['x', 'b', 'o'].contains mark then do
      let digit ← radixDigit mark
      skipWhile (fun c => digit c || c == '_') line (position + 2)
    else skipDecimal line position
  | none => skipDecimal line position

def readNumber (head : Head) : Except Fault Head := do
  let digits ← skipNumber line head.position
  let stop ← skipOne (· == 'n') line digits
  .ok (head.emit line .number head.position stop)

def quotedTurn (quote : Char) (position : Nat) : Except Fault (ForInStep Nat) := do
  if ← testAt (· != quote) line position then do
    let c ← itemAt line position
    .ok (.yield (if c == '\\' then position + 2 else position + 1))
  else .ok (.done position)

def readString (head : Head) : Except Fault Head := do
  let quote ← itemAt line head.position
  let mark ← loop (quotedTurn line quote) (line.length + 1) (head.position + 1)
  .ok (head.emit line .string head.position (min (mark + 1) line.length))

def templateTurn (state : Nat × Bool) : Except Fault (ForInStep (Nat × Bool)) := do
  let (position, isOpen) := state
  if position < line.length then do
    let c ← itemAt line position
    if c == '\\' then .ok (.yield (position + 2, isOpen))
    else if c == '\x60' then .ok (.done (position + 1, false))
    else .ok (.yield (position + 1, isOpen))
  else .ok (.done (position, isOpen))

/-- Reads a template literal whose opening mark, if it stands in this line, has so many characters. -/
def readTemplate (opening : Nat) (head : Head) : Except Fault Head := do
  let (stop, isOpen) ← loop (templateTurn line) (line.length + 1) (head.position + opening, true)
  let read := head.emit line .string head.position (min stop line.length)
  .ok { read with carry := { head.carry with inTemplate := isOpen } }

def find? (text : List Char) (position : Nat) : Option Nat :=
  (List.range' position (line.length + 1 - position)).find? fun place => text.isPrefixOf (line.drop place)

def readComment (opening : Nat) (head : Head) : Except Fault Head :=
  match find? line ['*', '/'] (head.position + opening) with
  | some mark =>
    .ok { head.emit line .comment head.position (mark + 2) with carry := { head.carry with inComment := false } }
  | none =>
    .ok { head.emit line .comment head.position line.length with carry := { head.carry with inComment := true } }

def regexTurn (state : Nat × Bool × Bool) : Except Fault (ForInStep (Nat × Bool × Bool)) := do
  let (position, escaped, inClass) := state
  if position < line.length then do
    let c ← itemAt line position
    if escaped then .ok (.yield (position + 1, false, inClass))
    else if c == '\\' then .ok (.yield (position + 1, true, inClass))
    else if c == '[' then .ok (.yield (position + 1, false, true))
    else if c == ']' then .ok (.yield (position + 1, false, false))
    else if c == '/' && !inClass then .ok (.done state)
    else .ok (.yield (position + 1, false, inClass))
  else .ok (.done state)

def readRegex (head : Head) : Except Fault Head := do
  let (mark, _, _) ← loop (regexTurn line) (line.length + 1) (head.position + 1, false, false)
  if line.length ≤ mark then .ok (head.emit line .operator head.position (head.position + 1))
  else do
    let stop ← skipWhile ScriptLine.isRegexFlag line (mark + 1)
    .ok (head.emit line .regexp head.position stop)

def readSlash (head : Head) : Except Fault Head := do
  let next ← itemAt? line (head.position + 1)
  if next == some '=' then readOperator line head
  else if next == some '/' then .ok (head.emit line .comment head.position line.length)
  else if next == some '*' then readComment line 2 head
  else readRegex line head

def readDot (head : Head) : Except Fault Head := do
  if ← testAt Char.isDigit line (head.position + 1) then readNumber line head else readOperator line head

def replaceLast (tokens : List Token) (token : Token) : Except Fault (List Token) :=
  match tokens.getLast? with
  | some _ => .ok (tokens.dropLast ++ [token])
  | none => .error (.outside 0)

def readHash (head : Head) : Except Fault Head := do
  if head.position = 0 ∧ ['#', '!'].isPrefixOf line then .ok (head.emit line .preprocessor 0 line.length)
  else if ← testAt Char.isAlpha line (head.position + 1) then do
    let named ← readName words line { head with position := head.position + 1 }
    let tokens ← replaceLast named.tokens ⟨.identifier, slice line head.position named.position, head.position⟩
    .ok { named with tokens := tokens }
  else .ok (head.emit line .error head.position (head.position + 1))

def scriptReader (c : Char) : Head → Except Fault Head :=
  if isSpace c then readBlanks line
  else if isNameStart c then readName words line
  else if c.isDigit then readNumber line
  else if c = '"' || c = '\x27' then readString line
  else if c = '\x60' then readTemplate line 1
  else if c = '.' then readDot line
  else if c = '/' then readSlash line
  else if c = '#' then readHash words line
  else readOperator line

def readScript (head : Head) : Except Fault Head := do
  let c ← itemAt line head.position
  scriptReader words line c head

end Script

end ScriptPositions

variable {line following : List Char} {c : Char} {head : Head}

namespace ScriptPositions

theorem readName_reads (words : Vocabulary) (following : List Char) :
    ReadsAs line (readName words line) c following (ScriptLine.name words c following) := by
  refine ReadsAs.of_emit (Cut.run_covers isNamePart following) fun head stands => ?_
  rw [readName, (skipWhile_skips isNamePart line).reaches _ _ stands.next]
  simp only [bind, Except.bind, stands.piece (Cut.run_covers isNamePart following)]

private theorem readOperator_reads (following : List Char) :
    ReadsAs line (readOperator line) c following (ScriptLine.operator c following) := by
  intro head stands
  have found : ((scriptOperators.tails c).map (c :: ·)).find? (fun operator => operator.isPrefixOf (line.drop head.position)) =
      (scriptOperators.munch? c following).map (c :: ·) := by
    rw [List.find?_map, stands.behind, OperatorTable.munch?]
    congr 2
    funext tail
    rw [Function.comp_apply, List.isPrefixOf_cons_cons_self]
  refine ⟨head.carry, ?_, ?_⟩
  · simp only [readOperator, bind, Except.bind, stands.itemAt, found, ScriptLine.operator, OperatorTable.read]
    cases scriptOperators.munch? c following with
    | some tail =>
      simp only [Option.map_some, Head.after, place, List.length_cons, Nat.add_comm tail.length, ← Nat.add_assoc]
    | none => rfl
  · intro closed
    rw [closed, (ScriptLine.operator_reads c following).2]

section Numbers

private theorem skipFraction_skips (line : List Char) : Skips line (skipFraction line) ScriptLine.fraction := by
  refine ⟨ScriptLine.fraction_covers, fun position text stands => ?_⟩
  rw [skipFraction, stands.testAt]
  unfold ScriptLine.fraction
  split
  next following =>
    rw [Cut.length_push]
    exact (skipWhile_skips Char.isDigit line).reaches _ _ stands.next
  next other =>
    rw [any_head?_eq_false other]
    rfl

private theorem skipSigned_skips (line : List Char) :
    Skips line (fun position => skipOne (fun c => c == '+' || c == '-') line position >>= skipWhile Char.isDigit line)
      ScriptLine.signedDigits := by
  have digits := skipWhile_skips Char.isDigit line
  refine ⟨ScriptLine.signedDigits_covers, fun position text stands => ?_⟩
  simp only [skipOne, stands.testAt]
  unfold ScriptLine.signedDigits
  split
  next following =>
    rw [Cut.length_push]
    exact digits.reaches _ _ stands.next
  next following =>
    rw [Cut.length_push]
    exact digits.reaches _ _ stands.next
  next plus minus =>
    rw [any_head?_or_eq_false plus minus]
    exact digits.reaches _ _ stands

private theorem skipExponent_skips (line : List Char) : Skips line (skipExponent line) ScriptLine.exponent := by
  have signed := skipSigned_skips line
  refine ⟨ScriptLine.exponent_covers, fun position text stands => ?_⟩
  rw [skipExponent, stands.testAt]
  unfold ScriptLine.exponent
  split
  next following =>
    rw [Cut.length_push]
    exact signed.reaches _ _ stands.next
  next following =>
    rw [Cut.length_push]
    exact signed.reaches _ _ stands.next
  next small capital =>
    rw [any_head?_or_eq_false small capital]
    rfl

private theorem skipBig_skips (line : List Char) : Skips line (skipOne (· == 'n') line) ScriptLine.bigMark := by
  refine ⟨ScriptLine.bigMark_covers, fun position text stands => ?_⟩
  rw [skipOne, stands.testAt]
  unfold ScriptLine.bigMark
  split
  next following => rfl
  next other =>
    rw [any_head?_eq_false other]
    rfl

private theorem skipDecimal_skips (line : List Char) :
    Skips line (fun position => skipDecimal line position >>= skipOne (· == 'n') line) fun text =>
      (((ScriptLine.separated Char.isDigit text).followedBy ScriptLine.fraction).followedBy ScriptLine.exponent).followedBy
        ScriptLine.bigMark := by
  have whole : Skips line (skipWhile (fun c => c.isDigit || c == '_') line) (ScriptLine.separated Char.isDigit) :=
    skipWhile_skips _ line
  have number := ((whole.followedBy (skipFraction_skips line)).followedBy (skipExponent_skips line)).followedBy (skipBig_skips line)
  refine ⟨number.covers, fun position text stands => ?_⟩
  rw [← number.reaches position text stands]
  simp only [skipDecimal, bind_assoc]

/-- Reading the first character of a number like the others, or the point in front of them, comes to
the same. -/
theorem decimal_eq {first : Char} (begins : first.isDigit = true ∨ first = '.') (text : List Char) :
    (((ScriptLine.separated Char.isDigit (first :: text)).followedBy ScriptLine.fraction).followedBy
      ScriptLine.exponent).followedBy ScriptLine.bigMark = (ScriptLine.decimalTail first text).push first := by
  rcases begins with digit | rfl
  · have whole : ScriptLine.separated Char.isDigit (first :: text) = (ScriptLine.separated Char.isDigit text).push first :=
      Cut.run_cons (by rw [digit, Bool.true_or]) text
    have notPoint : first ≠ '.' := by rintro rfl; cases digit
    rw [whole, ScriptLine.decimalTail, if_neg notPoint]
    rfl
  · have whole : ScriptLine.separated Char.isDigit ('.' :: text) = Cut.none ('.' :: text) := Cut.run_stop rfl text
    rw [whole]
    rfl

private theorem toLower_eq_iff {mark : Char} {letter : Char × Char} (known : letter ∈ [('x', 'X'), ('b', 'B'), ('o', 'O')]) :
    mark.toLower = letter.1 ↔ mark = letter.1 ∨ mark = letter.2 := by
  by_cases ascii : mark.toNat < 128
  · have each : ∀ n < 128, ∀ letter ∈ [('x', 'X'), ('b', 'B'), ('o', 'O')],
        (Char.ofNat n).toLower = letter.1 ↔ Char.ofNat n = letter.1 ∨ Char.ofNat n = letter.2 := by decide
    have here := each mark.toNat ascii letter known
    rwa [Char.ofNat_toNat] at here
  · have low : ∀ letter ∈ [('x', 'X'), ('b', 'B'), ('o', 'O')], letter.2.toNat < 128 := by decide
    have same : mark.toLower = mark :=
      dif_neg fun upper => ascii (Nat.lt_of_le_of_lt (UInt32.le_iff_toNat_le.mp upper.2) (by decide))
    rw [same]
    refine ⟨Or.inl, fun either => either.resolve_right ?_⟩
    rintro rfl
    exact ascii (low letter known)

/-- A small mark of a radix is looked up for a capital one too. -/
theorem lookup_radices (mark : Char) : radices.lookup mark.toLower = ScriptLine.radixDigit? mark := by
  have each : ∀ letter ∈ [('x', 'X'), ('b', 'B'), ('o', 'O')],
      (mark.toLower == letter.1) = (decide (mark = letter.1) || decide (mark = letter.2)) := by
    intro letter known
    rw [Bool.eq_iff_iff, beq_iff_eq, toLower_eq_iff known, Bool.or_eq_true, decide_eq_true_eq, decide_eq_true_eq]
  rw [radices, List.lookup_cons, List.lookup_cons, List.lookup_cons, List.lookup_nil, each ('x', 'X') (by decide),
    each ('b', 'B') (by decide), each ('o', 'O') (by decide), ScriptLine.radixDigit?]
  cases decide (mark = 'x') || decide (mark = 'X') with
  | true => rfl
  | false =>
    cases decide (mark = 'b') || decide (mark = 'B') with
    | true => rfl
    | false => cases decide (mark = 'o') || decide (mark = 'O') <;> rfl

/-- Only marks that the table knows are looked up in it. -/
theorem contains_radices (mark : Char) : ['x', 'b', 'o'].contains mark = (radices.lookup mark).isSome := by
  rw [radices, List.lookup_cons, List.lookup_cons, List.lookup_cons, List.lookup_nil, List.contains_cons, List.contains_cons,
    List.contains_cons, List.contains_nil]
  cases mark == 'x' with
  | true => rfl
  | false =>
    cases mark == 'b' with
    | true => rfl
    | false => cases mark == 'o' <;> rfl

private theorem skipNumber_reaches (begins : c.isDigit = true ∨ c = '.') {position : Nat}
    (stands : Stands line position (c :: following)) :
    (skipNumber line position >>= skipOne (· == 'n') line) =
      .ok (position + 1 + (ScriptLine.numberTail c following).taken.length) := by
  have decimal : (skipDecimal line position >>= skipOne (· == 'n') line) =
      .ok (position + 1 + (ScriptLine.decimalTail c following).taken.length) := by
    rw [(skipDecimal_skips line).reaches _ _ stands, decimal_eq begins, Cut.length_push]
  rw [skipNumber, stands.next.itemAt?]
  simp only [bind, Except.bind, stands.itemAt] at decimal ⊢
  cases following with
  | nil =>
    have none : ScriptLine.decimalTail c [] = ScriptLine.numberTail c [] := by
      unfold ScriptLine.decimalTail
      split <;> rfl
    rwa [none] at decimal
  | cons mark following =>
    simp only [List.head?_cons, Option.map_some, contains_radices, lookup_radices, ScriptLine.numberTail]
    cases found : if c = '0' then ScriptLine.radixDigit? mark else none with
    | none =>
      have guarded : (c == '0' && (ScriptLine.radixDigit? mark).isSome) = false := by
        cases zero : c == '0' with
        | false => rfl
        | true =>
          rw [if_pos (beq_iff_eq.mp zero)] at found
          rw [found]
          rfl
      rw [guarded]
      exact decimal
    | some digit =>
      obtain ⟨rfl, known⟩ := Option.ite_none_right_eq_some.mp found
      have digits : radixDigit mark.toLower = .ok digit := by rw [radixDigit, lookup_radices, known]
      have whole : Skips line (skipWhile (fun c => digit c || c == '_') line) (ScriptLine.separated digit) := skipWhile_skips _ line
      have reaches := (whole.followedBy (skipBig_skips line)).reaches _ _ stands.next.next
      have pushed : ((ScriptLine.separated digit following).push mark).followedBy ScriptLine.bigMark =
          ((ScriptLine.separated digit following).followedBy ScriptLine.bigMark).push mark := rfl
      simp only [known, digits]
      rw [pushed, Cut.length_push]
      exact reaches

theorem readNumber_reads (begins : c.isDigit = true ∨ c = '.') (following : List Char) :
    ReadsAs line (readNumber line) c following ⟨some .number, ScriptLine.numberTail c following, .neutral⟩ := by
  refine ReadsAs.of_emit (ScriptLine.numberTail_covers c following) fun head stands => ?_
  have reaches := skipNumber_reaches begins stands
  simp only [readNumber]
  rw [← bind_assoc, reaches]
  rfl

end Numbers

section Quoted

variable {position : Nat} {text : List Char}

/-- What each turn of a search for a closing quote does: at the quote and behind the line it ends, at
a backslash it takes two characters, and elsewhere one. -/
structure SeeksQuote {σ : Type} (line : List Char) (quote : Char) (turn : σ → Except Fault (ForInStep σ)) (seeking closed : Nat → σ) :
    Prop where
  here : ∀ {position c following}, Stands line position (c :: following) → turn (seeking position) =
    .ok (if c = quote then .done (closed position) else .yield (seeking (if c = '\\' then position + 2 else position + 1)))
  behind : ∀ {position}, line.length ≤ position → turn (seeking position) = .ok (.done (seeking position))

/-- The search ends with the quote that closes the literal, or behind the line if none does. -/
theorem SeeksQuote.ends {σ : Type} {quote : Char} {turn : σ → Except Fault (ForInStep σ)} {seeking closed : Nat → σ}
    (seeks : SeeksQuote line quote turn seeking closed) (stands : Stands line position text) :
    ∃ mark, EndsWithin turn (text.length + 1) (seeking position)
        (if (ScriptLine.quotedTail quote text).complete then closed mark else seeking mark) ∧
      if (ScriptLine.quotedTail quote text).complete then mark + 1 = position + (ScriptLine.quotedTail quote text).taken.length
      else line.length ≤ mark := by
  fun_induction ScriptLine.quotedTail quote text generalizing position with
  | case1 =>
    have ended : line.length ≤ position := Nat.le_of_eq stands.length.symm
    exact ⟨position, EndsWithin.done (seeks.behind ended), ended⟩
  | case2 following =>
    refine ⟨position, EndsWithin.done ?_, rfl⟩
    rw [seeks.here stands, if_pos rfl]
    rfl
  | case3 notQuote =>
    have ended : line.length ≤ position + 2 := Nat.le_trans (Nat.le_of_eq stands.length.symm) (Nat.le_succ _)
    have last : EndsWithin turn 1 (seeking (position + 2)) (seeking (position + 2)) := EndsWithin.done (seeks.behind ended)
    refine ⟨position + 2, EndsWithin.yield ?_ last, ended⟩
    rw [seeks.here stands, if_neg notQuote, if_pos rfl]
  | case4 d others notQuote ih =>
    obtain ⟨mark, later, reached⟩ := ih stands.next.next
    refine ⟨mark, EndsWithin.yield ?_ (later.mono (Nat.le_add_right _ 1)), ?_⟩
    · rw [seeks.here stands, if_neg notQuote, if_pos rfl]
    · rw [Tail.length_push, Tail.length_push]
      exact reached
  | case5 c following notQuote unescaped ih =>
    obtain ⟨mark, later, reached⟩ := ih stands.next
    refine ⟨mark, EndsWithin.yield ?_ later, ?_⟩
    · rw [seeks.here stands, if_neg notQuote, if_neg unescaped]
    · rw [Tail.length_push]
      exact reached

/-- A literal that is not closed takes the rest of the line. -/
theorem quotedTail_whole {quote : Char} (unfinished : (ScriptLine.quotedTail quote text).complete = false)
    (stands : Stands line position text) : position + (ScriptLine.quotedTail quote text).taken.length = line.length := by
  have behind := (stands.covers (ScriptLine.quotedTail_covers quote text)).length
  rwa [ScriptLine.quotedTail_rest unfinished, List.length_nil, Nat.add_zero] at behind

private theorem quotedTurn_seeks (line : List Char) (quote : Char) : SeeksQuote line quote
    (quotedTurn line quote) id id := by
  refine ⟨fun {position c following} stands => ?_, fun {position} behind => ?_⟩
  · rw [id_eq, quotedTurn, stands.testAt]
    by_cases same : c = quote
    · subst same
      simp only [List.head?_cons, Option.any_some, bne_self_eq_false, if_true]
      rfl
    · have other : (c != quote) = true := bne_iff_ne.mpr same
      simp only [List.head?_cons, Option.any_some, other, if_neg same, bind, Except.bind, if_true, stands.itemAt, beq_iff_eq, id_eq]
  · rw [id_eq, quotedTurn, testAt_behind _ behind]
    rfl

/-- The reading of a literal stops at its closing quote, or behind the line. -/
theorem quotedTurn_ends (quote : Char) (stands : Stands line position text) :
    ∃ mark, EndsWithin (quotedTurn line quote) (text.length + 1) position mark ∧
      min (mark + 1) line.length = position + (ScriptLine.quotedTail quote text).taken.length := by
  obtain ⟨mark, ends, reached⟩ := (quotedTurn_seeks line quote).ends stands
  rw [id_eq, ite_self] at ends
  refine ⟨mark, ends, ?_⟩
  cases complete : (ScriptLine.quotedTail quote text).complete with
  | true =>
    rw [complete, if_pos rfl] at reached
    rw [reached]
    exact Nat.min_eq_left (stands.covers (ScriptLine.quotedTail_covers quote text)).inside
  | false =>
    rw [complete, if_neg Bool.false_ne_true] at reached
    rw [quotedTail_whole complete stands]
    exact Nat.min_eq_right (Nat.le_succ_of_le reached)

theorem readString_reads (following : List Char) : ReadsAs line (readString line) c following
    ⟨some .string, (ScriptLine.quotedTail c following).toCut, .neutral⟩ := by
  refine ReadsAs.of_emit (ScriptLine.quotedTail_covers c following) fun head stands => ?_
  obtain ⟨mark, ends, reached⟩ := quotedTurn_ends c stands.next
  rw [readString, stands.itemAt]
  simp only [bind, Except.bind, ends _ stands.next.turns_le, reached]

private theorem templateTurn_seeks (line : List Char) :
    SeeksQuote line '\x60' (templateTurn line) (fun position => (position, true)) (fun position => (position + 1, false)) := by
  refine ⟨fun {position c following} stands => ?_, fun {position} behind => if_neg (Nat.not_lt_of_le behind)⟩
  simp only [templateTurn, if_pos stands.lt_length, stands.itemAt, bind, Except.bind, beq_iff_eq]
  by_cases escape : c = '\\'
  · subst escape
    rfl
  · simp only [if_neg escape]
    split <;> rfl

/-- The reading of a template literal stops behind its closing mark, or behind the line. -/
theorem templateTurn_ends (stands : Stands line position text) :
    ∃ stop, EndsWithin (templateTurn line) (text.length + 1) (position, true)
        (stop, !(ScriptLine.quotedTail '\x60' text).complete) ∧
      min stop line.length = position + (ScriptLine.quotedTail '\x60' text).taken.length := by
  obtain ⟨mark, ends, reached⟩ := (templateTurn_seeks line).ends stands
  cases complete : (ScriptLine.quotedTail '\x60' text).complete with
  | true =>
    rw [complete, if_pos rfl] at ends reached
    refine ⟨mark + 1, ends, ?_⟩
    rw [reached]
    exact Nat.min_eq_left (stands.covers (ScriptLine.quotedTail_covers '\x60' text)).inside
  | false =>
    rw [complete, if_neg Bool.false_ne_true] at ends reached
    refine ⟨mark, ends, ?_⟩
    rw [quotedTail_whole complete stands]
    exact Nat.min_eq_right reached

theorem readTemplate_eq {opening : Nat} (stands : Stands line (head.position + opening) text) :
    readTemplate line opening head = .ok
      { head.emit line .string head.position (head.position + opening + (ScriptLine.quotedTail '\x60' text).taken.length) with
        carry := { head.carry with inTemplate := !(ScriptLine.quotedTail '\x60' text).complete } } := by
  obtain ⟨stop, ends, reached⟩ := templateTurn_ends stands
  simp only [readTemplate, bind, Except.bind, ends _ stands.turns_le, reached]

private theorem readTemplate_reads (following : List Char) :
    ReadsAs line (readTemplate line 1) '\x60' following (ScriptLine.quoted '\x60' following) := by
  intro head stands
  refine ⟨{ head.carry with inTemplate := !(ScriptLine.quotedTail '\x60' following).complete }, ?_, ?_⟩
  · have piece := stands.piece (ScriptLine.quotedTail_covers '\x60' following)
    rw [readTemplate_eq stands.next]
    simp only [Head.emit, piece]
    rfl
  · intro closed
    rw [closed]
    rfl

end Quoted

section Comments

variable {position : Nat} {text : List Char}

private theorem find?_closed (stands : Stands line position text)
    (complete : (ScriptLine.commentTail text).complete = true) :
    ∃ mark, find? line ['*', '/'] position = some mark ∧ mark + 2 = position + (ScriptLine.commentTail text).taken.length := by
  obtain ⟨body, taken, first⟩ := ScriptLine.commentTail_closed complete
  have joined : (ScriptLine.commentTail text).taken ++ (ScriptLine.commentTail text).rest = text := ScriptLine.commentTail_covers text
  rw [taken, List.append_assoc] at joined
  have here : text.drop body.length = ['*', '/'] ++ (ScriptLine.commentTail text).rest :=
    (congrArg (List.drop body.length) joined.symm).trans List.drop_left
  have fits : position + body.length + 2 ≤ line.length := by
    rw [← stands.length, ← joined, List.length_append, List.length_append]
    simp only [List.length_cons, List.length_nil]
    omega
  refine ⟨position + body.length, List.find?_range'_eq_some.mpr ⟨?_, ?_, ?_⟩, ?_⟩
  · rw [stands.drop, here]
    exact List.isPrefixOf_iff_prefix.mpr (List.prefix_append ..)
  · rw [List.mem_range'_1]
    omega
  · intro place reached before
    obtain ⟨distance, rfl⟩ := Nat.exists_eq_add_of_le reached
    have earlier := first distance (Nat.lt_of_add_lt_add_left before)
    rw [stands.drop, Bool.not_eq_true']
    exact Bool.eq_false_iff.mpr fun closes => earlier (List.isPrefixOf_iff_prefix.mp closes)
  · rw [taken, List.length_append, ← Nat.add_assoc]
    rfl

private theorem find?_unclosed (stands : Stands line position text)
    (unfinished : (ScriptLine.commentTail text).complete = false) :
    find? line ['*', '/'] position = none := by
  refine List.find?_range'_eq_none.mpr fun place reached _ => ?_
  obtain ⟨distance, rfl⟩ := Nat.exists_eq_add_of_le reached
  have never := ScriptLine.commentTail_unclosed unfinished distance
  rw [stands.drop, Bool.not_eq_true']
  exact Bool.eq_false_iff.mpr fun closes => never (List.isPrefixOf_iff_prefix.mp closes)

/-- A comment is read to its closing mark, or to the end of the line. -/
theorem readComment_eq {opening : Nat} (stands : Stands line (head.position + opening) text) :
    readComment line opening head = .ok
      { head.emit line .comment head.position (head.position + opening + (ScriptLine.commentTail text).taken.length) with
        carry := { head.carry with inComment := !(ScriptLine.commentTail text).complete } } := by
  cases complete : (ScriptLine.commentTail text).complete with
  | true =>
    obtain ⟨mark, found, reached⟩ := find?_closed stands complete
    simp only [readComment, found, reached]
    rfl
  | false =>
    have whole : (Construct.comment.tail text).taken = text := Construct.tail_taken complete
    have all : (ScriptLine.commentTail text).taken = text := whole
    simp only [readComment, find?_unclosed stands complete, all, stands.length]
    rfl

private theorem readComment_reads (inside : List Char) : ReadsAs line (readComment line 2) '/' ('*' :: inside)
    ⟨some .comment, (ScriptLine.commentTail inside).toCut.push '*', ⟨!(ScriptLine.commentTail inside).complete, false⟩⟩ := by
  intro head stands
  refine ⟨{ head.carry with inComment := !(ScriptLine.commentTail inside).complete }, ?_, ?_⟩
  · have piece := stands.piece (Cut.push_covers '*' (ScriptLine.commentTail_covers inside))
    rw [readComment_eq stands.next.next]
    simp only [Head.emit, Head.after, Cut.length_push] at piece ⊢
    simp only [piece]
    rfl
  · intro closed
    rw [closed]
    rfl

end Comments

section Regexes

variable {position : Nat} {text : List Char}

private theorem regexTurn_eq (stands : Stands line position (c :: following)) (escaped inClass : Bool) :
    regexTurn line (position, escaped, inClass) =
      .ok (if escaped then .yield (position + 1, false, inClass)
        else if c = '\\' then .yield (position + 1, true, inClass)
        else if c = '[' then .yield (position + 1, false, true)
        else if c = ']' then .yield (position + 1, false, false)
        else if c = '/' && !inClass then .done (position, escaped, inClass)
        else .yield (position + 1, false, inClass)) := by
  simp only [regexTurn, if_pos stands.lt_length, stands.itemAt, bind, Except.bind, apply_ite Except.ok, beq_iff_eq, Bool.and_eq_true,
    decide_eq_true_eq]

def RegexStops (line : List Char) (position turns : Nat) (state : Nat × Bool × Bool) (tail : Tail) : Prop :=
  ∃ last, EndsWithin (regexTurn line) turns state last ∧
    if tail.complete then last.1 + 1 = position + tail.taken.length else line.length ≤ last.1

theorem RegexStops.push {turns : Nat} {state next : Nat × Bool × Bool} {tail : Tail}
    (stops : RegexStops line (position + 1) turns next tail) (turn : regexTurn line state = .ok (.yield next)) (c : Char) :
    RegexStops line position (turns + 1) state (tail.push c) := by
  obtain ⟨last, later, reached⟩ := stops
  refine ⟨last, EndsWithin.yield turn later, ?_⟩
  rw [Tail.length_push]
  exact reached

private theorem regexTail_stops (stands : Stands line position text) (escaped inClass : Bool) :
    RegexStops line position (text.length + 1) (position, escaped, inClass) (ScriptLine.regexTail escaped inClass text) := by
  fun_induction ScriptLine.regexTail escaped inClass text generalizing position with
  | case1 escaped inClass =>
    have behind : line.length ≤ position := Nat.le_of_eq stands.length.symm
    exact ⟨(position, escaped, inClass), EndsWithin.done (if_neg (Nat.not_lt_of_le behind)), behind⟩
  | case2 inClass c following ih => exact (ih stands.next).push (by rw [regexTurn_eq stands, if_pos rfl]) c
  | case3 escaped inClass following plain ih =>
    exact (ih stands.next).push (by rw [regexTurn_eq stands, if_neg plain, if_pos rfl]) '\\'
  | case4 escaped inClass following plain unescaped ih =>
    exact (ih stands.next).push (by rw [regexTurn_eq stands, if_neg plain, if_neg unescaped, if_pos rfl]) '['
  | case5 escaped inClass following plain unescaped opens ih =>
    exact (ih stands.next).push (by rw [regexTurn_eq stands, if_neg plain, if_neg unescaped, if_neg opens, if_pos rfl]) ']'
  | case6 escaped inClass c following plain unescaped opens closes ends =>
    refine ⟨(position, escaped, inClass), EndsWithin.done ?_, rfl⟩
    rw [regexTurn_eq stands, if_neg plain, if_neg unescaped, if_neg opens, if_neg closes, if_pos ends]
  | case7 escaped inClass c following plain unescaped opens closes goesOn ih =>
    refine (ih stands.next).push ?_ c
    rw [regexTurn_eq stands, if_neg plain, if_neg unescaped, if_neg opens, if_neg closes, if_neg goesOn]

/-- What a slash begins that is no comment and no assignment. -/
theorem readRegex_reads (following : List Char) :
    ReadsAs line (readRegex line) '/' following
      (if (ScriptLine.regexTail false false following).complete then
        ⟨some .regexp, (ScriptLine.regexTail false false following).toCut.followedBy (Cut.run ScriptLine.isRegexFlag), .neutral⟩
      else ⟨some .operator, Cut.none following, .neutral⟩) := by
  have covers := ScriptLine.regexTail_covers false false following
  cases complete : (ScriptLine.regexTail false false following).complete with
  | true =>
    rw [if_pos rfl]
    refine ReadsAs.of_emit (Cut.followedBy_covers covers (Cut.run_covers _)) fun head stands => ?_
    obtain ⟨⟨mark, rest⟩, ends, reached⟩ := regexTail_stops stands.next false false
    rw [complete, if_pos rfl] at reached
    have flags : Stands line (mark + 1) (ScriptLine.regexTail false false following).rest := reached ▸ stands.next.covers covers
    have skipped := (skipWhile_skips ScriptLine.isRegexFlag line).reaches _ _ flags
    have further := Nat.add_assoc (head.position + 1) (ScriptLine.regexTail false false following).taken.length
    rw [← reached] at further
    simp only [readRegex, bind, Except.bind, ends _ stands.next.turns_le, if_neg (Nat.not_le_of_lt flags.inside), skipped, further,
      Cut.followedBy, List.length_append]
  | false =>
    rw [if_neg Bool.false_ne_true]
    refine ReadsAs.of_emit (Cut.none_covers following) fun head stands => ?_
    obtain ⟨⟨mark, rest⟩, ends, reached⟩ := regexTail_stops stands.next false false
    rw [complete, if_neg Bool.false_ne_true] at reached
    simp only [readRegex, bind, Except.bind, ends _ stands.next.turns_le, if_pos reached]
    rfl

end Regexes

private theorem readSlash_reads (following : List Char) : ReadsAs line (readSlash line) '/' following
    (ScriptLine.slash following) := by
  intro head stands
  rw [Head.ReadsAs, readSlash, stands.next.itemAt?]
  unfold ScriptLine.slash
  split
  next others => exact readOperator_reads _ head stands
  next others => exact emit_all_reads .comment _ head stands
  next inside => exact readComment_reads inside head stands
  next assigns comments opens =>
    simp only [bind, Except.bind, head?_beq_eq_false assigns, head?_beq_eq_false comments, head?_beq_eq_false opens]
    exact readRegex_reads following head stands

private theorem readDot_reads (following : List Char) : ReadsAs line (readDot line) '.' following
    (if ScriptLine.beginsWithDigit following then ⟨some .number, ScriptLine.numberTail '.' following, .neutral⟩
    else ScriptLine.operator '.' following) := by
  intro head stands
  rw [Head.ReadsAs, readDot, stands.next.testAt]
  have begins : following.head?.any Char.isDigit = ScriptLine.beginsWithDigit following := by cases following <;> rfl
  rw [begins]
  cases ScriptLine.beginsWithDigit following with
  | true => exact readNumber_reads (Or.inr rfl) following head stands
  | false => exact readOperator_reads following head stands

private theorem isPrefixOf_hashbang_iff (starts : head.position = 0)
    (stands : Stands line head.position ('#' :: following)) :
    ['#', '!'].isPrefixOf line = true ↔ following.head? = some '!' := by
  have whole : line = '#' :: following := by
    rw [← stands.behind, starts, List.drop_zero]
  rw [whole, List.isPrefixOf_cons_cons_self, List.isPrefixOf_iff_prefix]
  cases following with
  | nil => exact ⟨fun begins => absurd (List.prefix_nil.mp begins) (List.cons_ne_nil _ _), nofun⟩
  | cons d others => rw [List.cons_prefix_cons, List.head?_cons, Option.some_inj, eq_comm, and_iff_left (List.nil_prefix)]

private theorem readHash_hashbang (words : Vocabulary) (starts : head.position = 0)
    (stands : Stands line head.position ('#' :: following))
    (bang : following.head? = some '!') : head.ReadsAs (readHash words line) '#' ⟨some .preprocessor, Cut.all following, .neutral⟩ := by
  have begins := (isPrefixOf_hashbang_iff starts stands).mpr bang
  obtain ⟨carry, all, closed⟩ := emit_all_reads .preprocessor following head stands
  refine ⟨carry, ?_, closed⟩
  rw [readHash, if_pos ⟨starts, begins⟩, ← all]
  simp only [starts]

/-- The reading of a hash where no hashbang begins. -/
theorem readHash_reads (words : Vocabulary) (ordinary : ¬ (head.position = 0 ∧ following.head? = some '!'))
    (stands : Stands line head.position ('#' :: following)) : head.ReadsAs (readHash words line) '#' (ScriptLine.hash following) := by
  have behind : ¬ (head.position = 0 ∧ ['#', '!'].isPrefixOf line = true) :=
    fun begins => ordinary ⟨begins.1, (isPrefixOf_hashbang_iff begins.1 stands).mp begins.2⟩
  have test := stands.next.testAt Char.isAlpha
  unfold ScriptLine.hash
  split
  next d others =>
    cases letter : d.isAlpha with
    | true =>
      obtain ⟨carry, named, closed⟩ := readName_reads words others { head with position := head.position + 1 } stands.next
      have piece := stands.piece (Cut.push_covers d (Cut.run_covers isNamePart others))
      rw [Cut.length_push] at piece
      rw [Head.ReadsAs, readHash, if_neg behind, test, List.head?_cons, Option.any_some, letter]
      refine ⟨carry, ?_, closed⟩
      simp only [bind, Except.bind, if_true, named, Head.after, ScriptLine.name, place, replaceLast, List.getLast?_concat,
        List.dropLast_concat, piece, Cut.length_push]
    | false =>
      rw [Head.ReadsAs, readHash, if_neg behind, test, List.head?_cons, Option.any_some, letter]
      exact emit_one_reads .error (d :: others) head stands
  next =>
    rw [Head.ReadsAs, readHash, if_neg behind, test]
    exact emit_one_reads .error [] head stands

def reading (words : Vocabulary) (atStart : Bool) (c : Char) (following : List Char) : Reading :=
  if atStart && c == '#' && following.head? == some '!' then ⟨some .preprocessor, Cut.all following, .neutral⟩
  else ScriptLine.read words c following

theorem reading_covers (words : Vocabulary) (atStart : Bool) (c : Char) (following : List Char) :
    (reading words atStart c following).body.Covers following := by
  unfold reading
  split
  · exact Cut.all_covers following
  · exact ScriptLine.read_covers words c following

private theorem scriptReader_reads (words : Vocabulary) (hash : c ≠ '#') (following : List Char) :
    ReadsAs line (scriptReader words line c) c following (ScriptLine.read words c following) := by
  unfold scriptReader ScriptLine.read
  by_cases space : isSpace c = true
  · simp only [if_pos space]
    exact readBlanks_reads following
  by_cases name : isNameStart c = true
  · simp only [if_neg space, if_pos name]
    exact readName_reads words following
  by_cases digit : c.isDigit = true
  · simp only [if_neg space, if_neg name, if_pos digit]
    exact readNumber_reads (Or.inl digit) following
  simp only [if_neg space, if_neg name, if_neg digit, if_neg hash]
  by_cases quote : (decide (c = '"') || decide (c = '\x27')) = true
  · have either : c = '"' ∨ c = '\x27' := by simpa using quote
    rcases either with rfl | rfl
    · exact readString_reads following
    · exact readString_reads following
  by_cases template : c = '\x60'
  · subst template
    exact readTemplate_reads following
  by_cases point : c = '.'
  · subst point
    exact readDot_reads following
  by_cases slash : c = '/'
  · subst slash
    exact readSlash_reads following
  · simp only [quote, template, point, slash]
    exact readOperator_reads following

theorem readScript_reads (words : Vocabulary) (stands : Stands line head.position (c :: following)) :
    head.ReadsAs (readScript words line) c (reading words (head.position == 0) c following) := by
  rw [Head.ReadsAs, readScript, stands.itemAt]
  by_cases hash : c = '#'
  · subst hash
    by_cases begins : head.position = 0 ∧ following.head? = some '!'
    · have hashbang : reading words (head.position == 0) '#' following = ⟨some .preprocessor, Cut.all following, .neutral⟩ := by
        rw [reading, begins.1, begins.2]
        rfl
      rw [hashbang]
      exact readHash_hashbang words begins.1 stands begins.2
    · have ordinary : reading words (head.position == 0) '#' following = ScriptLine.hash following := by
        refine if_neg fun same => begins ?_
        simpa using same
      rw [ordinary]
      exact readHash_reads words begins stands
  · have plain : reading words (head.position == 0) c following = ScriptLine.read words c following := by
      refine if_neg fun same => hash ?_
      simp only [Bool.and_eq_true, beq_iff_eq] at same
      exact same.1.2
    rw [plain]
    exact scriptReader_reads words hash following head stands

/-- Where no hashbang stands everything is read as code. -/
theorem readScript_code (words : Vocabulary) (ordinary : ¬ (head.position = 0 ∧ ScriptLine.IsHashbang line))
    (stands : Stands line head.position (c :: following)) :
    head.ReadsAs (readScript words line) c (ScriptLine.read words c following) := by
  have plain : reading words (head.position == 0) c following = ScriptLine.read words c following := by
    refine if_neg fun begins => ordinary ?_
    simp only [Bool.and_eq_true, beq_iff_eq] at begins
    obtain ⟨⟨first, rfl⟩, bang⟩ := begins
    exact ⟨first, List.isPrefixOf_iff_prefix.mp ((isPrefixOf_hashbang_iff first stands).mpr bang)⟩
  rw [← plain]
  exact readScript_reads words stands

end ScriptPositions

end Highlight.Scan
