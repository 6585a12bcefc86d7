import Highlight.Proofs.LineContinuation

/-! The places of a line where code is read. Whatever stands before such a place, what is read from there
on is what is read of the rest of the line alone, so a fact about the beginning of a text is a fact
about all of these places. -/

namespace Highlight.Scan

namespace Reader

variable (reader : Reader)

theorem scan_cons (carry : Carry) (c : Char) (following : List Char) :
    reader.scan carry (c :: following) =
      (⟨(reader.read c following).kind, c :: (reader.read c following).body.taken⟩ ::
          (reader.scan (reader.read c following).carry (reader.read c following).body.rest).1,
        (reader.scan (reader.read c following).carry (reader.read c following).body.rest).2) := by
  rw [scan]

/-- What is open before a text matters only if there is no text. -/
theorem scan_neutral (carry : Carry) {text : List Char} (filled : text ≠ []) :
    reader.scan carry text = reader.lexemes text := by
  obtain ⟨c, following, rfl⟩ := List.exists_cons_of_ne_nil filled
  rw [lexemes, scan_cons, scan_cons]

/-- The later lexemes of a scan are a scan of the text they join to. -/
theorem scan_split {carry : Carry} {text : List Char} {before late : List Lexeme}
    (split : (reader.scan carry text).1 = before ++ late) :
    ∃ left, reader.scan left (late.map Lexeme.text).flatten = (late, (reader.scan carry text).2) := by
  induction before generalizing carry text with
  | nil =>
    rw [List.nil_append] at split
    exact ⟨carry, by rw [← split, scan_text]⟩
  | cons first before ih =>
    cases text with
    | nil =>
      rw [scan] at split
      cases split
    | cons c following =>
      rw [scan_cons] at split ⊢
      exact ih (List.cons.inj split).2

private theorem lexemes_split {carry : Carry} {text : List Char} {before after : List Lexeme} {lexeme : Lexeme}
    (split : (reader.scan carry text).1 = before ++ lexeme :: after) :
    reader.lexemes ((lexeme :: after).map Lexeme.text).flatten = (lexeme :: after, (reader.scan carry text).2) := by
  obtain ⟨left, same⟩ := reader.scan_split split
  rw [← same, scan_neutral]
  intro none
  rw [none, scan] at same
  cases same

end Reader

private theorem exists_of_mem_starts {offset position skipped : Nat} {lexemes : List Lexeme}
    (member : position ∈ (starts offset lexemes).drop skipped) :
    ∃ before lexeme after, lexemes = before ++ lexeme :: after ∧ skipped ≤ before.length ∧
      position = offset + (before.map Lexeme.text).flatten.length := by
  induction lexemes generalizing offset skipped with
  | nil => rw [starts, List.drop_nil] at member; cases member
  | cons lexeme others ih =>
    -- the first lexeme is at the place, or the place is among the others
    have here : position = offset ∧ skipped = 0 ∨ position ∈ (starts (offset + lexeme.text.length) others).drop (skipped - 1) := by
      cases skipped with
      | zero => exact (List.mem_cons.mp member).imp_left fun same => ⟨same, rfl⟩
      | succ skipped => exact Or.inr member
    rcases here with ⟨rfl, rfl⟩ | inside
    · exact ⟨[], lexeme, others, rfl, Nat.le_refl _, rfl⟩
    · obtain ⟨before, next, after, rfl, enough, rfl⟩ := ih inside
      refine ⟨lexeme :: before, next, after, rfl, ?_, ?_⟩
      · rw [List.length_cons]
        omega
      · rw [List.map_cons, List.flatten_cons, List.length_append, Nat.add_assoc]

namespace ScriptLine

variable {words : Vocabulary} {carry : Carry} {line : List Char} {before after : List Lexeme} {lexeme : Lexeme}

/-- The line is read as `before`, and from there on as its `rest` is read alone. -/
structure ReadsFrom (words : Vocabulary) (carry : Carry) (line : List Char) (before : List Lexeme) (rest : List Char) :
    Prop where
  whole : (before.map Lexeme.text).flatten ++ rest = line
  read : lexemes words true carry line =
    (before ++ (code words before.isEmpty rest).1, (code words before.isEmpty rest).2)

private theorem code_split {atStart : Bool} {text : List Char}
    (split : (code words atStart text).1 = before ++ lexeme :: after) :
    ∃ rest, (before.map Lexeme.text).flatten ++ rest = text ∧
      code words atStart text =
        (before ++ (code words (atStart && before.isEmpty) rest).1, (code words (atStart && before.isEmpty) rest).2) := by
  cases before with
  | nil => exact ⟨text, rfl, by rw [List.isEmpty_nil, Bool.and_true]; rfl⟩
  | cons first before =>
    have plain : atStart = false ∨ ¬ IsHashbang text := by
      refine Classical.or_iff_not_imp_left.mpr fun start hashbang => ?_
      rw [Bool.not_eq_false] at start
      rw [start, code_hashbang words hashbang] at split
      have sizes := congrArg List.length split
      simp only [List.length_cons, List.length_append, List.length_nil] at sizes
      omega
    have whole := (code_scanned words atStart text).whole
    rw [split, List.map_append, List.flatten_append] at whole
    refine ⟨_, whole, ?_⟩
    rw [List.isEmpty_cons, Bool.and_false, code_eq_lexemes words (Or.inl rfl)]
    rw [code_eq_lexemes words plain] at split ⊢
    rw [(reader words).lexemes_split split, ← split]
    rfl

/-- Code is read after a construct that was left open only where the construct has been closed. -/
theorem resume_split {kind : TokenKind} {tail : Tail} {left : Carry} (covers : tail.Covers line) (before_ne : before ≠ [])
    (split : (resume words kind tail left).1 = before ++ lexeme :: after) :
    left.isOpen = false ∧ before.head? = some ⟨some kind, tail.taken⟩ ∧
    ∃ rest, (before.map Lexeme.text).flatten ++ rest = line ∧
      resume words kind tail left = (before ++ (code words before.isEmpty rest).1, (code words before.isEmpty rest).2) := by
  obtain ⟨first, before, rfl⟩ := List.exists_cons_of_ne_nil before_ne
  unfold resume at split ⊢
  split at split
  next => cases before <;> cases split
  next closed =>
    obtain ⟨same, others⟩ := List.cons.inj split
    obtain ⟨rest, whole, read⟩ := code_split others
    subst first
    refine ⟨Bool.eq_false_iff.mpr closed, rfl, rest, ?_, ?_⟩
    · rw [List.map_cons, List.flatten_cons, List.append_assoc, whole]
      exact covers
    · rw [if_neg closed, read]
      rfl

private theorem lexemes_eq_resume (opened : carry.isOpen = true) :
    ∃ kind tail left, lexemes words true carry line = resume words kind tail left ∧ tail.Covers line ∧
      (left.isOpen = false → tail.taken ≠ []) := by
  cases comment : carry.inComment with
  | true =>
    refine ⟨.comment, commentTail line, ⟨!(commentTail line).complete, carry.inTemplate⟩, ?_, commentTail_covers line, ?_⟩
    · simp only [lexemes, comment, if_true]
    · intro closed
      have complete : (commentTail line).complete = true := by
        simpa using (Bool.or_eq_false_iff.mp closed).1
      obtain ⟨body, taken, -⟩ := commentTail_closed complete
      simp [taken]
  | false =>
    have template : carry.inTemplate = true := by simpa only [Carry.isOpen, comment, Bool.false_or] using opened
    refine ⟨.string, quotedTail '\x60' line, ⟨false, !(quotedTail '\x60' line).complete⟩, ?_, quotedTail_covers _ line, ?_⟩
    · simp only [lexemes, comment, template, Bool.false_eq_true, if_false, if_true]
    · intro closed
      have complete : (quotedTail '\x60' line).complete = true := by
        simpa using (Bool.or_eq_false_iff.mp closed).2
      obtain ⟨body, -, taken⟩ := quotedTail_closed complete
      simp [taken]

/-- Where a lexeme begins a line is read as code, unless the lexeme goes on with what an earlier line left open. -/
theorem lexemes_split (split : (lexemes words true carry line).1 = before ++ lexeme :: after)
    (inside : carry.isOpen = true → before ≠ []) : ∃ rest, ReadsFrom words carry line before rest := by
  cases opened : carry.isOpen with
  | true =>
    obtain ⟨kind, tail, left, same, covers, -⟩ := @lexemes_eq_resume words carry line opened
    rw [same] at split
    obtain ⟨-, -, rest, whole, read⟩ := resume_split covers (inside opened) split
    exact ⟨rest, whole, same.trans read⟩
  | false =>
    have same := lexemes_eq_code words true opened line
    rw [same] at split
    obtain ⟨rest, whole, read⟩ := code_split split
    rw [Bool.true_and] at read
    exact ⟨rest, whole, same.trans read⟩

theorem codePlaces_line (words : Vocabulary) (carry : Carry) (line : List Char) :
    codePlaces words carry 0 [line] = (starts 0 (lexemes words true carry line).1).drop (if carry.isOpen then 1 else 0) := by
  rw [codePlaces.eq_def]
  exact List.append_nil _

private theorem exists_of_mem_codePlaces {start : Nat} (member : start ∈ codePlaces words carry 0 [line]) :
    ∃ before lexeme after, (lexemes words true carry line).1 = before ++ lexeme :: after ∧
      (carry.isOpen = true → before ≠ []) ∧ start = (before.map Lexeme.text).flatten.length := by
  rw [codePlaces_line] at member
  obtain ⟨before, lexeme, after, split, enough, same⟩ := exists_of_mem_starts member
  refine ⟨before, lexeme, after, split, ?_, by rw [same, Nat.zero_add]⟩
  rintro opened rfl
  rw [if_pos opened] at enough
  exact absurd enough (by decide)

/-- From a code place on, a line is read as the rest of it is read alone. -/
theorem readsFrom_of_mem_codePlaces {start : Nat} (member : start ∈ codePlaces words carry 0 [line]) :
    ∃ before, ReadsFrom words carry line before (line.drop start) ∧ start = (before.map Lexeme.text).flatten.length := by
  obtain ⟨before, lexeme, after, split, inside, rfl⟩ := exists_of_mem_codePlaces member
  obtain ⟨rest, reads⟩ := lexemes_split split inside
  refine ⟨before, ?_, rfl⟩
  rwa [← reads.whole, List.drop_left, reads.whole]

/-- What an earlier line left open takes something of a line before code is read there. -/
theorem codePlaces_ne_zero {start : Nat} (opened : carry.isOpen = true) (member : start ∈ codePlaces words carry 0 [line]) :
    start ≠ 0 := by
  obtain ⟨before, lexeme, after, split, inside, rfl⟩ := exists_of_mem_codePlaces member
  obtain ⟨kind, tail, left, same, covers, taken⟩ := @lexemes_eq_resume words carry line opened
  rw [same] at split
  obtain ⟨closed, first, -⟩ := resume_split covers (inside opened) split
  obtain ⟨others, rfl⟩ := List.head?_eq_some_iff.mp first
  have filled := taken closed
  simp only [List.map_cons, List.flatten_cons, List.length_append]
  have := List.length_pos_iff.mpr filled
  omega

/-- A token at a code place begins what is read there. -/
theorem readsFrom_of_mem_place {token : Token} {start : Nat} (member : token ∈ place 0 (lexemes words true carry line).1)
    (here : token.start = start) (inside : start ∈ codePlaces words carry 0 [line]) :
    ∃ before after, ReadsFrom words carry line before (line.drop start) ∧
      (code words before.isEmpty (line.drop start)).1 = ⟨some token.kind, token.text⟩ :: after := by
  obtain ⟨before, after, split, same⟩ := exists_of_mem_place member
  have size : start = (before.map Lexeme.text).flatten.length := by omega
  obtain ⟨rest, reads⟩ := lexemes_split split fun opened none => codePlaces_ne_zero opened inside (by rw [size, none]; rfl)
  have later : line.drop start = rest := by rw [size, ← reads.whole, List.drop_left]
  rw [later]
  refine ⟨before, after, reads, ?_⟩
  rw [reads.read] at split
  exact List.append_cancel_left split

/-- The token at a code place is the one that is read of the rest of the line alone. -/
theorem token_at_codePlace_iff {kind : TokenKind} {text : List Char} {start : Nat}
    (inside : start ∈ codePlaces words carry 0 [line])
    (read : ∀ atStart, ∃ after, (code words atStart (line.drop start)).1 = ⟨some kind, text⟩ :: after) (token : Token) :
    token ∈ place 0 (lexemes words true carry line).1 ∧ token.start = start ↔ token = ⟨kind, text, start⟩ := by
  constructor
  · rintro ⟨member, here⟩
    obtain ⟨before, after, -, first⟩ := readsFrom_of_mem_place member here inside
    obtain ⟨others, same⟩ := read before.isEmpty
    rw [same] at first
    simp only [List.cons.injEq, Lexeme.mk.injEq, Option.some.injEq] at first
    obtain ⟨⟨rfl, rfl⟩, -⟩ := first
    rw [← here]
  · rintro rfl
    obtain ⟨before, reads, size⟩ := readsFrom_of_mem_codePlaces inside
    obtain ⟨others, same⟩ := read before.isEmpty
    refine ⟨?_, rfl⟩
    rw [reads.read, same, place_append, size, Int.zero_add]
    exact List.mem_append_right _ (List.mem_cons_self ..)

end ScriptLine

end Highlight.Scan
