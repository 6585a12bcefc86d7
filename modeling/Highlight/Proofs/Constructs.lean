import Highlight.Proofs.Scanning
import Highlight.Text.Lines

/-! Comments and template literals may go on over the ends of lines. Where one ends is said here
of the whole text, without lines: behind the first closing mark, or with the text. Reading it
in pieces, a line at a time, comes to the same end. -/

namespace Highlight.Scan

inductive Construct
  | comment | template
deriving DecidableEq, Repr

namespace Construct

def kind : Construct → TokenKind
  | comment => .comment
  | template => .string

def opening : Construct → List Char
  | comment => ['/', '*']
  | template => ['\x60']

def tail : Construct → List Char → Tail
  | comment => ScriptLine.commentTail
  | template => ScriptLine.quotedTail '\x60'

def carry : Construct → Carry
  | comment => ⟨true, false⟩
  | template => ⟨false, true⟩

theorem tail_covers (construct : Construct) (text : List Char) : (construct.tail text).Covers text := by
  cases construct with
  | comment => exact ScriptLine.commentTail_covers text
  | template => exact ScriptLine.quotedTail_covers _ text

theorem tail_rest {construct : Construct} {text : List Char} (unfinished : (construct.tail text).complete = false) :
    (construct.tail text).rest = [] := by
  cases construct with
  | comment => exact ScriptLine.commentTail_rest unfinished
  | template => exact ScriptLine.quotedTail_rest unfinished

theorem tail_taken {construct : Construct} {text : List Char} (unfinished : (construct.tail text).complete = false) :
    (construct.tail text).taken = text := by
  have whole : (construct.tail text).taken ++ (construct.tail text).rest = text := construct.tail_covers text
  rwa [tail_rest unfinished, List.append_nil] at whole

end Construct

namespace ScriptLine

theorem commentTail_cons {c : Char} {rest : List Char} (inside : ¬ ['*', '/'] <+: c :: rest) :
    commentTail (c :: rest) = (commentTail rest).push c := by
  apply commentTail.eq_3
  intro following star slash
  subst star slash
  exact inside ⟨following, rfl⟩

theorem quotedTail_quote (quote : Char) (rest : List Char) :
    quotedTail quote (quote :: rest) = ⟨⟨[quote], rest⟩, true⟩ := by
  rw [quotedTail.eq_def]
  exact if_pos rfl

theorem quotedTail_plain {quote c : Char} {rest : List Char} (notQuote : c ≠ quote) (unescaped : c ≠ '\\') :
    quotedTail quote (c :: rest) = (quotedTail quote rest).push c := by
  rw [quotedTail.eq_def]
  dsimp only
  rw [if_neg notQuote, if_neg unescaped]

theorem quotedTail_escape {quote : Char} (inside : '\\' ≠ quote) (d : Char) (rest : List Char) :
    quotedTail quote ('\\' :: d :: rest) = ((quotedTail quote rest).push d).push '\\' := by
  rw [quotedTail.eq_def]
  dsimp only
  rw [if_neg inside, if_pos rfl]

end ScriptLine

inductive CommentEnds (text : List Char) (start : Nat) : Nat → Prop
  | closed {mark : Nat} (reached : start ≤ mark) (closes : ['*', '/'] <+: text.drop mark)
      (first : ∀ earlier, start ≤ earlier → earlier < mark → ¬ ['*', '/'] <+: text.drop earlier) :
      CommentEnds text start (mark + 2)
  | unclosed (never : ∀ place, start ≤ place → ¬ ['*', '/'] <+: text.drop place) :
      CommentEnds text start text.length

/-- What can stand between two quotes: characters other than the quote, and any character,
also a line feed, together with the backslash before it. -/
inductive QuotedBody (quote : Char) : List Char → Prop
  | done : QuotedBody quote []
  | plain {c : Char} {rest : List Char} (notQuote : c ≠ quote) (unescaped : c ≠ '\\')
      (later : QuotedBody quote rest) : QuotedBody quote (c :: rest)
  | escape {c : Char} {rest : List Char} (later : QuotedBody quote rest) : QuotedBody quote ('\\' :: c :: rest)

/-- The end of a literal whose inside begins at `start`. A backslash at the end of the text has
nothing to take along. -/
inductive QuoteEnds (quote : Char) (text : List Char) (start : Nat) : Nat → Prop
  | closed {body rest : List Char} (valid : QuotedBody quote body) (here : text.drop start = body ++ quote :: rest) :
      QuoteEnds quote text start (start + body.length + 1)
  | unclosed {body : List Char} (valid : QuotedBody quote body)
      (here : text.drop start = body ∨ text.drop start = body ++ ['\\']) : QuoteEnds quote text start text.length

def Construct.Ends : Construct → List Char → Nat → Nat → Prop
  | .comment => CommentEnds
  | .template => QuoteEnds '\x60'

namespace ScriptLine

theorem commentTail_closed {inside : List Char} (complete : (commentTail inside).complete = true) :
    ∃ body, (commentTail inside).taken = body ++ ['*', '/'] ∧
      ∀ earlier < body.length, ¬ ['*', '/'] <+: inside.drop earlier := by
  fun_induction commentTail inside with
  | case1 => cases complete
  | case2 => exact ⟨[], rfl, fun _ none => absurd none (Nat.not_lt_zero _)⟩
  | case3 c following unclosed ih =>
    obtain ⟨body, taken, first⟩ := ih complete
    refine ⟨c :: body, congrArg (c :: ·) taken, ?_⟩
    intro earlier before closes
    cases earlier with
    | zero =>
      obtain ⟨rest, same⟩ := closes
      cases same
      exact unclosed rest rfl rfl
    | succ earlier => exact first earlier (Nat.lt_of_succ_lt_succ before) closes

theorem commentTail_unclosed {inside : List Char} (unfinished : (commentTail inside).complete = false) (place : Nat) :
    ¬ ['*', '/'] <+: inside.drop place := by
  fun_induction commentTail inside generalizing place with
  | case1 => simp
  | case2 => cases unfinished
  | case3 c following unclosed ih =>
    intro closes
    cases place with
    | zero =>
      obtain ⟨rest, same⟩ := closes
      cases same
      exact unclosed rest rfl rfl
    | succ place => exact ih unfinished place closes

theorem quotedTail_closed {quote : Char} {inside : List Char} (complete : (quotedTail quote inside).complete = true) :
    ∃ body, QuotedBody quote body ∧ (quotedTail quote inside).taken = body ++ [quote] := by
  fun_induction quotedTail quote inside with
  | case1 => cases complete
  | case2 following => exact ⟨[], .done, rfl⟩
  | case3 => cases complete
  | case4 d others notQuote ih =>
    obtain ⟨body, valid, taken⟩ := ih complete
    exact ⟨'\\' :: d :: body, .escape valid, congrArg (fun text => '\\' :: d :: text) taken⟩
  | case5 c following notQuote unescaped ih =>
    obtain ⟨body, valid, taken⟩ := ih complete
    exact ⟨c :: body, .plain notQuote unescaped valid, congrArg (c :: ·) taken⟩

private theorem quotedTail_unclosed {quote : Char} {inside : List Char}
    (unfinished : (quotedTail quote inside).complete = false) :
    ∃ body, QuotedBody quote body ∧ (inside = body ∨ inside = body ++ ['\\']) := by
  fun_induction quotedTail quote inside with
  | case1 => exact ⟨[], .done, Or.inl rfl⟩
  | case2 => cases unfinished
  | case3 => exact ⟨[], .done, Or.inr rfl⟩
  | case4 d others notQuote ih =>
    obtain ⟨body, valid, same⟩ := ih unfinished
    refine ⟨'\\' :: d :: body, .escape valid, ?_⟩
    exact same.imp (congrArg fun text => '\\' :: d :: text) (congrArg fun text => '\\' :: d :: text)
  | case5 c following notQuote unescaped ih =>
    obtain ⟨body, valid, same⟩ := ih unfinished
    exact ⟨c :: body, .plain notQuote unescaped valid, same.imp (congrArg (c :: ·)) (congrArg (c :: ·))⟩

end ScriptLine

namespace Construct

/-- What is read of a construct ends where the text says it does. -/
theorem tail_ends (construct : Construct) (before inside : List Char) :
    construct.Ends (before ++ inside) before.length (before.length + (construct.tail inside).taken.length) := by
  have whole : (construct.tail inside).taken ++ (construct.tail inside).rest = inside := construct.tail_covers inside
  have unread : (construct.tail inside).complete = false →
      before.length + (construct.tail inside).taken.length = (before ++ inside).length := by
    intro unfinished
    rw [tail_taken unfinished, List.length_append]
  cases construct with
  | comment =>
    cases complete : (ScriptLine.commentTail inside).complete with
    | true =>
      obtain ⟨body, taken, first⟩ := ScriptLine.commentTail_closed complete
      change (ScriptLine.commentTail inside).taken ++ _ = inside at whole
      change CommentEnds _ _ (before.length + (ScriptLine.commentTail inside).taken.length)
      rw [taken, List.length_append, ← Nat.add_assoc]
      refine .closed (Nat.le_add_right ..) ?_ ?_
      · rw [List.drop_length_add_append, ← whole, taken, List.append_assoc, List.drop_left]
        exact List.prefix_append ..
      · intro earlier reached passed closes
        obtain ⟨place, rfl⟩ := Nat.exists_eq_add_of_le reached
        rw [List.drop_length_add_append] at closes
        exact first place (Nat.lt_of_add_lt_add_left passed) closes
    | false =>
      rw [unread complete]
      refine .unclosed ?_
      intro place reached closes
      obtain ⟨later, rfl⟩ := Nat.exists_eq_add_of_le reached
      rw [List.drop_length_add_append] at closes
      exact ScriptLine.commentTail_unclosed complete later closes
  | template =>
    cases complete : (ScriptLine.quotedTail '\x60' inside).complete with
    | true =>
      obtain ⟨body, valid, taken⟩ := ScriptLine.quotedTail_closed complete
      change (ScriptLine.quotedTail '\x60' inside).taken ++ (ScriptLine.quotedTail '\x60' inside).rest = inside at whole
      change QuoteEnds _ _ _ (before.length + (ScriptLine.quotedTail '\x60' inside).taken.length)
      rw [taken, List.length_append, ← Nat.add_assoc]
      rw [taken, List.append_assoc, List.singleton_append] at whole
      exact .closed valid (List.drop_left.trans whole.symm)
    | false =>
      rw [unread complete]
      obtain ⟨body, valid, same⟩ := ScriptLine.quotedTail_unclosed complete
      refine .unclosed valid ?_
      rw [List.drop_left]
      exact same

theorem tail_newline (construct : Construct) (text : List Char) :
    construct.tail ('\n' :: text) = (construct.tail text).push '\n' := by
  cases construct with
  | comment =>
    apply ScriptLine.commentTail_cons
    rintro ⟨rest, same⟩
    cases same
  | template => exact ScriptLine.quotedTail_plain (by decide) (by decide)

/-- A line that closes a construct closes it also before more lines. -/
theorem tail_append_closed {construct : Construct} {line : List Char} (complete : (construct.tail line).complete = true)
    (more : List Char) :
    construct.tail (line ++ more) = ⟨⟨(construct.tail line).taken, (construct.tail line).rest ++ more⟩, true⟩ := by
  cases construct with
  | comment =>
    simp only [tail] at complete ⊢
    fun_induction ScriptLine.commentTail line with
    | case1 => cases complete
    | case2 => rfl
    | case3 c following unclosed ih =>
      have same : ScriptLine.commentTail (c :: (following ++ more)) = (ScriptLine.commentTail (following ++ more)).push c := by
        apply ScriptLine.commentTail_cons
        rintro ⟨rest, same⟩
        -- a mark that the next lines would complete cannot stand here: the line has one later
        cases following with
        | nil => cases complete
        | cons d others =>
          cases same
          exact unclosed _ rfl rfl
      rw [List.cons_append, same, ih complete]
      rfl
  | template =>
    simp only [tail] at complete ⊢
    fun_induction ScriptLine.quotedTail '\x60' line with
    | case1 => cases complete
    | case2 following => exact ScriptLine.quotedTail_quote _ _
    | case3 => cases complete
    | case4 d others inside ih =>
      rw [List.cons_append, List.cons_append, ScriptLine.quotedTail_escape inside, ih complete]
      rfl
    | case5 c following inside unescaped ih =>
      rw [List.cons_append, ScriptLine.quotedTail_plain inside unescaped, ih complete]
      rfl

/-- A construct that a line leaves open goes on in the lines after it. -/
theorem tail_append_open {construct : Construct} {line : List Char} (unfinished : (construct.tail line).complete = false)
    {more : List Char} (lineEnd : more = [] ∨ ∃ lines, more = '\n' :: lines) :
    construct.tail (line ++ more) =
      ⟨⟨line ++ (construct.tail more).taken, (construct.tail more).rest⟩, (construct.tail more).complete⟩ := by
  cases construct with
  | comment =>
    simp only [tail] at unfinished ⊢
    fun_induction ScriptLine.commentTail line with
    | case1 => rfl
    | case2 => cases unfinished
    | case3 c following unclosed ih =>
      have same : ScriptLine.commentTail (c :: (following ++ more)) = (ScriptLine.commentTail (following ++ more)).push c := by
        apply ScriptLine.commentTail_cons
        rintro ⟨rest, same⟩
        cases following with
        | nil =>
          rcases lineEnd with rfl | ⟨lines, rfl⟩
          · cases same
          · cases same
        | cons d others =>
          cases same
          exact unclosed _ rfl rfl
      rw [List.cons_append, same, ih unfinished]
      rfl
  | template =>
    simp only [tail] at unfinished ⊢
    fun_induction ScriptLine.quotedTail '\x60' line with
    | case1 => rfl
    | case2 => cases unfinished
    | case3 inside =>
      rcases lineEnd with rfl | ⟨lines, rfl⟩
      · simp only [List.append_nil, ScriptLine.quotedTail, if_neg inside, if_true]
        rfl
      · -- the backslash takes the line feed along, which stands for nothing but itself
        rw [List.singleton_append, ScriptLine.quotedTail_escape inside,
          ScriptLine.quotedTail_plain (c := '\n') (by decide) (by decide)]
        rfl
    | case4 d others inside ih =>
      rw [List.cons_append, List.cons_append, ScriptLine.quotedTail_escape inside, ih unfinished]
      rfl
    | case5 c following inside unescaped ih =>
      rw [List.cons_append, ScriptLine.quotedTail_plain inside unescaped, ih unfinished]
      rfl

end Construct

end Highlight.Scan
