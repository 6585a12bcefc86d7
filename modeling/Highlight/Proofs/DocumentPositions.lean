import Highlight.Proofs.JsonPositions
import Highlight.Proofs.ScriptPositions
import Mathlib.Logic.Basic

/-! Documents by positions. A line is read piece by piece, its tokens get their roles one after the
other, and the state of the line before is handed on. Nothing on this way can fail, except that a
language may have no grammar. -/

namespace Highlight

namespace Scan

variable {line : List Char}

def lexTurn (read : Head → Except Fault Head) (line : List Char) (head : Head) : Except Fault (ForInStep Head) :=
  if head.position < line.length then do
    let next ← read head
    .ok (.yield next)
  else .ok (.done head)

def lexRest (read : Head → Except Fault Head) (line : List Char) (head : Head) : Except Fault Head :=
  loop (lexTurn read line) (line.length + 1) head

/-- Reading piece by piece goes through the lexemes of a scan, as long as nothing is left open before
the end of the line. -/
theorem lexTurn_ends (reader : Reader) {read : Head → Except Fault Head} {start : Nat}
    (reads : ∀ (head : Head) c following, start ≤ head.position → Stands line head.position (c :: following) →
      head.ReadsAs read c (reader.read c following))
    (closes : ∀ c following, (reader.read c following).body.rest ≠ [] → (reader.read c following).carry = .neutral)
    (carry : Carry) (text : List Char) (closed : text ≠ [] → carry = .neutral) {position : Nat} (reached : start ≤ position)
    (stands : Stands line position text) (tokens : List Token) :
    EndsWithin (lexTurn read line) (text.length + 1) ⟨position, tokens, carry⟩
      ⟨line.length, tokens ++ place position (reader.scan carry text).1, (reader.scan carry text).2⟩ := by
  fun_induction Reader.scan reader carry text generalizing position tokens with
  | case1 carry =>
    have ended : position = line.length := stands.length
    subst ended
    apply EndsWithin.done
    simp only [lexTurn, if_neg (Nat.lt_irrefl _), place, List.append_nil]
  | case2 carry c following reading lexemes last same ih =>
    obtain ⟨after, here, kept⟩ := reads ⟨position, tokens, carry⟩ c following reached stands
    obtain rfl := kept (closed (List.cons_ne_nil _ _))
    have rest := stands.next.covers (reader.covers c following)
    have further : start ≤ position + 1 + reading.body.taken.length := by omega
    have later := ih (closes c following) further rest (tokens ++ place position [⟨reading.kind, c :: reading.body.taken⟩])
    have shorter := Nat.succ_le_succ (reader.covers c following).rest_length_le
    rw [same, List.append_assoc] at later
    have turn : lexTurn read line ⟨position, tokens, carry⟩ =
        .ok (.yield (Head.after ⟨position, tokens, carry⟩ c reading reading.carry)) := by
      simp only [lexTurn, if_pos stands.lt_length, here, bind, Except.bind]
      rfl
    have distance : (position : Int) + (c :: reading.body.taken).length = (position + 1 + reading.body.taken.length : Nat) := by
      rw [List.length_cons]
      omega
    rw [place_cons, distance]
    exact EndsWithin.yield turn (later.mono shorter)

theorem Stands.start (line : List Char) : Stands line 0 line := ⟨Nat.zero_le _, rfl⟩

section Json

theorem JsonLine.read_carry (c : Char) (following : List Char) : (JsonLine.read c following).carry = .neutral := by
  unfold JsonLine.read
  repeat' split
  all_goals rfl

def lexJson (line : List Char) : Except Fault (List Token) := do
  let head ← lexRest (JsonPositions.readJson line) line {}
  .ok head.tokens

private theorem lexJson_eq (line : List Char) : lexJson line = .ok (place 0 (JsonLine.lexemes line)) := by
  have ends := lexTurn_ends JsonLine.reader (fun _ c following (_ : 0 ≤ _) stands => JsonPositions.readJson_reads stands)
    (fun c following _ => JsonLine.read_carry c following) .neutral line (fun _ => rfl) (Nat.le_refl 0) (Stands.start line) []
  have lexed := ends _ (Nat.le_refl _)
  simp only [lexJson, lexRest, bind, Except.bind]
  rw [lexed]
  rfl

end Json

section Script

variable (words : Vocabulary)

def lexBegun (line : List Char) (begun : Head) : Except Fault (List Token × Carry) := do
  let head ← if begun.carry.isOpen then .ok begun else lexRest (ScriptPositions.readScript words line) line begun
  .ok (head.tokens, head.carry)

/-- Reads a script line of which a construct may be open that began in a line before. -/
def lexAfter (carry : Carry) (line : List Char) : Except Fault (List Token × Carry) := do
  let begun ←
    if carry.inComment then ScriptPositions.readComment line 0 { carry := carry }
    else if carry.inTemplate then ScriptPositions.readTemplate line 0 { carry := carry }
    else .ok { carry := carry }
  lexBegun words line begun

def lexScript (previous : Option ScannerState) (line : List Char) : Except Fault (List Token × Carry) := do
  let carry ←
    match previous with
    | some state => state.scriptCarry?.mapError .foreign
    | none => .ok Carry.neutral
  lexAfter words carry line

theorem ScriptLine.quoted_closed (quote : Char) (following : List Char) :
    (ScriptLine.quoted quote following).carry = .neutral ∨ (ScriptLine.quoted quote following).body.rest = [] := by
  cases complete : (ScriptLine.quotedTail quote following).complete with
  | true =>
    refine Or.inl ?_
    rw [ScriptLine.quoted, complete, Bool.not_true, Bool.and_false]
    rfl
  | false => exact Or.inr (ScriptLine.quotedTail_rest complete)

theorem ScriptLine.slash_closed (following : List Char) :
    (ScriptLine.slash following).carry = .neutral ∨ (ScriptLine.slash following).body.rest = [] := by
  unfold ScriptLine.slash
  split
  · exact Or.inl (ScriptLine.operator_reads ..).2
  · exact Or.inl rfl
  next inside =>
    cases complete : (ScriptLine.commentTail inside).complete with
    | true => exact Or.inl (congrArg (fun complete => (⟨!complete, false⟩ : Carry)) complete)
    | false => exact Or.inr (ScriptLine.commentTail_rest complete)
  · dsimp only
    split <;> exact Or.inl rfl

/-- What is left open takes the rest of its line. -/
theorem ScriptLine.read_closed (c : Char) (following : List Char) :
    (ScriptLine.read words c following).carry = .neutral ∨ (ScriptLine.read words c following).body.rest = [] := by
  unfold ScriptLine.read
  split
  · exact Or.inl rfl
  split
  · exact Or.inl rfl
  split
  · exact Or.inl rfl
  split
  · exact ScriptLine.quoted_closed c following
  split
  · exact Or.inl rfl
  split
  · exact ScriptLine.slash_closed following
  split
  · exact Or.inl (ScriptLine.hash_reads following).2
  · exact Or.inl (ScriptLine.operator_reads c following).2

theorem Carry.eq_neutral {carry : Carry} (closed : carry.isOpen = false) : carry = .neutral := by
  obtain ⟨inComment, inTemplate⟩ := carry
  obtain ⟨rfl, rfl⟩ : inComment = false ∧ inTemplate = false := Bool.or_eq_false_iff.mp closed
  rfl

/-- From a place where no hashbang stands the line is read as code. -/
theorem lexRest_code {start : Nat} {text : List Char} (stands : Stands line start text)
    (ordinary : ¬ (start = 0 ∧ ScriptLine.IsHashbang line)) (tokens : List Token) :
    lexRest (ScriptPositions.readScript words line) line ⟨start, tokens, .neutral⟩ =
      .ok ⟨line.length, tokens ++ place start ((ScriptLine.reader words).lexemes text).1, ((ScriptLine.reader words).lexemes text).2⟩ := by
  have reads : ∀ (head : Head) c following, start ≤ head.position → Stands line head.position (c :: following) →
      head.ReadsAs (ScriptPositions.readScript words line) c ((ScriptLine.reader words).read c following) := by
    intro head c following further stands
    refine ScriptPositions.readScript_code words (fun hashbang => ordinary ⟨?_, hashbang.2⟩) stands
    exact Nat.le_zero.mp (hashbang.1 ▸ further)
  have closes := fun c following => (ScriptLine.read_closed words c following).resolve_right
  have ends := lexTurn_ends (ScriptLine.reader words) reads closes .neutral text (fun _ => rfl) (Nat.le_refl start) stands tokens
  exact ends _ stands.turns_le

private theorem lexRest_hashbang (hashbang : ScriptLine.IsHashbang line) :
    lexRest (ScriptPositions.readScript words line) line {} = .ok ⟨line.length, [⟨.preprocessor, line, 0⟩], .neutral⟩ := by
  obtain ⟨others, rfl⟩ := hashbang
  have stands : Stands (['#', '!'] ++ others) (Head.position {}) ('#' :: '!' :: others) := Stands.start _
  obtain ⟨carry, here, kept⟩ := ScriptPositions.readScript_reads words stands
  obtain rfl := kept rfl
  have reached : 0 + 1 + ('!' :: others).length = (['#', '!'] ++ others).length := Nat.add_comm ..
  have turn : lexTurn (ScriptPositions.readScript words (['#', '!'] ++ others)) (['#', '!'] ++ others) {} =
      .ok (.yield ⟨(['#', '!'] ++ others).length, [⟨.preprocessor, ['#', '!'] ++ others, 0⟩], .neutral⟩) := by
    rw [lexTurn, if_pos stands.lt_length, here, ← reached]
    rfl
  have last : EndsWithin (lexTurn (ScriptPositions.readScript words (['#', '!'] ++ others)) (['#', '!'] ++ others)) 1
      ⟨(['#', '!'] ++ others).length, [⟨.preprocessor, ['#', '!'] ++ others, 0⟩], .neutral⟩ _ :=
    EndsWithin.done (if_neg (Nat.lt_irrefl _))
  exact EndsWithin.yield turn last _ (Nat.le_add_left 2 _)

private theorem lexBegun_resume (kind : TokenKind) (tail : Tail) (carry : Carry) (covers : tail.Covers line)
    (filled : carry.isOpen = false → tail.taken ≠ []) :
    lexBegun words line ⟨tail.taken.length, [⟨kind, tail.taken, 0⟩], carry⟩ =
      .ok (place 0 (ScriptLine.resume words kind tail carry).1, (ScriptLine.resume words kind tail carry).2) := by
  unfold lexBegun ScriptLine.resume
  split
  next opened => rfl
  next closed =>
    have neutral : carry = .neutral := Carry.eq_neutral (Bool.eq_false_iff.mpr closed)
    have stands := (Stands.start line).covers covers
    rw [Nat.zero_add] at stands
    have later := lexRest_code words stands (fun start => filled (Bool.eq_false_iff.mpr closed) (List.length_eq_zero_iff.mp start.1))
      [⟨kind, tail.taken, 0⟩]
    rw [neutral, later, ScriptLine.code_eq_lexemes words (Or.inl rfl)]
    simp only [bind, Except.bind, place, List.singleton_append, Int.zero_add]

private theorem lexBegun_code (line : List Char) :
    lexBegun words line {} = .ok (place 0 (ScriptLine.code words true line).1, (ScriptLine.code words true line).2) := by
  by_cases hashbang : ScriptLine.IsHashbang line
  · simp only [lexBegun, lexRest_hashbang words hashbang, ScriptLine.code_hashbang words hashbang, bind, Except.bind]
    rfl
  · have code := lexRest_code words (Stands.start line) (fun start => hashbang start.2) []
    rw [ScriptLine.code_eq_lexemes words (Or.inr hashbang)]
    have rest : lexBegun words line {} =
        (lexRest (ScriptPositions.readScript words line) line {} >>= fun head => .ok (head.tokens, head.carry)) := rfl
    rw [rest, code]
    rfl

/-- What a construct takes of the start of a line, as a head. -/
theorem emit_start {tail : Tail} (covers : tail.Covers line) (kind : TokenKind) (carry : Carry) :
    Head.emit { carry := carry } line kind 0 (0 + 0 + tail.taken.length) = ⟨tail.taken.length, [⟨kind, tail.taken, 0⟩], carry⟩ := by
  have joined : tail.taken ++ tail.rest = line := covers
  have stands := Stands.start line
  rw [← joined] at stands
  have text := stands.slice
  rw [joined, Nat.zero_add] at text
  simp only [Head.emit, Nat.zero_add, List.nil_append, text]
  rfl

private theorem commentTail_filled {text : List Char} (complete : (ScriptLine.commentTail text).complete = true) :
    (ScriptLine.commentTail text).taken ≠ [] := by
  obtain ⟨body, taken, -⟩ := ScriptLine.commentTail_closed complete
  rw [taken]
  exact List.append_ne_nil_of_right_ne_nil _ (List.cons_ne_nil _ _)

private theorem quotedTail_filled {quote : Char} {text : List Char}
    (complete : (ScriptLine.quotedTail quote text).complete = true) :
    (ScriptLine.quotedTail quote text).taken ≠ [] := by
  obtain ⟨body, -, taken⟩ := ScriptLine.quotedTail_closed complete
  rw [taken]
  exact List.append_ne_nil_of_right_ne_nil _ (List.cons_ne_nil _ _)

private theorem lexAfter_eq (carry : Carry) (line : List Char) : lexAfter words carry line =
    .ok (place 0 (ScriptLine.lexemes words true carry line).1, (ScriptLine.lexemes words true carry line).2) := by
  unfold lexAfter ScriptLine.lexemes
  have stands : Stands line (Head.position { carry := carry } + 0) line := Stands.start line
  split
  next comment =>
    rw [ScriptPositions.readComment_eq stands, emit_start (ScriptLine.commentTail_covers line)]
    refine lexBegun_resume words .comment (ScriptLine.commentTail line) _ (ScriptLine.commentTail_covers line) fun closed => ?_
    exact commentTail_filled (Bool.not_eq_eq_eq_not.mp (Bool.or_eq_false_iff.mp closed).1)
  next noComment =>
    obtain ⟨inComment, inTemplate⟩ := carry
    obtain rfl : inComment = false := Bool.eq_false_iff.mpr noComment
    split
    next template =>
      rw [ScriptPositions.readTemplate_eq stands, emit_start (ScriptLine.quotedTail_covers '\x60' line)]
      refine lexBegun_resume words .string (ScriptLine.quotedTail '\x60' line) _ (ScriptLine.quotedTail_covers _ line) fun closed => ?_
      exact quotedTail_filled (Bool.not_eq_eq_eq_not.mp (Bool.or_eq_false_iff.mp closed).2)
    next noTemplate =>
      obtain rfl : inTemplate = false := Bool.eq_false_iff.mpr noTemplate
      exact lexBegun_code words line

/-- Reading a line by positions comes to the lexemes of the scanner, or to its complaint about a state
of another one. -/
theorem lexScript_eq (previous : Option ScannerState) (line : List Char) :
    lexScript words previous line =
      ((match previous with
        | some state => state.scriptCarry?
        | none => .ok Carry.neutral).mapError Fault.foreign).map fun carry =>
        (place 0 (ScriptLine.lexemes words true carry line).1, (ScriptLine.lexemes words true carry line).2) := by
  cases previous with
  | none => exact lexAfter_eq words .neutral line
  | some state =>
    cases state with
    | script carry => exact lexAfter_eq words carry line
    | plain => rfl
    | json => rfl

end Script

section Roles

variable {σ : Type}

/-- The state of a walk over tokens: the place in them, the tokens that are done, and what is carried on. -/
structure Walk (σ : Type) where
  cursor : Nat
  done : List Token
  state : σ

def walkTurn (change : σ → Token → Option Token → Token × σ) (tokens : List Token) (walk : Walk σ) :
    Except Fault (ForInStep (Walk σ)) := do
  match ← itemAt? tokens walk.cursor with
  | some token =>
    let next ← itemAt? tokens (walk.cursor + 1)
    let (changed, state) := change walk.state token next
    .ok (.yield ⟨walk.cursor + 1, walk.done ++ [changed], state⟩)
  | none => .ok (.done walk)

/-- Takes tokens one after the other and looks at the one behind. -/
def walkOver (change : σ → Token → Option Token → Token × σ) (state : σ) (tokens : List Token) :
    Except Fault (List Token × σ) := do
  let walk ← loop (walkTurn change tokens) (tokens.length + 1) ⟨0, [], state⟩
  .ok (walk.done, walk.state)

def changeAll (change : σ → Token → Option Token → Token × σ) (state : σ) : List Token → List Token × σ
  | [] => ([], state)
  | token :: others =>
    let changed := change state token others.head?
    let later := changeAll change changed.2 others
    (changed.1 :: later.1, later.2)

private theorem walkTurn_ends (change : σ → Token → Option Token → Token × σ) {tokens left : List Token} {cursor : Nat}
    (stands : Stands tokens cursor left) (done : List Token) (state : σ) :
    EndsWithin (walkTurn change tokens) (left.length + 1) ⟨cursor, done, state⟩
      ⟨tokens.length, done ++ (changeAll change state left).1, (changeAll change state left).2⟩ := by
  induction left generalizing cursor done state with
  | nil =>
    have ended : cursor = tokens.length := stands.length
    subst ended
    apply EndsWithin.done
    simp only [walkTurn, stands.itemAt?, changeAll, List.append_nil]
    rfl
  | cons token others ih =>
    have later := ih stands.next (done ++ [(change state token others.head?).1]) (change state token others.head?).2
    rw [List.append_assoc] at later
    refine EndsWithin.yield ?_ later
    simp only [walkTurn, stands.itemAt?, stands.next.itemAt?]
    rfl

private theorem walkOver_eq (change : σ → Token → Option Token → Token × σ) (state : σ) (tokens : List Token) :
    walkOver change state tokens = .ok (changeAll change state tokens) := by
  have stands : Stands tokens 0 tokens := ⟨Nat.zero_le _, rfl⟩
  have ends := walkTurn_ends change stands [] state _ (Nat.le_refl _)
  simp only [walkOver, ends]
  rfl

def scriptChange (afterAccess : Bool) (token : Token) (next : Option Token) : Token × Bool :=
  ({ token with kind := token.scriptRole afterAccess next }, token.isAccess)

def jsonChange (_ : Unit) (token : Token) (next : Option Token) : Token × Unit :=
  ({ token with kind := token.jsonRole next }, ())

def moveBy (offset : Int) (_ : Unit) (token : Token) (_ : Option Token) : Token × Unit := (token.shift offset, ())

private theorem changeAll_script (afterAccess : Bool) (tokens : List Token) :
    changeAll scriptChange afterAccess tokens = (scriptRoles afterAccess tokens, endsInAccess afterAccess tokens) := by
  induction tokens generalizing afterAccess with
  | nil => rfl
  | cons token others ih => simp only [changeAll, scriptChange, ih, scriptRoles, endsInAccess_cons]

private theorem changeAll_json (tokens : List Token) : changeAll jsonChange () tokens = (jsonRoles tokens, ()) := by
  induction tokens with
  | nil => rfl
  | cons token others ih => simp only [changeAll, jsonChange, ih, jsonRoles]

private theorem changeAll_moveBy (offset : Int) (tokens : List Token) :
    changeAll (moveBy offset) () tokens = (tokens.map (Token.shift offset), ()) := by
  induction tokens with
  | nil => rfl
  | cons token others ih => simp only [changeAll, moveBy, ih, List.map_cons]

end Roles

end Scan

open Scan

/-- A line after the state that the line before left. A script has to be given a script's state. -/
def Grammar.readLine (grammar : Grammar) (dialect : Option String) (previous : Option ParserState) (line : List Char) :
    Except Fault (List Token × Option ParserState) :=
  let dialect := dialect.getD grammar.ownDialect
  match grammar with
  | .javascript | .typescript => do
    let (scanner, afterAccess) ←
      match previous with
      | some (.script continuation inElement) => .ok (continuation.scanner, inElement)
      | some (.plain continuation) =>
        .error (.foreign ⟨(ParserState.ofScript ScriptState.neutral).title, (ParserState.plain continuation).title⟩)
      | none => .ok (none, false)
    let (lexed, carry) ← lexScript (Grammar.vocabulary dialect) scanner line
    let (tokens, inElement) ← walkOver scriptChange afterAccess lexed
    .ok (tokens, some (.ofScript ⟨carry, inElement⟩))
  | .json => do
    let lexed ← lexJson line
    let (tokens, _) ← walkOver jsonChange () lexed
    .ok (tokens, none)
  | .text => .ok (Grammar.textLine line, none)

/-- A script line by positions, when it is known what was open before. -/
theorem readScript_eq (words : Vocabulary) (scanner : Option ScannerState) (afterAccess : Bool) (line : List Char) :
    (do
      let (lexed, carry) ← lexScript words scanner line
      let (tokens, inElement) ← walkOver scriptChange afterAccess lexed
      .ok (tokens, some (ParserState.ofScript ⟨carry, inElement⟩))) =
    ((match scanner with
      | some state => state.scriptCarry?
      | none => .ok Carry.neutral).map fun carry =>
        ((Grammar.scriptLine words ⟨carry, afterAccess⟩ line).1,
          some (ParserState.ofScript (Grammar.scriptLine words ⟨carry, afterAccess⟩ line).2))).mapError Fault.foreign := by
  rw [lexScript_eq]
  generalize (match scanner with
    | some state => state.scriptCarry?
    | none => .ok Carry.neutral) = handed
  cases handed with
  | error foreign => rfl
  | ok carry =>
    have passed {α β : Type} (f : α → β) (x : α) : ((.ok x : Except ForeignState α).mapError Fault.foreign).map f = .ok (f x) := rfl
    rw [passed]
    simp only [bind, Except.bind, walkOver_eq, changeAll_script]
    rfl

/-- A line is read by positions as it is parsed, and no other fault comes up than a foreign state. -/
theorem Grammar.readLine_eq (grammar : Grammar) (dialect : Option String) (previous : Option ParserState) (line : List Char) :
    grammar.readLine dialect previous line = (grammar.parseLine dialect previous line).mapError .foreign := by
  cases grammar with
  | javascript | typescript =>
    cases previous with
    | none => exact readScript_eq _ none false line
    | some previous =>
      cases previous with
      | plain continuation => rfl
      | script continuation afterAccess =>
        refine (readScript_eq _ continuation.scanner afterAccess line).trans ?_
        simp only [parseLine, ParserState.scriptState?]
        cases continuation.scanner with
        | none => rfl
        | some scanner => cases scanner <;> rfl
  | json =>
    simp only [readLine, lexJson_eq, walkOver_eq, changeAll_json, bind, Except.bind]
    rfl
  | text => rfl

namespace Registry

def readLines (registry : Registry) (language : Language) (dialect : String) (previous : Option ParserState) (offset : Int) :
    List (List Char) → Except Fault (List Token)
  | [] => .ok []
  | line :: others => do
    let grammar ←
      match registry.grammar? language with
      | some grammar => .ok grammar
      | none => .error (.unregistered ⟨language⟩)
    let (tokens, state) ← grammar.readLine (if dialect = "" then none else some dialect) previous line
    let (moved, _) ← walkOver (moveBy offset) () tokens
    let later ← registry.readLines language dialect state (offset + line.length + 1) others
    .ok (moved ++ later)

def readText (registry : Registry) (language : Language) (dialect : String) (text : List Char) : Except Fault (List Token) :=
  registry.readLines language dialect none 0 (Text.lines text)

/-- The registry after a sequence of registrations, with nothing in it before. -/
def ofRegistrations (registrations : List (Language × Grammar)) : Registry :=
  registrations.foldl (fun registry (language, grammar) => registry.register language grammar) ⟨fun _ => none⟩

private theorem register_eq_none_iff (registry : Registry) (first : Language) (grammar : Grammar) (language : Language) :
    (registry.register first grammar).grammar? language = none ↔ registry.grammar? language = none ∧ first ≠ language := by
  rw [register]
  dsimp only
  split
  next same => exact ⟨nofun, fun unequal => absurd same.symm unequal.2⟩
  next other => exact (and_iff_left (Ne.symm other)).symm

private theorem grammar?_eq_none_iff (registrations : List (Language × Grammar)) (language : Language) :
    (ofRegistrations registrations).grammar? language = none ↔ ∀ registration ∈ registrations, registration.1 ≠ language := by
  have behind : ∀ before : Registry, (registrations.foldl (fun registry (language, grammar) => registry.register language grammar)
      before).grammar? language = none ↔
      before.grammar? language = none ∧ ∀ registration ∈ registrations, registration.1 ≠ language := by
    induction registrations with
    | nil => exact fun before => (and_iff_left (List.forall_mem_nil _)).symm
    | cons registration others ih =>
      intro before
      obtain ⟨first, grammar⟩ := registration
      rw [List.foldl_cons, ih, List.forall_mem_cons, ← and_assoc, register_eq_none_iff]
  exact (behind _).trans (and_iff_right rfl)

end Registry

inductive StateOf : Option ParserState → ScriptState → Prop
  | start : StateOf none .neutral
  | after (state : ScriptState) : StateOf (some (.ofScript state)) state

theorem Grammar.parseLine_state {previous : Option ParserState} {state : ScriptState} (known : StateOf previous state)
    (grammar : Grammar) (dialect : Option String) (line : List Char) :
    ∃ next, grammar.parseLine dialect previous line = .ok ((grammar.line (dialect.getD grammar.ownDialect) state line).1, next) ∧
      StateOf next (grammar.line (dialect.getD grammar.ownDialect) state line).2 := by
  cases grammar with
  | javascript | typescript => cases known <;> exact ⟨_, rfl, StateOf.after _⟩
  | json | text => exact ⟨none, rfl, StateOf.start⟩

theorem Registry.readLines_eq {registry : Registry} {language : Language} {grammar : Grammar}
    (registered : registry.grammar? language = some grammar) (dialect : String) {previous : Option ParserState}
    {state : ScriptState} (known : StateOf previous state) (offset : Int) (lines : List (List Char)) :
    registry.readLines language dialect previous offset lines =
      .ok (grammar.lines (if dialect = "" then grammar.ownDialect else dialect) state offset lines) := by
  induction lines generalizing previous state offset with
  | nil => rfl
  | cons line others ih =>
    obtain ⟨next, parsed, after⟩ := grammar.parseLine_state known (if dialect = "" then none else some dialect) line
    have chosen : (if dialect = "" then none else some dialect).getD grammar.ownDialect =
        if dialect = "" then grammar.ownDialect else dialect := by split <;> rfl
    rw [chosen] at parsed after
    have read := Grammar.readLine_eq grammar (if dialect = "" then none else some dialect) previous line
    rw [parsed] at read
    change _ = Except.ok _ at read
    rw [readLines, registered, Grammar.lines_cons]
    simp only [bind, Except.bind, read, walkOver_eq, changeAll_moveBy, ih after]

/-- A reader gets on wherever it is used before the end of a line, and never behind that end. -/
def Advances (read : List Char → Head → Except Fault Head) : Prop :=
  ∀ line (head : Head), head.position < line.length →
    ∃ next, read line head = .ok next ∧ head.position < next.position ∧ next.position ≤ line.length

private theorem advances_of_reads {read : List Char → Head → Except Fault Head} (reading : Head → Char → List Char → Reading)
    (covers : ∀ head c following, (reading head c following).body.Covers following)
    (reads : ∀ {line} {head : Head} {c following}, Stands line head.position (c :: following) →
      head.ReadsAs (read line) c (reading head c following)) : Advances read := by
  intro line head before
  obtain ⟨c, following, behind⟩ : ∃ c following, line.drop head.position = c :: following :=
    ⟨_, _, List.drop_eq_getElem_cons before⟩
  have stands : Stands line head.position (c :: following) := ⟨Nat.le_of_lt before, behind⟩
  obtain ⟨carry, next, -⟩ := reads stands
  refine ⟨_, next, ?_, (stands.next.covers (covers head _ _)).inside⟩
  exact Nat.lt_of_lt_of_le (Nat.lt_succ_self _) (Nat.le_add_right _ _)

theorem Registry.readText_eq (registry : Registry) (language : Language) (dialect : String) (text : List Char) :
    registry.readText language dialect text = (registry.parse language dialect text).mapError .unregistered := by
  unfold parse
  cases found : registry.grammar? language with
  | some grammar => exact readLines_eq found dialect StateOf.start 0 (Text.lines text)
  | none =>
    obtain ⟨first, others, shape⟩ := List.exists_cons_of_ne_nil (Text.lines_ne_nil text)
    rw [readText, shape, readLines, found]
    rfl

/-- Reading a document fails only for want of a grammar, and otherwise it comes to the parsed tokens:
everything it asks a line or a list for is there, every state it hands on is accepted, and its loops
end because each reader gets on. -/
theorem reading_fails_only_unregistered (registrations : List (Language × Grammar)) (language : Language) (dialect : String)
    (text : List Char) :
    let registry := Registry.ofRegistrations registrations
    registry.readText language dialect text = (registry.parse language dialect text).mapError .unregistered ∧
      (registry.readText language dialect text = .error (.unregistered ⟨language⟩) ↔
        ∀ registration ∈ registrations, registration.1 ≠ language) ∧
      ((∃ tokens, registry.readText language dialect text = .ok tokens) ↔
        ∃ registration ∈ registrations, registration.1 = language) ∧
      (∀ words, Advances (ScriptPositions.readScript words)) ∧ Advances JsonPositions.readJson := by
  intro registry
  have read := registry.readText_eq language dialect text
  have missing : registry.grammar? language = none ↔ _ := Registry.grammar?_eq_none_iff registrations language
  have script : ∀ words, Advances (ScriptPositions.readScript words) := fun words =>
    advances_of_reads (fun head => ScriptPositions.reading words (head.position == 0))
      (fun head => ScriptPositions.reading_covers words (head.position == 0)) (ScriptPositions.readScript_reads words)
  have json : Advances JsonPositions.readJson :=
    advances_of_reads (fun _ => JsonLine.read) (fun _ => JsonLine.reader.covers) JsonPositions.readJson_reads
  refine ⟨read, ?_, ?_, script, json⟩
  · rw [read, Registry.parse, ← missing]
    cases registry.grammar? language with
    | none => exact iff_of_true rfl rfl
    | some grammar => exact iff_of_false nofun nofun
  · have known : (∃ registration ∈ registrations, registration.1 = language) ↔ registry.grammar? language ≠ none := by
      rw [Ne, missing]
      simp only [ne_eq, not_forall, not_not, exists_prop]
    rw [read, Registry.parse, known]
    cases registry.grammar? language with
    | none => exact iff_of_false nofun (absurd rfl)
    | some grammar => exact iff_of_true ⟨_, rfl⟩ nofun

end Highlight
