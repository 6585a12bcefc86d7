import Highlight.Scan.JsonLine
import Highlight.Scan.ScriptLine

/-! What every scan of a line keeps to: its lexemes join to the line, a lexeme that is no token
holds only spaces, and at most one construct is left open. The last fact matters for the first.
After a line with two open constructs the rest of the next line would not be read. -/

namespace Highlight

/-- Whether code is read into tokens of this kind. The other kinds are roles, hashbangs, or tokens of
other grammars. -/
def TokenKind.isRead : TokenKind → Bool
  | comment | error | identifier | keyword | number | operator | regexp | string | type => true
  | _ => false

namespace Scan

namespace Reader

variable (reader : Reader)

/-- What holds of every reading holds of every lexeme of a scan. -/
theorem scan_each {property : Lexeme → Prop} (carry : Carry) (text : List Char)
    (each : ∀ c following, property ⟨(reader.read c following).kind, c :: (reader.read c following).body.taken⟩) :
    ∀ lexeme ∈ (reader.scan carry text).1, property lexeme := by
  fun_induction Reader.scan reader carry text with
  | case1 => intro lexeme member; cases member
  | case2 carry c following reading lexemes last same ih =>
    rw [same] at ih
    intro lexeme member
    rcases List.mem_cons.mp member with rfl | inside
    · exact each c following
    · exact ih lexeme inside

/-- What holds before a scan and of every reading is left behind by the scan. -/
theorem scan_last {property : Carry → Prop} (carry : Carry) (text : List Char) (start : property carry)
    (each : ∀ c following, property (reader.read c following).carry) : property (reader.scan carry text).2 := by
  fun_induction Reader.scan reader carry text with
  | case1 => exact start
  | case2 carry c following reading lexemes last same ih =>
    rw [same] at ih
    exact ih (each c following)

end Reader

def Carry.Single (carry : Carry) : Prop := carry.inComment = false ∨ carry.inTemplate = false

theorem Carry.single_neutral : Carry.neutral.Single := Or.inl rfl

def Lexeme.Spaced (lexeme : Lexeme) : Prop := lexeme.kind = none → ∀ c ∈ lexeme.text, isSpace c = true

theorem Lexeme.spaced_of_kind {kind : TokenKind} {text : List Char} : (⟨some kind, text⟩ : Lexeme).Spaced := by
  intro none
  cases none

theorem Lexeme.spaced_run {c : Char} (space : isSpace c = true) (text : List Char) :
    (⟨none, c :: (Cut.run isSpace text).taken⟩ : Lexeme).Spaced := by
  intro _ d member
  rcases List.mem_cons.mp member with rfl | inside
  · exact space
  · exact List.all_eq_true.mp List.all_takeWhile d inside

theorem place_cons (offset : Int) (lexeme : Lexeme) (others : List Lexeme) :
    place offset (lexeme :: others) = place offset [lexeme] ++ place (offset + lexeme.text.length) others := by
  obtain ⟨kind, text⟩ := lexeme
  cases kind with
  | none => rfl
  | some kind => rfl

theorem place_append (offset : Int) (before late : List Lexeme) :
    place offset (before ++ late) = place offset before ++ place (offset + (before.map Lexeme.text).flatten.length) late := by
  induction before generalizing offset with
  | nil => rw [List.nil_append, List.map_nil, List.flatten_nil, List.length_nil, Int.natCast_zero, Int.add_zero]; rfl
  | cons lexeme others ih =>
    rw [List.cons_append, place_cons, place_cons offset lexeme others, ih, List.append_assoc, List.map_cons,
      List.flatten_cons, List.length_append, Int.natCast_add, Int.add_assoc]

/-- A token is a lexeme that has a kind, and it stands behind all lexemes before it. -/
theorem exists_of_mem_place {offset : Int} {token : Token} {lexemes : List Lexeme} (member : token ∈ place offset lexemes) :
    ∃ before after, lexemes = before ++ ⟨some token.kind, token.text⟩ :: after ∧
      token.start = offset + (before.map Lexeme.text).flatten.length := by
  induction lexemes generalizing offset with
  | nil => cases member
  | cons lexeme others ih =>
    rw [place_cons, List.mem_append] at member
    rcases member with here | inside
    · obtain ⟨kind, text⟩ := lexeme
      cases kind with
      | none => cases here
      | some kind =>
        obtain rfl := List.mem_singleton.mp here
        exact ⟨[], others, rfl, (Int.add_zero _).symm⟩
    · obtain ⟨before, after, rfl, same⟩ := ih inside
      refine ⟨lexeme :: before, after, rfl, ?_⟩
      rw [same, List.map_cons, List.flatten_cons, List.length_append, Int.natCast_add, Int.add_assoc]

theorem place_bounds {lexemes : List Lexeme} {offset : Int} {token : Token} (member : token ∈ place offset lexemes) :
    offset ≤ token.start ∧ token.stop ≤ offset + (lexemes.map Lexeme.text).flatten.length := by
  obtain ⟨before, after, rfl, same⟩ := exists_of_mem_place member
  simp only [Token.stop, same, List.map_append, List.map_cons, List.flatten_append, List.flatten_cons, List.length_append]
  omega

theorem map_shift_place (distance offset : Int) (lexemes : List Lexeme) :
    (place offset lexemes).map (Token.shift distance) = place (offset + distance) lexemes := by
  induction lexemes generalizing offset with
  | nil => rfl
  | cons lexeme others ih =>
    obtain ⟨kind, text⟩ := lexeme
    have later : offset + distance + text.length = offset + text.length + distance := by omega
    cases kind with
    | none => rw [place, place, ih, later]
    | some kind =>
      rw [place, place, List.map_cons, ih, later]
      rfl

private theorem map_kind_place (offset : Int) (lexemes : List Lexeme) :
    (place offset lexemes).map Token.kind = lexemes.filterMap Lexeme.kind := by
  induction lexemes generalizing offset with
  | nil => rfl
  | cons lexeme others ih =>
    obtain ⟨kind, text⟩ := lexeme
    cases kind with
    | none => rw [place, ih, List.filterMap_cons]
    | some kind => rw [place, List.map_cons, ih, List.filterMap_cons]

theorem exists_kind_place {kind : TokenKind} {offset : Int} {lexemes : List Lexeme} :
    (∃ token ∈ place offset lexemes, token.kind = kind) ↔ ∃ lexeme ∈ lexemes, lexeme.kind = some kind := by
  rw [← List.mem_map, map_kind_place, List.mem_filterMap]

namespace JsonLine

private theorem read_spaced (c : Char) (following : List Char) :
    (⟨(read c following).kind, c :: (read c following).body.taken⟩ : Lexeme).Spaced := by
  unfold read
  split
  next space => exact Lexeme.spaced_run space following
  all_goals
    intro none
    repeat' split at none
    all_goals cases none

theorem lexemes_spaced (line : List Char) : ∀ lexeme ∈ lexemes line, lexeme.Spaced :=
  reader.scan_each Carry.neutral line read_spaced

theorem lexemes_text (line : List Char) : ((lexemes line).map Lexeme.text).flatten = line :=
  reader.scan_text Carry.neutral line

end JsonLine

namespace ScriptLine

theorem commentTail_rest {text : List Char} (unfinished : (commentTail text).complete = false) :
    (commentTail text).rest = [] := by
  fun_induction commentTail text with
  | case1 => rfl
  | case2 => cases unfinished
  | case3 _ _ _ ih => exact ih unfinished

theorem quotedTail_rest {quote : Char} {text : List Char} (unfinished : (quotedTail quote text).complete = false) :
    (quotedTail quote text).rest = [] := by
  fun_induction quotedTail quote text with
  | case1 => rfl
  | case2 => cases unfinished
  | case3 => rfl
  | case4 => rename_i ih; exact ih unfinished
  | case5 => rename_i ih; exact ih unfinished

theorem operator_reads (first : Char) (following : List Char) :
    (operator first following).kind.isSome ∧ (operator first following).carry = .neutral := by
  unfold operator OperatorTable.read
  split <;> exact ⟨rfl, rfl⟩

private theorem slash_reads (following : List Char) : (slash following).kind.isSome ∧ (slash following).carry.Single := by
  unfold slash
  split
  · exact ⟨(operator_reads ..).1, by rw [(operator_reads ..).2]; exact Carry.single_neutral⟩
  · exact ⟨rfl, Carry.single_neutral⟩
  · exact ⟨rfl, Or.inr rfl⟩
  · dsimp only
    split <;> exact ⟨rfl, Carry.single_neutral⟩

theorem hash_reads (following : List Char) : (hash following).kind.isSome ∧ (hash following).carry = .neutral := by
  unfold hash
  split
  · split <;> exact ⟨rfl, rfl⟩
  · exact ⟨rfl, rfl⟩

/-- Only spaces are read without a kind, and no reading leaves two constructs open. -/
theorem read_reads (words : Vocabulary) (c : Char) (following : List Char) :
    ((read words c following).kind.isSome ∨
      isSpace c = true ∧ read words c following = ⟨none, Cut.run isSpace following, .neutral⟩) ∧
    (read words c following).carry.Single := by
  unfold read
  split
  next space => exact ⟨Or.inr ⟨space, rfl⟩, Carry.single_neutral⟩
  split
  · exact ⟨Or.inl rfl, Carry.single_neutral⟩
  split
  · exact ⟨Or.inl rfl, Carry.single_neutral⟩
  split
  · exact ⟨Or.inl rfl, Or.inl rfl⟩
  split
  · exact ⟨Or.inl rfl, Carry.single_neutral⟩
  split
  · exact ⟨Or.inl (slash_reads following).1, (slash_reads following).2⟩
  split
  · exact ⟨Or.inl (hash_reads following).1, by rw [(hash_reads following).2]; exact Carry.single_neutral⟩
  · exact ⟨Or.inl (operator_reads c following).1, by rw [(operator_reads c following).2]; exact Carry.single_neutral⟩

def IsQuote (c : Char) : Prop := c = '"' ∨ c = '\x27' ∨ c = '\x60'

private theorem kindOf_kinds (words : Vocabulary) (name : List Char) :
    (words.kindOf name).isRead = true ∧ words.kindOf name ≠ .string := by
  unfold Vocabulary.kindOf
  dsimp only
  split
  · exact ⟨rfl, nofun⟩
  · split <;> exact ⟨rfl, nofun⟩

private theorem operator_kinds (first : Char) (following : List Char) :
    ∀ kind ∈ (operator first following).kind, kind.isRead = true ∧ kind ≠ .string := by
  unfold operator OperatorTable.read
  split <;> exact fun kind found => Option.some.inj found ▸ ⟨rfl, nofun⟩

private theorem slash_kinds (following : List Char) : ∀ kind ∈
    (slash following).kind, kind.isRead = true ∧ kind ≠ .string := by
  unfold slash
  split
  · exact operator_kinds _ _
  · exact fun kind found => Option.some.inj found ▸ ⟨rfl, nofun⟩
  · exact fun kind found => Option.some.inj found ▸ ⟨rfl, nofun⟩
  · dsimp only
    split <;> exact fun kind found => Option.some.inj found ▸ ⟨rfl, nofun⟩

private theorem hash_kinds (following : List Char) : ∀ kind ∈
    (hash following).kind, kind.isRead = true ∧ kind ≠ .string := by
  unfold hash
  split
  · split <;> exact fun kind found => Option.some.inj found ▸ ⟨rfl, nofun⟩
  · exact fun kind found => Option.some.inj found ▸ ⟨rfl, nofun⟩

/-- Where code is read there are neither roles nor hashbangs, and only quotes begin a literal. -/
theorem read_kinds (words : Vocabulary) (c : Char) (following : List Char) :
    ∀ kind ∈ (read words c following).kind, kind.isRead = true ∧ (kind = .string → IsQuote c) := by
  have plain : ∀ {reading : Option TokenKind}, (∀ kind ∈ reading, kind.isRead = true ∧ kind ≠ .string) →
      ∀ kind ∈ reading, kind.isRead = true ∧ (kind = .string → IsQuote c) :=
    fun kinds kind found => ⟨(kinds kind found).1, fun literal => absurd literal (kinds kind found).2⟩
  unfold read
  split
  · nofun
  split
  · exact plain fun kind found => Option.some.inj found ▸ kindOf_kinds words _
  split
  · exact plain fun kind found => Option.some.inj found ▸ ⟨rfl, nofun⟩
  split
  next quote =>
    simp only [Bool.or_eq_true, decide_eq_true_eq, or_assoc] at quote
    exact fun kind found => Option.some.inj found ▸ ⟨rfl, fun _ => quote⟩
  split
  · exact plain fun kind found => Option.some.inj found ▸ ⟨rfl, nofun⟩
  split
  · exact plain (slash_kinds following)
  split
  · exact plain (hash_kinds following)
  · exact plain (operator_kinds c following)

private theorem scan_isRead (words : Vocabulary) (text : List Char) :
    ∀ lexeme ∈ ((reader words).lexemes text).1, ∀ kind ∈ lexeme.kind, kind.isRead = true :=
  @Reader.scan_each (reader words) (fun lexeme => ∀ kind ∈ lexeme.kind, kind.isRead = true) _ text
    fun c following kind found => (read_kinds words c following kind found).1

private theorem read_spaced (words : Vocabulary) (c : Char) (following : List Char) :
    (⟨(read words c following).kind, c :: (read words c following).body.taken⟩ : Lexeme).Spaced := by
  rcases (read_reads words c following).1 with token | ⟨space, same⟩
  · obtain ⟨kind, found⟩ := Option.isSome_iff_exists.mp token
    rw [found]
    exact Lexeme.spaced_of_kind
  · rw [same]
    exact Lexeme.spaced_run space following

def IsHashbang (line : List Char) : Prop := ['#', '!'] <+: line

instance (line : List Char) : Decidable (IsHashbang line) := inferInstanceAs (Decidable (['#', '!'] <+: line))

theorem code_hashbang (words : Vocabulary) {line : List Char} (hashbang : IsHashbang line) :
    code words true line = ([⟨some .preprocessor, line⟩], .neutral) := by
  obtain ⟨rest, rfl⟩ := hashbang
  rfl

theorem code_eq_lexemes (words : Vocabulary) {atStart : Bool} {text : List Char}
    (plain : atStart = false ∨ ¬ IsHashbang text) : code words atStart text = (reader words).lexemes text := by
  unfold code
  split
  · rcases plain with inside | other
    · cases inside
    · exact absurd ⟨_, rfl⟩ other
  · rfl

theorem lexemes_eq_code (words : Vocabulary) (atStart : Bool) {carry : Carry} (closed : carry.isOpen = false)
    (line : List Char) : lexemes words atStart carry line = code words atStart line := by
  obtain ⟨comment, template⟩ := Bool.or_eq_false_iff.mp closed
  simp only [lexemes, comment, template, Bool.false_eq_true, if_false]

theorem lexemes_hashbang (words : Vocabulary) {carry : Carry} {line : List Char} (closed : carry.isOpen = false)
    (hashbang : IsHashbang line) : lexemes words true carry line = ([⟨some .preprocessor, line⟩], .neutral) := by
  rw [lexemes_eq_code words true closed, code_hashbang words hashbang]

private theorem code_isRead (words : Vocabulary) {atStart : Bool} {text : List Char}
    (plain : atStart = false ∨ ¬ IsHashbang text) :
    ∀ lexeme ∈ (code words atStart text).1, ∀ kind ∈ lexeme.kind, kind.isRead = true := by
  rw [code_eq_lexemes words plain]
  exact scan_isRead words text

private theorem resume_isRead (words : Vocabulary) {continued : TokenKind} (readable : continued.isRead = true) (tail : Tail)
    (carry : Carry) : ∀ lexeme ∈ (resume words continued tail carry).1, ∀ kind ∈ lexeme.kind, kind.isRead = true := by
  have first : ∀ kind ∈ some continued, kind.isRead = true := fun kind found => Option.some.inj found ▸ readable
  unfold resume
  split
  · exact List.forall_mem_singleton.mpr first
  · exact List.forall_mem_cons.mpr ⟨first, code_isRead words (Or.inl rfl)⟩

/-- A line that is no hashbang is read into what code is read into, whatever it begins with. -/
theorem lexemes_isRead (words : Vocabulary) {atStart : Bool} {carry : Carry} {line : List Char}
    (plain : ¬ (carry.isOpen = false ∧ IsHashbang line)) :
    ∀ lexeme ∈ (lexemes words atStart carry line).1, ∀ kind ∈ lexeme.kind, kind.isRead = true := by
  unfold lexemes
  split
  · exact resume_isRead words rfl _ _
  next noComment =>
    split
    · exact resume_isRead words rfl _ _
    next noTemplate =>
      have closed : carry.isOpen = false := by simp only [Carry.isOpen, noComment, noTemplate, Bool.or_self]
      exact code_isRead words (Or.inr fun hashbang => plain ⟨closed, hashbang⟩)

/-- What holds of the lexemes of a script line, however it begins. -/
structure Scanned (line : List Char) (lexemes : List Lexeme) (last : Carry) : Prop where
  whole : (lexemes.map Lexeme.text).flatten = line
  spaced : ∀ lexeme ∈ lexemes, lexeme.Spaced
  single : last.Single

theorem code_scanned (words : Vocabulary) (atStart : Bool) (text : List Char) :
    Scanned text (code words atStart text).1 (code words atStart text).2 := by
  unfold code
  split
  · refine ⟨by simp, ?_, Carry.single_neutral⟩
    intro lexeme member
    rw [List.mem_singleton.mp member]
    exact Lexeme.spaced_of_kind
  · exact ⟨(reader words).scan_text _ _, (reader words).scan_each _ _ (read_spaced words),
      (reader words).scan_last _ _ Carry.single_neutral fun c following => (read_reads words c following).2⟩

/-- A construct that is continued takes the whole line unless it is closed. -/
theorem resume_scanned (words : Vocabulary) (kind : TokenKind) (tail : Tail) (carry : Carry) {line : List Char}
    (covers : tail.Covers line) (single : carry.Single) (unfinished : carry.isOpen = true → tail.rest = []) :
    Scanned line (resume words kind tail carry).1 (resume words kind tail carry).2 := by
  have joined : tail.taken ++ tail.rest = line := covers
  unfold resume
  split
  next opened =>
    rw [unfinished opened, List.append_nil] at joined
    refine ⟨by simpa using joined, ?_, single⟩
    intro lexeme member
    rw [List.mem_singleton.mp member]
    exact Lexeme.spaced_of_kind
  next =>
    have after := code_scanned words false tail.rest
    refine ⟨?_, ?_, after.single⟩
    · rw [List.map_cons, List.flatten_cons, after.whole]
      exact joined
    · intro lexeme member
      rcases List.mem_cons.mp member with rfl | inside
      · exact Lexeme.spaced_of_kind
      · exact after.spaced lexeme inside

theorem lexemes_scanned (words : Vocabulary) (atStart : Bool) {carry : Carry} (single : carry.Single)
    (line : List Char) : Scanned line (lexemes words atStart carry line).1 (lexemes words atStart carry line).2 := by
  unfold lexemes
  split
  next comment =>
    have template : carry.inTemplate = false := by
      rcases single with closed | closed
      · exact absurd (closed.symm.trans comment) Bool.false_ne_true
      · exact closed
    refine resume_scanned words .comment _ _ (commentTail_covers line) (Or.inr template) fun opened => ?_
    simp only [Carry.isOpen, template, Bool.or_false, Bool.not_eq_true'] at opened
    exact commentTail_rest opened
  split
  next =>
    refine resume_scanned words .string _ _ (quotedTail_covers _ line) (Or.inl rfl) fun opened => ?_
    simp only [Carry.isOpen, Bool.false_or, Bool.not_eq_true'] at opened
    exact quotedTail_rest opened
  next => exact code_scanned words atStart line

end ScriptLine

end Scan

end Highlight
