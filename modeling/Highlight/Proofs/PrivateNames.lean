import Highlight.Proofs.CodePlaces
import Highlight.Scan.Session

/-! Private names. A hash is the hash of a private name only if a letter stands behind it, although a
name may also begin with an underscore or a dollar sign; before these the hash is an error and the name stands
by itself. Wherever a hash stands in a line, it is read as code, or something that is no code holds it. -/

namespace Highlight

/-- Tokens that hold any characters, and so also hashes that begin no name. -/
def TokenKind.hidesCode : TokenKind → Bool
  | comment | string | regexp | preprocessor => true
  | _ => false

namespace Scan

section
variable {before after lexemes : List Lexeme} {lexeme : Lexeme} {kind : TokenKind} {text : List Char}

private theorem covers_inside {start : Int} {inside : Nat} (held : inside < text.length) :
    (⟨kind, text, start⟩ : Token).covers (start + inside) = true := by
  rw [Token.covers_iff]
  simp only [Token.stop]
  omega

private theorem filter_covers_outside {offset index : Int}
    (outside : index < offset ∨ offset + (lexemes.map Lexeme.text).flatten.length ≤ index) :
    (place offset lexemes).filter (·.covers index) = [] := by
  refine List.filter_eq_nil_iff.mpr fun token member covered => ?_
  have bounds := place_bounds member
  have covers := Token.covers_iff.mp covered
  omega

/-- A token that holds text is the only one that holds its first character. -/
private theorem filter_covers_place (offset : Int) (filled : text ≠ []) :
    (place offset (before ++ ⟨some kind, text⟩ :: after)).filter
        (·.covers (offset + (before.map Lexeme.text).flatten.length)) =
      [⟨kind, text, offset + (before.map Lexeme.text).flatten.length⟩] := by
  have size := List.length_pos_iff.mpr filled
  have here : (⟨kind, text, offset + (before.map Lexeme.text).flatten.length⟩ : Token).covers _ = true := covers_inside size
  rw [Int.natCast_zero, Int.add_zero] at here
  rw [place_append, List.filter_append, filter_covers_outside (Or.inr (Int.le_refl _)), List.nil_append, place, List.filter_cons,
    if_pos here, filter_covers_outside (Or.inl (by omega))]

private theorem exists_lexeme_at {index : Nat} {c : Char} (found : (lexemes.map Lexeme.text).flatten[index]? = some c) :
    ∃ before lexeme after inside, lexemes = before ++ lexeme :: after ∧ lexeme.text[inside]? = some c ∧
      index = (before.map Lexeme.text).flatten.length + inside := by
  induction lexemes generalizing index with
  | nil => cases found
  | cons lexeme others ih =>
    rw [List.map_cons, List.flatten_cons] at found
    by_cases here : index < lexeme.text.length
    · rw [List.getElem?_append_left here] at found
      exact ⟨[], lexeme, others, index, rfl, found, (Nat.zero_add _).symm⟩
    · rw [List.getElem?_append_right (Nat.le_of_not_lt here)] at found
      obtain ⟨before, other, after, inside, rfl, same, distance⟩ := ih found
      refine ⟨lexeme :: before, other, after, inside, rfl, same, ?_⟩
      rw [List.map_cons, List.flatten_cons, List.length_append]
      omega

private theorem mem_starts_drop {skipped : Nat} (offset : Nat) (enough : skipped ≤ before.length) :
    offset + (before.map Lexeme.text).flatten.length ∈ (starts offset (before ++ lexeme :: after)).drop skipped := by
  induction before generalizing offset skipped with
  | nil =>
    obtain rfl := Nat.le_zero.mp enough
    exact List.mem_cons_self ..
  | cons first others ih =>
    have later : offset + ((first :: others).map Lexeme.text).flatten.length =
        offset + first.text.length + (others.map Lexeme.text).flatten.length := by
      rw [List.map_cons, List.flatten_cons, List.length_append, Nat.add_assoc]
    rw [later]
    cases skipped with
    | zero => exact List.mem_cons_of_mem _ (ih (offset + first.text.length) (Nat.zero_le _))
    | succ skipped => exact ih (offset + first.text.length) (Nat.le_of_succ_le_succ enough)

end

namespace ScriptLine

private theorem run_hashless {member : Char → Bool} (outside : member '#' = false) (text : List Char) :
    '#' ∉ (Cut.run member text).taken := by
  intro hash
  have inside : member '#' = true := List.all_eq_true.mp List.all_takeWhile '#' hash
  exact Bool.false_ne_true (outside.symm.trans inside)

def Hashless (reader : List Char → Cut) : Prop := ∀ text, '#' ∉ (reader text).taken

theorem Hashless.push {c : Char} {cut : Cut} (other : '#' ≠ c) (hashless : '#' ∉ cut.taken) : '#' ∉ (cut.push c).taken :=
  fun hash => (List.mem_cons.mp hash).elim other hashless

theorem Hashless.followedBy {cut : Cut} {reader : List Char → Cut} (first : '#' ∉ cut.taken) (second : Hashless reader) :
    '#' ∉ (cut.followedBy reader).taken :=
  fun hash => (List.mem_append.mp hash).elim first (second _)

private theorem bigMark_hashless : Hashless bigMark := by
  intro text
  unfold bigMark
  split
  · exact fun hash => absurd (List.mem_singleton.mp hash) (by decide)
  · exact List.not_mem_nil

private theorem fraction_hashless : Hashless fraction := by
  intro text
  unfold fraction
  split
  · exact Hashless.push (by decide) (run_hashless rfl _)
  · exact List.not_mem_nil

private theorem signedDigits_hashless : Hashless signedDigits := by
  intro text
  unfold signedDigits
  split
  · exact Hashless.push (by decide) (run_hashless rfl _)
  · exact Hashless.push (by decide) (run_hashless rfl _)
  · exact run_hashless rfl _

private theorem exponent_hashless : Hashless exponent := by
  intro text
  unfold exponent
  split
  · exact Hashless.push (by decide) (signedDigits_hashless _)
  · exact Hashless.push (by decide) (signedDigits_hashless _)
  · exact List.not_mem_nil

private theorem radixDigit?_hash {mark : Char} {digit : Char → Bool} (found : radixDigit? mark = some digit) :
    '#' ≠ mark ∧ digit '#' = false := by
  refine ⟨?_, ?_⟩
  · rintro rfl
    cases found
  · unfold radixDigit? at found
    repeat' split at found
    all_goals cases found
    all_goals rfl

private theorem numberTail_hashless (first : Char) : Hashless (numberTail first) := by
  intro text
  unfold numberTail
  split
  next mark following =>
    split
    next digit found =>
      obtain ⟨zero, found⟩ : first = '0' ∧ radixDigit? mark = some digit := by
        split at found
        next zero => exact ⟨zero, found⟩
        next => cases found
      obtain ⟨other, outside⟩ := radixDigit?_hash found
      refine Hashless.followedBy (Hashless.push other (run_hashless ?_ _)) bigMark_hashless
      rw [outside]
      rfl
    next =>
      refine Hashless.followedBy (Hashless.followedBy ?_ exponent_hashless) bigMark_hashless
      split
      · exact run_hashless rfl _
      · exact Hashless.followedBy (run_hashless rfl _) fraction_hashless
  next => exact List.not_mem_nil

private theorem operator_hashless (first : Char) : Hashless fun following => (operator first following).body := by
  have plain : ∀ group ∈ scriptOperators.groups, ∀ tail ∈ group.2, '#' ∉ tail := by
    have each : (scriptOperators.groups.all fun group => group.2.all fun tail => !tail.contains '#') = true := by decide +kernel
    intro group inside tail member
    have free := List.all_eq_true.mp (List.all_eq_true.mp each group inside) tail member
    simpa using free
  intro following
  change '#' ∉ (operator first following).body.taken
  unfold operator OperatorTable.read
  split
  next tail found =>
    have member : tail ∈ scriptOperators.tails first := List.mem_of_find?_eq_some found
    unfold OperatorTable.tails at member
    cases group : scriptOperators.groups.lookup first with
    | none =>
      rw [group] at member
      cases member
    | some tails =>
      rw [group] at member
      obtain ⟨before, after, split, -⟩ := List.lookup_eq_some_iff.mp group
      exact plain (first, tails) (by rw [split]; simp) tail member
  next => exact List.not_mem_nil

/-- A hash is the first character of a lexeme, unless the lexeme is no code. -/
def HashFirst (lexeme : Lexeme) : Prop :=
  '#' ∈ lexeme.text.tail → ∃ kind, lexeme.kind = some kind ∧ kind.hidesCode = true

private theorem slash_hashFirst (following : List Char) :
    HashFirst ⟨(slash following).kind, '/' :: (slash following).body.taken⟩ := by
  unfold slash
  split
  · exact fun hash => absurd hash (operator_hashless '/' _)
  · exact fun _ => ⟨.comment, rfl, rfl⟩
  · exact fun _ => ⟨.comment, rfl, rfl⟩
  · dsimp only
    split
    · exact fun _ => ⟨.regexp, rfl, rfl⟩
    · exact fun hash => absurd hash List.not_mem_nil

private theorem hash_hashFirst (following : List Char) :
    HashFirst ⟨(hash following).kind, '#' :: (hash following).body.taken⟩ := by
  unfold hash
  split
  next c others =>
    split
    next letter =>
      have other : '#' ≠ c := by
        rintro rfl
        cases letter
      exact fun inside => absurd inside (Hashless.push other (run_hashless rfl others))
    next => exact fun inside => absurd inside List.not_mem_nil
  next => exact fun inside => absurd inside List.not_mem_nil

private theorem read_hashFirst (words : Vocabulary) (c : Char) (following : List Char) :
    HashFirst ⟨(read words c following).kind, c :: (read words c following).body.taken⟩ := by
  unfold read
  split
  · exact fun inside => absurd inside (run_hashless rfl following)
  split
  · exact fun inside => absurd inside (run_hashless rfl following)
  split
  · exact fun inside => absurd inside (numberTail_hashless c following)
  split
  · exact fun _ => ⟨.string, rfl, rfl⟩
  split
  · exact fun inside => absurd inside (numberTail_hashless c following)
  split
  next same => exact same ▸ slash_hashFirst following
  split
  next same => exact same ▸ hash_hashFirst following
  · exact fun inside => absurd inside (operator_hashless c following)

private theorem code_hashFirst (words : Vocabulary) (atStart : Bool) (text : List Char) :
    ∀ lexeme ∈ (code words atStart text).1, HashFirst lexeme := by
  unfold code
  split
  · exact List.forall_mem_singleton.mpr fun _ => ⟨.preprocessor, rfl, rfl⟩
  · exact (reader words).scan_each _ _ (read_hashFirst words)

/-- A line begins with a construct that was left open, or all of it is read as code. -/
theorem lexemes_shape (words : Vocabulary) {carry : Carry} (single : carry.Single) (line : List Char) :
    carry.isOpen = false ∧ lexemes words true carry line = code words true line ∨
      ∃ construct : Construct, ∃ text rest, (lexemes words true carry line).1 = ⟨some construct.kind, text⟩ :: rest ∧
        ∀ lexeme ∈ rest, HashFirst lexeme := by
  obtain ⟨left, rfl⟩ := single.exists_left
  cases left with
  | none => exact Or.inl ⟨rfl, rfl⟩
  | some construct =>
    refine Or.inr ⟨construct, (construct.tail line).taken, ?_⟩
    cases complete : (construct.tail line).complete with
    | true =>
      rw [lexemes_closed words complete]
      exact ⟨_, rfl, code_hashFirst words false _⟩
    | false =>
      rw [lexemes_open words complete]
      exact ⟨[], rfl, fun _ member => absurd member List.not_mem_nil⟩

theorem HashFirst.front {lexeme : Lexeme} (hashFirst : HashFirst lexeme) {inside : Nat} (found : lexeme.text[inside]? = some '#') :
    inside = 0 ∨ ∃ kind, lexeme.kind = some kind ∧ kind.hidesCode = true := by
  cases inside with
  | zero => exact Or.inl rfl
  | succ inside =>
    refine Or.inr (hashFirst ?_)
    rw [← List.getElem?_tail] at found
    exact List.mem_of_getElem? found

private theorem hash_in_lexeme (words : Vocabulary) {carry : Carry} (single : carry.Single) {text : List Char}
    {before after : List Lexeme}
    {lexeme : Lexeme} (split : (lexemes words true carry text).1 = before ++ lexeme :: after) {inside : Nat}
    (found : lexeme.text[inside]? = some '#') :
    (inside = 0 ∧ (carry.isOpen = true → before ≠ [])) ∨ ∃ kind, lexeme.kind = some kind ∧ kind.hidesCode = true := by
  rcases lexemes_shape words single text with ⟨closed, same⟩ | ⟨construct, piece, rest, same, later⟩
  · have hashFirst := code_hashFirst words true text lexeme
    rw [← same, split] at hashFirst
    refine ((hashFirst (by simp)).front found).imp_left fun front => ⟨front, fun opened => ?_⟩
    exact absurd (closed.symm.trans opened) Bool.false_ne_true
  · rw [split] at same
    cases before with
    | nil =>
      obtain ⟨rfl, -⟩ := List.cons.inj same
      exact Or.inr ⟨construct.kind, rfl, by cases construct <;> rfl⟩
    | cons first before =>
      obtain ⟨-, rfl⟩ := List.cons.inj same
      exact ((later lexeme (by simp)).front found).imp_left fun front => ⟨front, fun _ => List.cons_ne_nil _ _⟩

/-- A hash stands where code is read, or in a token that is no code. -/
theorem hash_at_codePlace (words : Vocabulary) {carry : Carry} (single : carry.Single) {text : List Char} {start : Nat}
    (found : text[start]? = some '#') :
    start ∈ codePlaces words carry 0 [text] ∨
      ∃ token ∈ place 0 (lexemes words true carry text).1, token.covers start = true ∧ token.kind.hidesCode = true := by
  rw [← (lexemes_scanned words true single text).whole] at found
  obtain ⟨before, lexeme, after, inside, split, here, rfl⟩ := exists_lexeme_at found
  rcases hash_in_lexeme words single split here with ⟨rfl, behind⟩ | ⟨kind, hidden, hides⟩
  · left
    rw [codePlaces_line, split, Nat.add_zero, ← Nat.zero_add (List.length _)]
    refine mem_starts_drop 0 ?_
    split
    next opened => exact List.length_pos_iff.mpr (behind opened)
    next => exact Nat.zero_le _
  · right
    obtain ⟨same, piece⟩ := lexeme
    obtain rfl : same = some kind := hidden
    obtain ⟨held, -⟩ := List.getElem?_eq_some_iff.mp here
    refine ⟨⟨kind, piece, (before.map Lexeme.text).flatten.length⟩, ?_, covers_inside held, hides⟩
    rw [split, place_append, Int.zero_add]
    exact List.mem_append_right _ (List.mem_cons_self ..)

structure IsName (first : Char) (others : List Char) : Prop where
  begins : isNameStart first = true
  continues : ∀ c ∈ others, isNamePart c = true

variable {first : Char} {others rest : List Char}

private theorem isSpace_of_isNameStart (begins : isNameStart first = true) : isSpace first = false := by
  have ascii : first.toNat < 128 := by
    have letter : first.isAlpha =
        (decide (first.val ≥ 'A'.val ∧ first.val ≤ 'Z'.val) || (decide (first.val ≥ 'a'.val) && decide (first.val ≤ 'z'.val))) :=
      rfl
    simp only [isNameStart, letter, Bool.or_eq_true, Bool.and_eq_true, decide_eq_true_eq, beq_iff_eq, ge_iff_le,
      UInt32.le_iff_toNat_le] at begins
    rcases begins with ((⟨-, high⟩ | ⟨-, high⟩) | rfl) | rfl
    · exact Nat.lt_of_le_of_lt high (by decide)
    · exact Nat.lt_of_le_of_lt high (by decide)
    · decide
    · decide
  have each : ∀ n < 128, isNameStart (Char.ofNat n) = true → isSpace (Char.ofNat n) = false := by decide
  rw [← Char.ofNat_toNat first] at begins ⊢
  exact each _ ascii begins

theorem read_name (words : Vocabulary) (name : IsName first others) (ends : ∀ c ∈ rest.head?, isNamePart c = false) :
    read words first (others ++ rest) = ⟨some (words.kindOf (first :: others)), ⟨others, rest⟩, .neutral⟩ := by
  unfold read
  rw [isSpace_of_isNameStart name.begins, name.begins]
  change ScriptLine.name words first (others ++ rest) = _
  rw [ScriptLine.name, Cut.run_append name.continues ends]

/-- A hash before a letter begins a private name; before the other characters that names begin with it is an error. -/
theorem code_private (words : Vocabulary) (atStart : Bool) (name : IsName first others)
    (ends : ∀ c ∈ rest.head?, isNamePart c = false) :
    ∃ after, (code words atStart ('#' :: first :: (others ++ rest))).1 =
      if first.isAlpha then ⟨some .identifier, '#' :: first :: others⟩ :: after
      else ⟨some .error, ['#']⟩ :: ⟨some (words.kindOf (first :: others)), first :: others⟩ :: after := by
  have plain : ¬ IsHashbang ('#' :: first :: (others ++ rest)) := by
    rintro ⟨after, same⟩
    cases same
    cases name.begins
  rw [code_eq_lexemes words (Or.inr plain), Reader.lexemes, Reader.scan_cons]
  cases letter : first.isAlpha with
  | true =>
    have read : (reader words).read '#' (first :: (others ++ rest)) = ⟨some .identifier, ⟨first :: others, rest⟩, .neutral⟩ := by
      change ScriptLine.hash (first :: (others ++ rest)) = _
      rw [ScriptLine.hash, if_pos letter, Cut.run_append name.continues ends]
      rfl
    rw [read]
    exact ⟨_, rfl⟩
  | false =>
    have read : (reader words).read '#' (first :: (others ++ rest)) = ⟨some .error, ⟨[], first :: (others ++ rest)⟩, .neutral⟩ :=
      if_neg (Bool.not_eq_true _ ▸ letter)
    have named : (reader words).read first (others ++ rest) = _ := read_name words name ends
    rw [read, Reader.scan_cons, named]
    exact ⟨_, rfl⟩

end ScriptLine

end Scan

open Scan ScriptLine

/-- A private name is one identifier exactly if a letter stands behind its hash; otherwise the hash is an error
and the name a token of its own. Its hash stands where code is read, or in a token that is no code. -/
theorem private_names_begin_with_letters (words : Vocabulary) (previous : Option Carry) (text : List Char) :
    ∃ session last,
      ({ scanner := .script words } : Session).scan (previous.map .script) text = .ok (session, last) ∧
      ((previous.getD .neutral).Single → ∀ start, text[start]? = some '#' →
        start ∈ codePlaces words (previous.getD .neutral) 0 [text] ∨
          ∃ token ∈ session.tokens, token.covers start = true ∧ token.kind.hidesCode = true) ∧
      ∀ start ∈ codePlaces words (previous.getD .neutral) 0 [text], ∀ first others rest,
        IsName first others → (∀ c ∈ rest.head?, isNamePart c = false) →
        text.drop start = '#' :: first :: (others ++ rest) →
        (session.tokens.filter (·.covers start) = [⟨.identifier, '#' :: first :: others, start⟩] ↔ first.isAlpha = true) ∧
        (first.isAlpha = false →
          session.tokens.filter (·.covers start) = [⟨.error, ['#'], start⟩] ∧
          session.tokens.filter (·.covers (start + 1)) = [⟨words.kindOf (first :: others), first :: others, start + 1⟩]) := by
  obtain ⟨session, scanned, tokens, -⟩ := Session.scan_script words previous text
  refine ⟨session, _, scanned, ?_, ?_⟩
  · rw [tokens]
    exact fun single start => hash_at_codePlace words single
  · intro start inside first others rest name ends split
    obtain ⟨before, reads, same⟩ := readsFrom_of_mem_codePlaces inside
    rw [split] at reads
    obtain ⟨after, read⟩ := code_private words before.isEmpty name ends
    have here : (start : Int) = 0 + (before.map Lexeme.text).flatten.length := by omega
    rw [tokens, reads.read, read]
    cases letter : first.isAlpha with
    | true =>
      rw [if_pos rfl, here, filter_covers_place 0 (List.cons_ne_nil _ _)]
      exact ⟨iff_of_true rfl rfl, nofun⟩
    | false =>
      have behind : (start : Int) + 1 = 0 + ((before ++ [(⟨some .error, ['#']⟩ : Lexeme)]).map Lexeme.text).flatten.length := by
        rw [List.map_append, List.flatten_append, List.length_append, Int.natCast_add, ← Int.add_assoc, ← here]
        rfl
      have alone : (place 0 (before ++ ⟨some .error, ['#']⟩ :: ⟨some (words.kindOf (first :: others)), first :: others⟩ :: after)).filter
          (·.covers start) = [⟨.error, ['#'], start⟩] := by
        rw [here]
        exact filter_covers_place 0 (List.cons_ne_nil _ _)
      have named : (place 0 ((before ++ [⟨some .error, ['#']⟩]) ++ ⟨some (words.kindOf (first :: others)), first :: others⟩ :: after)).filter
          (·.covers (start + 1)) = [⟨words.kindOf (first :: others), first :: others, start + 1⟩] := by
        rw [behind]
        exact filter_covers_place 0 (List.cons_ne_nil _ _)
      rw [List.append_assoc] at named
      rw [if_neg Bool.false_ne_true]
      refine ⟨iff_of_false ?_ Bool.false_ne_true, fun _ => ⟨alone, named⟩⟩
      rw [alone]
      nofun

theorem private_names_begin_with_letters_dollar :
    (⟨true, false⟩ : Carry).Single ∧ "*/#of#$".toList[5]? = some '#' ∧
      (2 ∈ codePlaces .javascript ⟨true, false⟩ 0 ["*/#of#$".toList] ∧ IsName 'o' ['f'] ∧
        (∀ c ∈ "#$".toList.head?, isNamePart c = false) ∧
        "*/#of#$".toList.drop 2 = '#' :: 'o' :: (['f'] ++ "#$".toList)) ∧
      (5 ∈ codePlaces .javascript ⟨true, false⟩ 0 ["*/#of#$".toList] ∧ IsName '$' [] ∧ '$'.isAlpha = false ∧
        "*/#of#$".toList.drop 5 = '#' :: '$' :: ([] ++ [])) ∧
      ∃ session last,
        ({ scanner := .script .javascript } : Session).scan (some (.script ⟨true, false⟩)) "*/#of#$".toList = .ok (session, last) ∧
          session.tokens.filter (·.covers 2) = [⟨.identifier, "#of".toList, 2⟩] ∧
          session.tokens.filter (·.covers 5) = [⟨.error, ['#'], 5⟩] ∧
          session.tokens.filter (·.covers 6) = [⟨.identifier, ['$'], 6⟩] ∧
          (5 ∈ codePlaces .javascript ⟨true, false⟩ 0 ["*/#of#$".toList] ∨
            ∃ token ∈ session.tokens, token.covers 5 = true ∧ token.kind.hidesCode = true) := by
  have places : codePlaces .javascript ⟨true, false⟩ 0 ["*/#of#$".toList] = [2, 5, 6] := by decide +kernel
  have single : (⟨true, false⟩ : Carry).Single := Or.inr rfl
  have found : "*/#of#$".toList[5]? = some '#' := rfl
  have hashed : ∀ c ∈ "#$".toList.head?, isNamePart c = false := fun _ hash => Option.some.inj hash ▸ rfl
  have letter : 2 ∈ codePlaces .javascript ⟨true, false⟩ 0 ["*/#of#$".toList] ∧ IsName 'o' ['f'] ∧
      (∀ c ∈ "#$".toList.head?, isNamePart c = false) ∧ "*/#of#$".toList.drop 2 = '#' :: 'o' :: (['f'] ++ "#$".toList) :=
    ⟨by rw [places]; decide, ⟨rfl, List.forall_mem_singleton.mpr rfl⟩, hashed, rfl⟩
  have dollar : 5 ∈ codePlaces .javascript ⟨true, false⟩ 0 ["*/#of#$".toList] ∧ IsName '$' [] ∧ '$'.isAlpha = false ∧
      "*/#of#$".toList.drop 5 = '#' :: '$' :: ([] ++ []) :=
    ⟨by rw [places]; decide, ⟨rfl, List.forall_mem_nil _⟩, rfl, rfl⟩
  obtain ⟨session, last, scanned, hashes, whole⟩ :=
    private_names_begin_with_letters .javascript (some ⟨true, false⟩) "*/#of#$".toList
  have lineEnd : ∀ c ∈ ([] : List Char).head?, isNamePart c = false := fun c inside => absurd inside (Option.not_mem_none c)
  obtain ⟨alone, named⟩ := (whole 5 dollar.1 '$' [] [] dollar.2.1 lineEnd dollar.2.2.2).2 dollar.2.2.1
  refine ⟨single, found, letter, dollar, session, last, scanned, ?_, alone, named, hashes single 5 found⟩
  exact (whole 2 letter.1 'o' ['f'] "#$".toList letter.2.1 letter.2.2.1 letter.2.2.2).1.mpr rfl

/-- The hash of a private name that begins with an underscore is an error. -/
theorem underscored_private_name_is_split :
    ¬ ∀ (words : Vocabulary) (line : List Char) (start : Nat) (first : Char) (others rest : List Char),
      start ∈ codePlaces words .neutral 0 [line] → IsName first others → (∀ c ∈ rest.head?, isNamePart c = false) →
      line.drop start = '#' :: first :: (others ++ rest) →
      ∃ session last, ({ scanner := .script words } : Session).scan none line = .ok (session, last) ∧
        session.tokens.filter (·.covers start) = [⟨.identifier, '#' :: first :: others, start⟩] := by
  intro law
  have places : codePlaces .javascript .neutral 0 ["#_x".toList] = [0, 1] := by decide +kernel
  have lineEnd : ∀ c ∈ ([] : List Char).head?, isNamePart c = false := fun c inside => absurd inside (Option.not_mem_none c)
  have tokens : place 0 (lexemes .javascript true .neutral "#_x".toList).1 =
      [⟨.error, ['#'], 0⟩, ⟨.identifier, "_x".toList, 1⟩] := by decide +kernel
  obtain ⟨session, last, scanned, single⟩ :=
    law .javascript "#_x".toList 0 '_' ['x'] [] (by rw [places]; decide) ⟨rfl, List.forall_mem_singleton.mpr rfl⟩ lineEnd rfl
  obtain ⟨same, again, placed, -⟩ := Session.scan_script .javascript none "#_x".toList
  obtain ⟨rfl, -⟩ := Prod.mk.inj (Except.ok.inj (scanned.symm.trans again))
  rw [placed] at single
  change (place 0 (lexemes .javascript true .neutral "#_x".toList).1).filter _ = _ at single
  rw [tokens] at single
  exact absurd single (by decide)

end Highlight
