import Highlight.Proofs.JsonScanner
import Highlight.Proofs.Regexps
import Highlight.Scan.Session
import Mathlib.Data.List.Basic

/-! Tokens delimit themselves: read alone, each one is what it was in its line. What a token is, and how
far it goes, may be found out by looking ahead; the readers are shown to be local, which means that
nothing behind what they took had a say in it. -/

namespace Highlight.Scan

/-- What is taken, and whether it is complete, stays the same before every beginning of the rest. -/
def Tail.Local (reader : List Char → Tail) : Prop :=
  ∀ text shorter, shorter <+: (reader text).rest →
    reader ((reader text).taken ++ shorter) = ⟨⟨(reader text).taken, shorter⟩, (reader text).complete⟩

def Cut.Local (reader : List Char → Cut) : Prop := Tail.Local fun text => ⟨reader text, true⟩

theorem Cut.Covers.front {cut : Cut} {text shorter : List Char} (whole : cut.Covers text) (front : shorter <+: cut.rest) :
    cut.taken ++ shorter <+: text := by
  have same : cut.taken ++ cut.rest = text := whole
  rw [← same]
  exact (List.prefix_append_right_inj cut.taken).mpr front

private theorem head?_of_front {shorter text : List Char} (front : shorter <+: text) :
    ∀ c ∈ shorter.head?, c ∈ text.head? := by
  obtain ⟨others, rfl⟩ := front
  exact fun c head => List.mem_head?_append_of_mem_head? head

theorem Cut.run_outside (member : Char → Bool) (text : List Char) : ∀ c ∈ (run member text).rest.head?, member c = false := by
  intro c head
  have stops := List.head?_dropWhile_not member text
  change (text.dropWhile member).head? = some c at head
  rwa [head] at stops

theorem Cut.none_local : Cut.Local Cut.none := fun _ _ _ => rfl

theorem Cut.run_local (member : Char → Bool) : Cut.Local (run member) := by
  intro text shorter front
  have outside : ∀ c ∈ shorter.head?, member c = false :=
    fun c head => run_outside member text c (head?_of_front front c head)
  exact congrArg (fun cut => (⟨cut, true⟩ : Tail)) (run_append (List.all_eq_true.mp List.all_takeWhile) outside)

theorem Tail.Local.alone {reader : List Char → Tail} (readerLocal : Local reader) (text : List Char) :
    reader (reader text).taken = ⟨⟨(reader text).taken, []⟩, (reader text).complete⟩ := by
  have alone := readerLocal text [] List.nil_prefix
  rwa [List.append_nil] at alone

theorem Cut.Local.alone {reader : List Char → Cut} (readerLocal : Local reader) (text : List Char) :
    reader (reader text).taken = ⟨(reader text).taken, []⟩ :=
  congrArg Tail.toCut (Tail.Local.alone readerLocal text)

namespace Tail.Local

variable {first second reader : List Char → Tail}

theorem followedBy (firstLocal : Local first) (secondLocal : Local second) (covers : ∀ text, (second text).Covers text) :
    Local fun text => (first text).followedBy second := by
  intro text shorter front
  cases complete : (first text).complete with
  | false =>
    have unfinished (tail : Tail) (open_ : tail.complete = false) : tail.followedBy second = tail := by
      rw [Tail.followedBy, open_, if_neg Bool.false_ne_true]
    simp only [unfinished _ complete] at front ⊢
    rw [firstLocal text shorter front, complete]
    rfl
  | true =>
    simp only [followedBy_of_complete complete] at front ⊢
    have within : (second (first text).rest).taken ++ shorter <+: (first text).rest := (covers _).front front
    rw [List.append_assoc, firstLocal text _ within, complete, followedBy_of_complete rfl, secondLocal _ shorter front]

/-- A reader is local if it goes on behind certain marks with local readers, and is local where it finds no
such mark. -/
theorem marked (Mark : Char → Prop) (inner : Char → List Char → Tail) (other : List Char → Tail)
    (opens : ∀ mark following, Mark mark → reader (mark :: following) = (inner mark following).push mark)
    (skips : ∀ text, (∀ c ∈ text.head?, ¬ Mark c) → reader text = other text)
    (innerLocal : ∀ mark, Mark mark → Local (inner mark)) (otherLocal : Local other)
    (covers : ∀ text, (other text).Covers text) : Local reader := by
  intro text shorter front
  by_cases marked : ∃ mark following, text = mark :: following ∧ Mark mark
  · obtain ⟨mark, following, rfl, known⟩ := marked
    rw [opens mark following known] at front ⊢
    change reader (mark :: ((inner mark following).taken ++ shorter)) = _
    rw [opens mark _ known, innerLocal mark known following shorter front]
    rfl
  · have plain : ∀ c ∈ text.head?, ¬ Mark c := by
      intro c head known
      obtain ⟨following, rfl⟩ := List.head?_eq_some_iff.mp head
      exact marked ⟨c, following, rfl, known⟩
    rw [skips text plain] at front ⊢
    have stillPlain : ∀ c ∈ ((other text).taken ++ shorter).head?, ¬ Mark c :=
      fun c head => plain c (head?_of_front ((covers text).front front) c head)
    rw [skips _ stillPlain, otherLocal text shorter front]

/-- A construct that takes the whole text unless it is closed is local if all of its closed ones are. -/
theorem of_closed (covers : ∀ text, (reader text).Covers text)
    (unfinished : ∀ text, (reader text).complete = false → (reader text).rest = [])
    (closed : ∀ text more, (reader text).complete = true →
      reader ((reader text).taken ++ more) = ⟨⟨(reader text).taken, more⟩, true⟩) : Local reader := by
  intro text shorter front
  cases complete : (reader text).complete with
  | true => exact closed text shorter complete
  | false =>
    have whole : (reader text).taken ++ (reader text).rest = text := covers text
    have ended := unfinished text complete
    rw [ended] at front whole
    obtain rfl := List.prefix_nil.mp front
    rw [whole, ← complete, ← ended]

end Tail.Local

namespace ScriptLine

private theorem bigMark_local : Cut.Local bigMark := by
  refine Tail.Local.marked (fun c => c = 'n') (fun _ text => ⟨Cut.none text, true⟩)
    (fun text => ⟨Cut.none text, true⟩) ?_ ?_ (fun _ _ => Cut.none_local) Cut.none_local Cut.none_covers
  · rintro _ following rfl
    rfl
  · intro text plain
    unfold bigMark
    split
    next => exact absurd rfl (plain 'n' rfl)
    next => rfl

private theorem fraction_local : Cut.Local fraction := by
  refine Tail.Local.marked (fun c => c = '.') (fun _ text => ⟨Cut.run Char.isDigit text, true⟩)
    (fun text => ⟨Cut.none text, true⟩) ?_ ?_ (fun _ _ => Cut.run_local _) Cut.none_local Cut.none_covers
  · rintro _ following rfl
    rfl
  · intro text plain
    unfold fraction
    split
    next => exact absurd rfl (plain '.' rfl)
    next => rfl

private theorem signedDigits_local : Cut.Local signedDigits := by
  refine Tail.Local.marked (fun c => c = '+' ∨ c = '-') (fun _ text => ⟨Cut.run Char.isDigit text, true⟩)
    (fun text => ⟨Cut.run Char.isDigit text, true⟩) ?_ ?_ (fun _ _ => Cut.run_local _) (Cut.run_local _)
    (Cut.run_covers _)
  · rintro _ following (rfl | rfl) <;> rfl
  · intro text plain
    unfold signedDigits
    split
    next => exact absurd (Or.inl rfl) (plain '+' rfl)
    next => exact absurd (Or.inr rfl) (plain '-' rfl)
    next => rfl

private theorem exponent_local : Cut.Local exponent := by
  refine Tail.Local.marked (fun c => c = 'e' ∨ c = 'E') (fun _ text => ⟨signedDigits text, true⟩)
    (fun text => ⟨Cut.none text, true⟩) ?_ ?_ (fun _ _ => signedDigits_local) Cut.none_local Cut.none_covers
  · rintro _ following (rfl | rfl) <;> rfl
  · intro text plain
    unfold exponent
    split
    next => exact absurd (Or.inl rfl) (plain 'e' rfl)
    next => exact absurd (Or.inr rfl) (plain 'E' rfl)
    next => rfl

private theorem decimalTail_local (first : Char) : Cut.Local (decimalTail first) := by
  have whole : Cut.Local fun text =>
      if first = '.' then Cut.run Char.isDigit text else (separated Char.isDigit text).followedBy fraction := by
    split
    · exact Cut.run_local _
    · exact Tail.Local.followedBy (Cut.run_local _) fraction_local fraction_covers
  exact Tail.Local.followedBy (Tail.Local.followedBy whole exponent_local exponent_covers) bigMark_local bigMark_covers

theorem numberTail_unmarked {first : Char} {text : List Char}
    (plain : ∀ c ∈ text.head?, ¬ (first = '0' ∧ (radixDigit? c).isSome)) : numberTail first text = decimalTail first text := by
  unfold numberTail
  split
  next mark following =>
    have unmarked : (if first = '0' then radixDigit? mark else none) = none := by
      have other := plain mark rfl
      split
      next zero => simpa [zero] using other
      next => rfl
    rw [unmarked]
  next =>
    unfold decimalTail
    split <;> rfl

theorem numberTail_marked {mark : Char} {digit : Char → Bool} (found : radixDigit? mark = some digit) (following : List Char) :
    numberTail '0' (mark :: following) = ((separated digit following).push mark).followedBy bigMark := by
  simp only [numberTail, if_true, found]

private theorem numberTail_local (first : Char) : Cut.Local (numberTail first) := by
  refine Tail.Local.marked (fun c => first = '0' ∧ (radixDigit? c).isSome)
    (fun mark text => ⟨(separated ((radixDigit? mark).getD Char.isDigit) text).followedBy bigMark, true⟩)
    (fun text => ⟨decimalTail first text, true⟩) ?_ ?_ ?_ (decimalTail_local first) (decimalTail_covers first)
  · rintro mark following ⟨rfl, known⟩
    obtain ⟨digit, found⟩ := Option.isSome_iff_exists.mp known
    simp only [numberTail_marked found, found, Option.getD_some]
    rfl
  · exact fun text plain => congrArg (fun cut => (⟨cut, true⟩ : Tail)) (numberTail_unmarked plain)
  · exact fun mark _ => Tail.Local.followedBy (Cut.run_local _) bigMark_local bigMark_covers

private theorem quotedTail_local {quote : Char} (escapes : '\\' ≠ quote) : Tail.Local (quotedTail quote) := by
  refine Tail.Local.of_closed (quotedTail_covers quote) (fun _ => quotedTail_rest) ?_
  intro text more complete
  obtain ⟨body, valid, taken⟩ := quotedTail_closed complete
  rw [taken, List.append_assoc, List.singleton_append, quotedTail_body escapes valid]

private theorem commentTail_local : Tail.Local commentTail := by
  refine Tail.Local.of_closed commentTail_covers (fun _ => commentTail_rest) ?_
  intro text more complete
  fun_induction commentTail text with
  | case1 => cases complete
  | case2 => rfl
  | case3 c following unclosed ih =>
    -- the mark begins with what was taken or not at all, since what was taken ends with another mark
    have inside : ¬ ['*', '/'] <+: c :: ((commentTail following).taken ++ more) := by
      rintro ⟨rest, same⟩
      obtain ⟨body, taken, -⟩ := commentTail_closed complete
      have covers : (commentTail following).taken ++ (commentTail following).rest = following := commentTail_covers following
      rw [taken] at same covers
      cases body with
      | nil => cases same
      | cons d body =>
        cases same
        exact unclosed _ rfl covers.symm
    change commentTail (c :: ((commentTail following).taken ++ more)) = _
    rw [commentTail_cons inside, ih complete]
    rfl

private theorem munch?_alone {table : OperatorTable} {first : Char} {following tail : List Char}
    (found : table.munch? first following = some tail) : table.munch? first tail = some tail := by
  obtain ⟨fits, before, after, split, others⟩ := List.find?_eq_some_iff_append.mp found
  refine List.find?_eq_some_iff_append.mpr ⟨by simp, before, after, split, ?_⟩
  intro other member
  have apart := others other member
  simp only [Bool.not_eq_true', Bool.eq_false_iff, ne_eq, List.isPrefixOf_iff_prefix] at apart fits ⊢
  exact fun shorter => apart (shorter.trans fits)

private theorem munch?_none {table : OperatorTable} {first : Char} {following : List Char}
    (found : table.munch? first following = none) : table.munch? first [] = none := by
  have others := List.find?_eq_none.mp found
  refine List.find?_eq_none.mpr fun other member => ?_
  have apart := others other member
  simp only [List.isPrefixOf_iff_prefix] at apart ⊢
  exact fun shorter => apart (shorter.trans List.nil_prefix)

end ScriptLine

/-- What is read of a text is read alike where nothing follows it. -/
def Reading.Lone (read : List Char → Reading) : Prop :=
  ∀ following, ∃ left, read (read following).body.taken = ⟨(read following).kind, ⟨(read following).body.taken, []⟩, left⟩

/-- A local reader is told the kind of a token by what it takes. -/
theorem Reading.lone_of_local {reader : List Char → Tail} (readerLocal : Tail.Local reader)
    (kind : List Char → Bool → Option TokenKind) (carry : Bool → Carry) :
    Reading.Lone fun text => ⟨kind (reader text).taken (reader text).complete, (reader text).toCut, carry (reader text).complete⟩ := by
  intro following
  dsimp only
  rw [readerLocal.alone following]
  exact ⟨_, rfl⟩

namespace ScriptLine

private theorem operator_lone (first : Char) : Reading.Lone (operator first) := by
  intro following
  cases found : scriptOperators.munch? first following with
  | some tail =>
    simp [operator, OperatorTable.read, found, munch?_alone found]
  | none =>
    simp [operator, OperatorTable.read, found, munch?_none found, Cut.none]

private theorem hash_lone : Reading.Lone hash := by
  intro following
  cases following with
  | nil => exact ⟨_, rfl⟩
  | cons c others =>
    by_cases letter : c.isAlpha = true
    · have named (text : List Char) :
          hash (c :: text) = ⟨some .identifier, (Cut.run isNamePart text).push c, .neutral⟩ := if_pos letter
      have alone := named (Cut.run isNamePart others).taken
      rw [(Cut.run_local isNamePart).alone] at alone
      rw [named others]
      exact ⟨_, alone⟩
    · have bare : hash (c :: others) = ⟨some .error, Cut.none (c :: others), .neutral⟩ := if_neg letter
      rw [bare]
      exact ⟨_, rfl⟩

private theorem tails_slash : scriptOperators.tails '/' = [['='], []] := by decide +kernel

private theorem slash_assigns (following : List Char) :
    slash ('=' :: following) = ⟨some .operator, ⟨['='], following⟩, .neutral⟩ := by
  have munched : scriptOperators.munch? '/' ('=' :: following) = some ['='] := by
    rw [OperatorTable.munch?, tails_slash]
    rfl
  change operator '/' ('=' :: following) = _
  rw [operator, OperatorTable.read, munched]
  rfl

private theorem slash_comments (inside : List Char) :
    slash ('*' :: inside) =
      ⟨some .comment, (commentTail inside).toCut.push '*', ⟨!(commentTail inside).complete, false⟩⟩ := rfl

private theorem slash_lone : Reading.Lone slash := by
  intro following
  by_cases plain : PlainSlash following
  · by_cases closes : ∃ body rest, RegexBody body ∧ following = body ++ '/' :: rest
    · obtain ⟨body, rest, valid, rfl⟩ := closes
      have alonePlain : PlainSlash (body ++ '/' :: rest.takeWhile isRegexFlag) := by
        have front : body ++ '/' :: rest.takeWhile isRegexFlag <+: body ++ '/' :: rest :=
          (List.prefix_append_right_inj body).mpr (List.cons_prefix_cons.mpr ⟨rfl, List.takeWhile_prefix _⟩)
        exact fun c head => plain c (head?_of_front front c head)
      have flags := (Cut.run_local isRegexFlag).alone rest
      simp only [Cut.run, Cut.mk.injEq] at flags
      have alone := slash_regexp valid alonePlain
      rw [flags.1, flags.2] at alone
      rw [slash_regexp valid plain]
      exact ⟨_, alone⟩
    · rw [slash_divides plain fun body rest valid same => closes ⟨body, rest, valid, same⟩]
      exact ⟨_, rfl⟩
  · obtain ⟨inside, rfl | rfl | rfl⟩ : ∃ inside, following = '=' :: inside ∨ following = '/' :: inside ∨ following = '*' :: inside := by
      cases following with
      | nil => exact absurd (fun c head => absurd head (Option.not_mem_none c)) plain
      | cons c inside =>
        refine ⟨inside, ?_⟩
        apply Classical.byContradiction
        intro other
        simp only [List.cons.injEq, and_true, not_or] at other
        refine plain fun d head => ?_
        cases head
        exact other
    · rw [slash_assigns]
      exact ⟨_, slash_assigns []⟩
    · exact ⟨_, rfl⟩
    · have alone := slash_comments (commentTail inside).taken
      rw [commentTail_local.alone] at alone
      rw [slash_comments]
      exact ⟨_, alone⟩

private theorem beginsWithDigit_iff (text : List Char) :
    beginsWithDigit text = true ↔ ∃ c ∈ text.head?, c.isDigit = true := by
  cases text <;> simp [beginsWithDigit]

private theorem dot_lone (words : Vocabulary) : Reading.Lone (read words '.') := by
  intro following
  have same (text : List Char) : read words '.' text =
      if beginsWithDigit text then ⟨some .number, numberTail '.' text, .neutral⟩ else operator '.' text := rfl
  by_cases digit : beginsWithDigit following = true
  · have number : read words '.' following = ⟨some .number, numberTail '.' following, .neutral⟩ := (same _).trans (if_pos digit)
    have stillDigit : beginsWithDigit (numberTail '.' following).taken = true := by
      obtain ⟨d, head, isDigit⟩ := (beginsWithDigit_iff following).mp digit
      obtain ⟨others, rfl⟩ := List.head?_eq_some_iff.mp head
      simp [numberTail, decimalTail, Cut.run, Cut.followedBy, beginsWithDigit, isDigit]
    have alone := (same (numberTail '.' following).taken).trans (if_pos stillDigit)
    rw [(numberTail_local '.').alone] at alone
    rw [number]
    exact ⟨_, alone⟩
  · have other : read words '.' following = operator '.' following := (same _).trans (if_neg digit)
    have front : (operator '.' following).body.taken <+: following := ⟨_, operator_covers '.' following⟩
    have stillOther : ¬ beginsWithDigit (operator '.' following).body.taken = true := by
      intro begins
      obtain ⟨d, head, isDigit⟩ := (beginsWithDigit_iff _).mp begins
      exact digit ((beginsWithDigit_iff following).mpr ⟨d, head?_of_front front d head, isDigit⟩)
    obtain ⟨left, alone⟩ := operator_lone '.' following
    rw [other, same, if_neg stillOther]
    exact ⟨left, alone⟩

private theorem read_lone (words : Vocabulary) (c : Char) : Reading.Lone (read words c) := by
  by_cases space : isSpace c = true
  · have same : read words c = fun text => ⟨none, Cut.run isSpace text, .neutral⟩ := funext fun _ => if_pos space
    rw [same]
    exact Reading.lone_of_local (Cut.run_local isSpace) (fun _ _ => none) fun _ => .neutral
  by_cases name : isNameStart c = true
  · have same : read words c = ScriptLine.name words c := funext fun _ => (if_neg space).trans (if_pos name)
    rw [same]
    exact Reading.lone_of_local (Cut.run_local isNamePart) (fun taken _ => some (words.kindOf (c :: taken))) fun _ => .neutral
  by_cases digit : c.isDigit = true
  · have same : read words c = fun text => ⟨some .number, numberTail c text, .neutral⟩ :=
      funext fun _ => (if_neg space).trans ((if_neg name).trans (if_pos digit))
    rw [same]
    exact Reading.lone_of_local (numberTail_local c) (fun _ _ => some .number) fun _ => .neutral
  by_cases quote : IsQuote c
  · have same : read words c = quoted c := funext (read_quote words quote)
    rw [same]
    exact Reading.lone_of_local (quotedTail_local quote.ne_backslash) (fun _ _ => some .string)
      fun complete => ⟨false, c == '\x60' && !complete⟩
  by_cases dot : c = '.'
  · subst dot
    exact dot_lone words
  by_cases slash : c = '/'
  · subst slash
    exact slash_lone
  by_cases hash : c = '#'
  · subst hash
    exact hash_lone
  · have same : read words c = operator c := by
      funext text
      simp only [IsQuote, not_or] at quote
      simp [read, space, name, digit, quote, dot, slash, hash]
    rw [same]
    exact operator_lone c

private theorem not_isHashbang_read (words : Vocabulary) (c : Char) (following : List Char) :
    ¬ IsHashbang (c :: (read words c following).body.taken) := by
  rintro ⟨rest, same⟩
  obtain ⟨rfl, marked⟩ := List.cons.inj same
  change '!' :: rest = (hash following).body.taken at marked
  unfold hash at marked
  split at marked
  next d others =>
    split at marked
    next letter =>
      obtain ⟨rfl, -⟩ := List.cons.inj marked
      cases letter
    next => cases marked
  next => cases marked

end ScriptLine

namespace JsonLine

private theorem digits_local : Tail.Local digits := by
  intro text shorter front
  have run : Cut.run Char.isDigit ((digits text).taken ++ shorter) = ⟨(digits text).taken, shorter⟩ :=
    congrArg Tail.toCut (Cut.run_local Char.isDigit text shorter front)
  exact congrArg (fun cut => (⟨cut, !cut.taken.isEmpty⟩ : Tail)) run

private theorem fraction_local : Tail.Local fraction := by
  refine Tail.Local.marked (fun c => c = '.') (fun _ => digits)
    (fun text => ⟨Cut.none text, true⟩) ?_ ?_ (fun _ _ => digits_local) Cut.none_local Cut.none_covers
  · rintro _ following rfl
    rfl
  · intro text plain
    unfold fraction
    split
    next => exact absurd rfl (plain '.' rfl)
    next => rfl

private theorem signedDigits_local : Tail.Local signedDigits := by
  refine Tail.Local.marked (fun c => c = '+' ∨ c = '-') (fun _ => digits) digits ?_ ?_
    (fun _ _ => digits_local) digits_local digits_covers
  · rintro _ following (rfl | rfl) <;> rfl
  · intro text plain
    unfold signedDigits
    split
    next => exact absurd (Or.inl rfl) (plain '+' rfl)
    next => exact absurd (Or.inr rfl) (plain '-' rfl)
    next => rfl

private theorem exponent_local : Tail.Local exponent := by
  refine Tail.Local.marked (fun c => c = 'e' ∨ c = 'E') (fun _ => signedDigits)
    (fun text => ⟨Cut.none text, true⟩) ?_ ?_ (fun _ _ => signedDigits_local) Cut.none_local Cut.none_covers
  · rintro _ following (rfl | rfl) <;> rfl
  · intro text plain
    unfold exponent
    split
    next => exact absurd (Or.inl rfl) (plain 'e' rfl)
    next => exact absurd (Or.inr rfl) (plain 'E' rfl)
    next => rfl

private theorem broken_local : Tail.Local fun text => ⟨Cut.none text, false⟩ := fun _ _ _ => rfl

private theorem numberTail_local (leading : Char) : Tail.Local (numberTail leading) := by
  have partsLocal : Tail.Local fun text => ((⟨Cut.run Char.isDigit text, true⟩ : Tail).followedBy fraction).followedBy exponent :=
    Tail.Local.followedBy (Tail.Local.followedBy (Cut.run_local _) fraction_local fraction_covers) exponent_local exponent_covers
  refine Tail.Local.marked (fun c => leading = '0' ∧ c.isDigit = true)
    (fun _ text => ⟨Cut.none text, false⟩) _ ?_ ?_ (fun _ _ => broken_local) partsLocal ?_
  · rintro c following ⟨rfl, digit⟩
    exact if_pos digit
  · intro text plain
    exact numberTail_eq fun zero c head => Bool.eq_false_iff.mpr fun digit => plain c head ⟨zero, digit⟩
  · exact fun text => Tail.followedBy_covers (Tail.followedBy_covers (Cut.run_covers _ _) fraction_covers) exponent_covers

private theorem negativeTail_local : Tail.Local negativeTail := by
  refine Tail.Local.marked (fun c => c.isDigit = true) numberTail
    (fun text => ⟨Cut.none text, false⟩) ?_ ?_ (fun c _ => numberTail_local c) broken_local Cut.none_covers
  · intro c following digit
    exact if_pos digit
  · intro text plain
    unfold negativeTail
    split
    next c following => exact if_neg (plain c rfl)
    next => rfl

def Quad (text : List Char) : Prop :=
  ∃ a b c d rest, text = a :: b :: c :: d :: rest ∧ (isHexDigit a && isHexDigit b && isHexDigit c && isHexDigit d) = true

theorem Quad.of_front {shorter text : List Char} (quad : Quad shorter) (front : shorter <+: text) : Quad text := by
  obtain ⟨a, b, c, d, rest, rfl, hex⟩ := quad
  obtain ⟨others, rfl⟩ := front
  exact ⟨a, b, c, d, rest ++ others, rfl, hex⟩

private theorem stringTail_broken {c : Char} {following : List Char} (unknown : ¬ isSimpleEscape c = true)
    (noQuad : c = 'u' → ¬ Quad following) : stringTail ('\\' :: c :: following) = ⟨⟨['\\', c], following⟩, false⟩ := by
  unfold stringTail
  split
  case h_4 same =>
    cases same
    exact if_neg fun hex => noQuad rfl ⟨_, _, _, _, _, rfl, hex⟩
  case h_5 same =>
    cases same
    exact if_neg unknown
  case h_6 noEscape same =>
    cases same
    exact absurd rfl (noEscape c following rfl)
  all_goals
    next same => cases same

private theorem stringTail_local : Tail.Local stringTail := by
  intro text shorter front
  fun_induction stringTail text with
  | case1 =>
    obtain rfl := List.prefix_nil.mp front
    rfl
  | case2 => rfl
  | case3 =>
    obtain rfl := List.prefix_nil.mp front
    rfl
  | case4 a b c d following hex ih =>
    change stringTail ('\\' :: 'u' :: a :: b :: c :: d :: ((stringTail following).taken ++ shorter)) = _
    rw [stringTail, if_pos hex, ih front]
    rfl
  | case5 a b c d following broken =>
    refine stringTail_broken (by decide) fun _ quad => ?_
    obtain ⟨a, b, c, d, rest, same, hex⟩ := quad.of_front front
    cases same
    exact broken hex
  | case6 c following _ known ih =>
    change stringTail ('\\' :: c :: ((stringTail following).taken ++ shorter)) = _
    rw [stringTail_escape known, ih front]
    rfl
  | case7 c following noQuad unknown =>
    refine stringTail_broken unknown fun letter quad => ?_
    obtain ⟨a, b, c, d, rest, same, -⟩ := quad.of_front front
    exact noQuad a b c d rest letter same
  | case8 c following quote ended _ escaped ih =>
    have backslash : c ≠ '\\' := by
      intro same
      cases following with
      | nil => exact ended same rfl
      | cons d others => exact escaped d others same rfl
    change stringTail (c :: ((stringTail following).taken ++ shorter)) = _
    rw [stringTail_plain quote backslash, ih front]
    rfl

private theorem read_lone (c : Char) : Reading.Lone (read c) := by
  by_cases space : isSpace c = true
  · have same : read c = fun text => ⟨none, Cut.run isSpace text, .neutral⟩ := funext fun _ => if_pos space
    rw [same]
    exact Reading.lone_of_local (Cut.run_local isSpace) (fun _ _ => none) fun _ => .neutral
  have ofTail_lone (kind : TokenKind) {reader : List Char → Tail} (readerLocal : Tail.Local reader) :
      Reading.Lone fun text => ofTail kind (reader text) :=
    Reading.lone_of_local readerLocal (fun _ complete => some (if complete then kind else .error)) fun _ => .neutral
  by_cases quote : (c == '"') = true
  · have same : read c = fun text => ofTail .string (stringTail text) :=
      funext fun _ => (if_neg space).trans (if_pos quote)
    rw [same]
    exact ofTail_lone .string stringTail_local
  by_cases mark : isPunctuation c = true
  · have same : read c = fun text => ⟨some .operator, Cut.none text, .neutral⟩ :=
      funext fun _ => (if_neg space).trans ((if_neg quote).trans (if_pos mark))
    rw [same]
    exact Reading.lone_of_local Cut.none_local (fun _ _ => some .operator) fun _ => .neutral
  by_cases minus : (c == '-') = true
  · have same : read c = fun text => ofTail .number (negativeTail text) :=
      funext fun _ => (if_neg space).trans ((if_neg quote).trans ((if_neg mark).trans (if_pos minus)))
    rw [same]
    exact ofTail_lone .number negativeTail_local
  by_cases digit : c.isDigit = true
  · have same : read c = fun text => ofTail .number (numberTail c text) := funext (read_digit digit)
    rw [same]
    exact ofTail_lone .number (numberTail_local c)
  · have same : read c = fun text => ⟨some (if literals.contains (c :: (Cut.run Char.isAlpha text).taken) then .keyword else .error),
        Cut.run Char.isAlpha text, .neutral⟩ := by
      funext text
      simp [read, space, quote, mark, minus, digit]
    rw [same]
    exact Reading.lone_of_local (Cut.run_local Char.isAlpha)
      (fun taken _ => some (if literals.contains (c :: taken) then .keyword else .error)) fun _ => .neutral

end JsonLine

/-- If nothing behind a place decides what is read there, then each lexeme is read again from its own text. -/
theorem Reader.lexemes_lone {reader : Reader} (lone : ∀ c, Reading.Lone (reader.read c)) (c : Char) (following : List Char) :
    (reader.lexemes (c :: (reader.read c following).body.taken)).1 =
      [⟨(reader.read c following).kind, c :: (reader.read c following).body.taken⟩] := by
  obtain ⟨left, alone⟩ := lone c following
  rw [lexemes, scan_cons, alone, scan]

theorem JsonLine.lexemes_lone (line : List Char) : ∀ lexeme ∈ lexemes line, lexemes lexeme.text = [lexeme] :=
  reader.scan_each .neutral line (Reader.lexemes_lone read_lone)

namespace ScriptLine

private theorem code_lone (words : Vocabulary) (text : List Char) :
    ∀ lexeme ∈ (code words true text).1, (code words true lexeme.text).1 = [lexeme] := by
  by_cases hashbang : IsHashbang text
  · rw [code_hashbang words hashbang]
    exact List.forall_mem_singleton.mpr (by rw [code_hashbang words hashbang])
  · rw [code_eq_lexemes words (Or.inr hashbang)]
    refine @Reader.scan_each (reader words) (fun lexeme => (code words true lexeme.text).1 = [lexeme]) .neutral text ?_
    intro c following
    have plain := @code_eq_lexemes words true _ (Or.inr (not_isHashbang_read words c following))
    exact (congrArg Prod.fst plain).trans (Reader.lexemes_lone (read_lone words) c following)

end ScriptLine

namespace Scanner

def start : Scanner → ScannerState
  | json => .json
  | script _ => .script .neutral

def lexemes : Scanner → List Char → List Lexeme
  | json, line => JsonLine.lexemes line
  | script words, line => (ScriptLine.lexemes words true .neutral line).1

private theorem lexemes_lone (scanner : Scanner) (line : List Char) :
    ∀ lexeme ∈ scanner.lexemes line, scanner.lexemes lexeme.text = [lexeme] := by
  cases scanner with
  | json => exact JsonLine.lexemes_lone line
  | script words =>
    simp only [lexemes, ScriptLine.lexemes_eq_code words true (rfl : Carry.neutral.isOpen = false)]
    exact ScriptLine.code_lone words line

/-- A session that has scanned nothing yet places the lexemes of its line at the line's beginning. -/
theorem scan_new (scanner : Scanner) (previous : Option ScannerState) (neutral : ∀ state ∈ previous, state = scanner.start)
    (line : List Char) :
    ∃ session last, ({ scanner := scanner } : Session).scan previous line = .ok (session, last) ∧
      session.tokens = place 0 (scanner.lexemes line) := by
  cases scanner with
  | json => exact ⟨_, _, rfl, rfl⟩
  | script words =>
    cases previous with
    | none => exact ⟨_, _, rfl, rfl⟩
    | some state =>
      obtain rfl := neutral state rfl
      exact ⟨_, _, rfl, rfl⟩

end Scanner

/-- Each token of a line that begins in a neutral state is what a new session makes of the token's text
alone, an erroneous one too. -/
theorem tokens_delimit_themselves (scanner : Scanner) (previous : Option ScannerState)
    (neutral : ∀ state ∈ previous, state = scanner.start) (line : List Char) :
    ∃ session last, ({ scanner := scanner } : Session).scan previous line = .ok (session, last) ∧
      ∀ token ∈ session.tokens, ∃ alone left,
        ({ scanner := scanner } : Session).scan none token.text = .ok (alone, left) ∧
          alone.tokens = [⟨token.kind, token.text, 0⟩] := by
  obtain ⟨session, last, scanned, tokens⟩ := scanner.scan_new previous neutral line
  refine ⟨session, last, scanned, fun token member => ?_⟩
  rw [tokens] at member
  obtain ⟨before, after, split, -⟩ := exists_of_mem_place member
  obtain ⟨alone, left, scannedAlone, aloneTokens⟩ := scanner.scan_new none nofun token.text
  refine ⟨alone, left, scannedAlone, ?_⟩
  have lone := scanner.lexemes_lone line ⟨some token.kind, token.text⟩ (by rw [split]; simp)
  rw [aloneTokens, lone]
  rfl

/-- The second slash decides that the first one begins a regular expression, and belongs to it. -/
theorem tokens_delimit_themselves_slash :
    (∀ state ∈ some (ScannerState.script .neutral), state = (Scanner.script .javascript).start) ∧
    ∃ session last,
      ({ scanner := .script .javascript } : Session).scan (some (.script .neutral)) "1./2/*".toList = .ok (session, last) ∧
        session.tokens = [⟨.number, "1.".toList, 0⟩, ⟨.regexp, "/2/".toList, 2⟩, ⟨.operator, ['*'], 5⟩] ∧
        ∀ token ∈ session.tokens, ∃ alone left,
          ({ scanner := .script .javascript } : Session).scan none token.text = .ok (alone, left) ∧
            alone.tokens = [⟨token.kind, token.text, 0⟩] := by
  have neutral : ∀ state ∈ some (ScannerState.script .neutral), state = (Scanner.script .javascript).start := by
    rintro state ⟨⟩
    rfl
  have tokens : place 0 ((Scanner.script .javascript).lexemes "1./2/*".toList) =
      [⟨.number, "1.".toList, 0⟩, ⟨.regexp, "/2/".toList, 2⟩, ⟨.operator, ['*'], 5⟩] := by decide +kernel
  obtain ⟨session, last, scanned, placed⟩ := (Scanner.script .javascript).scan_new _ neutral "1./2/*".toList
  obtain ⟨same, left, again, each⟩ := tokens_delimit_themselves (.script .javascript) _ neutral "1./2/*".toList
  obtain ⟨rfl, -⟩ := Prod.mk.inj (Except.ok.inj (scanned.symm.trans again))
  exact ⟨neutral, session, last, scanned, placed.trans tokens, each⟩

end Highlight.Scan
