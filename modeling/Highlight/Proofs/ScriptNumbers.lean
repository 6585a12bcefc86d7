import Highlight.Proofs.LoneTokens

/-! Numbers of scripts. In every part of a number separators may stand between the digits, and the rules
below say so. The scanner looks for separators in the whole part only: it takes a number for one token
unless a separator stands behind the point or the exponent mark, and there it stops. -/

namespace Highlight

namespace ScriptText

def decimal : List Char := "0123456789".toList

def hexadecimal : List Char := "0123456789abcdefABCDEF".toList

def octal : List Char := "01234567".toList

def binary : List Char := "01".toList

/-- Digits of an alphabet. Where separators are allowed, one may stand between two digits. -/
inductive Digits (alphabet : List Char) (separators : Bool) : List Char → Prop
  | single {d : Char} (known : d ∈ alphabet) : Digits alphabet separators [d]
  | next {d : Char} {rest : List Char} (known : d ∈ alphabet) (later : Digits alphabet separators rest) :
      Digits alphabet separators (d :: rest)
  | separated {d : Char} {rest : List Char} (allowed : separators = true) (known : d ∈ alphabet)
      (later : Digits alphabet separators rest) : Digits alphabet separators (d :: '_' :: rest)

inductive Integer : List Char → Prop
  | zero : Integer ['0']
  | leading {d : Char} {rest : List Char} (other : d ≠ '0') (digits : Digits decimal true (d :: rest)) : Integer (d :: rest)

inductive Prefixed : List Char → Prop
  | hexadecimal {mark : Char} {text : List Char} (known : mark = 'x' ∨ mark = 'X') (digits : Digits hexadecimal true text) :
      Prefixed ('0' :: mark :: text)
  | octal {mark : Char} {text : List Char} (known : mark = 'o' ∨ mark = 'O') (digits : Digits octal true text) :
      Prefixed ('0' :: mark :: text)
  | binary {mark : Char} {text : List Char} (known : mark = 'b' ∨ mark = 'B') (digits : Digits binary true text) :
      Prefixed ('0' :: mark :: text)

/-- What can stand before a point. Older scripts put a zero before digits that are not all octal. -/
inductive Whole : List Char → Prop
  | integer {text : List Char} (spelled : Integer text) : Whole text
  | padded {text : List Char} (digits : Digits decimal false text) (high : ∃ d ∈ text, d ∉ octal) : Whole ('0' :: text)

inductive Fraction (separators : Bool) : List Char → Prop
  | none : Fraction separators []
  | bare : Fraction separators ['.']
  | point {text : List Char} (digits : Digits decimal separators text) : Fraction separators ('.' :: text)

inductive Exponent (separators : Bool) : List Char → Prop
  | none : Exponent separators []
  | plain {e : Char} {text : List Char} (mark : e = 'e' ∨ e = 'E') (digits : Digits decimal separators text) :
      Exponent separators (e :: text)
  | signed {e sign : Char} {text : List Char} (mark : e = 'e' ∨ e = 'E') (known : sign = '+' ∨ sign = '-')
      (digits : Digits decimal separators text) : Exponent separators (e :: sign :: text)

/-- A numeric literal. Behind the point and the exponent mark there are separators only if `late` allows
for them. A zero before octal digits is the older spelling of an octal number. -/
inductive Numeral (late : Bool) : List Char → Prop
  | parts {whole fraction exponent : List Char} (first : Whole whole) (second : Fraction late fraction)
      (third : Exponent late exponent) : Numeral late (whole ++ (fraction ++ exponent))
  | point {digits exponent : List Char} (first : Digits decimal late digits) (second : Exponent late exponent) :
      Numeral late ('.' :: (digits ++ exponent))
  | padded {text : List Char} (digits : Digits octal false text) : Numeral late ('0' :: text)
  | marked {text : List Char} (spelled : Prefixed text) : Numeral late text
  | big {text : List Char} (spelled : Integer text ∨ Prefixed text) : Numeral late (text ++ ['n'])

def Pointed (text : List Char) : Prop := ∃ c ∈ text, c = '.' ∨ c = 'e' ∨ c = 'E'

variable {alphabet text rest : List Char} {late separators : Bool}

theorem Digits.members (digits : Digits alphabet separators text) : ∀ c ∈ text, c ∈ alphabet ∨ c = '_' := by
  induction digits with
  | single known => exact List.forall_mem_singleton.mpr (Or.inl known)
  | next known _ ih => exact List.forall_mem_cons.mpr ⟨Or.inl known, ih⟩
  | separated _ known _ ih => exact List.forall_mem_cons.mpr ⟨Or.inl known, List.forall_mem_cons.mpr ⟨Or.inr rfl, ih⟩⟩

theorem Digits.plain (digits : Digits alphabet false text) : ∀ c ∈ text, c ∈ alphabet := by
  induction digits with
  | single known => exact List.forall_mem_singleton.mpr known
  | next known _ ih => exact List.forall_mem_cons.mpr ⟨known, ih⟩
  | separated allowed => cases allowed

theorem Digits.begins (digits : Digits alphabet separators text) : ∃ d others, text = d :: others ∧ d ∈ alphabet := by
  cases digits with
  | single known | next known | separated _ known => exact ⟨_, _, rfl, known⟩

private theorem isDigit_of_decimal : ∀ c ∈ decimal, c.isDigit = true := List.all_eq_true.mp rfl

private theorem zero_decimal : '0' ∈ decimal := List.contains_iff_mem.mp rfl

private theorem decimal_of_octal : ∀ c ∈ octal, c ∈ decimal :=
  fun c member => List.contains_iff_mem.mp (List.all_eq_true.mp (rfl : octal.all decimal.contains = true) c member)

end ScriptText

namespace Scan.ScriptLine
open ScriptText

variable {alphabet text rest more : List Char} {late : Bool}

/-- A reader that looks for no separator can leave something only if separators are allowed, and then it
stops at one. -/
def Stops (late : Bool) (left : List Char) : Prop := ∀ c ∈ left.head?, late = true ∧ c = '_'

theorem Stops.nil : Stops late [] := nofun

theorem Stops.cases (stops : Stops late rest) : rest = [] ∨ late = true ∧ ∃ others, rest = '_' :: others := by
  cases rest with
  | nil => exact Or.inl rfl
  | cons c others =>
    obtain ⟨allowed, rfl⟩ := stops c rfl
    exact Or.inr ⟨allowed, others, rfl⟩

/-- A reader that looks for separators takes all of a whole part. -/
theorem separated_digits {digit : Char → Bool} (members : ∀ c ∈ text, c ∈ alphabet ∨ c = '_')
    (known : ∀ d ∈ alphabet, digit d = true) (outside : ∀ c ∈ rest.head?, digit c = false ∧ c ≠ '_') :
    separated digit (text ++ rest) = ⟨text, rest⟩ := by
  refine Cut.run_append ?_ ?_
  · intro c member
    rcases members c member with digit | rfl
    · rw [known c digit, Bool.true_or]
    · exact Bool.or_true _
  · intro c head
    rw [(outside c head).1, Bool.false_or, beq_eq_false_iff_ne]
    exact (outside c head).2

private theorem run_digits (digits : Digits decimal late text) (outside : ∀ c ∈ more.head?, c.isDigit = false) :
    ∃ taken left, taken ++ left = text ∧ Digits decimal false taken ∧ Stops late left ∧
      Cut.run Char.isDigit (text ++ more) = ⟨taken, left ++ more⟩ := by
  obtain ⟨taken, left, whole, plain, stops⟩ :
      ∃ taken left, taken ++ left = text ∧ Digits decimal false taken ∧ Stops late left := by
    induction digits with
    | single known => exact ⟨_, [], rfl, .single known, .nil⟩
    | @next d rest known _ ih =>
      obtain ⟨taken, left, rfl, plain, stops⟩ := ih
      exact ⟨d :: taken, left, rfl, .next known plain, stops⟩
    | @separated d rest allowed known =>
      refine ⟨[d], '_' :: rest, rfl, .single known, fun c head => ?_⟩
      cases head
      exact ⟨allowed, rfl⟩
  refine ⟨taken, left, whole, plain, stops, ?_⟩
  rw [← whole, List.append_assoc]
  refine Cut.run_append (fun c member => isDigit_of_decimal c (plain.plain c member)) ?_
  rcases stops.cases with rfl | ⟨-, others, rfl⟩
  · exact outside
  · intro c head
    cases head
    rfl

private theorem fraction_stops (spelled : Fraction late text) (behind : ∀ c ∈ more.head?, c = 'e' ∨ c = 'E') :
    ∃ taken left, taken ++ left = text ∧ Fraction false taken ∧ Stops late left ∧ (left ≠ [] → Pointed taken) ∧
      fraction (text ++ more) = ⟨taken, left ++ more⟩ := by
  have outside : ∀ c ∈ more.head?, c.isDigit = false := by
    intro c head
    rcases behind c head with rfl | rfl <;> rfl
  cases spelled with
  | none =>
    refine ⟨[], [], rfl, .none, .nil, absurd rfl, ?_⟩
    rw [List.nil_append]
    unfold fraction
    split
    next => rcases behind '.' rfl with impossible | impossible <;> cases impossible
    next => rfl
  | bare =>
    refine ⟨['.'], [], rfl, .bare, .nil, absurd rfl, ?_⟩
    change (Cut.run Char.isDigit ([] ++ more)).push '.' = _
    rw [Cut.run_append (List.forall_mem_nil _) outside]
    rfl
  | point digits =>
    obtain ⟨taken, left, rfl, plain, stops, cut⟩ := run_digits digits outside
    refine ⟨'.' :: taken, left, rfl, .point plain, stops, fun _ => ⟨'.', List.mem_cons_self .., Or.inl rfl⟩, ?_⟩
    change (Cut.run Char.isDigit (taken ++ left ++ more)).push '.' = _
    rw [cut]
    rfl

private theorem exponent_stops (spelled : Exponent late text) :
    ∃ taken left, taken ++ left = text ∧ Exponent false taken ∧ Stops late left ∧ (left ≠ [] → Pointed taken) ∧
      exponent text = ⟨taken, left⟩ := by
  have opened : ∀ {e : Char}, e = 'e' ∨ e = 'E' → ∀ following, exponent (e :: following) = (signedDigits following).push e := by
    rintro e (rfl | rfl) following <;> rfl
  cases spelled with
  | none => exact ⟨[], [], rfl, .none, .nil, absurd rfl, rfl⟩
  | @plain e text mark digits =>
    obtain ⟨taken, left, whole, plain, stops, cut⟩ := @run_digits text [] late digits nofun
    have unsigned : signedDigits text = Cut.run Char.isDigit text := by
      obtain ⟨d, others, rfl, known⟩ := digits.begins
      have digit := isDigit_of_decimal d known
      unfold signedDigits
      split
      next same => cases same; cases digit
      next same => cases same; cases digit
      next => rfl
    rw [List.append_nil, List.append_nil] at cut
    refine ⟨e :: taken, left, congrArg (e :: ·) whole, .plain mark plain, stops,
      fun _ => ⟨e, List.mem_cons_self .., Or.inr mark⟩, ?_⟩
    rw [opened mark, unsigned, cut]
    rfl
  | @signed e sign text mark known digits =>
    obtain ⟨taken, left, whole, plain, stops, cut⟩ := @run_digits text [] late digits nofun
    have signed : signedDigits (sign :: text) = (Cut.run Char.isDigit text).push sign := by
      rcases known with rfl | rfl <;> rfl
    rw [List.append_nil, List.append_nil] at cut
    refine ⟨e :: sign :: taken, left, congrArg (fun text => e :: sign :: text) whole, .signed mark known plain, stops,
      fun _ => ⟨e, List.mem_cons_self .., Or.inr mark⟩, ?_⟩
    rw [opened mark, signed, cut]
    rfl

/-- What a number ends with, behind a part that the scanner may have left at a separator. -/
theorem ending_stops (front : List Char) {left exponentText : List Char} (before : Stops late left)
    (spelled : Exponent late exponentText) :
    ∃ taken rest, taken ++ rest = left ++ exponentText ∧ Exponent false taken ∧ Stops late rest ∧
      (rest ≠ [] → left ≠ [] ∨ Pointed taken) ∧
      ((⟨front, left ++ exponentText⟩ : Cut).followedBy exponent).followedBy bigMark = ⟨front ++ taken, rest⟩ := by
  have unmarked : ∀ {rest : List Char}, Stops late rest → bigMark rest = ⟨[], rest⟩ := by
    intro rest stops
    rcases stops.cases with rfl | ⟨-, others, rfl⟩ <;> rfl
  rcases before.cases with rfl | ⟨allowed, others, rfl⟩
  · obtain ⟨taken, rest, whole, plain, stops, pointed, cut⟩ := exponent_stops spelled
    refine ⟨taken, rest, whole, plain, stops, fun filled => Or.inr (pointed filled), ?_⟩
    simp only [List.nil_append, Cut.followedBy, cut, unmarked stops, List.append_nil]
  · have bare : exponent ('_' :: (others ++ exponentText)) = ⟨[], '_' :: (others ++ exponentText)⟩ := rfl
    have here : Stops late ('_' :: (others ++ exponentText)) := fun c head => ⟨allowed, (Option.some.inj head).symm⟩
    refine ⟨[], '_' :: (others ++ exponentText), rfl, .none, here, fun _ => Or.inl (List.cons_ne_nil _ _), ?_⟩
    simp only [Cut.followedBy, List.cons_append, bare, unmarked here, List.append_nil]

/-- A zero or another digit, and what can follow it in a whole part. -/
theorem whole_cut (whole : Whole text) :
    ∃ c run, text = c :: run ∧ c ∈ decimal ∧ (∀ d ∈ run, d ∈ decimal ∨ d = '_') ∧
      (c = '0' → ∀ d ∈ run, d.isDigit = true) := by
  cases whole with
  | integer spelled =>
    cases spelled with
    | zero => exact ⟨'0', [], rfl, zero_decimal, List.forall_mem_nil _, fun _ => List.forall_mem_nil _⟩
    | @leading d rest other digits =>
      obtain ⟨first, others, same, known⟩ := digits.begins
      cases same
      exact ⟨d, rest, rfl, known, fun c member => digits.members c (List.mem_cons_of_mem _ member), fun zero => absurd zero other⟩
  | @padded text digits =>
    exact ⟨'0', text, rfl, zero_decimal, digits.members, fun _ c member => isDigit_of_decimal c (digits.plain c member)⟩

private theorem radixDigit?_digit {c : Char} (digit : c.isDigit = true) : radixDigit? c = none := by
  have other : ∀ mark : Char, mark.isDigit = false → c ≠ mark := by
    rintro mark letter rfl
    exact absurd (digit.symm.trans letter) (by decide)
  simp [radixDigit?, other 'x' rfl, other 'X' rfl, other 'b' rfl, other 'B' rfl, other 'o' rfl, other 'O' rfl]

/-- Behind a whole part of base ten come a fraction, an exponent and the mark of a big integer. -/
theorem numberTail_whole {c : Char} {run : List Char} (digit : c ∈ decimal) (members : ∀ d ∈ run, d ∈ decimal ∨ d = '_')
    (zero : c = '0' → ∀ d ∈ run, d.isDigit = true)
    (behind : ∀ d ∈ rest.head?, radixDigit? d = none ∧ d.isDigit = false ∧ d ≠ '_') :
    numberTail c (run ++ rest) = (((⟨run, rest⟩ : Cut).followedBy fraction).followedBy exponent).followedBy bigMark := by
  have plain : ∀ d ∈ (run ++ rest).head?, ¬ (c = '0' ∧ (radixDigit? d).isSome) := by
    rintro d head ⟨leading, known⟩
    have unknown : radixDigit? d = none := by
      cases run with
      | nil => exact (behind d head).1
      | cons first others =>
        cases head
        exact radixDigit?_digit (zero leading d (List.mem_cons_self ..))
    rw [unknown] at known
    cases known
  have notPoint : c ≠ '.' := by
    rintro rfl
    cases isDigit_of_decimal '.' digit
  rw [numberTail_unmarked plain, decimalTail, if_neg notPoint,
    separated_digits members isDigit_of_decimal fun d head => (behind d head).2]

/-- What a number that begins with a digit of base ten is read as: all of it, or all in front of a separator
that stands too late. -/
theorem parts_stop {c : Char} {run fractionText exponentText : List Char} (digit : c ∈ decimal)
    (members : ∀ d ∈ run, d ∈ decimal ∨ d = '_') (zero : c = '0' → ∀ d ∈ run, d.isDigit = true)
    (second : Fraction late fractionText) (third : Exponent late exponentText) :
    ∃ fractionTaken exponentTaken left,
      run ++ (fractionTaken ++ exponentTaken) ++ left = run ++ (fractionText ++ exponentText) ∧
      Fraction false fractionTaken ∧ Exponent false exponentTaken ∧ Stops late left ∧
      (left ≠ [] → Pointed (fractionTaken ++ exponentTaken)) ∧
      numberTail c (run ++ (fractionText ++ exponentText)) = ⟨run ++ (fractionTaken ++ exponentTaken), left⟩ := by
  have exponentHead : ∀ d ∈ exponentText.head?, d = 'e' ∨ d = 'E' := by
    intro d head
    cases third with
    | none => cases head
    | plain mark | signed mark => cases head; exact mark
  have fractionHead : ∀ d ∈ (fractionText ++ exponentText).head?, d = '.' ∨ d = 'e' ∨ d = 'E' := by
    intro d head
    cases second with
    | none => exact Or.inr (exponentHead d head)
    | bare | point => cases head; exact Or.inl rfl
  have outside : ∀ d ∈ (fractionText ++ exponentText).head?, radixDigit? d = none ∧ d.isDigit = false ∧ d ≠ '_' := by
    intro d head
    rcases fractionHead d head with rfl | rfl | rfl <;> exact ⟨rfl, rfl, by decide⟩
  obtain ⟨fractionTaken, behind, rfl, fractionPlain, fractionStops, fractionPointed, fractionCut⟩ :=
    fraction_stops second exponentHead
  obtain ⟨exponentTaken, left, whole, exponentPlain, stops, pointed, ending⟩ :=
    ending_stops (run ++ fractionTaken) fractionStops third
  refine ⟨fractionTaken, exponentTaken, left, ?_, fractionPlain, exponentPlain, stops, ?_, ?_⟩
  · rw [List.append_assoc, List.append_assoc, whole, ← List.append_assoc fractionTaken]
  · intro filled
    rcases pointed filled with unread | ⟨d, member, mark⟩
    · obtain ⟨d, member, mark⟩ := fractionPointed unread
      exact ⟨d, List.mem_append_left _ member, mark⟩
    · exact ⟨d, List.mem_append_right _ member, mark⟩
  · have first : (⟨run, fractionTaken ++ behind ++ exponentText⟩ : Cut).followedBy fraction =
        ⟨run ++ fractionTaken, behind ++ exponentText⟩ := by
      rw [Cut.followedBy, fractionCut]
    rw [numberTail_whole digit members zero outside, first, ending, List.append_assoc]

private theorem prefixed_cut (prefixed : Prefixed text) :
    ∃ mark digits digit, text = '0' :: mark :: digits ∧ radixDigit? mark = some digit ∧
      ∀ rest, rest = [] ∨ rest = ['n'] → separated digit (digits ++ rest) = ⟨digits, rest⟩ := by
  have outside : ∀ {digit : Char → Bool}, digit 'n' = false → ∀ rest, rest = [] ∨ rest = ['n'] →
      ∀ c ∈ rest.head?, digit c = false ∧ c ≠ '_' := by
    rintro digit other rest (rfl | rfl) c ⟨⟩
    exact ⟨other, by decide⟩
  cases prefixed with
  | @hexadecimal mark text known digits =>
    refine ⟨mark, text, isHexDigit, rfl, by rcases known with rfl | rfl <;> rfl, fun rest ending => ?_⟩
    exact separated_digits digits.members (List.all_eq_true.mp rfl) (outside rfl rest ending)
  | @octal mark text known digits =>
    refine ⟨mark, text, isOctalDigit, rfl, by rcases known with rfl | rfl <;> rfl, fun rest ending => ?_⟩
    exact separated_digits digits.members (List.all_eq_true.mp rfl) (outside rfl rest ending)
  | @binary mark text known digits =>
    refine ⟨mark, text, isBinaryDigit, rfl, by rcases known with rfl | rfl <;> rfl, fun rest ending => ?_⟩
    exact separated_digits digits.members (List.all_eq_true.mp rfl) (outside rfl rest ending)

def Opens (c : Char) (following : List Char) : Prop := c ∈ decimal ∨ c = '.' ∧ beginsWithDigit following = true

/-- The scanner takes a literal from its first character on up to a separator that stands too late, if it has
one, and what it takes is a literal. -/
theorem numeral_stops (numeral : Numeral late text) :
    ∃ c taken left, text = c :: (taken ++ left) ∧ Opens c (taken ++ left) ∧ Numeral false (c :: taken) ∧ Stops late left ∧
      (left ≠ [] → Pointed (c :: taken)) ∧ numberTail c (taken ++ left) = ⟨taken, left⟩ := by
  cases numeral with
  | parts first second third =>
    obtain ⟨c, run, rfl, digit, members, zero⟩ := whole_cut first
    obtain ⟨fractionTaken, exponentTaken, left, whole, fraction, exponent, stops, pointed, cut⟩ :=
      parts_stop digit members zero second third
    refine ⟨c, run ++ (fractionTaken ++ exponentTaken), left, by rw [whole]; rfl, Or.inl digit, .parts first fraction exponent,
      stops, fun filled => ?_, by rw [whole, cut]⟩
    obtain ⟨d, member, mark⟩ := pointed filled
    exact ⟨d, List.mem_cons_of_mem _ (List.mem_append_right _ member), mark⟩
  | @point digits exponentText first second =>
    have exponentHead : ∀ d ∈ exponentText.head?, d.isDigit = false := by
      intro d head
      cases second with
      | none => cases head
      | plain mark | signed mark => cases head; rcases mark with rfl | rfl <;> rfl
    have opens : beginsWithDigit (digits ++ exponentText) = true := by
      obtain ⟨d, others, rfl, known⟩ := first.begins
      exact isDigit_of_decimal d known
    obtain ⟨taken, behind, rfl, plain, stops, cut⟩ := run_digits first exponentHead
    obtain ⟨exponentTaken, left, whole, exponent, lastStops, -, ending⟩ := ending_stops taken stops second
    have joined : taken ++ exponentTaken ++ left = taken ++ behind ++ exponentText := by
      rw [List.append_assoc, whole, List.append_assoc]
    refine ⟨'.', taken ++ exponentTaken, left, by rw [joined], Or.inr ⟨rfl, by rw [joined]; exact opens⟩,
      .point plain exponent, lastStops, fun _ => ⟨'.', List.mem_cons_self .., Or.inl rfl⟩, ?_⟩
    have unmarked := @numberTail_unmarked '.' (taken ++ behind ++ exponentText) fun _ _ zero => absurd zero.1 (by decide)
    rw [joined, unmarked, decimalTail, if_pos rfl, cut, ending]
  | @padded text digits =>
    have members : ∀ d ∈ text, d ∈ decimal ∨ d = '_' := fun d member => Or.inl (decimal_of_octal d (digits.plain d member))
    have zero : '0' = '0' → ∀ d ∈ text, d.isDigit = true :=
      fun _ d member => isDigit_of_decimal d (decimal_of_octal d (digits.plain d member))
    obtain ⟨fractionTaken, exponentTaken, left, whole, -, -, -, -, cut⟩ :=
      parts_stop zero_decimal members zero (.none : Fraction false []) (.none : Exponent false [])
    obtain ⟨rfl, rfl, rfl⟩ : fractionTaken = [] ∧ exponentTaken = [] ∧ left = [] := by
      rw [List.append_assoc, List.append_cancel_left_eq] at whole
      simpa using whole
    rw [List.append_nil, List.append_nil] at cut
    exact ⟨'0', text, [], by rw [List.append_nil], Or.inl zero_decimal, .padded digits, .nil, absurd rfl, by rw [List.append_nil, cut]⟩
  | marked spelled =>
    obtain ⟨mark, digits, digit, rfl, found, cut⟩ := prefixed_cut spelled
    have taken := cut [] (Or.inl rfl)
    rw [List.append_nil] at taken
    refine ⟨'0', mark :: digits, [], by rw [List.append_nil], Or.inl zero_decimal, .marked spelled, .nil, absurd rfl, ?_⟩
    rw [List.append_nil, numberTail_marked found, taken]
    exact congrArg (fun digits => (⟨mark :: digits, []⟩ : Cut)) (List.append_nil digits)
  | @big text spelled =>
    rcases spelled with integer | prefixed
    · obtain ⟨c, run, rfl, digit, members, zero⟩ := whole_cut (.integer integer)
      have tail : numberTail c (run ++ ['n']) = _ :=
        numberTail_whole digit members zero (by rintro d ⟨⟩; exact ⟨rfl, rfl, by decide⟩)
      have ending : (((⟨run, ['n']⟩ : Cut).followedBy fraction).followedBy exponent).followedBy bigMark = ⟨run ++ ['n'], []⟩ := by
        change (⟨run ++ [] ++ [] ++ ['n'], []⟩ : Cut) = _
        rw [List.append_nil, List.append_nil]
      refine ⟨c, run ++ ['n'], [], by rw [List.append_nil]; rfl, Or.inl digit, .big (Or.inl integer), .nil, absurd rfl, ?_⟩
      rw [List.append_nil, tail, ending]
    · obtain ⟨mark, digits, digit, rfl, found, cut⟩ := prefixed_cut prefixed
      have taken := cut ['n'] (Or.inr rfl)
      refine ⟨'0', mark :: (digits ++ ['n']), [], by rw [List.append_nil]; rfl, Or.inl zero_decimal, .big (Or.inr prefixed), .nil,
        absurd rfl, ?_⟩
      rw [List.append_nil, numberTail_marked found, taken]
      rfl

private theorem read_numeral (words : Vocabulary) {c : Char} {following : List Char} (opens : Opens c following) :
    read words c following = ⟨some .number, numberTail c following, .neutral⟩ := by
  rcases opens with digit | ⟨rfl, begins⟩
  · have plain : ∀ d ∈ decimal, isSpace d = false ∧ isNameStart d = false ∧ d.isDigit = true := by
      have each : ∀ d ∈ decimal, (!isSpace d && !isNameStart d && d.isDigit) = true := List.all_eq_true.mp rfl
      simpa only [Bool.and_eq_true, Bool.not_eq_true', and_assoc] using each
    obtain ⟨space, name, isDigit⟩ := plain c digit
    simp only [read, space, name, isDigit, Bool.false_eq_true, if_false, if_true]
  · exact if_pos begins

/-- The first token of a literal's line is the literal, or the part of it in front of a separator; there
a name begins. -/
theorem code_numeral (words : Vocabulary) (numeral : Numeral late text) :
    Numeral false text ∧ (code words true text).1 = [⟨some .number, text⟩] ∨
    late = true ∧ ∃ number name rest others, text = number ++ '_' :: (name ++ rest) ∧ Numeral false number ∧ Pointed number ∧
      (code words true text).1 = ⟨some .number, number⟩ :: ⟨some (words.kindOf ('_' :: name)), '_' :: name⟩ :: others := by
  obtain ⟨c, taken, left, rfl, opens, plain, stops, pointed, cut⟩ := numeral_stops numeral
  have notHash : ¬ IsHashbang (c :: (taken ++ left)) := by
    rintro ⟨rest, same⟩
    obtain ⟨rfl, -⟩ := List.cons.inj same
    rcases opens with digit | ⟨impossible, -⟩
    · cases isDigit_of_decimal '#' digit
    · cases impossible
  have reading : (reader words).read c (taken ++ left) = _ := read_numeral words opens
  rw [code_eq_lexemes words (Or.inr notHash), Reader.lexemes, Reader.scan_cons, reading, cut]
  rcases stops.cases with rfl | ⟨allowed, rest, rfl⟩
  · rw [List.append_nil, Reader.scan]
    exact Or.inl ⟨plain, rfl⟩
  · have whole : (Cut.run isNamePart rest).taken ++ (Cut.run isNamePart rest).rest = rest := Cut.run_covers _ _
    have named : (reader words).read '_' rest = name words '_' rest := rfl
    refine Or.inr ⟨allowed, c :: taken, (Cut.run isNamePart rest).taken, (Cut.run isNamePart rest).rest,
      ((reader words).scan .neutral (Cut.run isNamePart rest).rest).1, ?_, plain, pointed (List.cons_ne_nil _ _), ?_⟩
    · rw [whole]
      rfl
    · rw [Reader.scan_cons, named]
      rfl

private theorem kindOf_underscore {words : Vocabulary} (known : words = .javascript ∨ words = .typescript)
    (name : List Char) :
    words.kindOf ('_' :: name) = .identifier := by
  have letters : ∀ word ∈ words.keywords ++ words.types, word.toList.head? ≠ some '_' := by
    rcases known with rfl | rfl <;> decide
  have absent : String.ofList ('_' :: name) ∉ words.keywords ++ words.types := by
    intro member
    refine letters _ member ?_
    rw [String.toList_ofList, List.head?_cons]
  rw [List.mem_append, not_or] at absent
  simp only [Vocabulary.kindOf, List.contains_iff_mem, absent.1, absent.2, if_false]

end Scan.ScriptLine

open Scan ScriptLine ScriptText

/-- A numeric literal is one token exactly if it has no separator behind its point or exponent mark. Otherwise
the number ends at the first separator that stands there, and a name begins. -/
theorem numbers_stop_at_late_separators (words : Vocabulary) (known : words = .javascript ∨ words = .typescript)
    (text : List Char) (numeral : Numeral true text) :
    ∃ session last, ({ scanner := .script words } : Session).scan none text = .ok (session, last) ∧
      (session.tokens = [⟨.number, text, 0⟩] ↔ Numeral false text) ∧
      (¬ Numeral false text → ∃ number name rest others,
        text = number ++ '_' :: (name ++ rest) ∧ Numeral false number ∧ Pointed number ∧
          session.tokens = ⟨.number, number, 0⟩ :: ⟨.identifier, '_' :: name, number.length⟩ :: others) := by
  obtain ⟨session, last, scanned, tokens⟩ := (Scanner.script words).scan_new none nofun text
  refine ⟨session, last, scanned, ?_⟩
  have placed : session.tokens = place 0 (code words true text).1 :=
    tokens.trans (congrArg (fun scanned => place 0 scanned.1) (lexemes_eq_code words true rfl text))
  rw [placed]
  rcases code_numeral words numeral with ⟨plain, whole⟩ | ⟨-, number, name, rest, others, split, plain, pointed, cut⟩
  · rw [whole]
    exact ⟨iff_of_true rfl plain, absurd plain⟩
  · have apart : ¬ Numeral false text := by
      intro alone
      rcases code_numeral words alone with ⟨-, whole⟩ | ⟨impossible, -⟩
      · exact absurd (congrArg List.length (cut.symm.trans whole)) (by simp)
      · cases impossible
    rw [cut, kindOf_underscore known]
    refine ⟨iff_of_false ?_ apart, fun _ => ⟨number, name, rest, place (number.length + ('_' :: name).length) others, split,
      plain, pointed, ?_⟩⟩
    · intro single
      exact absurd (congrArg List.length single) (by simp [place])
    · rw [place, place, Int.zero_add]

theorem numbers_stop_at_late_separators_hexadecimal :
    (Vocabulary.javascript = .javascript ∨ Vocabulary.javascript = .typescript) ∧ Numeral true "0X1F_e0n".toList ∧
      ∃ session last, ({ scanner := .script .javascript } : Session).scan none "0X1F_e0n".toList = .ok (session, last) ∧
        session.tokens = [⟨.number, "0X1F_e0n".toList, 0⟩] := by
  have digits : Digits hexadecimal true "1F_e0".toList := by
    have known : ∀ d ∈ "1Fe0".toList, d ∈ hexadecimal :=
      fun d member => List.contains_iff_mem.mp (List.all_eq_true.mp (rfl : "1Fe0".toList.all hexadecimal.contains = true) d member)
    exact .next (known _ (by decide)) (.separated rfl (known _ (by decide)) (.next (known _ (by decide)) (.single (known _ (by decide)))))
  have spelled : ∀ late, Numeral late ("0X1F_e0".toList ++ ['n']) := fun _ => .big (Or.inr (.hexadecimal (Or.inr rfl) digits))
  obtain ⟨session, last, scanned, single, -⟩ :=
    numbers_stop_at_late_separators .javascript (Or.inl rfl) "0X1F_e0n".toList (spelled true)
  exact ⟨Or.inl rfl, spelled true, session, last, scanned, single.mpr (spelled false)⟩

/-- The fraction of this number is taken apart at its separator. -/
theorem separated_fraction_is_split :
    ¬ ∀ (words : Vocabulary) (text : List Char), words = .javascript ∨ words = .typescript → Numeral true text →
      ∃ session last, ({ scanner := .script words } : Session).scan none text = .ok (session, last) ∧
        session.tokens = [⟨.number, text, 0⟩] := by
  intro law
  have digits : Digits decimal true "5_0".toList :=
    .separated rfl (List.contains_iff_mem.mp rfl) (.single zero_decimal)
  have one : Whole ['1'] := .integer (.leading (by decide) (.single (List.contains_iff_mem.mp rfl)))
  obtain ⟨session, last, scanned, single⟩ := law .javascript "1.5_0".toList (Or.inl rfl) (.parts one (.point digits) .none)
  have tokens : place 0 ((Scanner.script .javascript).lexemes "1.5_0".toList) =
      [⟨.number, "1.5".toList, 0⟩, ⟨.identifier, "_0".toList, 3⟩] := by decide +kernel
  obtain ⟨same, left, again, placed⟩ :=
    (Scanner.script .javascript).scan_new none (fun state given => absurd given (Option.not_mem_none state)) "1.5_0".toList
  obtain ⟨rfl, -⟩ := Prod.mk.inj (Except.ok.inj (scanned.symm.trans again))
  rw [placed, tokens] at single
  exact absurd single (by decide)

end Highlight
