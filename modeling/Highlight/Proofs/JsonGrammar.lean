import Highlight.Scan.Charset
import Highlight.Token

/-! The tokens of JSON as RFC 8259 spells them, told without a scanner. Which characters may stand
unescaped in a string is left open, since a scanner may let in more than the standard does. -/

namespace Highlight

namespace JsonText

/-- The characters that may stand in a string as they are, quotes and backslashes apart. -/
def Unescaped (c : Char) : Prop := 0x20 ≤ c.toNat

/-- What the quotes of a string enclose, if the characters of `plain` may stand there unescaped. -/
inductive Body (plain : Char → Prop) : List Char → Prop
  | done : Body plain []
  | plain {c : Char} {rest : List Char} (allowed : plain c) (quote : c ≠ '"') (backslash : c ≠ '\\')
      (later : Body plain rest) : Body plain (c :: rest)
  | escape {c : Char} {rest : List Char} (known : c ∈ ['"', '\\', '/', 'b', 'f', 'n', 'r', 't'])
      (later : Body plain rest) : Body plain ('\\' :: c :: rest)
  | unicode {a b c d : Char} {rest : List Char} (hex : ∀ x ∈ [a, b, c, d], x ∈ "0123456789abcdefABCDEF".toList)
      (later : Body plain rest) : Body plain ('\\' :: 'u' :: a :: b :: c :: d :: rest)

structure Digits (text : List Char) : Prop where
  filled : text ≠ []
  digits : ∀ c ∈ text, c.isDigit = true

inductive Whole : List Char → Prop
  | zero : Whole ['0']
  | leading {c : Char} {rest : List Char} (other : c ≠ '0') (digits : Digits (c :: rest)) : Whole (c :: rest)

inductive Fraction : List Char → Prop
  | none : Fraction []
  | point {text : List Char} (digits : Digits text) : Fraction ('.' :: text)

inductive Exponent : List Char → Prop
  | none : Exponent []
  | plain {e : Char} {text : List Char} (mark : e = 'e' ∨ e = 'E') (digits : Digits text) : Exponent (e :: text)
  | signed {e sign : Char} {text : List Char} (mark : e = 'e' ∨ e = 'E') (known : sign = '+' ∨ sign = '-')
      (digits : Digits text) : Exponent (e :: sign :: text)

inductive Magnitude : List Char → Prop
  | parts {whole fraction exponent : List Char} (first : Whole whole) (second : Fraction fraction)
      (third : Exponent exponent) : Magnitude (whole ++ (fraction ++ exponent))

inductive Number : List Char → Prop
  | positive {text : List Char} (magnitude : Magnitude text) : Number text
  | negative {text : List Char} (magnitude : Magnitude text) : Number ('-' :: text)

def names : List (List Char) := ["true".toList, "false".toList, "null".toList]

def marks : List Char := ['[', ']', '\x7b', '\x7d', ':', ',']

inductive Lexical (plain : Char → Prop) : TokenKind → List Char → Prop
  | string {body : List Char} (spelled : Body plain body) : Lexical plain .string ('"' :: (body ++ ['"']))
  | number {text : List Char} (spelled : Number text) : Lexical plain .number text
  | name {text : List Char} (known : text ∈ names) : Lexical plain .keyword text
  | mark {c : Char} (known : c ∈ marks) : Lexical plain .operator [c]

def Blank (c : Char) : Prop := c = ' ' ∨ c = '\t' ∨ c = '\r'

def Ends (text : List Char) : Prop := ∀ c ∈ text.head?, c.isAlphanum = false ∧ c ≠ '.'

variable {plain : Char → Prop} {text rest : List Char}

/-- Escapes are made of printable characters, so only what stands unescaped can be forbidden. -/
theorem Body.restrict {other : Char → Prop} (body : Body other text) (allowed : ∀ c ∈ text, plain c) : Body plain text := by
  induction body with
  | done => exact .done
  | plain _ quote backslash _ ih =>
    obtain ⟨here, later⟩ := List.forall_mem_cons.mp allowed
    exact .plain here quote backslash (ih later)
  | escape known _ ih =>
    simp only [List.forall_mem_cons] at allowed
    exact .escape known (ih allowed.2.2)
  | unicode hex _ ih =>
    simp only [List.forall_mem_cons] at allowed
    exact .unicode hex (ih allowed.2.2.2.2.2.2)

theorem Body.unescaped (body : Body Unescaped text) : ∀ c ∈ text, Unescaped c := by
  induction body with
  | done => exact fun _ none => absurd none List.not_mem_nil
  | plain allowed _ _ _ ih => exact List.forall_mem_cons.mpr ⟨allowed, ih⟩
  | escape known _ ih =>
    have here : ∀ c ∈ ['"', '\\', '/', 'b', 'f', 'n', 'r', 't'], Unescaped c := by simp [Unescaped]
    exact List.forall_mem_cons.mpr ⟨by simp [Unescaped], List.forall_mem_cons.mpr ⟨here _ known, ih⟩⟩
  | @unicode a b c d rest hex _ ih =>
    have here : ∀ c ∈ "0123456789abcdefABCDEF".toList, Unescaped c := by simp [Unescaped]
    have mark : ∀ c ∈ ['\\', 'u'], Unescaped c := by simp [Unescaped]
    have digits : ∀ x ∈ [a, b, c, d], Unescaped x := fun x member => here x (hex x member)
    exact List.forall_mem_append.mpr ⟨mark, List.forall_mem_append.mpr ⟨digits, ih⟩⟩

def Solid (c : Char) : Prop := 0x20 < c.toNat ∧ c.toNat < 0x7f ∧ c ≠ '"'

theorem Solid.not_isSpace {c : Char} (solid : Solid c) : Scan.isSpace c = false := by
  obtain ⟨above, below, -⟩ := solid
  unfold Scan.isSpace
  simp only [Bool.or_eq_false_iff, beq_eq_false_iff_ne, Bool.and_eq_false_iff, decide_eq_false_iff_not]
  omega

theorem Solid.ne_newline {c : Char} (solid : Solid c) : c ≠ '\n' := by
  rintro rfl
  exact absurd solid.1 (by decide)

theorem solid_of_isDigit {c : Char} (digit : c.isDigit = true) : Solid c := by
  simp only [Char.isDigit, ge_iff_le, Bool.and_eq_true, decide_eq_true_eq, UInt32.le_iff_toNat_le] at digit
  have low : 48 ≤ c.toNat := digit.1
  have high : c.toNat ≤ 57 := digit.2
  refine ⟨by omega, by omega, ?_⟩
  rintro rfl
  exact absurd low (by decide)

theorem Digits.solid (digits : Digits text) : ∀ c ∈ text, Solid c :=
  fun c member => solid_of_isDigit (digits.digits c member)

theorem Whole.solid (whole : Whole text) : ∀ c ∈ text, Solid c := by
  cases whole with
  | zero => exact List.forall_mem_singleton.mpr (solid_of_isDigit rfl)
  | leading _ digits => exact digits.solid

theorem Whole.exists_digit (whole : Whole text) : ∃ c others, text = c :: others ∧ c.isDigit = true := by
  cases whole with
  | zero => exact ⟨_, _, rfl, rfl⟩
  | leading _ digits => exact ⟨_, _, rfl, digits.digits _ (List.mem_cons_self ..)⟩

theorem Magnitude.exists_digit (magnitude : Magnitude text) : ∃ c others, text = c :: others ∧ c.isDigit = true := by
  obtain ⟨first, -, -⟩ := magnitude
  obtain ⟨c, others, rfl, digit⟩ := first.exists_digit
  exact ⟨c, _, List.cons_append, digit⟩

theorem Fraction.solid (fraction : Fraction text) : ∀ c ∈ text, Solid c := by
  cases fraction with
  | none => exact fun _ none => absurd none List.not_mem_nil
  | point digits => exact List.forall_mem_cons.mpr ⟨by simp [Solid], digits.solid⟩

theorem Exponent.solid (exponent : Exponent text) : ∀ c ∈ text, Solid c := by
  have letter : ∀ {e : Char}, e = 'e' ∨ e = 'E' → Solid e := by
    rintro e (rfl | rfl) <;> simp [Solid]
  cases exponent with
  | none => exact fun _ none => absurd none List.not_mem_nil
  | plain mark digits => exact List.forall_mem_cons.mpr ⟨letter mark, digits.solid⟩
  | @signed _ sign _ mark known digits =>
    have signSolid : Solid sign := by
      rcases known with rfl | rfl <;> simp [Solid]
    exact List.forall_mem_cons.mpr ⟨letter mark, List.forall_mem_cons.mpr ⟨signSolid, digits.solid⟩⟩

theorem Magnitude.solid (magnitude : Magnitude text) : ∀ c ∈ text, Solid c := by
  obtain ⟨first, second, third⟩ := magnitude
  exact List.forall_mem_append.mpr ⟨first.solid, List.forall_mem_append.mpr ⟨second.solid, third.solid⟩⟩

theorem Number.solid (number : Number text) : ∀ c ∈ text, Solid c := by
  cases number with
  | positive magnitude => exact magnitude.solid
  | negative magnitude => exact List.forall_mem_cons.mpr ⟨by simp [Solid], magnitude.solid⟩

theorem Lexical.solid {kind : TokenKind} (lexical : Lexical plain kind text) (other : kind ≠ .string) :
    ∀ c ∈ text, Solid c := by
  cases lexical with
  | string => exact absurd rfl other
  | number spelled => exact spelled.solid
  | name known =>
    have each : ∀ name ∈ names, ∀ c ∈ name, Solid c := by simp [names, Solid]
    exact each text known
  | mark known =>
    have each : ∀ c ∈ marks, Solid c := by simp [marks, Solid]
    exact List.forall_mem_singleton.mpr (each _ known)

theorem Lexical.filled {kind : TokenKind} (lexical : Lexical plain kind text) :
    ∃ c rest, text = c :: rest := by
  cases lexical with
  | string => exact ⟨_, _, rfl⟩
  | number spelled =>
    cases spelled with
    | positive magnitude =>
      obtain ⟨c, rest, same, -⟩ := magnitude.exists_digit
      exact ⟨c, rest, same⟩
    | negative => exact ⟨_, _, rfl⟩
  | name known =>
    have each : ∀ name ∈ names, name ≠ [] := by decide
    exact List.exists_cons_of_ne_nil (each _ known)
  | mark => exact ⟨_, _, rfl⟩

theorem Body.oneLine (body : Body Unescaped text) : '\n' ∉ text := by
  intro feed
  have escaped : 0x20 ≤ '\n'.toNat := body.unescaped '\n' feed
  exact absurd escaped (by decide)

theorem Lexical.oneLine {kind : TokenKind} (lexical : Lexical Unescaped kind text) : '\n' ∉ text := by
  intro feed
  by_cases string : kind = .string
  · subst string
    cases lexical with
    | string spelled => simp [spelled.oneLine] at feed
  · exact (lexical.solid string '\n' feed).ne_newline rfl

theorem Blank.isSpace {c : Char} (blank : Blank c) : Scan.isSpace c = true := by
  rcases blank with rfl | rfl | rfl <;> rfl

theorem Blank.oneLine {c : Char} (blank : Blank c) : '\n' ∉ [c] := by
  rcases blank with rfl | rfl | rfl <;> decide

theorem Lexical.no_error {kind : TokenKind} (lexical : Lexical plain kind text) : kind ≠ .error := by
  cases lexical <;> decide

theorem Ends.no_digit (ends : Ends rest) : ∀ c ∈ rest.head?, c.isDigit = false :=
  fun c head => (Bool.or_eq_false_iff.mp (ends c head).1).2

theorem Ends.no_letter (ends : Ends rest) : ∀ c ∈ rest.head?, c.isAlpha = false :=
  fun c head => (Bool.or_eq_false_iff.mp (ends c head).1).1

theorem Exponent.head (exponent : Exponent text) (ends : Ends rest) :
    ∀ c ∈ (text ++ rest).head?, c.isDigit = false ∧ c ≠ '.' := by
  intro c head
  cases exponent with
  | none => exact ⟨ends.no_digit c head, (ends c head).2⟩
  | plain mark | signed mark =>
    cases head
    rcases mark with rfl | rfl <;> decide

theorem Fraction.head (fraction : Fraction text) (outside : ∀ c ∈ rest.head?, c.isDigit = false) :
    ∀ c ∈ (text ++ rest).head?, c.isDigit = false := by
  intro c head
  cases fraction with
  | none => exact outside c head
  | point =>
    cases head
    rfl

/-- A whole number is a run of digits, of one digit if it begins with a zero. -/
theorem Whole.cut (whole : Whole text) :
    ∃ c run, text = c :: run ∧ (∀ d ∈ run, d.isDigit = true) ∧ (c = '0' → run = []) := by
  cases whole with
  | zero => exact ⟨_, _, rfl, fun _ none => absurd none List.not_mem_nil, fun _ => rfl⟩
  | leading other spelled =>
    exact ⟨_, _, rfl, fun d member => spelled.digits d (List.mem_cons_of_mem _ member), fun zero => absurd zero other⟩

end JsonText

end Highlight
