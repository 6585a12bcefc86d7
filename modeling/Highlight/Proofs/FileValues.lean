import Highlight.Proofs.FileNumbers
import Highlight.Text.Units

/-! A value is read back from the text it is written as, if no object in it has a name twice, each
double in it is read back by itself, and no text in it has the two halves of a pair side by side. -/

namespace Highlight.Json

variable {text rest : List Char}

/-! ## Strings -/

private theorem hexValue?_digitChar {digit : Nat} (small : digit < 16) : hexValue? digit.digitChar = some digit := by
  have each : ∀ digit < 16, hexValue? digit.digitChar = some digit := by decide
  exact each digit small

def padded (width n : Nat) : List Char :=
  List.replicate (width - (Nat.toDigits 16 n).length) '0' ++ Nat.toDigits 16 n

private theorem padded_succ {width : Nat} (wide : 0 < width) (n : Nat) :
    padded (width + 1) n = padded width (n / 16) ++ [(n % 16).digitChar] := by
  unfold padded
  by_cases small : n < 16
  · obtain ⟨width, rfl⟩ := Nat.exists_eq_add_of_lt wide
    have none : n / 16 = 0 := Nat.div_eq_of_lt small
    rw [none, Nat.mod_eq_of_lt small, Nat.toDigits_of_lt_base small, Nat.toDigits_zero, ← List.replicate_succ']
    simp
  · rw [Nat.toDigits_of_base_le (by decide) (by omega)]
    simp

private theorem padded_one {n : Nat} (small : n < 16) : padded 1 n = [n.digitChar] := by
  rw [padded, Nat.toDigits_of_lt_base small]
  rfl

private theorem hexUnit_spelled {unit : Nat} (small : unit < 0x10000) :
    ∃ a b c d, hexUnit unit = ['\\', 'u', a, b, c, d] ∧ hexQuad? a b c d = some unit := by
  have digits : padded 4 unit = [(unit / 16 / 16 / 16).digitChar, (unit / 16 / 16 % 16).digitChar,
      (unit / 16 % 16).digitChar, (unit % 16).digitChar] := by
    rw [padded_succ (by decide), padded_succ (by decide), padded_succ (by decide), padded_one (by omega)]
    rfl
  refine ⟨_, _, _, _, congrArg (fun digits => '\\' :: 'u' :: digits) digits, ?_⟩
  simp only [hexQuad?, hexValue?_digitChar (show unit / 16 / 16 / 16 < 16 by omega),
    hexValue?_digitChar (Nat.mod_lt _ (show 16 > 0 by decide)), Option.bind_eq_bind, Option.bind_some]
  exact congrArg some (by omega)

private theorem stringBody?_plain {c : Char} (quote : c ≠ '"') (backslash : c ≠ '\\') (printed : ¬ c.toNat < 0x20)
    (rest : List Char) :
    stringBody? (c :: rest) = (stringBody? rest).map (Prod.map (.scalar c :: ·) id) := by
  rw [stringBody?.eq_6 c rest quote (fun _ _ _ _ _ _ _ _ _ same => absurd same backslash)
    (fun _ _ _ _ _ same => absurd same backslash) (fun _ _ same => absurd same backslash)]
  simp [printed, backslash]
  rfl

private theorem stringBody?_escape {mark c : Char} (other : mark ≠ 'u') (escape : simpleEscape? mark = some c)
    (rest : List Char) :
    stringBody? ('\\' :: mark :: rest) = (stringBody? rest).map (Prod.map (.scalar c :: ·) id) := by
  rw [stringBody?.eq_5 mark rest (fun _ _ _ _ _ _ _ _ _ same => absurd same other) (fun _ _ _ _ _ same => absurd same other),
    escape]
  cases stringBody? rest <;> rfl

private theorem stringBody?_unread {a b c d : Char} (quad : hexQuad? a b c d = none) (rest : List Char) :
    stringBody? ('\\' :: 'u' :: a :: b :: c :: d :: rest) = none := by
  by_cases escape : ∃ e f g h more, rest = '\\' :: 'u' :: e :: f :: g :: h :: more
  · obtain ⟨e, f, g, h, more, rfl⟩ := escape
    rw [stringBody?.eq_3, quad]
    rfl
  · rw [stringBody?.eq_4 a b c d rest fun e f g h more same => escape ⟨e, f, g, h, more, same⟩, quad]
    rfl

/-- The text begins with the escape of the second half of a pair. -/
def LowFirst (text : List Char) : Prop :=
  ∃ a b c d rest unit, text = '\\' :: 'u' :: a :: b :: c :: d :: rest ∧ hexQuad? a b c d = some unit ∧ isLowSurrogate unit

private theorem stringBody?_unit {a b c d : Char} {unit : Nat} (quad : hexQuad? a b c d = some unit)
    (apart : isHighSurrogate unit → ¬ LowFirst rest) :
    stringBody? ('\\' :: 'u' :: a :: b :: c :: d :: rest) = (stringBody? rest).map (Prod.map (unitPoint unit :: ·) id) := by
  by_cases escape : ∃ e f g h more, rest = '\\' :: 'u' :: e :: f :: g :: h :: more
  · obtain ⟨e, f, g, h, more, rfl⟩ := escape
    rw [stringBody?.eq_3, quad]
    cases second : hexQuad? e f g h with
    | some low =>
      have single : (isHighSurrogate unit && isLowSurrogate low) = false :=
        Bool.and_eq_false_imp.mpr fun high => Bool.eq_false_iff.mpr fun isLow =>
          apart high ⟨e, f, g, h, more, low, rfl, second, isLow⟩
      simp only [Option.bind_eq_bind, Option.bind_some, single]
      cases stringBody? ('\\' :: 'u' :: e :: f :: g :: h :: more) <;> rfl
    | none =>
      rw [stringBody?_unread second]
      rfl
  · rw [stringBody?.eq_4 a b c d rest fun e f g h more same => escape ⟨e, f, g, h, more, same⟩, quad]
    cases stringBody? rest <;> rfl

private theorem stringBody?_pair {a b c d e f g h : Char} {high low : Nat} (first : hexQuad? a b c d = some high)
    (second : hexQuad? e f g h = some low) (front : isHighSurrogate high) (back : isLowSurrogate low) (rest : List Char) :
    stringBody? ('\\' :: 'u' :: a :: b :: c :: d :: '\\' :: 'u' :: e :: f :: g :: h :: rest) =
      (stringBody? rest).map (Prod.map (.scalar (pairChar high low) :: ·) id) := by
  rw [stringBody?.eq_3, first]
  simp only [Option.bind_eq_bind, Option.bind_some, second, front, back, Bool.and_self, if_true]
  cases stringBody? rest <;> rfl

private theorem unitPoint_value (point : CodePoint) : unitPoint point.value = point := by
  cases point with
  | scalar c =>
    obtain ⟨high, low⟩ := not_surrogate c
    rw [CodePoint.value, unitPoint, high, low, Char.ofNat_toNat]
    rfl
  | high index =>
    rw [CodePoint.value, unitPoint, if_pos (isHighSurrogate_high index), Nat.add_sub_cancel_left]
    exact congrArg CodePoint.high (Fin.ext (Nat.mod_eq_of_lt index.isLt))
  | low index =>
    rw [CodePoint.value, unitPoint, isHighSurrogate_low, isLowSurrogate_low, Nat.add_sub_cancel_left]
    exact congrArg CodePoint.low (Fin.ext (Nat.mod_eq_of_lt index.isLt))

private theorem stringBody?_hexUnit (point : CodePoint) (small : point.value < 0x10000)
    (apart : isHighSurrogate point.value → ¬ LowFirst rest) :
    stringBody? (hexUnit point.value ++ rest) = (stringBody? rest).map (Prod.map (point :: ·) id) := by
  obtain ⟨_, _, _, _, spelled, quad⟩ := hexUnit_spelled small
  have read := stringBody?_unit quad apart
  rw [unitPoint_value] at read
  rw [spelled]
  exact read

private theorem stringBody?_hexPair {high low : Nat} {c : Char} (front : isHighSurrogate high) (back : isLowSurrogate low)
    (char : pairChar high low = c) (rest : List Char) :
    stringBody? (hexUnit high ++ hexUnit low ++ rest) = (stringBody? rest).map (Prod.map (.scalar c :: ·) id) := by
  have bounds : high < 0x10000 ∧ low < 0x10000 := by
    simp only [isHighSurrogate, isLowSurrogate, Bool.and_eq_true, decide_eq_true_eq] at front back
    omega
  obtain ⟨_, _, _, _, spelled, first⟩ := hexUnit_spelled bounds.1
  obtain ⟨_, _, _, _, spelledLow, second⟩ := hexUnit_spelled bounds.2
  have read := stringBody?_pair first second front back rest
  rw [char] at read
  rw [spelled, spelledLow]
  exact read

private theorem pairChar_of_large {c : Char} (large : 0x10000 ≤ c.toNat) :
    pairChar (0xd800 + (c.toNat - 0x10000) / 0x400) (0xdc00 + (c.toNat - 0x10000) % 0x400) = c := by
  have code : 0x10000 + (0xd800 + (c.toNat - 0x10000) / 0x400 - 0xd800) * 0x400 +
      (0xdc00 + (c.toNat - 0x10000) % 0x400 - 0xdc00) = c.toNat := by omega
  rw [pairChar, code, Char.ofNat_toNat]

private theorem escapeChar_cases (c : Char) :
    (∃ mark, mark ≠ 'u' ∧ simpleEscape? mark = some c ∧ escapeChar c = ['\\', mark]) ∨
      (c ≠ '"' ∧ c ≠ '\\' ∧ ¬ c.toNat < 0x20 ∧ escapeChar c = [c]) ∨
      (c.toNat < 0x10000 ∧ escapeChar c = hexUnit c.toNat) ∨
      (0x10000 ≤ c.toNat ∧ escapeChar c =
        hexUnit (0xd800 + (c.toNat - 0x10000) / 0x400) ++ hexUnit (0xdc00 + (c.toNat - 0x10000) % 0x400)) := by
  unfold escapeChar
  dsimp only
  by_cases quote : c = '"'
  · exact .inl ⟨'"', by decide, congrArg some quote.symm, if_pos quote⟩
  rw [if_neg quote]
  by_cases backslash : c = '\\'
  · exact .inl ⟨'\\', by decide, congrArg some backslash.symm, if_pos backslash⟩
  rw [if_neg backslash]
  by_cases feed : c = '\n'
  · exact .inl ⟨'n', by decide, congrArg some feed.symm, if_pos feed⟩
  rw [if_neg feed]
  by_cases ret : c = '\r'
  · exact .inl ⟨'r', by decide, congrArg some ret.symm, if_pos ret⟩
  rw [if_neg ret]
  by_cases tab : c = '\t'
  · exact .inl ⟨'t', by decide, congrArg some tab.symm, if_pos tab⟩
  rw [if_neg tab]
  by_cases back : c.toNat = 0x8
  · have same : c = '\x08' := Char.toNat_inj.mp back
    exact .inl ⟨'b', by decide, congrArg some same.symm, if_pos back⟩
  rw [if_neg back]
  by_cases form : c.toNat = 0xc
  · have same : c = '\x0c' := Char.toNat_inj.mp form
    exact .inl ⟨'f', by decide, congrArg some same.symm, if_pos form⟩
  rw [if_neg form]
  by_cases control : c.toNat < 0x20
  · exact .inr (.inr (.inl ⟨by omega, if_pos control⟩))
  rw [if_neg control]
  by_cases ascii : c.toNat < 0x7f
  · exact .inr (.inl ⟨quote, backslash, control, if_pos ascii⟩)
  rw [if_neg ascii]
  by_cases small : c.toNat < 0x10000
  · exact .inr (.inr (.inl ⟨small, if_pos small⟩))
  · exact .inr (.inr (.inr ⟨by omega, if_neg small⟩))

private theorem stringBody?_escapeChar (c : Char) (rest : List Char) :
    stringBody? (escapeChar c ++ rest) = (stringBody? rest).map (Prod.map (.scalar c :: ·) id) := by
  obtain ⟨mark, other, escape, shape⟩ | ⟨quote, backslash, printed, shape⟩ | ⟨small, shape⟩ | ⟨large, shape⟩ :=
    escapeChar_cases c
  all_goals rw [shape]
  · exact stringBody?_escape other escape rest
  · exact stringBody?_plain quote backslash printed rest
  · exact stringBody?_hexUnit (.scalar c) small fun high => absurd high (Bool.eq_false_iff.mp (not_surrogate c).1)
  · obtain ⟨high, low⟩ := surrogates_of_large large
    exact stringBody?_hexPair high low (pairChar_of_large large) rest

private theorem lowFirst_hexUnit {unit : Nat} (small : unit < 0x10000) (first : LowFirst (hexUnit unit ++ rest)) :
    isLowSurrogate unit := by
  obtain ⟨_, _, _, _, _, low, shape, quad, isLow⟩ := first
  obtain ⟨_, _, _, _, spelled, spelledQuad⟩ := hexUnit_spelled small
  rw [spelled] at shape
  cases shape
  cases spelledQuad.symm.trans quad
  exact isLow

/-- No character is written with the escape of a second half first. -/
private theorem not_lowFirst_escapeChar (c : Char) (rest : List Char) : ¬ LowFirst (escapeChar c ++ rest) := by
  intro first
  obtain ⟨mark, other, -, shape⟩ | ⟨-, backslash, -, shape⟩ | ⟨small, shape⟩ | ⟨large, shape⟩ := escapeChar_cases c
  all_goals rw [shape] at first
  · obtain ⟨_, _, _, _, _, _, same, -⟩ := first
    cases same
    exact other rfl
  · obtain ⟨_, _, _, _, _, _, same, -⟩ := first
    cases same
    exact backslash rfl
  · exact Bool.eq_false_iff.mp (not_surrogate c).2 (lowFirst_hexUnit small first)
  · have valid : c.toNat < 0xd800 ∨ 0xdfff < c.toNat ∧ c.toNat < 0x110000 := c.valid
    rw [List.append_assoc] at first
    have low := lowFirst_hexUnit (by omega) first
    simp only [isLowSurrogate, Bool.and_eq_true, decide_eq_true_eq] at low
    omega

/-- A written text begins with the escape of a second half only if the text itself begins with one. -/
private theorem low_of_lowFirst {body : List CodePoint} (first : LowFirst (body.flatMap escapePoint ++ '"' :: rest)) :
    ∃ index others, body = .low index :: others := by
  cases body with
  | nil =>
    obtain ⟨_, _, _, _, _, _, same, -⟩ := first
    cases same
  | cons point others =>
    rw [List.flatMap_cons, List.append_assoc] at first
    cases point with
    | scalar c => exact absurd first (not_lowFirst_escapeChar c _)
    | high index =>
      exact absurd (lowFirst_hexUnit (show 0xd800 + index.val < 0x10000 by omega) first)
        (Bool.eq_false_iff.mp (isLowSurrogate_high index))
    | low index => exact ⟨index, others, rfl⟩

/-- A text is read back fused. -/
theorem stringBody?_escaped (body : List CodePoint) (rest : List Char) :
    stringBody? (body.flatMap escapePoint ++ '"' :: rest) = some (CodePoint.fuse body, rest) := by
  fun_induction CodePoint.fuse body with
  | case1 first second body ih =>
    have char : pairChar (0xd800 + first) (0xdc00 + second) = CodePoint.ofPair first second := by
      rw [pairChar, Nat.add_sub_cancel_left, Nat.add_sub_cancel_left, CodePoint.ofPair]
    have read := stringBody?_hexPair (isHighSurrogate_high first) (isLowSurrogate_low second) char
      (body.flatMap escapePoint ++ '"' :: rest)
    rw [ih] at read
    rw [List.flatMap_cons, List.flatMap_cons, ← List.append_assoc, List.append_assoc]
    exact read
  | case2 point body apart ih =>
    rw [List.flatMap_cons, List.append_assoc]
    cases point with
    | scalar c =>
      rw [escapePoint, stringBody?_escapeChar, ih]
      rfl
    | high index =>
      have small : (CodePoint.high index).value < 0x10000 := by
        rw [CodePoint.value]
        omega
      have alone : ¬ LowFirst (body.flatMap escapePoint ++ '"' :: rest) := by
        intro first
        obtain ⟨second, others, rfl⟩ := low_of_lowFirst first
        exact apart index second others rfl rfl
      have read := stringBody?_hexUnit (.high index) small fun _ => alone
      rw [ih] at read
      exact read
    | low index =>
      have small : (CodePoint.low index).value < 0x10000 := by
        rw [CodePoint.value]
        omega
      have notHigh : isHighSurrogate (CodePoint.low index).value → ¬ LowFirst (body.flatMap escapePoint ++ '"' :: rest) :=
        fun high => absurd high (Bool.eq_false_iff.mp (isHighSurrogate_low index))
      have read := stringBody?_hexUnit (.low index) small notHigh
      rw [ih] at read
      exact read
  | case3 => rfl

private theorem toList_stringText (text : List CodePoint) (rest : List Char) :
    (stringText text).toList ++ rest = '"' :: (text.flatMap escapePoint ++ '"' :: rest) := by
  simp [stringText]

/-! ## Values -/

/-- A value is read back where it stands, given fuel for each character of its text. -/
def ReadBack (level : Nat) (value : Json) : Prop :=
  ∀ fuel rest, Free rest → (render level value).toList.length ≤ fuel →
    value? fuel ((render level value).toList ++ rest) = some (value, rest)

private theorem scalar?_mark {c : Char} (mark : c ∈ ['"', '[', '\x7b', ']', ' ', '\t', '\n', '\r']) (text : List Char) :
    scalar? (c :: text) = none := by
  simp only [List.mem_cons, List.not_mem_nil, or_false] at mark
  obtain rfl | rfl | rfl | rfl | rfl | rfl | rfl | rfl := mark <;> rfl

private theorem value?_of_scalar {fuel : Nat} {found : Json × List Char} (read : scalar? text = some found) :
    value? (fuel + 1) text = some found := by
  unfold value?
  split
  next => cases (scalar?_mark (by decide) _).symm.trans read
  next => cases (scalar?_mark (by decide) _).symm.trans read
  next => cases (scalar?_mark (by decide) _).symm.trans read
  next => exact read

private theorem value?_starts {fuel : Nat} {found : Json × List Char} (read : value? (fuel + 1) text = some found) :
    ∃ c more, text = c :: more ∧ isSpace c = false ∧ c ≠ ']' := by
  cases text with
  | nil => cases read
  | cons c more =>
    refine ⟨c, more, rfl, Bool.eq_false_iff.mpr fun space => ?_, ?_⟩
    · have mark := isSpace_iff.mp space
      simp only [List.mem_cons, List.not_mem_nil, or_false] at mark
      obtain rfl | rfl | rfl | rfl := mark <;> cases read
    · rintro rfl
      cases read

theorem ReadBack.starts {level : Nat} {value : Json} (read : ReadBack level value) :
    ∃ c more, (render level value).toList = c :: more ∧ isSpace c = false ∧ c ≠ ']' := by
  have whole := read ((render level value).toList.length + 1) [] (fun _ inside => nomatch inside) (Nat.le_succ _)
  rw [List.append_nil] at whole
  exact value?_starts whole

private theorem readBack_of_scalar {level : Nat} {value : Json}
    (alone : scalar? (render level value).toList = some (value, [])) :
    ReadBack level value := by
  intro fuel rest free enough
  have read : scalar? ((render level value).toList ++ rest) = some (value, rest) := by
    rw [scalar?_append free, alone]
    rfl
  cases fuel with
  | succ fuel => exact value?_of_scalar read
  | zero =>
    rw [List.eq_nil_of_length_eq_zero (Nat.le_zero.mp enough)] at alone
    cases alone

private theorem toList_indent (level : Nat) : (indent level).toList = '\n' :: List.replicate (4 * level) ' ' := by
  simp [indent]

private theorem skipSpace_indent (level : Nat) (text : List Char) : skipSpace
    ((indent level).toList ++ text) = skipSpace text := by
  apply List.dropWhile_append_of_pos
  rw [toList_indent]
  exact List.forall_mem_cons.mpr ⟨rfl, fun c inside => List.eq_of_mem_replicate inside ▸ rfl⟩

private theorem free_indent (level : Nat) (text : List Char) : Free ((indent level).toList ++ text) := by
  rw [toList_indent]
  exact fun c first => .inr (Option.some.inj first).symm

private theorem free_comma (text : List Char) : Free (',' :: text) := fun _ first => .inl (Option.some.inj first).symm

def listed (level : Nat) (closing : List Char) : List (List Char) → List Char
  | [] => (indent level).toList ++ closing
  | [last] => last ++ ((indent level).toList ++ closing)
  | text :: next :: others => text ++ ',' :: ((indent (level + 1)).toList ++ listed level closing (next :: others))

private theorem listed_starts {level : Nat} {closing text : List Char} (c : Char) (others : List (List Char))
    (rest : List Char) :
    ∃ more, listed level closing ((c :: text) :: others) ++ rest = c :: more := by
  cases others <;> exact ⟨_, rfl⟩

private theorem skipSpace_listed {level : Nat} {closing text : List Char} {c : Char} (solid : isSpace c = false)
    (others : List (List Char)) (rest : List Char) :
    skipSpace (listed level closing ((c :: text) :: others) ++ rest) = listed level closing ((c :: text) :: others) ++ rest := by
  obtain ⟨more, shape⟩ := listed_starts c others rest
  rw [shape]
  exact List.dropWhile_cons_of_neg (by simp [solid])

private theorem listed_eq (level : Nat) (closing : List Char) (texts : List (List Char)) :
    listed level closing texts =
      (',' :: (indent (level + 1)).toList).intercalate texts ++ ((indent level).toList ++ closing) := by
  induction texts with
  | nil => rfl
  | cons text others ih =>
    cases others with
    | nil => rw [listed, List.intercalate_singleton]
    | cons next others => rw [listed, ih, List.intercalate_cons_cons]; simp

private theorem toList_block {α : Type} (write : α → String) {level : Nat} {opening closing : String} {items : List α}
    (filled : items ≠ []) :
    (block opening closing level (items.map write)).toList =
      opening.toList ++ ((indent (level + 1)).toList ++
        listed level closing.toList (items.map fun item => (write item).toList)) := by
  rw [listed_eq, block, if_neg (by simpa using filled)]
  simp [String.toList_intercalate, Function.comp_def]

private theorem toList_block_nil (opening closing : String) (level : Nat) :
    (block opening closing level []).toList = opening.toList ++ closing.toList := by
  rw [block, if_pos List.isEmpty_nil, String.toList_append]

private theorem render_array (level : Nat) (items : List Json) :
    render level (array items) = block "[" "]" level (items.map (render (level + 1))) := by
  rw [render]

def fieldText (level : Nat) (field : List CodePoint × Json) : String := stringText field.1 ++ ": " ++ render level field.2

private theorem render_object (level : Nat) (fields : List (List CodePoint × Json)) :
    render level (object fields) = block "\x7b" "\x7d" level (fields.map (fieldText (level + 1))) := by
  have each : (fields.attach.map fun field => fieldText (level + 1) field.1) = fields.map (fieldText (level + 1)) :=
    List.attach_map_val
  rw [render, ← each]
  rfl

/-- Reading one text after another takes fuel for each of them, and the length of the list is enough. -/
theorem listed_fuel {α : Type} {write : α → List Char} {level : Nat} {closing : List Char} {motive : Nat → List α → Prop}
    (last : ∀ item fuel, (write item).length ≤ fuel → motive (fuel + 1) [item])
    (more : ∀ item next others fuel, (write item).length ≤ fuel → motive fuel (next :: others) →
      motive (fuel + 1) (item :: next :: others))
    {items : List α} (filled : items ≠ []) {fuel : Nat} (closed : closing ≠ [])
    (enough : (listed level closing (items.map write)).length ≤ fuel) : motive fuel items := by
  have some := List.length_pos_iff.mpr closed
  induction items generalizing fuel with
  | nil => exact absurd rfl filled
  | cons item items ih =>
    cases items with
    | nil =>
      simp only [List.map_cons, List.map_nil, listed, List.length_append] at enough
      obtain ⟨fuel, rfl⟩ : ∃ less, fuel = less + 1 := ⟨fuel - 1, by omega⟩
      exact last item fuel (by omega)
    | cons next items =>
      simp only [List.map_cons, listed, List.length_append, List.length_cons] at enough
      obtain ⟨fuel, rfl⟩ : ∃ less, fuel = less + 1 := ⟨fuel - 1, by omega⟩
      refine more item next items fuel (by omega) (ih (List.cons_ne_nil _ _) ?_)
      rw [List.map_cons]
      omega

private theorem skipSpace_comma (text : List Char) : skipSpace (',' :: text) = ',' :: text := rfl

private theorem elements?_last {fuel : Nat} {item : Json} {behind : List Char}
    (read : value? fuel text = some (item, behind))
    (closing : skipSpace behind = ']' :: rest) : elements? (fuel + 1) text = some ([item], rest) := by
  simp [elements?, read, closing]

private theorem elements?_more {fuel : Nat} {item : Json} {items : List Json} {behind more : List Char}
    (read : value? fuel text = some (item, behind)) (comma : skipSpace behind = ',' :: more)
    (others : elements? fuel (skipSpace more) = some (items, rest)) : elements? (fuel + 1) text = some (item :: items, rest) := by
  simp [elements?, read, comma, others]

private theorem elements?_listed {level fuel : Nat} {items : List Json} (filled : items ≠ [])
    (each : ∀ item ∈ items, ReadBack (level + 1) item) (rest : List Char)
    (enough : (listed level [']'] (items.map fun item => (render (level + 1) item).toList)).length ≤ fuel) :
    elements? fuel (listed level [']'] (items.map fun item => (render (level + 1) item).toList) ++ rest) =
      some (items, rest) := by
  refine listed_fuel (motive := fun fuel items => (∀ item ∈ items, ReadBack (level + 1) item) →
    elements? fuel (listed level [']'] (items.map fun item => (render (level + 1) item).toList) ++ rest) = some (items, rest))
    (fun item fuel fits each => ?_) (fun item next others fuel fits ih each => ?_) filled (List.cons_ne_nil _ _) enough each
  · rw [List.map_singleton, listed, List.append_assoc, List.append_assoc]
    refine elements?_last (each item List.mem_cons_self fuel _ (free_indent _ _) fits) ?_
    rw [skipSpace_indent]
    rfl
  · have others := ih fun item inside => each item (List.mem_cons_of_mem _ inside)
    obtain ⟨c, text, start, solid, -⟩ := (each next (List.mem_cons_of_mem _ List.mem_cons_self)).starts
    rw [List.map_cons, List.map_cons, listed, List.append_assoc, List.cons_append, List.append_assoc]
    refine elements?_more (each item List.mem_cons_self fuel _ (free_comma _) fits) (skipSpace_comma _) ?_
    rw [List.map_cons, start] at others
    rw [skipSpace_indent, start, skipSpace_listed solid]
    exact others

private theorem toList_fieldText (level : Nat) (field : List CodePoint × Json) :
    (fieldText level field).toList =
      '"' :: (field.1.flatMap escapePoint ++ '"' :: ':' :: ' ' :: (render level field.2).toList) := by
  simp [fieldText, stringText]

theorem ReadBack.spaced {level fuel : Nat} {value : Json} (read : ReadBack level value) (free : Free rest)
    (enough : (render level value).toList.length ≤ fuel) :
    value? fuel (skipSpace (' ' :: ((render level value).toList ++ rest))) = some (value, rest) := by
  obtain ⟨c, more, shape, solid, -⟩ := read.starts
  have skip : skipSpace (' ' :: ((render level value).toList ++ rest)) = (render level value).toList ++ rest := by
    rw [shape]
    exact (List.dropWhile_cons_of_pos rfl).trans (List.dropWhile_cons_of_neg (by simp [solid]))
  rw [skip]
  exact read fuel rest free enough

/-- The name of a field is one that fusing leaves alone, and the value is read back. -/
def FieldReadBack (level : Nat) (field : List CodePoint × Json) : Prop :=
  CodePoint.fuse field.1 = field.1 ∧ ReadBack level field.2

/-- The name of a field and its value are read, and what stands behind the value decides what is found. -/
theorem members?_field {level fuel : Nat} {known : List (List CodePoint × Json)} {field : List CodePoint × Json}
    {behind : List Char} {found : Option (List (List CodePoint × Json) × List Char)} (kept : FieldReadBack level field)
    (free : Free behind)
    (enough : (fieldText level field).toList.length ≤ fuel)
    (next : (∃ after, skipSpace behind = '\x7d' :: after ∧ some (Entries.put field.1 field.2 known, after) = found) ∨
      ∃ more, skipSpace behind = ',' :: more ∧ members? fuel (Entries.put field.1 field.2 known) (skipSpace more) = found) :
    members? (fuel + 1) known ((fieldText level field).toList ++ behind) = found := by
  obtain ⟨whole, read⟩ := kept
  have label := stringBody?_escaped field.1 (':' :: ' ' :: ((render level field.2).toList ++ behind))
  rw [whole] at label
  have colon : skipSpace (':' :: ' ' :: ((render level field.2).toList ++ behind)) =
      ':' :: ' ' :: ((render level field.2).toList ++ behind) := rfl
  have shorter : (render level field.2).toList.length ≤ fuel := by
    simp only [toList_fieldText, List.length_append, List.length_cons] at enough
    omega
  rw [toList_fieldText]
  obtain ⟨after, closing, rfl⟩ | ⟨more, comma, rfl⟩ := next
  · simp [members?, label, colon, read.spaced free shorter, closing]
  · simp [members?, label, colon, read.spaced free shorter, comma]

private theorem members?_listed {level fuel : Nat} {fields : List (List CodePoint × Json)} (filled : fields ≠ [])
    (each : ∀ field ∈ fields, FieldReadBack (level + 1) field) (rest : List Char) (known : List (List CodePoint × Json))
    (enough : (listed level ['\x7d'] (fields.map fun field => (fieldText (level + 1) field).toList)).length ≤ fuel) :
    members? fuel known (listed level ['\x7d'] (fields.map fun field => (fieldText (level + 1) field).toList) ++ rest) =
      some (fields.foldl (fun known field => Entries.put field.1 field.2 known) known, rest) := by
  refine listed_fuel (motive := fun fuel fields => (∀ field ∈ fields, FieldReadBack (level + 1) field) → ∀ known,
    members? fuel known (listed level ['\x7d'] (fields.map fun field => (fieldText (level + 1) field).toList) ++ rest) =
      some (fields.foldl (fun known field => Entries.put field.1 field.2 known) known, rest))
    (fun field fuel fits each known => ?_) (fun field next others fuel fits ih each known => ?_) filled
    (List.cons_ne_nil _ _) enough each known
  · rw [List.map_singleton, listed, List.append_assoc, List.append_assoc]
    refine members?_field (each field List.mem_cons_self) (free_indent _ _) fits (.inl ⟨rest, ?_, rfl⟩)
    rw [skipSpace_indent]
    rfl
  · have others := ih (fun field inside => each field (List.mem_cons_of_mem _ inside)) (Entries.put field.1 field.2 known)
    have start := toList_fieldText (level + 1) next
    rw [List.map_cons, List.map_cons, listed, List.append_assoc, List.cons_append, List.append_assoc]
    refine members?_field (each field List.mem_cons_self) (free_comma _) fits (.inr ⟨_, skipSpace_comma _, ?_⟩)
    rw [List.map_cons, start] at others
    rw [skipSpace_indent, start, skipSpace_listed rfl]
    exact others

private theorem value?_array {fuel : Nat} (filled : (skipSpace text).head? ≠ some ']') :
    value? (fuel + 1) ('[' :: text) = (elements? fuel (skipSpace text)).map (Prod.map array id) := by
  rw [value?]
  split
  next empty => exact absurd (by rw [empty]; rfl) filled
  next => rfl

private theorem value?_object {fuel : Nat} (filled : (skipSpace text).head? ≠ some '\x7d') :
    value? (fuel + 1) ('\x7b' :: text) = (members? fuel [] (skipSpace text)).map (Prod.map object id) := by
  rw [value?]
  split
  next empty => exact absurd (by rw [empty]; rfl) filled
  next => rfl

private theorem readBack_string (level : Nat) {content : List CodePoint} (whole : CodePoint.fuse content = content) :
    ReadBack level (string content) := by
  intro fuel rest _ enough
  rw [render] at enough ⊢
  rw [toList_stringText]
  cases fuel with
  | zero => simp [stringText] at enough
  | succ fuel =>
    rw [value?, stringBody?_escaped, whole]
    rfl

/-- What is read of a block once its opening bracket is read and the blanks behind it are skipped. -/
theorem skipSpace_block {α : Type} {write : α → String} (level : Nat) {opening closing : String} {first last : Char}
    (front : opening.toList = [first]) (back : closing.toList = [last]) {items : List α} (filled : items ≠ [])
    (starts : ∀ item ∈ items, ∃ c text, (write item).toList = c :: text ∧ isSpace c = false ∧ c ≠ last) (rest : List Char) :
    ∃ text, (block opening closing level (items.map write)).toList ++ rest = first :: text ∧
      skipSpace text = listed level [last] (items.map fun item => (write item).toList) ++ rest ∧
      (skipSpace text).head? ≠ some last ∧
      (listed level [last] (items.map fun item => (write item).toList)).length <
        (block opening closing level (items.map write)).toList.length := by
  cases items with
  | nil => exact absurd rfl filled
  | cons item items =>
    obtain ⟨c, text, start, solid, apart⟩ := starts item List.mem_cons_self
    rw [toList_block write filled, front, back, List.map_cons, start, List.singleton_append, List.cons_append, List.append_assoc]
    refine ⟨_, rfl, ?_, ?_, ?_⟩
    · rw [skipSpace_indent, skipSpace_listed solid]
    · obtain ⟨more, shape⟩ := listed_starts c (items.map fun item => (write item).toList) rest
      rw [skipSpace_indent, skipSpace_listed solid, shape]
      exact fun same => apart (Option.some.inj same)
    · simp only [List.length_cons, List.length_append]
      omega

private theorem readBack_array {level : Nat} {items : List Json} (each : ∀ item ∈ items, ReadBack (level + 1) item) :
    ReadBack level (array items) := by
  intro fuel rest _ enough
  rw [render_array] at enough ⊢
  by_cases filled : items = []
  · subst filled
    rw [List.map_nil, toList_block_nil] at enough ⊢
    cases fuel with
    | zero => cases enough
    | succ fuel => rfl
  · obtain ⟨text, shape, skip, apart, shorter⟩ := skipSpace_block level (show "[".toList = ['['] from rfl)
      (show "]".toList = [']'] from rfl) filled (fun item inside => (each item inside).starts) rest
    cases fuel with
    | zero => omega
    | succ fuel =>
      rw [shape, value?_array apart, skip, elements?_listed filled each rest (by omega)]
      rfl

private theorem readBack_object {level : Nat} {fields : List (List CodePoint × Json)} (names : (fields.map Prod.fst).Nodup)
    (each : ∀ field ∈ fields, FieldReadBack (level + 1) field) : ReadBack level (object fields) := by
  intro fuel rest _ enough
  rw [render_object] at enough ⊢
  by_cases filled : fields = []
  · subst filled
    rw [List.map_nil, toList_block_nil] at enough ⊢
    cases fuel with
    | zero => cases enough
    | succ fuel => rfl
  · have quoted (field : List CodePoint × Json) : ∃ c text, (fieldText (level + 1) field).toList = c :: text ∧ isSpace c = false ∧
        c ≠ '\x7d' := ⟨'"', _, toList_fieldText _ field, rfl, by decide⟩
    obtain ⟨text, shape, skip, apart, shorter⟩ := skipSpace_block level (show "\x7b".toList = ['\x7b'] from rfl)
      (show "\x7d".toList = ['\x7d'] from rfl) filled (fun field _ => quoted field) rest
    cases fuel with
    | zero => omega
    | succ fuel =>
      rw [shape, value?_object apart, skip, members?_listed filled each rest [] (by omega),
        Entries.foldl_put (by simpa using names), List.nil_append]
      rfl

/-- A value whose doubles are read back by themselves, whose objects have no name twice, and whose texts
are left alone by fusing. -/
inductive Kept : Json → Prop
  | null : Kept null
  | bool (flag : Bool) : Kept (bool flag)
  | integer (n : Int) : Kept (integer n)
  | string {content : List CodePoint} (whole : CodePoint.fuse content = content) : Kept (string content)
  | double {x : Float} (alone : ofText? (double x).toText.toList = some (double x)) : Kept (double x)
  | array {items : List Json} (each : ∀ item ∈ items, Kept item) : Kept (array items)
  | object {fields : List (List CodePoint × Json)} (names : (fields.map Prod.fst).Nodup)
      (whole : ∀ field ∈ fields, CodePoint.fuse field.1 = field.1) (each : ∀ field ∈ fields, Kept field.2) :
      Kept (object fields)

theorem Kept.readBack {value : Json} (kept : Kept value) (level : Nat) : ReadBack level value := by
  induction kept generalizing level with
  | null => exact readBack_of_scalar (by rw [render]; rfl)
  | bool flag => cases flag <;> exact readBack_of_scalar (by rw [render]; rfl)
  | integer n => exact readBack_of_scalar (by rw [render]; exact scalar?_integer n)
  | double alone => exact readBack_of_scalar (by rw [render]; exact scalar?_double alone)
  | string whole => exact readBack_string level whole
  | array _ ih => exact readBack_array fun item inside => ih item inside (level + 1)
  | object names whole _ ih =>
    exact readBack_object names fun field inside => ⟨whole field inside, ih field inside (level + 1)⟩

theorem Kept.ofText? {value : Json} (kept : Kept value) : Json.ofText? value.toText.toList = some value := by
  have read := kept.readBack 0
  obtain ⟨c, more, shape, solid, -⟩ := read.starts
  have skip : skipSpace (render 0 value).toList = (render 0 value).toList := by
    rw [shape]
    exact List.dropWhile_cons_of_neg (by simp [solid])
  have whole := read (2 * (render 0 value).toList.length + 2) [] (fun _ inside => nomatch inside) (by omega)
  rw [List.append_nil] at whole
  rw [Json.ofText?, toText, skip, whole]
  rfl

end Highlight.Json
