import Highlight.Document
import Highlight.Grammar.State
import Mathlib.Tactic.Basic

/-! Reading by positions. The scanners take lines apart from the front and cannot miss anything
there. The same reading can be done with a position that moves over the line: then a place may be
asked for where nothing stands, and a loop may go on for ever. Both are faults here, so that a
reading can be shown to have none. -/

namespace Highlight.Scan

inductive Fault
  /-- Nothing stands at a position. -/
  | outside (position : Nat)
  /-- A table has no entry for a key. -/
  | missing (key : Char)
  | foreign (state : ForeignState)
  | unregistered (language : NoGrammar)
  /-- A loop takes more turns than there are characters or tokens to take. -/
  | unending
deriving DecidableEq, Repr

section Items

variable {α : Type} {items : List α} {position : Nat}

def itemAt (items : List α) (position : Nat) : Except Fault α :=
  match items[position]? with
  | some item => .ok item
  | none => .error (.outside position)

def itemAt? (items : List α) (position : Nat) : Except Fault (Option α) :=
  if position < items.length then do
    let item ← itemAt items position
    .ok (some item)
  else .ok none

private theorem itemAt_eq {item : α} (found : items[position]? = some item) : itemAt items position = .ok item := by
  rw [itemAt, found]

private theorem itemAt?_eq (items : List α) (position : Nat) : itemAt? items position = .ok items[position]? := by
  unfold itemAt?
  split
  next inside =>
    have found := List.getElem?_eq_getElem inside
    rw [itemAt_eq found, found]
    rfl
  next outside => rw [List.getElem?_eq_none (Nat.le_of_not_lt outside)]

end Items

def testAt (member : Char → Bool) (line : List Char) (position : Nat) : Except Fault Bool := do
  let c ← itemAt? line position
  .ok (c.any member)

theorem testAt_eq (member : Char → Bool) (text : List Char) (position : Nat) :
    testAt member text position = .ok (text[position]?.any member) := by
  rw [testAt, itemAt?_eq]
  rfl

theorem testAt_behind (member : Char → Bool) {line : List Char} {position : Nat} (behind : line.length ≤ position) :
    testAt member line position = .ok false := by
  rw [testAt_eq, List.getElem?_eq_none behind]
  rfl

def slice (line : List Char) (start stop : Nat) : List Char := (line.take stop).drop start

section Loops

variable {σ : Type} {turn : σ → Except Fault (ForInStep σ)} {turns : Nat} {state next last : σ}

def loop (turn : σ → Except Fault (ForInStep σ)) : Nat → σ → Except Fault σ
  | 0, _ => .error .unending
  | turns + 1, state => do
    match ← turn state with
    | .done last => .ok last
    | .yield next => loop turn turns next

/-- The loop ends, and so many turns are enough for it. -/
def EndsWithin (turn : σ → Except Fault (ForInStep σ)) (turns : Nat) (state last : σ) : Prop :=
  ∀ allowed, turns ≤ allowed → loop turn allowed state = .ok last

namespace EndsWithin

theorem done (here : turn state = .ok (.done last)) : EndsWithin turn (turns + 1) state last := by
  intro allowed enough
  cases allowed with
  | zero => exact absurd enough (Nat.not_succ_le_zero _)
  | succ left =>
    rw [loop, here]
    rfl

theorem yield (here : turn state = .ok (.yield next)) (later : EndsWithin turn turns next last) :
    EndsWithin turn (turns + 1) state last := by
  intro allowed enough
  cases allowed with
  | zero => exact absurd enough (Nat.not_succ_le_zero _)
  | succ left =>
    rw [loop, here]
    exact later left (Nat.le_of_succ_le_succ enough)

theorem mono {more : Nat} (ends : EndsWithin turn turns state last) (fewer : turns ≤ more) : EndsWithin turn more state last :=
  fun allowed enough => ends allowed (Nat.le_trans fewer enough)

end EndsWithin

end Loops

/-- What stands in a line, or among tokens, from a position on. -/
structure Stands {α : Type} (line : List α) (position : Nat) (text : List α) : Prop where
  inside : position ≤ line.length
  behind : line.drop position = text

namespace Stands

section

variable {α : Type} {items text following taken rest : List α} {position : Nat} {item : α}

theorem length (stands : Stands items position text) : position + text.length = items.length := by
  rw [← stands.behind, List.length_drop]
  exact Nat.add_sub_cancel' stands.inside

theorem lt_length (stands : Stands items position (item :: following)) : position < items.length := by
  rw [← stands.length]
  exact Nat.lt_add_of_pos_right (Nat.zero_lt_succ _)

/-- As many turns as a loop over the items may take are enough for one over a part of it. -/
theorem turns_le (stands : Stands items position text) : text.length + 1 ≤ items.length + 1 := by
  rw [← stands.length]
  exact Nat.succ_le_succ (Nat.le_add_left ..)

theorem drop (stands : Stands items position text) (distance : Nat) : items.drop (position + distance) = text.drop distance := by
  rw [← List.drop_drop, stands.behind]

theorem skip (stands : Stands items position (taken ++ rest)) : Stands items (position + taken.length) rest := by
  refine ⟨?_, ?_⟩
  · rw [← stands.length, List.length_append]
    omega
  · rw [stands.drop, List.drop_left]

theorem next (stands : Stands items position (item :: following)) : Stands items (position + 1) following := by
  have first : Stands items position ([item] ++ following) := stands
  exact first.skip

private theorem getElem? (stands : Stands items position text) : items[position]? = text.head? := by
  rw [← stands.behind, List.head?_drop]

theorem itemAt (stands : Stands items position (item :: following)) : Scan.itemAt items position = .ok item :=
  itemAt_eq stands.getElem?

theorem itemAt? (stands : Stands items position text) : Scan.itemAt? items position = .ok text.head? := by
  rw [itemAt?_eq, stands.getElem?]

end

variable {line text taken rest : List Char} {position : Nat}

theorem covers {cut : Cut} (stands : Stands line position text) (covers : cut.Covers text) :
    Stands line (position + cut.taken.length) cut.rest := by
  have joined : cut.taken ++ cut.rest = text := covers
  rw [← joined] at stands
  exact stands.skip

theorem testAt (stands : Stands line position text) (member : Char → Bool) :
    Scan.testAt member line position = .ok (text.head?.any member) := by
  rw [testAt_eq, stands.getElem?]

theorem slice (stands : Stands line position (taken ++ rest)) :
    Scan.slice line position (position + taken.length) = taken := by
  rw [Scan.slice, List.drop_take, stands.behind, Nat.add_sub_cancel_left, List.take_left]

end Stands

namespace Cut

variable {member : Char → Bool} {c : Char}

theorem run_cons (inside : member c = true) (following : List Char) : run member (c :: following) = (run member following).push c := by
  rw [run, List.takeWhile_cons_of_pos inside, List.dropWhile_cons_of_pos inside]
  rfl

theorem run_stop (outside : member c = false) (following : List Char) : run member (c :: following) = none (c :: following) := by
  have stops : ¬ member c = true := Bool.eq_false_iff.mp outside
  rw [run, List.takeWhile_cons_of_neg stops, List.dropWhile_cons_of_neg stops]
  rfl

/-- How far a cut goes that takes one character more in front. -/
theorem length_push (c : Char) (cut : Cut) (position : Nat) :
    position + (cut.push c).taken.length = position + 1 + cut.taken.length := by
  rw [push, List.length_cons]
  omega

end Cut

theorem Tail.length_push (c : Char) (tail : Tail) (position : Nat) :
    position + (tail.push c).taken.length = position + 1 + tail.taken.length := by
  rw [push, List.length_cons]
  omega

/-- A reading by positions that goes as far as a cut takes. -/
structure Skips (line : List Char) (skip : Nat → Except Fault Nat) (cut : List Char → Cut) : Prop where
  covers : ∀ text, (cut text).Covers text
  reaches : ∀ position text, Stands line position text → skip position = .ok (position + (cut text).taken.length)

theorem Skips.followedBy {line : List Char} {first second : Nat → Except Fault Nat} {cut reader : List Char → Cut}
    (begins : Skips line first cut) (goesOn : Skips line second reader) :
    Skips line (fun position => first position >>= second) fun text => (cut text).followedBy reader := by
  refine ⟨fun text => Cut.followedBy_covers (begins.covers text) goesOn.covers, fun position text stands => ?_⟩
  have later := goesOn.reaches _ _ (stands.covers (begins.covers text))
  simp only [begins.reaches position text stands, Cut.followedBy, List.length_append, ← Nat.add_assoc]
  exact later

def skipTurn (member : Char → Bool) (line : List Char) (position : Nat) : Except Fault (ForInStep Nat) := do
  if ← testAt member line position then .ok (.yield (position + 1)) else .ok (.done position)

def skipWhile (member : Char → Bool) (line : List Char) (position : Nat) : Except Fault Nat :=
  loop (skipTurn member line) (line.length + 1) position

private theorem skipTurn_ends (member : Char → Bool) {line text : List Char} {position : Nat}
    (stands : Stands line position text) :
    EndsWithin (skipTurn member line) (text.length + 1) position (position + (Cut.run member text).taken.length) := by
  induction text generalizing position with
  | nil =>
    apply EndsWithin.done
    rw [skipTurn, stands.testAt]
    rfl
  | cons c following ih =>
    cases inside : member c with
    | true =>
      rw [Cut.run_cons inside, Cut.length_push]
      refine EndsWithin.yield ?_ (ih stands.next)
      rw [skipTurn, stands.testAt]
      simp only [List.head?_cons, Option.any_some, inside]
      rfl
    | false =>
      rw [Cut.run_stop inside]
      apply EndsWithin.done
      rw [skipTurn, stands.testAt]
      simp only [List.head?_cons, Option.any_some, inside]
      rfl

theorem skipWhile_skips (member : Char → Bool) (line : List Char) : Skips line (skipWhile member line) (Cut.run member) := by
  refine ⟨Cut.run_covers member, fun position text stands => ?_⟩
  exact skipTurn_ends member stands _ stands.turns_le

def skipOne (member : Char → Bool) (line : List Char) (position : Nat) : Except Fault Nat := do
  if ← testAt member line position then .ok (position + 1) else .ok position

section Marks

variable {text : List Char}

theorem any_head?_eq_false {mark : Char} (other : ∀ following, text = mark :: following → False) :
    text.head?.any (· == mark) = false := by
  cases text with
  | nil => rfl
  | cons c following =>
    refine beq_eq_false_iff_ne.mpr fun same => ?_
    exact other following (congrArg (· :: following) same)

theorem head?_beq_eq_false {mark : Char} (other : ∀ following, text = mark :: following → False) :
    (text.head? == some mark) = false := by
  refine beq_eq_false_iff_ne.mpr fun same => ?_
  obtain ⟨following, text⟩ := List.head?_eq_some_iff.mp same
  exact other following text

theorem any_head?_or_eq_false {first second : Char} (one : ∀ following, text = first :: following → False)
    (other : ∀ following, text = second :: following → False) : text.head?.any (fun c => c == first || c == second) = false := by
  have neither := And.intro (any_head?_eq_false one) (any_head?_eq_false other)
  cases text with
  | nil => rfl
  | cons c following => exact Bool.or_eq_false_iff.mpr neither

end Marks

/-- A position in a line, with the tokens read before it and what is open there. -/
structure Head where
  position : Nat := 0
  tokens : List Token := []
  carry : Carry := Carry.neutral

def Head.emit (head : Head) (line : List Char) (kind : TokenKind) (start stop : Nat) : Head :=
  { head with position := stop, tokens := head.tokens ++ [⟨kind, slice line start stop, start⟩] }

def Head.after (head : Head) (c : Char) (reading : Reading) (carry : Carry) : Head where
  position := head.position + 1 + reading.body.taken.length
  tokens := head.tokens ++ place head.position [⟨reading.kind, c :: reading.body.taken⟩]
  carry := carry

/-- A piece is read without a fault. What is open after it depends on the piece alone if nothing was
open before. -/
def Head.ReadsAs (head : Head) (read : Head → Except Fault Head) (c : Char) (reading : Reading) : Prop :=
  ∃ carry, read head = .ok (head.after c reading carry) ∧ (head.carry = Carry.neutral → carry = reading.carry)

/-- A text that begins so is read like that wherever it stands. -/
def ReadsAs (line : List Char) (read : Head → Except Fault Head) (c : Char) (following : List Char) (reading : Reading) : Prop :=
  ∀ head : Head, Stands line head.position (c :: following) → head.ReadsAs read c reading

variable {line following : List Char} {c : Char} {head : Head}

/-- What lies between a position and the end of a piece that stands there. -/
theorem Stands.piece {position : Nat} (stands : Stands line position (c :: following)) {body : Cut} (covers : body.Covers following) :
    Scan.slice line position (position + 1 + body.taken.length) = c :: body.taken := by
  have joined : body.taken ++ body.rest = following := covers
  have whole : Stands line position ((c :: body.taken) ++ body.rest) := by
    rw [List.cons_append, joined]
    exact stands
  have text := whole.slice
  rwa [List.length_cons, Nat.add_comm _ 1, ← Nat.add_assoc] at text

/-- A reader that adds one token and leaves open what was open. -/
theorem ReadsAs.of_emit {read : Head → Except Fault Head} {kind : TokenKind} {body : Cut} (covers : body.Covers following)
    (emits : ∀ head : Head, Stands line head.position (c :: following) →
      read head = .ok (head.emit line kind head.position (head.position + 1 + body.taken.length))) :
    ReadsAs line read c following ⟨some kind, body, .neutral⟩ := by
  intro head stands
  refine ⟨head.carry, ?_, id⟩
  simp only [emits head stands, Head.emit, Head.after, place, stands.piece covers]

theorem emit_one_reads (kind : TokenKind) (following : List Char) :
    ReadsAs line (fun head => .ok (head.emit line kind head.position (head.position + 1))) c following
      ⟨some kind, Cut.none following, .neutral⟩ :=
  ReadsAs.of_emit (Cut.none_covers following) fun _ _ => rfl

theorem emit_all_reads (kind : TokenKind) (following : List Char) :
    ReadsAs line (fun head => .ok (head.emit line kind head.position line.length)) c following
      ⟨some kind, Cut.all following, .neutral⟩ := by
  refine ReadsAs.of_emit (Cut.all_covers following) fun head stands => ?_
  rw [← stands.next.length]
  rfl

def readBlanks (line : List Char) (head : Head) : Except Fault Head := do
  let stop ← skipWhile isSpace line (head.position + 1)
  .ok { head with position := stop }

theorem readBlanks_reads (following : List Char) :
    ReadsAs line (readBlanks line) c following ⟨none, Cut.run isSpace following, .neutral⟩ := by
  intro head stands
  refine ⟨head.carry, ?_, id⟩
  simp only [readBlanks, (skipWhile_skips isSpace line).reaches _ _ stands.next, Head.after, place, List.append_nil]
  rfl

end Highlight.Scan
