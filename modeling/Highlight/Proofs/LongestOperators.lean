import Highlight.Scan.Operator
import Mathlib.Data.List.Basic

/-! Which operator is read at a place. A table tries the operators that begin with one character from
the longest to the shortest, so the first that fits is the longest that stands there. The operators
alone decide which one that is, in whatever order and however often they are listed. -/

namespace Highlight.Scan

/-- The longest of some operators that a text begins with. The empty one does not count. -/
structure Longest (operators : List (List Char)) (text operator : List Char) : Prop where
  known : operator ∈ operators
  filled : operator ≠ []
  here : operator <+: text
  longest : ∀ other ∈ operators, other <+: text → other.length ≤ operator.length

namespace Longest

variable {operators others : List (List Char)} {text first second : List Char}

theorem unique (one : Longest operators text first) (other : Longest operators text second) : first = second := by
  have shorter := other.longest first one.known one.here
  have longer := one.longest second other.known other.here
  have within : first <+: second := List.prefix_of_prefix_length_le one.here other.here shorter
  exact within.eq_of_length (Nat.le_antisymm shorter longer)

private theorem among (found : Longest operators text first) (same : ∀ operator, operator ∈ others ↔ operator ∈ operators) :
    Longest others text first where
  known := (same first).mpr found.known
  filled := found.filled
  here := found.here
  longest other known := found.longest other ((same other).mp known)

end Longest

namespace OperatorTable

variable {operators others : List (List Char)} {first : Char} {following tail : List Char}

private theorem mem_tailsAfter : tail ∈ tailsAfter first operators ↔ first :: tail ∈ operators := by
  simp only [tailsAfter, List.mem_filterMap]
  constructor
  · rintro ⟨operator, known, found⟩
    cases operator with
    | nil => cases found
    | cons c others =>
      simp only [Option.ite_none_right_eq_some, Option.some.injEq] at found
      obtain ⟨rfl, rfl⟩ := found
      exact known
  · intro known
    exact ⟨first :: tail, known, if_pos rfl⟩

private theorem mem_firsts (known : first :: tail ∈ operators) : first ∈ firsts operators := by
  rw [firsts, List.mem_eraseDups]
  exact List.mem_filterMap.mpr ⟨first :: tail, known, rfl⟩

private theorem insertLongest_append {front : List (List Char)} (longer : ∀ other ∈ front, ¬ other.length ≤ tail.length)
    (back : List (List Char)) : insertLongest tail (front ++ back) = front ++ insertLongest tail back := by
  induction front with
  | nil => rfl
  | cons other others ih =>
    obtain ⟨here, rest⟩ := List.forall_mem_cons.mp longer
    rw [List.cons_append, insertLongest, if_neg here, ih rest, List.cons_append]

private theorem insertLongest_of_shorter {back : List (List Char)} (shorter : ∀ other ∈ back, other.length ≤ tail.length) :
    insertLongest tail back = tail :: back := by
  cases back with
  | nil => rfl
  | cons other others => exact if_pos (shorter other (List.mem_cons_self ..))

private theorem longer_trans (a b c : List Char) (first : decide (b.length ≤ a.length) = true)
    (second : decide (c.length ≤ b.length) = true) : decide (c.length ≤ a.length) = true :=
  decide_eq_true (Nat.le_trans (of_decide_eq_true second) (of_decide_eq_true first))

private theorem longer_total (a b : List Char) : (decide (b.length ≤ a.length) || decide (a.length ≤ b.length)) = true := by
  rw [Bool.or_eq_true, decide_eq_true_eq, decide_eq_true_eq]
  exact Nat.le_total ..

/-- Putting one after the other in its place sorts, and keeps those of one length in their order. -/
theorem longestFirst_eq_mergeSort (tails : List (List Char)) :
    longestFirst tails = tails.mergeSort fun a b => b.length ≤ a.length := by
  induction tails with
  | nil => exact List.mergeSort_nil.symm
  | cons tail others ih =>
    obtain ⟨front, back, whole, rest, longer⟩ := List.mergeSort_cons longer_trans longer_total tail others
    have sorted := List.pairwise_mergeSort longer_trans longer_total (tail :: others)
    rw [whole] at sorted
    have shorter : ∀ other ∈ back, other.length ≤ tail.length := fun other member =>
      of_decide_eq_true (List.rel_of_pairwise_cons (List.pairwise_append.mp sorted).2.1 member)
    calc longestFirst (tail :: others) = insertLongest tail (front ++ back) := by rw [← rest, ← ih]; rfl
      _ = front ++ insertLongest tail back := insertLongest_append (fun other member => by simpa using longer other member) back
      _ = front ++ tail :: back := by rw [insertLongest_of_shorter shorter]
      _ = _ := whole.symm

/-- A character that begins no operator has no group, and nothing stands beside it. -/
theorem tails_ofList (operators : List (List Char)) (first : Char) :
    (ofList operators).tails first = longestFirst (tailsAfter first operators) := by
  rw [tails, ofList]
  by_cases begins : first ∈ firsts operators
  · rw [List.lookup_graph _ begins, Option.getD_some]
  · have absent : ((firsts operators).map fun c => (c, longestFirst (tailsAfter c operators))).lookup first = none := by
      apply List.lookup_eq_none_iff.mpr
      simp only [List.forall_mem_map, bne_iff_ne]
      rintro c member rfl
      exact begins member
    have empty : tailsAfter first operators = [] := by
      apply List.eq_nil_iff_forall_not_mem.mpr
      exact fun tail member => begins (mem_firsts (mem_tailsAfter.mp member))
    rw [absent, empty]
    rfl

private theorem mem_tails_ofList : tail ∈ (ofList operators).tails first ↔ first :: tail ∈ operators := by
  rw [tails_ofList, longestFirst_eq_mergeSort, List.mem_mergeSort, mem_tailsAfter]

private theorem pairwise_tails_ofList (operators : List (List Char)) (first : Char) :
    ((ofList operators).tails first).Pairwise fun a b => b.length ≤ a.length := by
  rw [tails_ofList, longestFirst_eq_mergeSort]
  exact (List.pairwise_mergeSort longer_trans longer_total _).imp of_decide_eq_true

/-- Where longer ones come first, nothing that fits is longer than the first that fits. -/
theorem length_le_of_find? {tails : List (List Char)} {fits : List Char → Bool} {other : List Char}
    (sorted : tails.Pairwise fun a b => b.length ≤ a.length) (found : tails.find? fits = some tail)
    (member : other ∈ tails) (otherFits : fits other = true) : other.length ≤ tail.length := by
  obtain ⟨-, before, after, rfl, passed⟩ := List.find?_eq_some_iff_append.mp found
  rcases List.mem_append.mp member with earlier | later
  · have apart := passed other earlier
    rw [otherFits] at apart
    cases apart
  · rcases List.mem_cons.mp later with rfl | later
    · exact Nat.le_refl _
    · exact List.rel_of_pairwise_cons (List.pairwise_append.mp sorted).2.1 later

private theorem longest_of_munch? (found : (ofList operators).munch? first following = some tail) :
    Longest operators (first :: following) (first :: tail) := by
  have known : first :: tail ∈ operators := mem_tails_ofList.mp (List.mem_of_find?_eq_some found)
  refine ⟨known, List.cons_ne_nil _ _, List.cons_prefix_cons.mpr ⟨rfl, munch?_stands found⟩, ?_⟩
  intro other otherKnown otherHere
  cases other with
  | nil => exact Nat.zero_le _
  | cons c otherTail =>
    obtain ⟨rfl, behind⟩ := List.cons_prefix_cons.mp otherHere
    have shorter := length_le_of_find? (pairwise_tails_ofList operators c) found (mem_tails_ofList.mpr otherKnown)
      (List.isPrefixOf_iff_prefix.mpr behind)
    exact Nat.succ_le_succ shorter

private theorem munch?_eq_none_iff :
    (ofList operators).munch? first following = none ↔
      ∀ operator ∈ operators, operator ≠ [] → ¬ operator <+: first :: following := by
  rw [munch?, List.find?_eq_none]
  constructor
  · intro passed operator known filled here
    obtain ⟨c, tail, rfl⟩ := List.exists_cons_of_ne_nil filled
    obtain ⟨rfl, behind⟩ := List.cons_prefix_cons.mp here
    exact passed tail (mem_tails_ofList.mpr known) (List.isPrefixOf_iff_prefix.mpr behind)
  · intro nowhere tail member fits
    have here : first :: tail <+: first :: following := List.cons_prefix_cons.mpr ⟨rfl, List.isPrefixOf_iff_prefix.mp fits⟩
    exact nowhere _ (mem_tails_ofList.mp member) (List.cons_ne_nil _ _) here

private theorem munch?_eq_some_iff :
    (ofList operators).munch? first following = some tail ↔ Longest operators (first :: following) (first :: tail) := by
  constructor
  · exact longest_of_munch?
  · intro longest
    cases found : (ofList operators).munch? first following with
    | none => exact absurd longest.here (munch?_eq_none_iff.mp found _ longest.known longest.filled)
    | some other =>
      obtain ⟨-, rfl⟩ := List.cons.inj ((longest_of_munch? found).unique longest)
      rfl

private theorem read_of_longest (longest : Longest operators (first :: following) (first :: tail)) :
    (ofList operators).read first following = ⟨some .operator, ⟨tail, following.drop tail.length⟩, .neutral⟩ := by
  rw [read, munch?_eq_some_iff.mpr longest]

private theorem read_of_none (nowhere : ∀ operator ∈ operators, operator ≠ [] → ¬ operator <+: first :: following) :
    (ofList operators).read first following = ⟨some .error, Cut.none following, .neutral⟩ := by
  rw [read, munch?_eq_none_iff.mpr nowhere]

private theorem read_congr (same : ∀ operator, operator ∈ others ↔ operator ∈ operators) (first : Char)
    (following : List Char) :
    (ofList others).read first following = (ofList operators).read first following := by
  have munched : (ofList others).munch? first following = (ofList operators).munch? first following := by
    apply Option.ext
    intro tail
    rw [munch?_eq_some_iff, munch?_eq_some_iff]
    exact ⟨fun longest => longest.among fun operator => (same operator).symm, fun longest => longest.among same⟩
  rw [read, read, munched]

end OperatorTable

/-- At every place of a text one token is read, and what follows it is left. The token is the longest
operator that stands there or, if none does, the one character that stands there as an error. Lists
of the same operators read alike. -/
theorem operators_are_munched (operators : List (List Char)) (before : List Char) (c : Char) (following : List Char) :
    let reading := (OperatorTable.ofList operators).read c following
    (∃ token : Token,
      place before.length [⟨reading.kind, c :: reading.body.taken⟩] = [token] ∧
      reading.body.rest = (before ++ c :: following).drop (before.length + token.text.length) ∧
      (token.kind = .operator ∧ Longest operators (c :: following) token.text ∨ token.kind = .error ∧ token.text = [c]) ∧
      (token.kind = .error ↔ ∀ operator ∈ operators, operator ≠ [] → ¬ operator <+: c :: following)) ∧
    ∀ others : List (List Char), (∀ operator, operator ∈ others ↔ operator ∈ operators) →
      (OperatorTable.ofList others).read c following = reading := by
  intro reading
  refine ⟨?_, fun others same => OperatorTable.read_congr same c following⟩
  have left : ∀ tail : List Char,
      (before ++ c :: following).drop (before.length + (c :: tail).length) = following.drop tail.length := by
    intro tail
    rw [← List.drop_drop, List.drop_left, List.length_cons, List.drop_succ_cons]
  cases found : (OperatorTable.ofList operators).munch? c following with
  | some tail =>
    have longest := OperatorTable.longest_of_munch? found
    have read : reading = ⟨some .operator, ⟨tail, following.drop tail.length⟩, .neutral⟩ := OperatorTable.read_of_longest longest
    refine ⟨⟨.operator, c :: tail, before.length⟩, ?_⟩
    rw [read]
    refine ⟨rfl, (left tail).symm, Or.inl ⟨rfl, longest⟩, nofun, ?_⟩
    intro nowhere
    exact absurd longest.here (nowhere _ longest.known longest.filled)
  | none =>
    have nowhere := OperatorTable.munch?_eq_none_iff.mp found
    have read : reading = ⟨some .error, Cut.none following, .neutral⟩ := OperatorTable.read_of_none nowhere
    refine ⟨⟨.error, [c], before.length⟩, ?_⟩
    rw [read]
    exact ⟨rfl, (left []).symm, Or.inr ⟨rfl, rfl⟩, fun _ => nowhere, fun _ => rfl⟩

/-- Here an operator stands that is the front of a longer one, which does not stand there, and the
text ends inside that. -/
theorem operators_are_munched_reordered :
    let listed := [['='], ['=', '>'], [], ['=', '=', '='], ['=']]
    let reordered := [['=', '=', '='], [], ['=', '>'], ['=']]
    (∀ operator : List Char, operator ∈ reordered ↔ operator ∈ listed) ∧
      (OperatorTable.ofList reordered).read '=' ['='] = (OperatorTable.ofList listed).read '=' ['='] ∧
      (OperatorTable.ofList listed).read '=' ['='] = ⟨some .operator, ⟨[], ['=']⟩, .neutral⟩ := by
  intro listed reordered
  have same : ∀ operator : List Char, operator ∈ reordered ↔ operator ∈ listed := by
    intro operator
    simp only [listed, reordered, List.mem_cons, List.not_mem_nil, or_false]
    grind
  have shortest : Longest listed ['=', '='] ['='] :=
    ⟨by decide, by decide, ⟨['='], rfl⟩, by decide⟩
  exact ⟨same, (operators_are_munched listed ['a'] '=' ['=']).2 reordered same, OperatorTable.read_of_longest shortest⟩

end Highlight.Scan
