/-! A reader cuts a line in two: what it takes from the front and what it leaves. Readers
are built so that the two parts together are always the line they were given, whatever the
line holds, so nothing is lost between tokens and every scan comes to its end. -/

namespace Highlight.Scan

/-- What a reader takes from the front of a line, and what it leaves. -/
structure Cut where
  taken : List Char
  rest : List Char
deriving DecidableEq, Repr

namespace Cut

def Covers (cut : Cut) (line : List Char) : Prop := cut.taken ++ cut.rest = line

def none (line : List Char) : Cut := ⟨[], line⟩

def all (line : List Char) : Cut := ⟨line, []⟩

def run (member : Char → Bool) (line : List Char) : Cut := ⟨line.takeWhile member, line.dropWhile member⟩

def push (c : Char) (cut : Cut) : Cut := { cut with taken := c :: cut.taken }

def followedBy (cut : Cut) (reader : List Char → Cut) : Cut :=
  let next := reader cut.rest
  ⟨cut.taken ++ next.taken, next.rest⟩

theorem none_covers (line : List Char) : (none line).Covers line := rfl

theorem all_covers (line : List Char) : (all line).Covers line := by simp [all, Covers]

theorem run_covers (member : Char → Bool) (line : List Char) : (run member line).Covers line :=
  List.takeWhile_append_dropWhile

theorem run_append {member : Char → Bool} {text rest : List Char} (inside : ∀ c ∈ text, member c = true)
    (outside : ∀ c ∈ rest.head?, member c = false) : run member (text ++ rest) = ⟨text, rest⟩ := by
  have stops : rest.takeWhile member = [] ∧ rest.dropWhile member = rest := by
    cases rest with
    | nil => exact ⟨rfl, rfl⟩
    | cons c rest => simp [outside c rfl]
  rw [run, List.takeWhile_append_of_pos inside, List.dropWhile_append_of_pos inside, stops.1, stops.2, List.append_nil]

theorem push_covers {cut : Cut} {line : List Char} (c : Char) (whole : cut.Covers line) :
    (cut.push c).Covers (c :: line) := by
  simpa [Covers, push] using whole

theorem followedBy_covers {cut : Cut} {line : List Char} {reader : List Char → Cut} (whole : cut.Covers line)
    (keeps : ∀ text, (reader text).Covers text) : (cut.followedBy reader).Covers line := by
  have next := keeps cut.rest
  simp only [Covers, followedBy, List.append_assoc] at *
  rw [next, whole]

theorem Covers.rest_length_le {cut : Cut} {line : List Char} (whole : cut.Covers line) :
    cut.rest.length ≤ line.length := by
  rw [← whole, List.length_append]
  omega

end Cut

/-- A cut of a construct that may have been left unfinished. -/
structure Tail extends Cut where
  complete : Bool
deriving DecidableEq, Repr

namespace Tail

def push (c : Char) (tail : Tail) : Tail := { tail with taken := c :: tail.taken }

/-- Goes on with the next part of a construct, unless the first part is already unfinished. -/
def followedBy (tail : Tail) (reader : List Char → Tail) : Tail :=
  if tail.complete then
    let next := reader tail.rest
    ⟨⟨tail.taken ++ next.taken, next.rest⟩, next.complete⟩
  else tail

theorem followedBy_of_complete {tail : Tail} {reader : List Char → Tail} (complete : tail.complete = true) :
    tail.followedBy reader = ⟨⟨tail.taken ++ (reader tail.rest).taken, (reader tail.rest).rest⟩, (reader tail.rest).complete⟩ := by
  rw [followedBy, if_pos complete]

theorem complete_of_followedBy {tail : Tail} {reader : List Char → Tail}
    (complete : (tail.followedBy reader).complete = true) : tail.complete = true := by
  unfold followedBy at complete
  split at complete
  next finished => exact finished
  next => exact complete

theorem push_followedBy (c : Char) (tail : Tail) (reader : List Char → Tail) :
    (tail.push c).followedBy reader = (tail.followedBy reader).push c := by
  obtain ⟨cut, complete⟩ := tail
  cases complete <;> rfl

theorem push_covers {tail : Tail} {line : List Char} (c : Char) (whole : tail.Covers line) :
    (tail.push c).Covers (c :: line) := by
  simpa [Cut.Covers, push] using whole

theorem followedBy_covers {tail : Tail} {line : List Char} {reader : List Char → Tail} (whole : tail.Covers line)
    (keeps : ∀ text, (reader text).Covers text) : (tail.followedBy reader).Covers line := by
  unfold followedBy
  split
  · have next := keeps tail.rest
    simp only [Cut.Covers, List.append_assoc] at *
    rw [next, whole]
  · exact whole

end Tail

end Highlight.Scan
