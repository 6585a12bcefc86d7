/-! Lists of named entries. Each name stands once, at the place where it first came, with the
value it was given last. -/

namespace Highlight.Entries

variable {κ β : Type} [BEq κ]

/-- Gives a name a value. A name that is already there keeps its place. -/
def put (name : κ) (value : β) : List (κ × β) → List (κ × β)
  | [] => [(name, value)]
  | (other, old) :: others =>
    if other == name then (name, value) :: others else (other, old) :: put name value others

theorem lookup_put [LawfulBEq κ] (name wanted : κ) (value : β) (entries : List (κ × β)) :
    (put name value entries).lookup wanted = if wanted == name then some value else entries.lookup wanted := by
  induction entries with
  | nil => cases same : wanted == name <;> simp [put, List.lookup_cons, same]
  | cons entry others ih =>
    obtain ⟨other, old⟩ := entry
    unfold put
    by_cases first : other = name
    · subst first
      cases same : wanted == other <;> simp [List.lookup_cons, same]
    · simp only [beq_iff_eq, first, if_false, List.lookup_cons, ih]
      cases same : wanted == other with
      | false => simp
      | true =>
        have apart : (wanted == name) = false := by
          rw [eq_of_beq same]
          simpa using first
        simp [apart]

theorem put_of_not_mem [LawfulBEq κ] {name : κ} {entries : List (κ × β)} (fresh : name ∉ entries.map Prod.fst) (value : β) :
    put name value entries = entries ++ [(name, value)] := by
  induction entries with
  | nil => rfl
  | cons entry others ih =>
    obtain ⟨first, rest⟩ := not_or.mp (mt List.mem_cons.mpr fresh)
    rw [put, if_neg (by simpa using Ne.symm first), ih rest, List.cons_append]

/-- Entries without a name that comes twice are what they were. -/
theorem foldl_put [LawfulBEq κ] {known entries : List (κ × β)} (apart : ((known ++ entries).map Prod.fst).Nodup) :
    entries.foldl (fun known entry => put entry.1 entry.2 known) known = known ++ entries := by
  induction entries generalizing known with
  | nil => rw [List.foldl_nil, List.append_nil]
  | cons entry others ih =>
    have fresh : entry.1 ∉ known.map Prod.fst := by
      rw [List.map_append, List.nodup_append] at apart
      exact fun inside => apart.2.2 _ inside _ List.mem_cons_self rfl
    rw [List.foldl_cons, put_of_not_mem fresh, ih (by simpa using apart), List.append_assoc, List.singleton_append]

end Highlight.Entries
