import Highlight.Document

/-! Tokens lie in a text like tiles: side by side, with only skipped characters between them.
The relation follows the text from left to right, as readers do. What a token list owes its
text (order, places, gaps) is read off it afterwards. -/

namespace Highlight
open Scan

namespace Token

/-- Whether a token holds the character at an index. An empty token holds none. -/
def covers (token : Token) (index : Int) : Bool := token.start ≤ index && index < token.stop

theorem covers_iff {token : Token} {index : Int} :
    token.covers index = true ↔ token.start ≤ index ∧ index < token.stop := by
  simp [covers]

theorem filled_of_covers {token : Token} {index : Int} (covered : token.covers index = true) :
    token.text.isEmpty = false := by
  obtain ⟨reached, passed⟩ := covers_iff.mp covered
  cases empty : token.text with
  | cons _ _ => rfl
  | nil =>
    simp only [stop, empty, List.length_nil] at passed
    omega

def extent (token : Token) : List Char × Int := (token.text, token.start)

end Token

/-- A text that begins at `offset`, read as skipped characters and tokens. -/
inductive Tiling (skipped : Char → Prop) : Int → List Char → List Token → Prop
  | done {offset : Int} : Tiling skipped offset [] []
  | skip {offset : Int} {c : Char} {rest : List Char} {tokens : List Token}
      (gap : skipped c) (later : Tiling skipped (offset + 1) rest tokens) :
      Tiling skipped offset (c :: rest) tokens
  | token {offset : Int} {piece rest : List Char} {tokens : List Token} (kind : TokenKind)
      (oneLine : '\n' ∉ piece) (later : Tiling skipped (offset + piece.length) rest tokens) :
      Tiling skipped offset (piece ++ rest) (⟨kind, piece, offset⟩ :: tokens)

namespace Tiling

variable {skipped : Char → Prop} {offset : Int} {text : List Char} {tokens : List Token}

theorem append {others : List Token} {more : List Char} (first : Tiling skipped offset text tokens)
    (last : Tiling skipped (offset + text.length) more others) :
    Tiling skipped offset (text ++ more) (tokens ++ others) := by
  induction first with
  | done => simpa using last
  | skip gap _ ih =>
    refine .skip gap (ih ?_)
    simpa only [List.length_cons, Int.natCast_add, Int.natCast_one, Int.add_assoc, Int.add_comm 1] using last
  | token kind oneLine _ ih =>
    rw [List.append_assoc]
    refine .token kind oneLine (ih ?_)
    simpa only [List.length_append, Int.natCast_add, Int.add_assoc] using last

/-- A run of skipped characters in front of a tiled text. -/
theorem skips {run : List Char} (gaps : ∀ c ∈ run, skipped c)
    (later : Tiling skipped (offset + run.length) text tokens) : Tiling skipped offset (run ++ text) tokens := by
  induction run generalizing offset with
  | nil => simpa using later
  | cons c run ih =>
    refine .skip (gaps c (List.mem_cons_self ..)) (ih (fun d member => gaps d (List.mem_cons_of_mem c member)) ?_)
    simpa only [List.length_cons, Int.natCast_add, Int.natCast_one, Int.add_assoc, Int.add_comm 1] using later

theorem shift (tiling : Tiling skipped offset text tokens) (distance : Int) :
    Tiling skipped (offset + distance) text (tokens.map (Token.shift distance)) := by
  induction tiling with
  | done => exact .done
  | skip gap _ ih =>
    refine .skip gap ?_
    simpa only [Int.add_assoc, Int.add_comm 1] using ih
  | token kind oneLine _ ih =>
    refine .token kind oneLine ?_
    simpa only [Int.add_assoc, Int.add_comm distance] using ih

/-- Kinds play no part in a tiling. -/
theorem rekind (tiling : Tiling skipped offset text tokens) {others : List Token}
    (same : others.map Token.extent = tokens.map Token.extent) : Tiling skipped offset text others := by
  induction tiling generalizing others with
  | done =>
    rw [List.map_nil, List.map_eq_nil_iff] at same
    subst others
    exact .done
  | skip gap _ ih => exact .skip gap (ih same)
  | token kind oneLine _ ih =>
    rw [List.map_cons] at same
    obtain ⟨⟨changed, piece, start⟩, later, rfl, first, rest⟩ := List.map_eq_cons_iff.mp same
    cases first
    exact .token changed oneLine (ih rest)

/-- Each token is cut out of the text at the place it names. -/
theorem split (tiling : Tiling skipped offset text tokens) {token : Token} (member : token ∈ tokens) :
    ∃ before after, text = before ++ token.text ++ after ∧ token.start = offset + before.length := by
  induction tiling with
  | done => cases member
  | @skip _ c _ _ _ _ ih =>
    obtain ⟨before, after, rfl, start⟩ := ih member
    refine ⟨c :: before, after, rfl, ?_⟩
    rw [start, List.length_cons]
    omega
  | @token _ piece rest _ kind _ _ ih =>
    rcases List.mem_cons.mp member with rfl | inside
    · exact ⟨[], rest, rfl, by simp⟩
    · obtain ⟨before, after, rfl, start⟩ := ih inside
      refine ⟨piece ++ before, after, by simp, ?_⟩
      rw [start, List.length_append]
      omega

theorem bounds (tiling : Tiling skipped offset text tokens) {token : Token} (member : token ∈ tokens) :
    offset ≤ token.start ∧ token.stop ≤ offset + text.length := by
  obtain ⟨before, after, rfl, start⟩ := tiling.split member
  simp only [Token.stop, start, List.length_append]
  omega

theorem ordered (tiling : Tiling skipped offset text tokens) : tokens.Pairwise fun a b => a.stop ≤ b.start := by
  induction tiling with
  | done => exact .nil
  | skip _ _ ih => exact ih
  | token kind _ later ih =>
    refine List.pairwise_cons.mpr ⟨?_, ih⟩
    intro other member
    exact (later.bounds member).1

theorem oneLine (tiling : Tiling skipped offset text tokens) {token : Token} (member : token ∈ tokens) :
    '\n' ∉ token.text := by
  induction tiling with
  | done => cases member
  | skip _ _ ih => exact ih member
  | token kind clean _ ih =>
    rcases List.mem_cons.mp member with rfl | inside
    · exact clean
    · exact ih inside

/-- A character that no token holds was skipped. -/
theorem gap (tiling : Tiling skipped offset text tokens) {index : Nat} {c : Char} (found : text[index]? = some c)
    (free : ∀ token ∈ tokens, token.covers (offset + index) = false) : skipped c := by
  induction tiling generalizing index with
  | done => simp at found
  | skip here _ ih =>
    cases index with
    | zero =>
      cases found
      exact here
    | succ index =>
      refine ih found fun token member => ?_
      have same := free token member
      rwa [Int.natCast_add, Int.natCast_one, Int.add_comm (index : Int), ← Int.add_assoc] at same
  | @token offset piece rest _ kind _ _ ih =>
    have outside : ¬ index < piece.length := by
      intro inside
      have here : (⟨kind, piece, offset⟩ : Token).covers (offset + index) = true :=
        Token.covers_iff.mpr ⟨by dsimp only; omega, by simp only [Token.stop]; omega⟩
      exact Bool.false_ne_true ((free _ (List.mem_cons_self ..)).symm.trans here)
    obtain ⟨later, rfl⟩ := Nat.exists_eq_add_of_le (Nat.le_of_not_lt outside)
    rw [List.getElem?_append_right (by omega), Nat.add_sub_cancel_left] at found
    refine ih found fun token member => ?_
    have same := free token (List.mem_cons_of_mem _ member)
    rwa [Int.natCast_add, ← Int.add_assoc] at same

end Tiling

end Highlight
