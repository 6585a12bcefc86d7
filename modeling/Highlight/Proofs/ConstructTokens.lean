import Highlight.Proofs.LineContinuation
import Mathlib.Data.List.Forall2

/-! The tokens of comments and template literals in whole scripts. Where code is read, a construct
that opens is reported from there to the end that the text gives it, line by line and without
the line feeds, and code is read again right behind its end. -/

namespace Highlight
open Scan

/-- A token with its role, beside the token that was scanned. Only names and keywords play roles. -/
structure Token.Plays (token scanned : Token) : Prop where
  extent : token.extent = scanned.extent
  kind : token.kind = scanned.kind ∨ scanned.kind = .identifier ∨ scanned.kind = .keyword

namespace Token

theorem Plays.shift {token scanned : Token} (plays : token.Plays scanned) (distance : Int) :
    (token.shift distance).Plays (scanned.shift distance) := by
  obtain ⟨text, start⟩ := Prod.mk.inj plays.extent
  refine ⟨?_, plays.kind⟩
  simp only [Token.extent, Token.shift, text, start]

theorem scriptRole_kind (token : Token) (afterAccess : Bool) (next : Option Token) :
    token.scriptRole afterAccess next = token.kind ∨ token.kind = .identifier ∨ token.kind = .keyword := by
  unfold scriptRole
  split
  next called =>
    have name : (token.kind == .identifier || token.isSelf) = true := (Bool.and_eq_true_iff.mp called).1
    rcases Bool.or_eq_true_iff.mp name with identifier | self
    · exact Or.inr (Or.inl (eq_of_beq identifier))
    · exact Or.inr (Or.inr (eq_of_beq (Bool.and_eq_true_iff.mp self).1))
  split
  next accessed => exact Or.inr (Or.inl (eq_of_beq (Bool.and_eq_true_iff.mp accessed).1))
  · exact Or.inl rfl

end Token

private theorem scriptRoles_play (afterAccess : Bool) (tokens : List Token) :
    List.Forall₂ Token.Plays (scriptRoles afterAccess tokens) tokens := by
  induction tokens generalizing afterAccess with
  | nil => exact .nil
  | cons token others ih => exact .cons ⟨rfl, token.scriptRole_kind afterAccess others.head?⟩ (ih token.isAccess)

theorem Grammar.lines_play {grammar : Grammar} (script : grammar = .javascript ∨ grammar = .typescript) (dialect : String)
    (state : ScriptState) (offset : Nat) (lines : List (List Char)) :
    List.Forall₂ Token.Plays (grammar.lines dialect state offset lines)
      (lineTokens (vocabulary dialect) state.carry offset lines) := by
  induction lines generalizing state offset with
  | nil => exact .nil
  | cons first others ih =>
    have line : grammar.line dialect state first = scriptLine (vocabulary dialect) state first := by
      rcases script with rfl | rfl <;> rfl
    have roles := scriptRoles_play state.inElement
      (place 0 (ScriptLine.lexemes (vocabulary dialect) true state.carry first).1)
    have shifted := List.forall₂_map_left_iff.mpr (List.forall₂_map_right_iff.mpr (roles.imp fun _ _ plays => plays.shift offset))
    rw [map_shift_place, Int.zero_add] at shifted
    rw [Grammar.lines, line, lineTokens]
    exact List.rel_append shifted (ih _ (offset + first.length + 1))

def Grammar.codePlaces (grammar : Grammar) (dialect : String) (text : List Char) : List Nat :=
  Scan.codePlaces (vocabulary (if dialect = "" then grammar.ownDialect else dialect)) .neutral 0 (Text.lines text)

namespace Reads

variable {offset : Nat} {text : List Char} {places : List Nat} {tokens : List Token}

private theorem eq_of_plays {others scanned : List Token} (played : List.Forall₂ Token.Plays others scanned)
    (fixed : ∀ token ∈ scanned, token.kind ≠ .identifier ∧ token.kind ≠ .keyword) : others = scanned := by
  induction played with
  | nil => rfl
  | @cons token original others scanned plays _ ih =>
    have later := ih fun token member => fixed token (List.mem_cons_of_mem _ member)
    obtain ⟨identifier, keyword⟩ := fixed original (List.mem_cons_self ..)
    have kind : token.kind = original.kind := by
      rcases plays.kind with same | impossible | impossible
      · exact same
      · exact absurd impossible identifier
      · exact absurd impossible keyword
    obtain ⟨text, start⟩ := Prod.mk.inj plays.extent
    obtain ⟨_, _, _⟩ := token
    obtain ⟨_, _, _⟩ := original
    cases kind
    cases text
    cases start
    rw [later]

theorem rekind (reads : Reads offset text places tokens) {others : List Token}
    (played : List.Forall₂ Token.Plays others tokens) : Reads offset text places others := by
  induction reads generalizing others with
  | done =>
    cases played
    exact .done
  | newline _ ih => exact .newline (ih played)
  | @plain offset piece rest places tokens kind ordinary oneLine _ ih =>
    cases kind with
    | none => exact .plain none ordinary oneLine (ih played)
    | some kind =>
      obtain ⟨token, more, plays, later, rfl⟩ := List.forall₂_cons_right_iff.mp played
      obtain ⟨changed, content, start⟩ := token
      obtain ⟨text, place⟩ := Prod.mk.inj plays.extent
      change content = piece at text
      change start = offset at place
      subst text place
      exact .plain (some changed) ordinary oneLine (ih later)
  | @construct offset inside places tokens construct _ ih =>
    have first := List.forall₂_take_append _ _ _ played
    have rest := List.forall₂_drop_append _ _ _ played
    have fixed := eq_of_plays first fun token member => by
      rw [kind_of_mem_stretch member]
      cases construct <;> decide
    have whole := List.take_append_drop (stretch construct.kind offset (construct.opening ++ (construct.tail inside).taken)).length others
    rw [← whole, fixed]
    exact .construct construct (ih rest)

private theorem place_ge (reads : Reads offset text places tokens) {place : Nat} (member : place ∈ places) :
    offset ≤ place := by
  induction reads with
  | done => cases member
  | newline _ ih => exact Nat.le_of_succ_le (ih member)
  | plain _ _ _ _ ih =>
    rcases List.mem_cons.mp member with rfl | inside
    · exact Nat.le_refl _
    · exact Nat.le_trans (Nat.le_add_right ..) (ih inside)
  | construct _ _ ih =>
    rcases List.mem_cons.mp member with rfl | inside
    · exact Nat.le_refl _
    · exact Nat.le_trans (Nat.le_add_right ..) (ih inside)

private theorem token_ge (reads : Reads offset text places tokens) {token : Token} (member : token ∈ tokens) :
    (offset : Int) ≤ token.start := by
  induction reads with
  | done => cases member
  | newline _ ih =>
    have later := ih member
    omega
  | @plain _ piece _ _ _ kind _ _ _ ih =>
    rcases List.mem_append.mp member with here | inside
    · cases kind with
      | none => cases here
      | some kind =>
        obtain rfl := List.mem_singleton.mp here
        exact Int.le_refl _
    · have later := ih inside
      omega
  | construct _ _ ih =>
    rcases List.mem_append.mp member with here | inside
    · exact ((stretch_tiles ..).bounds here).1
    · have later := ih inside
      omega

/-- Code is read where the first line that is not empty begins. -/
theorem begins (reads : Reads offset text places tokens) {feeds : Nat} {c : Char} {rest : List Char}
    (same : text = List.replicate feeds '\n' ++ c :: rest) (visible : c ≠ '\n') : offset + feeds ∈ places := by
  induction reads generalizing feeds with
  | done => simp at same
  | @newline offset rest places tokens _ ih =>
    cases feeds with
    | zero => exact absurd (List.cons.inj same).1.symm visible
    | succ feeds =>
      have found := ih (List.cons.inj same).2
      rwa [Nat.add_assoc, Nat.add_comm 1] at found
  | @plain offset piece rest places tokens kind _ oneLine _ ih =>
    cases feeds with
    | zero => exact List.mem_cons_self ..
    | succ feeds =>
      cases piece with
      | nil => exact List.mem_cons_of_mem _ (ih same)
      | cons d more => exact absurd ((List.cons.inj same).1 ▸ List.mem_cons_self ..) oneLine
  | @construct offset inside _ _ construct _ _ =>
    cases feeds with
    | zero => exact List.mem_cons_self ..
    | succ feeds => cases construct <;> cases same

private theorem from_place (reads : Reads offset text places tokens) {start : Nat} (member : start ∈ places) :
    ∃ before after early late later, text = before ++ after ∧ start = offset + before.length ∧ tokens = early ++ late ∧
      (∀ token ∈ early, token.stop ≤ start) ∧ (∀ place ∈ later, place ∈ places) ∧
      Reads start after (start :: later) late := by
  induction reads with
  | done => cases member
  | @newline offset rest places tokens _ ih =>
    obtain ⟨before, after, early, late, later, rfl, rfl, rfl, passed, kept, reads⟩ := ih member
    refine ⟨'\n' :: before, after, early, late, later, rfl, ?_, rfl, passed, kept, reads⟩
    rw [List.length_cons]
    omega
  | @plain offset piece rest places tokens kind ordinary oneLine reads ih =>
    rcases List.mem_cons.mp member with rfl | inside
    · exact ⟨[], _, [], _, places, rfl, rfl, rfl, fun _ none => absurd none List.not_mem_nil,
        fun _ member => List.mem_cons_of_mem _ member, .plain kind ordinary oneLine reads⟩
    · have reached := reads.place_ge inside
      obtain ⟨before, after, early, late, later, rfl, rfl, rfl, passed, kept, reads⟩ := ih inside
      refine ⟨piece ++ before, after, Scan.place offset [⟨kind, piece⟩] ++ early, late, later, (List.append_assoc ..).symm, ?_,
        (List.append_assoc ..).symm, ?_, fun place member => List.mem_cons_of_mem _ (kept place member), reads⟩
      · rw [List.length_append, Nat.add_assoc]
      · intro token member
        rcases List.mem_append.mp member with here | earlier
        · cases kind with
          | none => cases here
          | some kind =>
            rw [List.mem_singleton.mp here]
            simp only [Token.stop]
            omega
        · exact passed token earlier
  | @construct offset inside places tokens construct reads ih =>
    rcases List.mem_cons.mp member with rfl | inner
    · exact ⟨[], _, [], _, places, rfl, rfl, rfl, fun _ none => absurd none List.not_mem_nil,
        fun _ member => List.mem_cons_of_mem _ member, .construct construct reads⟩
    · have reached := reads.place_ge inner
      have whole : (construct.tail inside).taken ++ (construct.tail inside).rest = inside := construct.tail_covers inside
      obtain ⟨before, after, early, late, later, rest, rfl, rfl, passed, kept, reads⟩ := ih inner
      refine ⟨construct.opening ++ (construct.tail inside).taken ++ before, after,
        stretch construct.kind offset (construct.opening ++ (construct.tail inside).taken) ++ early, late, later, ?_, ?_,
        (List.append_assoc ..).symm, ?_, fun place member => List.mem_cons_of_mem _ (kept place member), reads⟩
      · rw [List.append_assoc, List.append_assoc, ← rest, whole]
      · simp only [List.length_append]
        omega
      · intro token member
        rcases List.mem_append.mp member with here | earlier
        · have bounds := ((stretch_tiles ..).bounds here).2
          omega
        · exact passed token earlier

theorem opening {construct : Construct} {start : Nat} {later : List Nat} (reads : Reads start text (start :: later) tokens)
    (opens : construct.opening <+: text) :
    ∃ inside late, text = construct.opening ++ inside ∧
      tokens = stretch construct.kind start (construct.opening ++ (construct.tail inside).taken) ++ late ∧
      Reads (start + (construct.opening ++ (construct.tail inside).taken).length) (construct.tail inside).rest later late := by
  generalize same : start :: later = places at reads
  cases reads with
  | done => cases same
  | newline reads =>
    have impossible := reads.place_ge (same ▸ List.mem_cons_self ..)
    omega
  | plain _ ordinary _ _ => exact absurd opens (ordinary construct)
  | @construct _ inside _ late other reads =>
    obtain rfl : other = construct := by
      obtain ⟨after, same⟩ := opens
      cases construct <;> cases other <;> first | rfl | cases same
    cases same
    exact ⟨inside, late, rfl, rfl, reads⟩

end Reads

private theorem stretch_covers_iff (kind : TokenKind) (start : Nat) (text : List Char) (index : Nat) :
    (∃ token ∈ stretch kind start text, token.covers (start + index : Nat) = true) ↔
      index < text.length ∧ text[index]? ≠ some '\n' := by
  have tiling := stretch_tiles kind start text
  constructor
  · rintro ⟨token, member, covered⟩
    obtain ⟨before, after, whole, place⟩ := tiling.split member
    obtain ⟨reached, passed⟩ := Token.covers_iff.mp covered
    rw [Token.stop] at passed
    obtain ⟨inner, rfl⟩ : ∃ inner, index = before.length + inner := ⟨index - before.length, by omega⟩
    have inside : inner < token.text.length := by omega
    have found : text[before.length + inner]? = some token.text[inner] := by
      rw [whole, List.append_assoc, List.getElem?_append_right (Nat.le_add_right ..), Nat.add_sub_cancel_left,
        List.getElem?_append_left inside, List.getElem?_eq_getElem inside]
    refine ⟨(List.getElem?_eq_some_iff.mp found).1, ?_⟩
    rw [found]
    intro same
    apply tiling.oneLine member
    rw [← Option.some.inj same]
    exact List.getElem_mem inside
  · rintro ⟨inside, visible⟩
    by_contra free
    apply visible
    rw [List.getElem?_eq_getElem inside]
    congr 1
    refine tiling.gap (List.getElem?_eq_getElem inside) fun token member => ?_
    exact Bool.eq_false_iff.mpr fun covered => free ⟨token, member, by rwa [Int.natCast_add]⟩

/-- A stretch of a text, from `start` to `stop`, that is reported as one construct. Each of its
lines is a token, no other token reaches into it, and its line feeds are in no token. -/
structure Reported (tokens : List Token) (text : List Char) (kind : TokenKind) (start stop : Nat) : Prop where
  lines : ∃ early late, tokens = early ++ stretch kind start ((text.drop start).take (stop - start)) ++ late
  apart : ∀ token ∈ tokens, token.stop ≤ start ∨ (stop : Int) ≤ token.start ∨
    token.kind = kind ∧ start ≤ token.start ∧ token.stop ≤ stop
  offsets : ∀ index : Nat, start ≤ index → index < stop →
    ((∃ token ∈ tokens, token.kind = kind ∧ token.covers index = true) ↔ text[index]? ≠ some '\n')

theorem Reported.of_stretch {tokens early late : List Token} {text before piece after : List Char} {kind : TokenKind} {start : Nat}
    (whole : text = before ++ (piece ++ after)) (place : start = before.length)
    (cut : tokens = early ++ (stretch kind start piece ++ late)) (passed : ∀ token ∈ early, token.stop ≤ start)
    (behind : ∀ token ∈ late, ((start + piece.length : Nat) : Int) ≤ token.start) :
    Reported tokens text kind start (start + piece.length) := by
  subst whole place cut
  have own : ∀ token ∈ stretch kind before.length piece,
      before.length ≤ token.start ∧ token.stop ≤ (before.length : Int) + piece.length :=
    fun _ member => (stretch_tiles kind before.length piece).bounds member
  refine ⟨⟨early, late, ?_⟩, ?_, ?_⟩
  · rw [List.append_assoc, List.drop_left, Nat.add_sub_cancel_left, List.take_left]
  · intro token member
    rcases List.mem_append.mp member with earlier | later
    · exact Or.inl (passed token earlier)
    rcases List.mem_append.mp later with inside | last
    · obtain ⟨reached, ended⟩ := own token inside
      exact Or.inr (Or.inr ⟨kind_of_mem_stretch inside, reached, ended⟩)
    · exact Or.inr (Or.inl (behind token last))
  · intro index reached ended
    obtain ⟨inner, rfl⟩ := Nat.exists_eq_add_of_le reached
    have inside : inner < piece.length := Nat.lt_of_add_lt_add_left ended
    have found : (before ++ (piece ++ after))[before.length + inner]? = piece[inner]? := by
      rw [List.getElem?_append_right (Nat.le_add_right ..), Nat.add_sub_cancel_left, List.getElem?_append_left inside]
    rw [found]
    have covered := stretch_covers_iff kind before.length piece inner
    constructor
    · rintro ⟨token, member, -, covers⟩
      obtain ⟨first, last⟩ := Token.covers_iff.mp covers
      rcases List.mem_append.mp member with earlier | later
      · have ended := passed token earlier
        omega
      rcases List.mem_append.mp later with here | last
      · exact (covered.mp ⟨token, here, covers⟩).2
      · have begun := behind token last
        omega
    · intro visible
      obtain ⟨token, member, covers⟩ := covered.mpr ⟨inside, visible⟩
      exact ⟨token, List.mem_append_right _ (List.mem_append_left _ member), kind_of_mem_stretch member, covers⟩

/-- The first line behind `stop` that is not empty is read as code. -/
def Resumes (places : List Nat) (text : List Char) (stop : Nat) : Prop :=
  ∀ (feeds : Nat) (c : Char) (rest : List Char),
    text.drop stop = List.replicate feeds '\n' ++ c :: rest → c ≠ '\n' → stop + feeds ∈ places

/-- Comments and template literals of a script are reported to where they end in the whole
text, and behind their ends the script is read as code again. -/
theorem constructs_reported_whole (language : Language) (grammar : Grammar)
    (known : Registry.builtin.grammar? language = some grammar) (script : grammar = .javascript ∨ grammar = .typescript)
    (dialect : String) (text : List Char) :
    ∃ tokens, Registry.builtin.parse language dialect text = .ok tokens ∧
      ∀ (construct : Construct), ∀ start ∈ grammar.codePlaces dialect text, construct.opening <+: text.drop start →
        ∃ stop, construct.Ends text (start + construct.opening.length) stop ∧
          Reported tokens text construct.kind start stop ∧ Resumes (grammar.codePlaces dialect text) text stop := by
  refine ⟨grammar.tokens dialect text, by simp only [Registry.parse, known], ?_⟩
  intro construct start member opens
  have scanned := ScriptLine.text_reads (Grammar.vocabulary (if dialect = "" then grammar.ownDialect else dialect)) text
  have reads : Reads 0 text (grammar.codePlaces dialect text) (grammar.tokens dialect text) :=
    scanned.rekind (Grammar.lines_play script _ ScriptState.neutral 0 (Text.lines text))
  obtain ⟨before, after, early, late, later, whole, place, tokens, passed, kept, here⟩ := reads.from_place member
  rw [Nat.zero_add] at place
  rw [whole, place, List.drop_left] at opens
  obtain ⟨inside, others, rfl, rfl, rest⟩ := here.opening opens
  have covers : (construct.tail inside).taken ++ (construct.tail inside).rest = inside := construct.tail_covers inside
  have cut : text = before ++ (construct.opening ++ (construct.tail inside).taken ++ (construct.tail inside).rest) := by
    rw [whole, List.append_assoc, covers]
  refine ⟨start + (construct.opening ++ (construct.tail inside).taken).length, ?_, ?_, ?_⟩
  · have ends := construct.tail_ends (before ++ construct.opening) inside
    rw [List.append_assoc, ← whole, List.length_append, ← place] at ends
    rwa [List.length_append, ← Nat.add_assoc]
  · exact .of_stretch cut place tokens passed fun token member => rest.token_ge member
  · intro feeds c more same visible
    rw [cut, ← List.append_assoc, place, ← List.length_append, List.drop_left] at same
    exact kept _ (rest.begins same visible)

theorem constructs_reported_whole_script :
    ∃ text tokens places, text = "a /*\n\n*/ `\\\n`\x23b".toList ∧ places = [0, 1, 2, 8, 9, 13] ∧
      Grammar.typescript.codePlaces "js" text = places ∧ Registry.builtin.parse .typescript "js" text = .ok tokens ∧
      (∃ stop, CommentEnds text 4 stop ∧ Reported tokens text .comment 2 stop ∧ Resumes places text stop) ∧
      ∃ stop, QuoteEnds '\x60' text 10 stop ∧ Reported tokens text .string 9 stop ∧ Resumes places text stop := by
  obtain ⟨tokens, parsed, reported⟩ :=
    constructs_reported_whole .typescript .typescript rfl (Or.inr rfl) "js" "a /*\n\n*/ `\\\n`\x23b".toList
  have places : Grammar.typescript.codePlaces "js" "a /*\n\n*/ `\\\n`\x23b".toList = [0, 1, 2, 8, 9, 13] := by decide +kernel
  rw [places] at reported
  refine ⟨_, tokens, _, rfl, rfl, places, parsed, ?_, ?_⟩
  · exact reported .comment 2 (by decide) (by decide)
  · exact reported .template 9 (by decide) (by decide)

end Highlight
