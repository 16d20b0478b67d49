import Mathlib.Data.List.DropRight
import PrefixLisp.Proofs.Token.Stream

/-
  The pieces of a text.

  A source text consists of trivia, the text of the first item, trivia, the text of the second one,
  and so on, with trivia at the end. The lexer leaves nothing out and makes nothing up: what stands
  between two items is the longest trivia there, and each item says what its own text is and where
  it begins, as one would find out by counting newlines and characters (`lexer_covers`). It gives
  finitely many items, whatever the text.

  Two things are shown of one item, and then by induction along the stream of all of them: that
  skipping trivia takes as much as there is (`longestTrivia_of_skip`), and that the text of the item
  is split off behind it. The running place is the count by `Position.advance_start`.
-/

namespace PrefixLisp

open Trivia Lexeme

/-! ## Places -/

namespace Position

/-- The place behind a text from the start: one line more than there are newlines, and one column
more than there are characters behind the last of them. -/
def behind (text : List Char) : Position :=
  ⟨1 + text.count '\n', 1 + (text.rtakeWhile (· ≠ '\n')).length⟩

theorem behind_concat (text : List Char) (c : Char) :
    behind (text ++ [c]) = (behind text).step c := by
  unfold behind step
  rw [List.count_append, List.rtakeWhile_concat]
  by_cases hc : c = '\n'
  · subst hc
    rfl
  · have hcount : [c].count '\n' = 0 := List.count_eq_zero.2 (by simpa using Ne.symm hc)
    rw [hcount, if_neg hc, if_pos (decide_eq_true hc), List.length_append]
    rfl

theorem advance_start (text : List Char) : start.advance text = behind text := by
  induction text using List.reverseRecOn with
  | nil => rfl
  | append_singleton text c ih => rw [behind_concat, advance_append, ih, advance_cons, advance_nil]

end Position

/-! ## Trivia -/

/-- Blanks and comments; a comment goes up to the end of its line, without the newline. -/
inductive IsTrivia : List Char → Prop where
  | nil : IsTrivia []
  | blank {c : Char} {cs : List Char} (hc : c ∈ [' ', '\t', '\r', '\n']) (hcs : IsTrivia cs) :
      IsTrivia (c :: cs)
  | comment {body cs : List Char} (hbody : '\n' ∉ body) (hcs : IsTrivia cs) :
      IsTrivia (';' :: body ++ cs)

/-- `gap` is the longest trivia that the text begins with. -/
structure LongestTrivia (gap text : List Char) : Prop where
  isTrivia : IsTrivia gap
  starts : gap <+: text
  longest : ∀ other, IsTrivia other → other <+: text → other.length ≤ gap.length

namespace Trivia

theorem isBlank_iff {c : Char} : isBlank c ↔ c ∈ [' ', '\t', '\r', '\n'] := by
  simp [isBlank, or_assoc]

theorem skip_comment {body : List Char} (h : '\n' ∉ body) (pos : Position) (cs : List Char) :
    skip true pos (body ++ cs) = skip true (pos.advance body) cs := by
  induction body generalizing pos with
  | nil => rfl
  | cons c body ih =>
    have hafter : commentAfter true c := by
      simpa [commentAfter] using (List.ne_of_not_mem_cons h).symm
    rw [List.cons_append, skip_cons_of_continues rfl, hafter,
      ih (List.not_mem_of_not_mem_cons h), Position.advance_cons]

/-- Trivia is passed over, whether it stands in a comment or not. -/
theorem length_skip_append_le {gap : List Char} (h : IsTrivia gap) (comment : Bool)
    (pos : Position) (rest : List Char) :
    (skip comment pos (gap ++ rest)).2.length ≤ rest.length := by
  induction h generalizing comment pos with
  | nil => exact length_skip_le comment pos rest
  | @blank c cs hc _ ih =>
    have hcontinues : continues comment c := by simp [continues, isBlank_iff.2 hc]
    rw [List.cons_append, skip_cons_of_continues hcontinues]
    exact ih _ _
  | @comment body cs hbody _ ih =>
    have hcontinues : continues comment ';' := by simp [continues]
    have hafter : commentAfter comment ';' := by simp [commentAfter]
    rw [List.cons_append, List.cons_append, List.append_assoc, skip_cons_of_continues hcontinues,
      hafter, skip_comment hbody]
    exact ih _ _

/-- A character in a comment is part of the trivia that the comment is in. -/
theorem isTrivia_semicolon_cons {c : Char} {cs : List Char} (h : IsTrivia (';' :: cs))
    (hc : c ≠ '\n') : IsTrivia (';' :: c :: cs) := by
  generalize heq : ';' :: cs = text at h
  cases h with
  | nil => cases heq
  | blank hblank =>
    cases heq
    exact absurd hblank (by decide)
  | @comment body rest hbody hrest =>
    obtain rfl : cs = body ++ rest := (List.cons.inj heq).2
    have hbody' : '\n' ∉ c :: body := List.not_mem_cons_of_ne_of_not_mem hc.symm hbody
    exact .comment hbody' hrest

/-- One character more of trivia in front, in a comment that is open or not. -/
theorem isTrivia_cons {comment : Bool} {c : Char} {cs : List Char} (hc : continues comment c)
    (h : IsTrivia (if commentAfter comment c then ';' :: cs else cs)) :
    IsTrivia (if comment then ';' :: c :: cs else c :: cs) := by
  cases comment with
  | true =>
    by_cases hnewline : c = '\n'
    · subst hnewline
      exact .comment List.not_mem_nil (.blank (by decide) h)
    · have hafter : commentAfter true c := by simpa [commentAfter] using hnewline
      rw [if_pos hafter] at h
      exact isTrivia_semicolon_cons h hnewline
  | false =>
    by_cases hsemicolon : c = ';'
    · subst hsemicolon
      exact h
    · have hblank : isBlank c := by simpa [continues, hsemicolon] using hc
      have hafter : commentAfter false c = false := by simp [commentAfter, hsemicolon]
      rw [hafter] at h
      exact .blank (isBlank_iff.1 hblank) h

theorem isTrivia_open (comment : Bool) : IsTrivia (if comment then [';'] else []) := by
  cases comment
  · exact .nil
  · exact .comment List.not_mem_nil .nil

/-- What is passed over is trivia, or the rest of a comment and trivia. -/
theorem isTrivia_of_skip {comment : Bool} {pos pos' : Position} {cs rest : List Char}
    (h : skip comment pos cs = (pos', rest)) :
    ∃ gap, cs = gap ++ rest ∧ pos' = pos.advance gap ∧
      IsTrivia (if comment then ';' :: gap else gap) := by
  -- Inside a comment its semicolon is put back in front, so that both cases speak of trivia.
  induction cs generalizing comment pos with
  | nil =>
    cases h
    exact ⟨[], rfl, rfl, isTrivia_open comment⟩
  | cons c cs ih =>
    by_cases hc : continues comment c
    · rw [skip_cons_of_continues hc] at h
      obtain ⟨gap, rfl, rfl, hgap⟩ := ih h
      exact ⟨c :: gap, rfl, rfl, isTrivia_cons hc hgap⟩
    · rw [skip_cons_of_not_continues (by simpa using hc)] at h
      cases h
      exact ⟨[], rfl, rfl, isTrivia_open comment⟩

/-- Skipping takes as much trivia as there is. -/
theorem longestTrivia_of_skip {pos pos' : Position} {cs rest : List Char}
    (h : skip false pos cs = (pos', rest)) :
    ∃ gap, cs = gap ++ rest ∧ pos' = pos.advance gap ∧ LongestTrivia gap cs := by
  obtain ⟨gap, hcs, hpos, hgap⟩ := isTrivia_of_skip h
  refine ⟨gap, hcs, hpos, hgap, ⟨rest, hcs.symm⟩, ?_⟩
  rintro other hother ⟨more, rfl⟩
  have hle := length_skip_append_le hother false pos more
  have hlength := congrArg List.length hcs
  rw [h] at hle
  rw [List.length_append, List.length_append] at hlength
  dsimp only at hle
  omega

end Trivia

/-! ## Pieces -/

/-- What an item stands for: its text, and the place where that begins. -/
inductive LexItem.StandsFor (x : List Char) (pos : Position) : LexItem → Prop where
  | token {t : Token} (hlexeme : t.lexeme.toList = x) (hpos : t.pos = pos) : StandsFor x pos (.ok t)
  | illegal {c : Char} (hc : x = [c]) : StandsFor x pos (.error ⟨.illegalCharacter c, pos⟩)
  | number {literal : String} (hliteral : literal.toList = x) :
      StandsFor x pos (.error ⟨.numberOutOfRange literal, pos⟩)

/-- An item, its text, and the trivia in front of it. -/
structure Piece where
  gap : List Char
  text : List Char
  item : LexItem

def Piece.source (p : Piece) : List Char :=
  p.gap ++ p.text

theorem Piece.source_append (p : Piece) (cs : List Char) :
    p.source ++ cs = p.gap ++ (p.text ++ cs) :=
  List.append_assoc p.gap p.text cs

/-- The pieces, and trivia behind them, make up the text `cs`, which begins at `pos`. -/
structure Cover (pos : Position) (cs : List Char) (pieces : List Piece) (last : List Char) :
    Prop where
  source_eq : cs = pieces.flatMap Piece.source ++ last
  isTrivia_last : LongestTrivia last last
  gap : ∀ earlier p later, pieces = earlier ++ p :: later →
    LongestTrivia p.gap (p.source ++ later.flatMap Piece.source ++ last)
  text_ne_nil : ∀ p ∈ pieces, p.text ≠ []
  item : ∀ earlier p later, pieces = earlier ++ p :: later →
    p.item.StandsFor p.text (pos.advance (earlier.flatMap Piece.source ++ p.gap))

namespace Lexer

theorem standsFor_itemOfLexeme (x : List Char) (pos : Position) :
    (itemOfLexeme x pos).StandsFor x pos := by
  unfold itemOfLexeme
  split
  · exact .token String.toList_ofList rfl
  · exact .number String.toList_ofList

/-- The lexer gives these items one after the other, and then no more. -/
inductive Gives : Lexer → List LexItem → Prop where
  | done {l : Lexer} (h : l.next? = none) : Gives l []
  | item {l l' : Lexer} {item : LexItem} {items : List LexItem} (h : l.next? = some (item, l'))
      (hitems : Gives l' items) : Gives l (item :: items)

theorem gives_items (l : Lexer) : l.Gives l.items := by
  rw [items_eq]
  match h : l.next? with
  | none => exact .done h
  | some (item, l') =>
    have := length_rest_lt_of_next? h
    exact .item h (gives_items l')
termination_by l.rest.length

end Lexer

theorem Cover.nil {pos : Position} {last : List Char} (h : LongestTrivia last last) :
    Cover pos last [] last where
  source_eq := rfl
  isTrivia_last := h
  gap earlier p later heq := by simp at heq
  text_ne_nil := List.forall_mem_nil _
  item earlier p later heq := by simp at heq

/-- One more piece in front of the others. -/
theorem Cover.cons {pos : Position} {gap x rest last : List Char} {item : LexItem}
    {pieces : List Piece} (hgap : LongestTrivia gap (gap ++ (x ++ rest))) (hx : x ≠ [])
    (hitem : item.StandsFor x (pos.advance gap))
    (h : Cover ((pos.advance gap).advance x) rest pieces last) :
    Cover pos (gap ++ (x ++ rest)) (⟨gap, x, item⟩ :: pieces) last where
  source_eq := by
    rw [List.flatMap_cons, List.append_assoc, Piece.source_append, ← h.source_eq]
  isTrivia_last := h.isTrivia_last
  gap := by
    rintro (_ | ⟨q, earlier⟩) p later heq
    · obtain ⟨rfl, rfl⟩ := List.cons.inj heq
      rw [List.append_assoc, Piece.source_append, ← h.source_eq]
      exact hgap
    · exact h.gap earlier p later (List.cons.inj heq).2
  text_ne_nil := List.forall_mem_cons.2 ⟨hx, h.text_ne_nil⟩
  item := by
    rintro (_ | ⟨q, earlier⟩) p later heq
    · obtain ⟨rfl, rfl⟩ := List.cons.inj heq
      exact hitem
    · obtain ⟨rfl, hpieces⟩ := List.cons.inj heq
      have hplace := h.item earlier p later hpieces
      rw [← Position.advance_append, ← Position.advance_append] at hplace
      rw [List.flatMap_cons, List.append_assoc, Piece.source_append]
      exact hplace

/-- The items of a text, with what they stand for. -/
theorem exists_cover (pos : Position) (cs : List Char) :
    ∃ pieces last, Lexer.stream pos cs = pieces.map Piece.item ∧ Cover pos cs pieces last := by
  induction pos, cs using Lexer.stream_induction with
  | @trivia pos _ cs hskip =>
    obtain ⟨gap, hcs, _, hgap⟩ := longestTrivia_of_skip hskip
    rw [List.append_nil] at hcs
    subst hcs
    exact ⟨[], cs, (Lexer.stream_skip hskip).trans (Lexer.stream_nil _), .nil hgap⟩
  | @lexeme pos _ _ _ x rest hskip hsplit ih =>
    obtain ⟨gap, rfl, rfl, hgap⟩ := longestTrivia_of_skip hskip
    obtain ⟨rfl, hx⟩ := split?_append hsplit
    obtain ⟨pieces, last, hstream, hcover⟩ := ih
    refine ⟨⟨gap, x, Lexer.itemOfLexeme x (pos.advance gap)⟩ :: pieces, last, ?_,
      hcover.cons hgap hx (Lexer.standsFor_itemOfLexeme x _)⟩
    rw [Lexer.stream_skip hskip, Lexer.stream_lexeme hsplit, hstream]
    rfl
  | @illegal pos _ _ c rest hskip hc hsplit ih =>
    obtain ⟨gap, rfl, rfl, hgap⟩ := longestTrivia_of_skip hskip
    obtain ⟨pieces, last, hstream, hcover⟩ := ih
    refine ⟨⟨gap, [c], .error ⟨.illegalCharacter c, pos.advance gap⟩⟩ :: pieces, last, ?_,
      Cover.cons (x := [c]) hgap (List.cons_ne_nil c []) (.illegal rfl) hcover⟩
    rw [Lexer.stream_skip hskip, Lexer.stream_illegal hc hsplit, hstream]
    rfl

/-- A token stands in the text where it says. -/
theorem exists_place_of_mem_tokenize {source : String} {t : Token} (h : t ∈ (tokenize source).1) :
    ∃ before after, source.toList = before ++ t.lexeme.toList ++ after ∧
      t.pos = .behind before := by
  obtain ⟨pieces, last, hstream, hcover⟩ := exists_cover .start source.toList
  have hitem : (.ok t : LexItem) ∈ pieces.map Piece.item := by
    rw [← hstream]
    obtain ⟨item, hmem, htoken⟩ := List.mem_filterMap.1 h
    cases item with
    | ok u =>
      cases htoken
      exact hmem
    | error e => cases htoken
  obtain ⟨p, hp, hpt⟩ := List.mem_map.1 hitem
  obtain ⟨earlier, later, rfl⟩ := List.append_of_mem hp
  have hstands := hcover.item earlier p later rfl
  rw [hpt] at hstands
  cases hstands with
  | token hlexeme hpos =>
    refine ⟨earlier.flatMap Piece.source ++ p.gap, later.flatMap Piece.source ++ last, ?_, ?_⟩
    · rw [hcover.source_eq, List.flatMap_append, List.flatMap_cons, hlexeme, Piece.source]
      simp only [List.append_assoc]
    · rw [hpos, Position.advance_start]

/-- The lexer gives finitely many items, and loses nothing. The text is made up of the texts of the
items and of gaps, around them, each of which is the longest trivia where it stands. The text of an
item is not empty, and the item's place is the one behind all that stands before this text. -/
theorem lexer_covers (source : String) :
    ∃ (pieces : List Piece) (last : List Char),
      (Lexer.ofString source).Gives (pieces.map Piece.item) ∧
      source.toList = pieces.flatMap Piece.source ++ last ∧ LongestTrivia last last ∧
      ∀ earlier p later, pieces = earlier ++ p :: later →
        LongestTrivia p.gap (p.source ++ later.flatMap Piece.source ++ last) ∧ p.text ≠ [] ∧
          p.item.StandsFor p.text (Position.behind (earlier.flatMap Piece.source ++ p.gap)) := by
  obtain ⟨pieces, last, hstream, hcover⟩ := exists_cover .start source.toList
  refine ⟨pieces, last, ?_, hcover.source_eq, hcover.isTrivia_last, fun earlier p later heq => ?_⟩
  · rw [← hstream]
    exact Lexer.gives_items _
  · refine ⟨hcover.gap earlier p later heq, hcover.text_ne_nil p ?_, ?_⟩
    · rw [heq]
      exact List.mem_append_right _ List.mem_cons_self
    · rw [← Position.advance_start]
      exact hcover.item earlier p later heq

end PrefixLisp
