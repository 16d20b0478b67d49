import PrefixLisp.Proofs.Expr.Tokens
import PrefixLisp.Proofs.Token.Pieces

/-
  Layout.

  Tokens that are written down with trivia around them are read back, whatever the trivia is, as
  long as it keeps them apart and leaves no comment open in front of a token (`tokenize_layOut`).
  Such trivia is `ClosedTrivia`: the lexer passes over it in any place (`stream_closedTrivia`), and
  it begins with a delimiter, so what stands before it ends there (`IsTrivia.delimited`). Every
  token is thus split off as it was written, and the rest is an induction on their number
  (`stream_layOut`).
-/

namespace PrefixLisp

open Trivia Lexeme

/-- Trivia in which a newline closes every comment. -/
inductive ClosedTrivia : List Char → Prop where
  | nil : ClosedTrivia []
  | blank {c : Char} {cs : List Char} (hc : c ∈ [' ', '\t', '\r', '\n']) (hcs : ClosedTrivia cs) :
      ClosedTrivia (c :: cs)
  | comment {body cs : List Char} (hbody : '\n' ∉ body) (hcs : ClosedTrivia cs) :
      ClosedTrivia (';' :: body ++ '\n' :: cs)

variable {gap cs : List Char}

theorem ClosedTrivia.isTrivia (h : ClosedTrivia gap) : IsTrivia gap := by
  induction h with
  | nil => exact .nil
  | blank hc _ ih => exact .blank hc ih
  | comment hbody _ ih => exact .comment hbody (.blank (by decide) ih)

theorem IsTrivia.delimited (h : IsTrivia gap) (hne : gap ≠ []) (rest : List Char) :
    Delimited (gap ++ rest) := by
  cases h with
  | nil => exact absurd rfl hne
  | blank hc _ => exact delimited_cons.2 (delimits_of_isBlank (isBlank_iff.2 hc))
  | comment _ _ => exact delimited_cons.2 (by decide)

/-- A token to be written down, and the trivia in front of it. -/
structure Spaced where
  gap : String
  kind : Token.Kind
  lexeme : String

/-- The tokens one after the other, and `last` behind them. -/
def layOut : List Spaced → String → String
  | [], last => last
  | s :: ss, last => s.gap ++ s.lexeme ++ layOut ss last

theorem toList_layOut_cons (s : Spaced) (ss : List Spaced) (last : String) :
    (layOut (s :: ss) last).toList =
      s.gap.toList ++ (s.lexeme.toList ++ (layOut ss last).toList) := by
  rw [layOut, String.toList_append, String.toList_append, List.append_assoc]

namespace Lexer

theorem stream_isTrivia (h : IsTrivia cs) (pos : Position) : stream pos cs = [] := by
  have hle := length_skip_append_le h false pos []
  rw [List.append_nil] at hle
  rcases hskip : skip false pos cs with ⟨pos', rest⟩
  rw [hskip] at hle
  obtain rfl := List.eq_nil_of_length_eq_zero (Nat.le_zero.1 hle)
  rw [stream_skip hskip, stream_nil]

/-- Closed trivia is passed over, whatever stands behind it. -/
theorem stream_closedTrivia (h : ClosedTrivia gap) (pos : Position) (rest : List Char) :
    stream pos (gap ++ rest) = stream (pos.advance gap) rest := by
  induction h generalizing pos with
  | nil => rfl
  | blank hc _ ih =>
    rw [List.cons_append, stream_blank (isBlank_iff.2 hc), ih, Position.advance_cons]
  | @comment body cs hbody _ ih =>
    have hopen : skip false pos (';' :: body) = (pos.advance (';' :: body), []) := by
      have hskip := skip_comment hbody (pos.step ';') []
      rwa [List.append_nil] at hskip
    have htext : ';' :: body ++ '\n' :: cs ++ rest = ';' :: body ++ '\n' :: (cs ++ rest) :=
      List.append_assoc _ _ _
    rw [htext, stream_congr (skip_append_newline hopen (cs ++ rest)), ih, Position.advance_append,
      Position.advance_cons _ '\n']

variable {ss : List Spaced} {last : String}

/-- What stands behind a token begins with a delimiter. -/
theorem delimited_layOut (hclosed : ∀ s ∈ ss, ClosedTrivia s.gap.toList)
    (hgap : ∀ s ∈ ss, s.gap ≠ "") (hlast : IsTrivia last.toList) :
    Delimited (layOut ss last).toList := by
  cases ss with
  | nil =>
    by_cases hnil : last.toList = []
    · rw [layOut, hnil]
      exact delimited_nil
    · have hdelimited := hlast.delimited hnil []
      rwa [List.append_nil] at hdelimited
  | cons s ss =>
    have hne : s.gap.toList ≠ [] := by
      simpa using hgap s List.mem_cons_self
    rw [toList_layOut_cons]
    exact (hclosed s List.mem_cons_self).isTrivia.delimited hne _

/-- The items of a layout are its tokens. Induction on how many they are; all gaps but the first
have to separate. -/
theorem stream_layOut (hspelling : ∀ s ∈ ss, s.kind.IsSpelling s.lexeme.toList)
    (hclosed : ∀ s ∈ ss, ClosedTrivia s.gap.toList) (hbetween : ∀ s ∈ ss.tail, s.gap ≠ "")
    (hlast : IsTrivia last.toList) (pos : Position) :
    ∃ ts : List Token, stream pos (layOut ss last).toList = ts.map .ok ∧
      ts.map Token.unplaced = ss.map fun s => (s.kind, s.lexeme) := by
  induction ss generalizing pos with
  | nil => exact ⟨[], stream_isTrivia hlast pos, rfl⟩
  | cons s ss ih =>
    obtain ⟨hs, hspelling⟩ := List.forall_mem_cons.1 hspelling
    obtain ⟨hgap, hclosed⟩ := List.forall_mem_cons.1 hclosed
    have hdelimited := delimited_layOut hclosed hbetween hlast
    obtain ⟨ts, hstream, hts⟩ := ih hspelling hclosed
      (fun t ht => hbetween t (List.mem_of_mem_tail ht))
      ((pos.advance s.gap.toList).advance s.lexeme.toList)
    refine ⟨⟨s.kind, s.lexeme, pos.advance s.gap.toList⟩ :: ts, ?_, ?_⟩
    · rw [toList_layOut_cons, stream_closedTrivia hgap, stream_spelling hs hdelimited,
        String.ofList_toList, hstream, List.map_cons]
    · rw [List.map_cons, List.map_cons, hts]
      rfl

end Lexer

/-- Tokens survive any layout. Let each token be spelled as its kind is, with trivia in front of it
that leaves no comment open and, from the second token on, is not empty, and let there be any trivia
behind the last one. Then the text has just these tokens, and no errors. -/
theorem tokenize_layOut (ss : List Spaced) (last : String)
    (hspelling : ∀ s ∈ ss, s.kind.IsSpelling s.lexeme.toList)
    (hclosed : ∀ s ∈ ss, ClosedTrivia s.gap.toList) (hbetween : ∀ s ∈ ss.tail, s.gap ≠ "")
    (hlast : IsTrivia last.toList) :
    ∃ ts, tokenize (layOut ss last) = (ts, []) ∧
      ts.map Token.unplaced = ss.map fun s => (s.kind, s.lexeme) := by
  obtain ⟨ts, hstream, hts⟩ := Lexer.stream_layOut hspelling hclosed hbetween hlast .start
  exact ⟨ts, tokenize_eq_iff.2 hstream, hts⟩

/-- A quote in a comment, a minus sign that a carriage return keeps from a number with zeros in
front, a string with a semicolon and a newline in it, and a comment that the end leaves open. -/
theorem tokenize_layOut_comments :
    let ss : List Spaced := [⟨"; \"\n", .operator .sub, "-"⟩, ⟨"\r", .number .one, "001"⟩,
      ⟨"\t;;\n", .string, "\";\n\""⟩]
    let last := " ;("
    (∀ s ∈ ss, s.kind.IsSpelling s.lexeme.toList) ∧ (∀ s ∈ ss, ClosedTrivia s.gap.toList) ∧
      (∀ s ∈ ss.tail, s.gap ≠ "") ∧ IsTrivia last.toList ∧
      ∃ ts, tokenize (layOut ss last) = (ts, []) ∧ ts.map Token.unplaced =
        [(.operator .sub, "-"), (.number .one, "001"), (.string, "\";\n\"")] := by
  intro ss last
  have hnumeral : IsNumeral "001".toList :=
    ⟨_, List.cons_ne_nil _ _, List.all_eq_true.1 rfl, .inl rfl⟩
  have hnumber : (Token.Kind.number .one).IsSpelling "001".toList := ⟨hnumeral, rfl⟩
  have hstring : Token.Kind.string.IsSpelling "\";\n\"".toList := ⟨[';', '\n'], rfl, by decide⟩
  have hspelling : ∀ s ∈ ss, s.kind.IsSpelling s.lexeme.toList :=
    List.forall_mem_cons.2
      ⟨rfl, List.forall_mem_cons.2 ⟨hnumber, List.forall_mem_singleton.2 hstring⟩⟩
  have hquote : ClosedTrivia "; \"\n".toList :=
    @ClosedTrivia.comment [' ', '"'] [] (by decide) .nil
  have hreturn : ClosedTrivia "\r".toList := .blank (by decide) .nil
  have hcomment : ClosedTrivia "\t;;\n".toList :=
    .blank (by decide) (@ClosedTrivia.comment [';'] [] (by decide) .nil)
  have hclosed : ∀ s ∈ ss, ClosedTrivia s.gap.toList :=
    List.forall_mem_cons.2
      ⟨hquote, List.forall_mem_cons.2 ⟨hreturn, List.forall_mem_singleton.2 hcomment⟩⟩
  have hbetween : ∀ s ∈ ss.tail, s.gap ≠ "" := by decide
  have hlast : IsTrivia " ;(".toList :=
    .blank (by decide) (@IsTrivia.comment ['('] [] (by decide) .nil)
  exact ⟨hspelling, hclosed, hbetween, hlast,
    tokenize_layOut ss last hspelling hclosed hbetween hlast⟩

end PrefixLisp
