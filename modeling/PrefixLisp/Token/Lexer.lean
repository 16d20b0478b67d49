import PrefixLisp.Token.Error
import PrefixLisp.Token.Lexeme
import PrefixLisp.Token.Trivia

/-
  The lexer: a place in a source text, from which the next item is computed on demand.

  An item is a token, or an error about text that was passed over: one illegal character, or a
  number literal that does not fit. Either way the lexer goes on behind it, so a bad character
  never hides the rest of the text. `Lexer.items` is the whole stream from a place on, and
  `tokenize` separates its tokens from its errors.
-/

namespace PrefixLisp

/-- A token, or an error about text that was passed over. -/
abbrev LexItem := Except LexError Token

structure Lexer where
  source : List Char
  /-- What is left to read. -/
  rest : List Char
  /-- The place where `rest` begins. -/
  pos : Position
deriving DecidableEq, Inhabited

namespace Lexer

/-- A lexer at the start of a text. -/
def ofString (source : String) : Lexer :=
  ⟨source.toList, source.toList, .start⟩

/-- The same text from its start. -/
def restart (l : Lexer) : Lexer :=
  { l with rest := l.source, pos := .start }

/-- The item that a lexeme gives. -/
def itemOfLexeme (text : List Char) (pos : Position) : LexItem :=
  match Token.Kind.ofLexeme? text with
  | some kind => .ok ⟨kind, .ofList text, pos⟩
  | none => .error ⟨.numberOutOfRange (.ofList text), pos⟩

/-- The next item and the lexer behind it, or `none` at the end of the text. -/
def next? (l : Lexer) : Option (LexItem × Lexer) :=
  match Trivia.skip false l.pos l.rest with
  | (_, []) => none
  | (pos, c :: cs) =>
    match Lexeme.split? (c :: cs) with
    | some (text, rest) =>
      some (itemOfLexeme text pos, { l with rest := rest, pos := pos.advance text })
    | none => some (.error ⟨.illegalCharacter c, pos⟩, { l with rest := cs, pos := pos.step c })

theorem length_rest_lt_of_next? {l l' : Lexer} {item : LexItem} (h : l.next? = some (item, l')) :
    l'.rest.length < l.rest.length := by
  unfold next? at h
  have hle := Trivia.length_skip_le false l.pos l.rest
  split at h
  · cases h
  · rename_i pos c cs hskip
    rw [hskip] at hle
    split at h
    · rename_i text rest hsplit
      cases h
      obtain ⟨heq, hne⟩ := Lexeme.split?_append hsplit
      have := congrArg List.length heq
      have := List.length_pos_iff.2 hne
      simp only [List.length_append] at *
      omega
    · cases h
      simp only [List.length_cons] at hle
      exact hle

/-- All items from here to the end of the text. -/
def items (l : Lexer) : List LexItem :=
  match _h : l.next? with
  | none => []
  | some (item, l') => item :: l'.items
termination_by l.rest.length
decreasing_by exact length_rest_lt_of_next? _h

end Lexer

def LexItem.token? : LexItem → Option Token
  | .ok token => some token
  | .error _ => none

def LexItem.error? : LexItem → Option LexError
  | .ok _ => none
  | .error e => some e

/-- The tokens of a text and the errors about what was passed over, each in order. -/
def tokenize (source : String) : List Token × List LexError :=
  let items := (Lexer.ofString source).items
  (items.filterMap LexItem.token?, items.filterMap LexItem.error?)

end PrefixLisp
