import PrefixLisp.Position

/-
  Trivia: the text between lexemes. It is made of blanks (space, tab, carriage return,
  newline) and of comments, which run from `;` up to the end of the line.

  `Trivia.skip` passes over the longest run of trivia and keeps track of the place.
-/

namespace PrefixLisp.Trivia

def isBlank (c : Char) : Bool :=
  c = ' ' || c = '\t' || c = '\r' || c = '\n'

/-- Whether `c` continues a run of trivia, inside a comment or not. -/
def continues (comment : Bool) (c : Char) : Bool :=
  comment || isBlank c || c = ';'

/-- Whether the text after `c` is still inside a comment. -/
def commentAfter (comment : Bool) (c : Char) : Bool :=
  (comment || c = ';') && c ≠ '\n'

/-- Pass over trivia: the place where the next lexeme begins, and the text from there. -/
def skip (comment : Bool) (pos : Position) : List Char → Position × List Char
  | [] => (pos, [])
  | c :: cs =>
    if continues comment c then skip (commentAfter comment c) (pos.step c) cs
    else (pos, c :: cs)

theorem length_skip_le (comment : Bool) (pos : Position) (cs : List Char) :
    (skip comment pos cs).2.length ≤ cs.length := by
  induction cs generalizing comment pos with
  | nil => exact Nat.le_refl _
  | cons c cs ih =>
    unfold skip
    split
    · exact Nat.le_succ_of_le (ih _ _)
    · exact Nat.le_refl _

end PrefixLisp.Trivia
