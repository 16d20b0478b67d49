import PrefixLisp.Token.Lexer

/-
  Stepping through a text: a lexer that is asked for one item at a time, can be sent back to
  the start, and can return to a place that was saved. Looking for an item moves the lexer even
  if there is none: it is then at the end of the text, behind all trivia.
-/

namespace PrefixLisp.Lexer

/-- The lexer behind the trivia that it stands before. -/
def skipTrivia (l : Lexer) : Lexer :=
  let (pos, rest) := Trivia.skip false l.pos l.rest
  { l with rest, pos }

inductive Command where
  /-- Take the next item. -/
  | next
  /-- Go back to the start of the text. -/
  | restart
  /-- Remember this place. -/
  | save
  /-- Go back to the remembered place, which at first is the start. -/
  | load
  /-- Count the items that are left, without moving. -/
  | count
deriving DecidableEq, Inhabited

inductive Answer where
  | item (item : Option LexItem)
  | restarted
  | saved
  | loaded
  | count (n : Nat)
deriving Inhabited

/-- A lexer and the place it remembers. -/
structure Stepping where
  lexer : Lexer
  saved : Lexer
deriving Inhabited

namespace Stepping

def ofString (source : String) : Stepping :=
  ⟨.ofString source, .ofString source⟩

def step (s : Stepping) : Command → Answer × Stepping
  | .next =>
    match s.lexer.next? with
    | some (item, lexer) => (.item (some item), { s with lexer })
    | none => (.item none, { s with lexer := s.lexer.skipTrivia })
  | .restart => (.restarted, { s with lexer := s.lexer.restart })
  | .save => (.saved, { s with saved := s.lexer })
  | .load => (.loaded, { s with lexer := s.saved })
  | .count => (.count s.lexer.items.length, s)

/-- The answers to a sequence of commands. -/
def run (s : Stepping) : List Command → List Answer
  | [] => []
  | c :: cs => (s.step c).1 :: (s.step c).2.run cs

end Stepping

end PrefixLisp.Lexer
