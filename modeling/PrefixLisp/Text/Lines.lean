/-
  The lines of a text. A newline ends a line; the last line may lack it.
-/

namespace PrefixLisp.Text

/-- Put a character in front of the first line; a newline is a line of its own. -/
def addToLines (c : Char) (lines : List (List Char)) : List (List Char) :=
  if c = '\n' then [] :: lines
  else
    match lines with
    | [] => [[c]]
    | line :: rest => (c :: line) :: rest

def lines (text : String) : List String :=
  (text.toList.foldr addToLines []).map .ofList

end PrefixLisp.Text
