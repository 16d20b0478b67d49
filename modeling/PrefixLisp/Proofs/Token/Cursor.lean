import PrefixLisp.Proofs.Token.Stream
import PrefixLisp.Token.Stepping

/-
  Stepping through a text is moving along a list.

  A `Cursor` is a place in a list of items, with one more place that is remembered. It answers the
  commands of a stepping from the list alone. Many lexers stand at one place of the list: in front
  of trivia or behind it, and at the end both before and after the call that finds nothing there. A
  lexer is at a place if the items that it has left are those of the list from there on
  (`Lexer.IsAt`). Each command keeps the two lexers of a stepping at the two places of the cursor
  (`Follows.step`), so all answers are those of the cursor on the items of the text
  (`stepping_refines_cursor`). What an item is, and where, does not depend on how one came to it.
-/

namespace PrefixLisp

open Trivia

namespace Lexer

/-! ## Cursors -/

/-- A place in a list of items, counted from 0, and the place that is remembered. -/
structure Cursor where
  items : List LexItem
  place : Nat
  saved : Nat

namespace Cursor

def start (items : List LexItem) : Cursor :=
  ⟨items, 0, 0⟩

/-- Only taking an item, going back and returning move the cursor; at the end there is no item to
take, and it stays there. -/
def step (c : Cursor) : Command → Answer × Cursor
  | .next =>
    match c.items[c.place]? with
    | some item => (.item (some item), { c with place := c.place + 1 })
    | none => (.item none, c)
  | .restart => (.restarted, { c with place := 0 })
  | .save => (.saved, { c with saved := c.place })
  | .load => (.loaded, { c with place := c.saved })
  | .count => (.count (c.items.drop c.place).length, c)

def run (c : Cursor) : List Command → List Answer
  | [] => []
  | command :: commands => (c.step command).1 :: (c.step command).2.run commands

end Cursor

/-! ## Lexers at a place -/

/-- The lexer reads the text, and it has the items left that follow the first `place` ones. -/
structure IsAt (source : String) (place : Nat) (l : Lexer) : Prop where
  source_eq : l.source = source.toList
  left_eq : l.items = (ofString source).items.drop place

variable {source : String} {place : Nat} {l l' : Lexer} {item : LexItem}

theorem source_of_next? (h : l.next? = some (item, l')) : l'.source = l.source := by
  unfold next? at h
  split at h
  · cases h
  · split at h <;> cases h <;> rfl

theorem isAt_ofString (source : String) : IsAt source 0 (ofString source) :=
  ⟨rfl, rfl⟩

theorem IsAt.restart (h : IsAt source place l) : IsAt source 0 l.restart := by
  refine ⟨h.source_eq, ?_⟩
  unfold Lexer.restart
  rw [items_mk, h.source_eq]
  rfl

/-- Passing over trivia is no move along the items. -/
theorem items_skipTrivia (l : Lexer) : l.skipTrivia.items = l.items := by
  unfold skipTrivia
  rcases hskip : skip false l.pos l.rest with ⟨pos, rest⟩
  have hitems : l.items = stream l.pos l.rest := items_mk l.source l.rest l.pos
  rw [hitems, stream_skip hskip]
  exact items_mk l.source rest pos

theorem IsAt.skipTrivia (h : IsAt source place l) : IsAt source place l.skipTrivia :=
  ⟨h.source_eq, (items_skipTrivia l).trans h.left_eq⟩

/-- The item that is taken is the one at the place, and the lexer is behind it. -/
theorem IsAt.next (h : IsAt source place l) (hnext : l.next? = some (item, l')) :
    (ofString source).items[place]? = some item ∧ IsAt source (place + 1) l' := by
  have hdrop : (ofString source).items.drop place = item :: l'.items := by
    rw [← h.left_eq, items_eq, hnext]
  refine ⟨?_, (source_of_next? hnext).trans h.source_eq, ?_⟩
  · rw [← List.head?_drop, hdrop, List.head?_cons]
  · rw [← List.tail_drop, hdrop, List.tail_cons]

theorem IsAt.getElem?_eq_none (h : IsAt source place l) (hnext : l.next? = none) :
    (ofString source).items[place]? = none := by
  rw [← List.head?_drop, ← h.left_eq, items_eq, hnext]
  rfl

/-! ## Steps and runs -/

/-- The stepping's two lexers are at the two places of a cursor on the items of the text. -/
structure Follows (source : String) (s : Stepping) (c : Cursor) : Prop where
  items : c.items = (ofString source).items
  place : s.lexer.IsAt source c.place
  saved : s.saved.IsAt source c.saved

theorem follows_start (source : String) :
    Follows source (.ofString source) (.start (ofString source).items) :=
  ⟨rfl, isAt_ofString source, isAt_ofString source⟩

theorem Follows.step {s : Stepping} {c : Cursor} (h : Follows source s c) (command : Command) :
    (s.step command).1 = (c.step command).1 ∧
      Follows source (s.step command).2 (c.step command).2 := by
  obtain ⟨items, place, saved⟩ := c
  obtain ⟨rfl, hplace, hsaved⟩ := h
  cases command with
  | next =>
    unfold Stepping.step Cursor.step
    dsimp only
    match hnext : s.lexer.next? with
    | some (item, l') =>
      obtain ⟨hitem, hnext⟩ := hplace.next hnext
      rw [hitem]
      exact ⟨rfl, rfl, hnext, hsaved⟩
    | none =>
      rw [hplace.getElem?_eq_none hnext]
      exact ⟨rfl, rfl, hplace.skipTrivia, hsaved⟩
  | restart => exact ⟨rfl, rfl, hplace.restart, hsaved⟩
  | save => exact ⟨rfl, rfl, hplace, hplace⟩
  | load => exact ⟨rfl, rfl, hsaved, hsaved⟩
  | count =>
    have hcount := congrArg (fun left => Answer.count left.length) hplace.left_eq
    exact ⟨hcount, rfl, hplace, hsaved⟩

theorem Follows.run {s : Stepping} {c : Cursor} (h : Follows source s c)
    (commands : List Command) : s.run commands = c.run commands := by
  induction commands generalizing s c with
  | nil => rfl
  | cons command commands ih =>
    obtain ⟨hanswer, hnext⟩ := h.step command
    rw [Stepping.run, Cursor.run, hanswer, ih hnext]

end Lexer

/-- A lexer that is stepped through a text, sent back to the start or to a place that was saved, and
asked how much is left, in whatever order, gives the answers of a cursor that is moved along the
list of the items of the text. -/
theorem stepping_refines_cursor (source : String) (commands : List Lexer.Command) :
    (Lexer.Stepping.ofString source).run commands =
      (Lexer.Cursor.start (Lexer.ofString source).items).run commands :=
  (Lexer.follows_start source).run commands

end PrefixLisp
