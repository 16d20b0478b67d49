/-
  Where programs print: the bytes accepted so far, and how many more there is room for. A text
  that does not fit is accepted as far as there is room, even if that cuts a character.
-/

namespace PrefixLisp

structure Output where
  written : ByteArray
  /-- The bytes that can still be written; `none` if there is no limit. -/
  room : Option Nat
deriving Inhabited

namespace Output

/-- An empty output without a limit. -/
def unbounded : Output := ⟨.empty, none⟩

/-- An empty output that accepts `n` bytes. -/
def limited (n : Nat) : Output := ⟨.empty, some n⟩

/-- Whether a text can be written as a whole. -/
def fits (o : Output) (text : String) : Bool :=
  match o.room with
  | none => true
  | some n => text.utf8ByteSize ≤ n

/-- Write a text, as far as there is room. -/
def write (o : Output) (text : String) : Output :=
  match o.room with
  | none => { o with written := o.written ++ text.toUTF8 }
  | some n => ⟨o.written ++ text.toUTF8.extract 0 n, some (n - text.utf8ByteSize)⟩

/-- The text of the bytes; a character that the limit has cut shows as U+FFFD. -/
def text (o : Output) : String :=
  let size := o.written.size
  match String.fromUTF8? o.written with
  | some s => s
  | none =>
    match [1, 2, 3].findSome? fun cut => String.fromUTF8? (o.written.extract 0 (size - cut)) with
    | some s => s.push '\uFFFD'
    | none => "\uFFFD"

end Output

end PrefixLisp
