/-
  The integers of the language: those from -2⁶³ up to, not including, 2⁶³.

  A `Number` is an exact integer with a proof that it is in range, so arithmetic is done on
  `Int` and only its result is tested (`Number.ofInt?`). `render` is the plain decimal text
  and `ofLiteral?` reads one back, leading zeros and `-0` included.
-/

namespace PrefixLisp

/-- The integers that fit in 64 bits, one of them for the sign. -/
def Number.InRange (n : Int) : Prop :=
  -9223372036854775808 ≤ n ∧ n < 9223372036854775808

instance : DecidablePred Number.InRange :=
  fun _ => inferInstanceAs (Decidable (_ ∧ _))

structure Number where
  val : Int
  inRange : Number.InRange val
deriving DecidableEq

namespace Number

@[ext] theorem ext {a b : Number} (h : a.val = b.val) : a = b := by
  cases a; cases b; cases h; rfl

/-- The number of value `n`, if `n` is in range. -/
def ofInt? (n : Int) : Option Number :=
  if h : InRange n then some ⟨n, h⟩ else none

theorem ofInt?_eq_some_iff {n : Int} {a : Number} : ofInt? n = some a ↔ a.val = n := by
  unfold ofInt?
  split
  · exact ⟨fun h => by cases h; rfl, fun h => congrArg some (ext h.symm)⟩
  · rename_i hn
    exact ⟨nofun, fun h => absurd (h ▸ a.inRange) hn⟩

theorem ofInt?_eq_none_iff {n : Int} : ofInt? n = none ↔ ¬InRange n := by
  unfold ofInt?
  split
  · rename_i hn
    exact ⟨nofun, fun h => absurd hn h⟩
  · rename_i hn
    exact ⟨fun _ => hn, fun _ => rfl⟩

@[simp] theorem ofInt?_val (a : Number) : ofInt? a.val = some a :=
  ofInt?_eq_some_iff.2 rfl

def zero : Number := ⟨0, by decide⟩

def one : Number := ⟨1, by decide⟩

instance : Inhabited Number := ⟨zero⟩

/-- Plain decimal text: a sign only when negative, no leading zeros. -/
def render (a : Number) : String :=
  a.val.repr

/-- The mathematical value of a literal: an optional `-` and decimal digits. -/
def literalValue : List Char → Int
  | '-' :: ds => -(Nat.ofDigitChars 10 ds 0 : Int)
  | ds => Nat.ofDigitChars 10 ds 0

/-- The number that a literal denotes, if it fits in 64 bits. -/
def ofLiteral? (text : List Char) : Option Number :=
  ofInt? (literalValue text)

end Number

end PrefixLisp
