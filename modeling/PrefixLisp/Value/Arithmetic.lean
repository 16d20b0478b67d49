import PrefixLisp.Value.Error

/-
  The operators on values.

  Arithmetic is exact on the integers and fails if the result does not fit in 64 bits; division
  truncates toward zero. Equality is defined between two numbers, two strings, two nils and two
  lists; lists are compared from the left, up to the first pair that differs or cannot be
  compared. The ordering comparisons take numbers only.
-/

namespace PrefixLisp

namespace Value

/-- Both operands as numbers. -/
def numbers (op : Operator) : Value → Value → Except EvalError (Number × Number)
  | number a, number b => .ok (a, b)
  | a, b => .error (.mismatch (.notNumbers op a.kind b.kind))

/-- The exact result of an arithmetic operator; `none` for a comparison. -/
def exactly? : Operator → Int → Int → Option Int
  | .add, a, b => some (a + b)
  | .sub, a, b => some (a - b)
  | .mul, a, b => some (a * b)
  | .div, a, b => some (a.tdiv b)
  | _, _, _ => none

def arithmetic (op : Operator) (x y : Value) : Except EvalError Value := do
  let (a, b) ← numbers op x y
  if op = .div ∧ b = .zero then throw (.failure .divisionByZero)
  match exactly? op a.val b.val with
  | none => throw (.failure (.notArithmetic op))
  | some n =>
    match Number.ofInt? n with
    | none => throw (.failure (.overflow a op b))
    | some c => return number c

mutual

/-- Equality as programs see it. -/
def equals : Value → Value → Except EvalError Bool
  | number a, number b => .ok (a = b)
  | string s, string t => .ok (s = t)
  | nil, nil => .ok true
  | list xs, list ys => if xs.length = ys.length then equalsAll xs ys else .ok false
  | a, b => .error (.mismatch (.incomparable a.kind b.kind))

/-- Equality of the pairs of two lists, up to the first that differs. -/
def equalsAll : List Value → List Value → Except EvalError Bool
  | x :: xs, y :: ys =>
    match x.equals y with
    | .ok true => equalsAll xs ys
    | r => r
  | _, _ => .ok true

end

def compare (op : Operator) (x y : Value) : Except EvalError Bool :=
  match op with
  | .eq => x.equals y
  | .ne => (!·) <$> x.equals y
  | .gt => (fun (a, b) => b.val < a.val) <$> numbers op x y
  | .lt => (fun (a, b) => a.val < b.val) <$> numbers op x y
  | .ge => (fun (a, b) => b.val ≤ a.val) <$> numbers op x y
  | .le => (fun (a, b) => a.val ≤ b.val) <$> numbers op x y
  | _ => .error (.failure (.notComparison op))

end Value

end PrefixLisp
