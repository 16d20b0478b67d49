import PrefixLisp.Value.Error

/-
  The operations on list values. None changes its list: each builds a new one.
-/

namespace PrefixLisp.Value

/-- The items of a list, for the operation that asks. -/
def items (operation : Builtin) : Value → Except EvalError (List Value)
  | list xs => .ok xs
  | v => .error (.mismatch (.notList operation v.kind))

/-- A number used as an index, for the operation that asks. -/
def index (operation : Builtin) : Value → Except EvalError Number
  | number n => .ok n
  | v => .error (.mismatch (.notIndex operation v.kind))

def head (v : Value) : Except EvalError Value := do
  match ← v.items .head with
  | [] => throw (.failure .headOfEmpty)
  | x :: _ => return x

/-- All but the first item; the empty list has the empty tail. -/
def tail (v : Value) : Except EvalError Value := do
  return list (← v.items .tail).tail

def append (v item : Value) : Except EvalError Value := do
  return list ((← v.items .append) ++ [item])

/-- The items from `start` up to, not including, `stop`; both are cut to the list's bounds. -/
def splice (v : Value) (start stop : Number) : Except EvalError Value := do
  let xs ← v.items .splice
  return list ((xs.take stop.val.toNat).drop start.val.toNat)

def length (v : Value) : Except EvalError Value := do
  match Number.ofInt? (← v.items .length).length with
  | some n => return number n
  | none => throw (.failure .listTooLong)

/-- The item at an index, counted from 0. -/
def nth (v : Value) (i : Number) : Except EvalError Value := do
  let xs ← v.items .nth
  if i.val < 0 then throw (.failure (.indexOutOfBounds i xs.length))
  match xs[i.val.toNat]? with
  | some x => return x
  | none => throw (.failure (.indexOutOfBounds i xs.length))

end PrefixLisp.Value
