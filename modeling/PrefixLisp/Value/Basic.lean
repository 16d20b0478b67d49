import PrefixLisp.Expr.Basic

/-
  Values: what an expression evaluates to.

  A function carries an identity beside its definition, and two functions are the same value
  only if both agree. Programs cannot see the identity, since their equality refuses functions;
  evaluation gives every function the identity 0, and a host that needs to tell two functions
  of one definition apart gives them different ones. `Value.beq` decides sameness.
-/

namespace PrefixLisp

inductive Value where
  | number (n : Number)
  | string (s : String)
  | list (items : List Value)
  | function (identity : Nat) (definition : Definition)
  | nil
deriving Inhabited

namespace Value

/-- The kinds of value that a program can tell apart. -/
inductive Kind where
  | number | string | list | function | nil
deriving DecidableEq, Inhabited

def Kind.name : Kind → String
  | number => "number"
  | string => "string"
  | list => "list"
  | function => "function"
  | nil => "nil"

def kind : Value → Kind
  | number _ => .number
  | string _ => .string
  | list _ => .list
  | function _ _ => .function
  | nil => .nil

mutual

def beq : Value → Value → Bool
  | number m, number n => m = n
  | string s, string t => s = t
  | list xs, list ys => beqAll xs ys
  | function i d, function j e => i = j && d = e
  | nil, nil => true
  | _, _ => false

def beqAll : List Value → List Value → Bool
  | [], [] => true
  | x :: xs, y :: ys => x.beq y && beqAll xs ys
  | _, _ => false

end

mutual

theorem beq_iff_eq : ∀ a b : Value, a.beq b = true ↔ a = b
  | number _, b => by cases b <;> simp [beq]
  | string _, b => by cases b <;> simp [beq]
  | list xs, b => by cases b <;> simp [beq, beqAll_iff_eq xs]
  | function _ _, b => by cases b <;> simp [beq]
  | nil, b => by cases b <;> simp [beq]

theorem beqAll_iff_eq : ∀ xs ys : List Value, beqAll xs ys = true ↔ xs = ys
  | [], ys => by cases ys <;> simp [beqAll]
  | x :: xs, ys => by cases ys <;> simp [beqAll, beq_iff_eq x, beqAll_iff_eq xs]

end

instance : DecidableEq Value := fun a b => decidable_of_iff _ (beq_iff_eq a b)

/-- Every value but the number 0 counts as true. -/
def isTruthy (v : Value) : Bool :=
  v ≠ number .zero

mutual

/-- The text of a value as `print` shows it. -/
def render : Value → String
  | number n => n.render
  | string s => s
  | list [] => "()"
  | list (x :: xs) => "(" ++ x.render ++ renderRest xs ++ ")"
  | function _ d => "<function " ++ d.name ++ ">"
  | nil => "nil"

/-- Each item after a space. -/
def renderRest : List Value → String
  | [] => ""
  | x :: xs => " " ++ x.render ++ renderRest xs

end

/-- The truth value of a comparison: 1 or 0. -/
def ofBool (b : Bool) : Value :=
  number (if b then .one else .zero)

end Value

end PrefixLisp
