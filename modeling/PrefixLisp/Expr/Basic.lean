import PrefixLisp.Number
import PrefixLisp.Operator

/-
  Expressions, function definitions and programs.

  `Expr.beq` compares two trees node by node; `Expr.beq_iff_eq` says that it decides equality.
-/

namespace PrefixLisp

inductive Expr where
  | number (n : Number)
  | string (s : String)
  | symbol (name : String)
  /-- Written `(setq name value)`. -/
  | assign (name : String) (value : Expr)
  /-- Written `(if test yes no)`. -/
  | cond (test yes no : Expr)
  | print (value : Expr)
  /-- Written `(defun name (params…) body)`. -/
  | defun (name : String) (params : List String) (body : Expr)
  /-- Written `(name args…)`. -/
  | call (name : String) (args : List Expr)
  /-- Written `(op args…)`. -/
  | prim (op : Operator) (args : List Expr)
deriving Inhabited

/-- Top-level expressions, run one after the other. -/
abbrev Program := List Expr

namespace Expr

mutual

def beq : Expr → Expr → Bool
  | number m, number n => m = n
  | string s, string t => s = t
  | symbol x, symbol y => x = y
  | assign x v, assign y w => x = y && v.beq w
  | cond a b c, cond a' b' c' => a.beq a' && b.beq b' && c.beq c'
  | print v, print w => v.beq w
  | defun f ps b, defun g qs c => f = g && ps = qs && b.beq c
  | call f as, call g bs => f = g && beqAll as bs
  | prim o as, prim p bs => o = p && beqAll as bs
  | _, _ => false

def beqAll : List Expr → List Expr → Bool
  | [], [] => true
  | a :: as, b :: bs => a.beq b && beqAll as bs
  | _, _ => false

end

mutual

theorem beq_iff_eq : ∀ a b : Expr, a.beq b = true ↔ a = b
  | number _, b => by cases b <;> simp [beq]
  | string _, b => by cases b <;> simp [beq]
  | symbol _, b => by cases b <;> simp [beq]
  | assign _ v, b => by cases b <;> simp [beq, beq_iff_eq v]
  | cond x y z, b => by
    cases b <;> simp [beq, beq_iff_eq x, beq_iff_eq y, beq_iff_eq z, and_assoc]
  | print v, b => by cases b <;> simp [beq, beq_iff_eq v]
  | defun _ _ v, b => by cases b <;> simp [beq, beq_iff_eq v, and_assoc]
  | call _ as, b => by cases b <;> simp [beq, beqAll_iff_eq as]
  | prim _ as, b => by cases b <;> simp [beq, beqAll_iff_eq as]

theorem beqAll_iff_eq : ∀ as bs : List Expr, beqAll as bs = true ↔ as = bs
  | [], bs => by cases bs <;> simp [beqAll]
  | a :: as, bs => by cases bs <;> simp [beqAll, beq_iff_eq a, beqAll_iff_eq as]

end

instance : DecidableEq Expr := fun a b => decidable_of_iff _ (beq_iff_eq a b)

/-- The expression of a string token: a quote at the front is taken off if the remainder ends
in one, and that one too; any other text stands for itself. -/
def ofStringLexeme (lexeme : String) : Expr :=
  match lexeme.toList with
  | '"' :: cs => if cs.getLast? = some '"' then .string (.ofList cs.dropLast) else .string lexeme
  | _ => .string lexeme

theorem ofStringLexeme_eq_string (lexeme : String) : ∃ s, ofStringLexeme lexeme = .string s := by
  unfold ofStringLexeme
  split
  · split <;> exact ⟨_, rfl⟩
  · exact ⟨_, rfl⟩

end Expr

/-- A function: its own name, its parameters, and the body that a call runs. -/
structure Definition where
  name : String
  params : List String
  body : Expr
deriving DecidableEq, Inhabited

end PrefixLisp
