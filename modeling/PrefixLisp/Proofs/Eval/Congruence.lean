import PrefixLisp.Eval
import PrefixLisp.Proofs.Expr.Occurrence

/-
  Relations between runs that evaluation passes on.

  A `Congruence` relates runs that are made of related parts in the same way. Then one level of an
  evaluation is related if the evaluations one level below are: of the operands, and of the bodies
  of functions, each in its frame (`Congruence.evalWithin_succ`). What is left to an induction on
  the levels is the names that the expression itself binds (`Expr.Binds`).
-/

namespace PrefixLisp

namespace Expr

/-- The expressions directly inside another that are evaluated in the same frame; the body of a
definition is not one of them. -/
def operands : Expr → List Expr
  | defun _ _ _ => []
  | e => e.children

/-- `name` is assigned or defined in the expression, outside the bodies of its definitions. -/
inductive Binds (name : String) : Expr → Prop where
  | assign (value : Expr) : Binds name (assign name value)
  | defun (params : List String) (body : Expr) : Binds name (defun name params body)
  | inside {c e : Expr} (hc : c ∈ e.operands) (h : Binds name c) : Binds name e

end Expr

/-- The relation passes through sequencing, and it relates to itself what a run does to its machine
without binding a name. -/
structure Congruence (R : (α : Type) → Run α → Run α → Prop) : Prop where
  pure : ∀ {α} (a : α), R α (pure a) (pure a)
  throw : ∀ {α} (e : EvalError), R α (throw e) (throw e)
  bind : ∀ {α β} {x y : Run α} {f g : α → Run β},
    R α x y → (∀ a, R β (f a) (g a)) → R β (x >>= f) (y >>= g)
  lookup : ∀ name, R _ (Run.lookup name) (Run.lookup name)
  printLine : ∀ text, R _ (Run.printLine text) (Run.printLine text)

namespace Congruence

variable {R : (α : Type) → Run α → Run α → Prop} {α : Type}

theorem ofExcept (hR : Congruence R) (r : Except EvalError α) :
    R α (Run.ofExcept r) (Run.ofExcept r) := by
  cases r with
  | ok a => exact hR.pure a
  | error e => exact hR.throw e

theorem mapM (hR : Congruence R) {ι : Type} {f g : ι → Run α} {xs : List ι}
    (h : ∀ x ∈ xs, R α (f x) (g x)) : R _ (xs.mapM f) (xs.mapM g) := by
  induction xs with
  | nil => exact hR.pure []
  | cons x xs ih =>
    rw [List.mapM_cons, List.mapM_cons]
    obtain ⟨hx, hxs⟩ := List.forall_mem_cons.1 h
    exact hR.bind hx fun a => hR.bind (ih hxs) fun as => hR.pure (a :: as)

section

variable {eval eval' : Expr → Run Value} {args : List Expr}

theorem fold (hR : Congruence R) (h : ∀ e ∈ args, R _ (eval e) (eval' e)) (op : Operator)
    (total : Value) : R _ (op.fold eval total args) (op.fold eval' total args) := by
  induction args generalizing total with
  | nil => exact hR.pure total
  | cons e es ih =>
    obtain ⟨he, hes⟩ := List.forall_mem_cons.1 h
    exact hR.bind he fun v => hR.bind (hR.ofExcept _) fun total => ih hes total

theorem evalPrim (hR : Congruence R) (h : ∀ e ∈ args, R _ (eval e) (eval' e)) (op : Operator) :
    R _ (Expr.evalPrim eval op args) (Expr.evalPrim eval' op args) := by
  unfold Expr.evalPrim
  split
  · cases args with
    | nil => exact hR.throw _
    | cons first rest =>
      obtain ⟨hfirst, hrest⟩ := List.forall_mem_cons.1 h
      refine hR.bind hfirst fun v => ?_
      have hfold := hR.fold hrest op v
      dsimp only
      split
      · exact hfold
      · exact hR.bind (hR.throw _) fun _ => hfold
  · split
    · rename_i left right
      refine hR.bind (h left (by simp)) fun x => hR.bind (h right (by simp)) fun y => ?_
      exact hR.bind (hR.ofExcept _) fun b => hR.pure _
    · exact hR.throw _

end

variable {limit limit' : Nat}

/-- One level of an evaluation: related operands, related bodies of functions in their frames, and
definitions of the names that the expression binds. -/
theorem evalWithin_succ (hR : Congruence R) {room room' : Nat} {e : Expr}
    (hdefine : ∀ name v, e.Binds name → R _ (Run.define name v) (Run.define name v))
    (hoperand : ∀ c ∈ e.operands, R _ (c.evalWithin limit room) (c.evalWithin limit' room'))
    (hbody : ∀ frame (body : Expr), R _ (Run.inFrame frame (body.evalWithin limit room))
      (Run.inFrame frame (body.evalWithin limit' room'))) :
    R _ (e.evalWithin limit (room + 1)) (e.evalWithin limit' (room' + 1)) := by
  cases e with
  | number n => exact hR.pure _
  | string s => exact hR.pure _
  | symbol name =>
    refine hR.bind (hR.lookup name) fun found => ?_
    cases found with
    | some v => exact hR.pure v
    | none => exact hR.throw _
  | assign name value =>
    exact hR.bind (hoperand value List.mem_cons_self) fun v =>
      hR.bind (hdefine name v (.assign value)) fun _ => hR.pure v
  | cond test yes no =>
    simp only [Expr.operands, Expr.children, List.forall_mem_cons] at hoperand
    obtain ⟨htest, hyes, hno, _⟩ := hoperand
    refine hR.bind htest fun v => ?_
    split
    · exact hyes
    · exact hno
  | print value =>
    exact hR.bind (hoperand value List.mem_cons_self) fun v =>
      hR.bind (hR.printLine _) fun _ => hR.pure v
  | defun name params body =>
    exact hR.bind (hdefine name _ (.defun params body)) fun _ => hR.pure _
  | call name args =>
    have hargs := hR.mapM hoperand
    refine hR.bind (hR.lookup name) fun found => ?_
    split
    · rename_i d
      exact hR.bind (hR.ofExcept _) fun _ => hR.bind hargs fun values => hbody _ d.body
    · exact hR.throw _
    · split
      · exact hR.bind hargs fun values => hR.ofExcept _
      · exact hR.throw _
  | prim op args => exact hR.evalPrim hoperand op

theorem program (hR : Congruence R) (h : ∀ e : Expr, R _ (e.eval limit) (e.eval limit'))
    (p : Program) : R _ (Program.eval limit p) (Program.eval limit' p) := by
  induction p with
  | nil => exact hR.throw _
  | cons e es ih =>
    cases es with
    | nil => exact h e
    | cons e' es => exact hR.bind (h e) fun _ => ih

end Congruence

end PrefixLisp
