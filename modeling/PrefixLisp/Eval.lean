import PrefixLisp.Builtin.Call
import PrefixLisp.Output
import PrefixLisp.Scope
import PrefixLisp.Value.Arithmetic

/-
  Evaluation.

  A run changes a machine (the scope and the output) and ends in a value or an error; what it
  did before an error stays done. Every expression inside another is evaluated one level
  deeper, a function's body too, and at the depth limit evaluation fails before it looks at
  the expression: `evalWithin` recurses on the levels that are left.

  Functions see the scope of their caller: a call pushes a frame with its parameters onto it,
  and drops that frame when the body ends, in a value or in an error.
-/

namespace PrefixLisp

/-- What a run may change. -/
structure Machine where
  scope : Scope
  out : Output
deriving Inhabited

/-- A computation that changes a machine and may fail; the changes outlive a failure. -/
abbrev Run := EStateM EvalError Machine

namespace Run

variable {α : Type}

def ofExcept : Except EvalError α → Run α
  | .ok a => pure a
  | .error e => throw e

def lookup (name : String) : Run (Option Value) := do
  return (← get).scope.get? name

/-- Bind a name in the innermost frame. -/
def define (name : String) (v : Value) : Run Unit :=
  modify fun m => { m with scope := m.scope.define name v }

/-- Write a text and a newline. -/
def printLine (text : String) : Run Unit := do
  let line := text ++ "\n"
  let fits := (← get).out.fits line
  modify fun m => { m with out := m.out.write line }
  unless fits do throw (.failure .outputFull)

/-- Run inside one more frame, which is dropped at the end. -/
def inFrame (frame : Bindings Value) (body : Run α) : Run α := fun m =>
  match body { m with scope := m.scope.push frame } with
  | .ok a m => .ok a { m with scope := m.scope.pop }
  | .error e m => .error e { m with scope := m.scope.pop }

end Run

/-- The frame of a call: each parameter bound to its argument, a repeated one to the last. -/
def Bindings.ofParams (params : List String) (args : List Value) : Bindings Value :=
  (params.zip args).foldl (fun frame (name, v) => frame.insert name v) .empty

/-- Combine the operands that follow the first one, each evaluated just before it is used. -/
def Operator.fold (op : Operator) (eval : Expr → Run Value) (total : Value) :
    List Expr → Run Value
  | [] => pure total
  | e :: es => do
    let v ← eval e
    op.fold eval (← Run.ofExcept (Value.arithmetic op total v)) es

namespace Expr

/-- Evaluate an operator's operands and combine them. -/
def evalPrim (eval : Expr → Run Value) (op : Operator) (args : List Expr) : Run Value :=
  if op.isArithmetic then
    match args with
    | [] => throw (.arity op.symbol (.atLeast 1) 0)
    | first :: rest => do
      let v ← eval first
      unless v.kind = .number do throw (.mismatch (.notNumber op v.kind))
      op.fold eval v rest
  else
    match args with
    | [left, right] => do
      let x ← eval left
      let y ← eval right
      return .ofBool (← Run.ofExcept (Value.compare op x y))
    | _ => throw (.arity op.symbol (.exactly 2) args.length)

/-- Evaluate with `room` levels left below the limit. -/
def evalWithin (limit : Nat) : (room : Nat) → Expr → Run Value
  | 0, _ => throw (.failure (.depthExceeded limit))
  | _ + 1, number n => pure (.number n)
  | _ + 1, string s => pure (.string s)
  | _ + 1, symbol name => do
    match ← Run.lookup name with
    | some v => return v
    | none => throw (.unbound name)
  | room + 1, assign name value => do
    let v ← evalWithin limit room value
    Run.define name v
    return v
  | room + 1, cond test yes no => do
    let v ← evalWithin limit room test
    if v.isTruthy then evalWithin limit room yes else evalWithin limit room no
  | room + 1, print value => do
    let v ← evalWithin limit room value
    Run.printLine v.render
    return v
  | _ + 1, defun name params body => do
    Run.define name (.function 0 ⟨name, params, body⟩)
    return .string name
  | room + 1, call name args => do
    match ← Run.lookup name with
    | some (.function _ d) => do
      Run.ofExcept ((Arity.exactly d.params.length).check d.name args.length)
      let values ← args.mapM fun arg => evalWithin limit room arg
      Run.inFrame (.ofParams d.params values) (evalWithin limit room d.body)
    | some v => throw (.mismatch (.notFunction name v.kind))
    | none =>
      match Builtin.find? name with
      | some b => do
        let values ← args.mapM fun arg => evalWithin limit room arg
        Run.ofExcept (b.call values)
      | none => throw (.unbound name)
  | room + 1, prim op args => evalPrim (fun arg => evalWithin limit room arg) op args

/-- Evaluate an expression that stands at a depth, under a depth limit. -/
def eval (limit : Nat) (e : Expr) (depth : Nat := 0) : Run Value :=
  e.evalWithin limit (limit - depth)

end Expr

/-- Evaluate top-level expressions in order, up to the first that fails; the value is that of
the last. -/
def Program.eval (limit : Nat) : Program → Run Value
  | [] => throw (.failure .emptyProgram)
  | [e] => e.eval limit
  | e :: es => do
    let _ ← e.eval limit
    Program.eval limit es

end PrefixLisp
