import PrefixLisp.Proofs.Eval.Simulation
import PrefixLisp.Proofs.Scope

/-
  Evaluation on one map.

  The reference evaluator keeps a single map of names. Assignments and definitions change this
  map. A call evaluates its arguments on the caller's map, runs the body on a copy of it with the
  parameters added, and throws the copy away (`Flat.onCopy`), whether the body ends in a value or
  in an error.

  The evaluator on a chain of frames goes like the reference on the chain's visible bindings
  (`eval_refines_flat`): the same value or error, the same output, and names that look up alike in
  the end. The invariant is `Flat.Shows`; it also says that a run leaves the frames below the
  innermost one alone, so that dropping the frame of a call restores the caller's scope.
-/

namespace PrefixLisp

/-- The state of the reference evaluator. -/
structure Flat where
  names : Bindings Value
  out : Output

abbrev FlatRun := EStateM EvalError Flat

namespace Flat

def ofExcept {α : Type} : Except EvalError α → FlatRun α
  | .ok a => pure a
  | .error e => throw e

def lookup (name : String) : FlatRun (Option Value) := do
  return (← get).names.get? name

def define (name : String) (v : Value) : FlatRun Unit :=
  modify fun f => { f with names := f.names.insert name v }

/-- Write a text and a newline. -/
def printLine (text : String) : FlatRun Unit := do
  let line := text ++ "\n"
  let fits := (← get).out.fits line
  modify fun f => { f with out := f.out.write line }
  unless fits do throw (.failure .outputFull)

/-- Run on a copy of the map with parameters added; of the copy, only what was printed is kept. -/
def onCopy (params : List String) (args : List Value) (body : FlatRun Value) : FlatRun Value :=
  fun f =>
    match body { f with names := f.names.insertAll (params.zip args) } with
    | .ok v copy => .ok v { f with out := copy.out }
    | .error e copy => .error e { f with out := copy.out }

def evalPrim (eval : Expr → FlatRun Value) (op : Operator) (args : List Expr) : FlatRun Value :=
  if op.isArithmetic then
    match args with
    | [] => throw (.arity op.symbol (.atLeast 1) 0)
    | first :: rest => do
      let v ← eval first
      unless v.kind = .number do throw (.mismatch (.notNumber op v.kind))
      rest.foldlM (fun total e => do ofExcept (Value.arithmetic op total (← eval e))) v
  else
    match args with
    | [left, right] => do
      let x ← eval left
      let y ← eval right
      return .ofBool (← ofExcept (Value.compare op x y))
    | _ => throw (.arity op.symbol (.exactly 2) args.length)

/-- Evaluate with `room` levels left below the limit. -/
def evalWithin (limit : Nat) : (room : Nat) → Expr → FlatRun Value
  | 0, _ => throw (.failure (.depthExceeded limit))
  | _ + 1, .number n => pure (.number n)
  | _ + 1, .string s => pure (.string s)
  | _ + 1, .symbol name => do
    match ← lookup name with
    | some v => return v
    | none => throw (.unbound name)
  | room + 1, .assign name value => do
    let v ← evalWithin limit room value
    define name v
    return v
  | room + 1, .cond test yes no => do
    let v ← evalWithin limit room test
    if v.isTruthy then evalWithin limit room yes else evalWithin limit room no
  | room + 1, .print value => do
    let v ← evalWithin limit room value
    printLine v.render
    return v
  | _ + 1, .defun name params body => do
    define name (.function 0 ⟨name, params, body⟩)
    return .string name
  | room + 1, .call name args => do
    match ← lookup name with
    | some (.function _ d) => do
      ofExcept ((Arity.exactly d.params.length).check d.name args.length)
      let values ← args.mapM fun arg => evalWithin limit room arg
      onCopy d.params values (evalWithin limit room d.body)
    | some v => throw (.mismatch (.notFunction name v.kind))
    | none =>
      match Builtin.find? name with
      | some b => do
        let values ← args.mapM fun arg => evalWithin limit room arg
        ofExcept (b.call values)
      | none => throw (.unbound name)
  | room + 1, .prim op args => evalPrim (fun arg => evalWithin limit room arg) op args

/-- Evaluate an expression that stands at a depth, under a depth limit. -/
def eval (limit : Nat) (e : Expr) (depth : Nat) : FlatRun Value :=
  evalWithin limit (limit - depth) e

/-! ## The simulation -/

/-- The names look up alike and the outputs are the same. -/
def Agrees (m : Machine) (f : Flat) : Prop :=
  (∀ name, m.scope.get? name = f.names.get? name) ∧ m.out = f.out

/-- The two states agree, and `outer` are the frames below the innermost one. -/
def Shows (outer : List (Bindings Value)) (m : Machine) (f : Flat) : Prop :=
  m.scope.outer = outer ∧ Agrees m f

variable {outer : List (Bindings Value)}

theorem simulates_ofExcept {α : Type} (r : Except EvalError α) :
    Simulates (Shows outer) (Run.ofExcept r) (ofExcept r) := by
  cases r with
  | ok a => exact simulates_pure a
  | error e => exact simulates_throw e

theorem simulates_lookup (name : String) :
    Simulates (Shows outer) (Run.lookup name) (lookup name) :=
  fun _ _ h => ⟨h.2.1 name, h⟩

theorem simulates_define (name : String) (v : Value) :
    Simulates (Shows outer) (Run.define name v) (define name v) := by
  intro m f ⟨houter, hget, hout⟩
  refine ⟨rfl, houter, fun other => ?_, hout⟩
  show (m.scope.define name v).get? other = (f.names.insert name v).get? other
  rw [Scope.get?_define, Bindings.get?_insert, hget]

theorem printLine_eq (text : String) (f : Flat) :
    printLine text f =
      if f.out.fits (text ++ "\n") then .ok () { f with out := f.out.write (text ++ "\n") }
      else .error (.failure .outputFull) { f with out := f.out.write (text ++ "\n") } := by
  show (if f.out.fits (text ++ "\n") then (pure () : FlatRun Unit)
    else throw (.failure .outputFull)) { f with out := f.out.write (text ++ "\n") } = _
  split <;> rfl

theorem simulates_printLine (text : String) :
    Simulates (Shows outer) (Run.printLine text) (printLine text) := by
  intro m f ⟨houter, hget, hout⟩
  rw [Run.printLine_eq, printLine_eq, hout]
  split
  · exact ⟨rfl, houter, hget, rfl⟩
  · exact ⟨rfl, houter, hget, rfl⟩

/-- A frame of parameters on the chain, parameters added to the copy. -/
theorem agrees_push {m : Machine} {f : Flat} (h : Agrees m f) (params : List String)
    (args : List Value) :
    Agrees { m with scope := m.scope.push (.ofParams params args) }
      { f with names := f.names.insertAll (params.zip args) } := by
  refine ⟨fun name => ?_, h.2⟩
  show (m.scope.push _).get? name = (f.names.insertAll _).get? name
  rw [Scope.get?_push, Bindings.ofParams_eq, Bindings.get?_insertAll, Bindings.get?_insertAll,
    Bindings.get?_empty, Option.or_none, h.1]

theorem simulates_inFrame {x : Run Value} {y : FlatRun Value}
    (h : ∀ outer, Simulates (Shows outer) x y) (params : List String) (args : List Value) :
    Simulates (Shows outer) (Run.inFrame (.ofParams params args) x) (onCopy params args y) := by
  intro m f ⟨houter, hagree⟩
  -- The body runs with all frames of the caller below its own, and leaves them as they are.
  have hend := h m.scope.frames _ _ ⟨rfl, agrees_push hagree params args⟩
  unfold Run.inFrame onCopy
  obtain ⟨v, m₁, f₁, hx, hy, hframes, _, hout⟩ | ⟨e, m₁, f₁, hx, hy, hframes, _, hout⟩ :=
    hend.ok_or_error
  · rw [hx, hy]
    dsimp only
    rw [Scope.pop_of_outer hframes, hout]
    exact ⟨rfl, houter, hagree.1, rfl⟩
  · rw [hx, hy]
    dsimp only
    rw [Scope.pop_of_outer hframes, hout]
    exact ⟨rfl, houter, hagree.1, rfl⟩

theorem simulates_fold {eval : Expr → Run Value} {evalFlat : Expr → FlatRun Value}
    (heval : ∀ e, Simulates (Shows outer) (eval e) (evalFlat e)) (op : Operator) (es : List Expr)
    (total : Value) :
    Simulates (Shows outer) (op.fold eval total es)
      (es.foldlM (fun total e => do ofExcept (Value.arithmetic op total (← evalFlat e)))
        total) := by
  induction es generalizing total with
  | nil => exact simulates_pure total
  | cons e es ih =>
    rw [List.foldlM_cons, bind_assoc]
    exact (heval e).bind fun v => (simulates_ofExcept _).bind fun total => ih total

theorem simulates_evalPrim {eval : Expr → Run Value} {evalFlat : Expr → FlatRun Value}
    (heval : ∀ e, Simulates (Shows outer) (eval e) (evalFlat e)) (op : Operator)
    (args : List Expr) :
    Simulates (Shows outer) (Expr.evalPrim eval op args) (evalPrim evalFlat op args) := by
  unfold Expr.evalPrim evalPrim
  split
  · cases args with
    | nil => exact simulates_throw _
    | cons first rest =>
      refine (heval first).bind fun v => ?_
      have hrest := simulates_fold heval op rest v
      dsimp only
      split
      · exact hrest
      · exact (simulates_throw _).bind fun _ => hrest
  · rcases args with _ | ⟨left, _ | ⟨right, _ | ⟨_, _⟩⟩⟩
    · exact simulates_throw _
    · exact simulates_throw _
    · exact (heval left).bind fun x => (heval right).bind fun y =>
        (simulates_ofExcept _).bind fun b => simulates_pure _
    · exact simulates_throw _

theorem simulates_evalWithin (limit room : Nat) (e : Expr) :
    Simulates (Shows outer) (e.evalWithin limit room) (evalWithin limit room e) := by
  induction room generalizing outer e with
  | zero => exact simulates_throw _
  | succ room ih =>
    cases e with
    | number n => exact simulates_pure _
    | string s => exact simulates_pure _
    | symbol name =>
      refine (simulates_lookup name).bind fun found => ?_
      cases found with
      | some v => exact simulates_pure v
      | none => exact simulates_throw _
    | assign name value =>
      exact (ih value).bind fun v => (simulates_define name v).bind fun _ => simulates_pure v
    | cond test yes no =>
      refine (ih test).bind fun v => ?_
      split
      · exact ih yes
      · exact ih no
    | print value =>
      exact (ih value).bind fun v => (simulates_printLine _).bind fun _ => simulates_pure v
    | defun name params body =>
      exact (simulates_define name _).bind fun _ => simulates_pure _
    | call name args =>
      have hargs : Simulates (Shows outer) (args.mapM (Expr.evalWithin limit room))
          (args.mapM (evalWithin limit room)) := simulates_mapM fun arg _ => ih arg
      refine (simulates_lookup name).bind fun found => ?_
      rcases found with _ | v
      · cases Builtin.find? name with
        | none => exact simulates_throw _
        | some b => exact hargs.bind fun values => simulates_ofExcept _
      · cases v with
        | function _ d =>
          exact (simulates_ofExcept _).bind fun _ => hargs.bind fun values =>
            simulates_inFrame (fun _ => ih d.body) d.params values
        | number | string | list | nil => exact simulates_throw _
    | prim op args => exact simulates_evalPrim (fun arg => ih arg) op args

end Flat

/-- Evaluation on a chain of frames goes like evaluation on one map of its visible bindings. -/
theorem eval_refines_flat (limit depth : Nat) (e : Expr) (scope : Scope) (out : Output) :
    EndAlike Flat.Agrees (e.eval limit depth ⟨scope, out⟩)
      (Flat.eval limit e depth ⟨scope.visible, out⟩) := by
  have hstart : Flat.Shows scope.outer ⟨scope, out⟩ ⟨scope.visible, out⟩ :=
    ⟨rfl, fun name => (scope.get?_visible name).symm, rfl⟩
  exact (Flat.simulates_evalWithin limit (limit - depth) e _ _ hstart).mono fun _ _ h => h.2

end PrefixLisp
