import PrefixLisp.Proofs.Eval.Coupling

/-
  Runs without functions.

  If no function is bound, not even in a list, and the program defines none, then none ever comes
  about: the operators and the builtins only pass on what is in their arguments. So a call never
  enters a body, and every expression that is evaluated is one of the program, as deep as it stands
  there. A program that is no higher than the depth limit thus never comes to this limit
  (`eval_functionFree`).

  Both facts need each other, and both are carried by one coupling of the run with itself
  (`functionFree`). What is evaluated defines no function, and the levels left are enough for its
  height; this passes from an expression to its operands (`node_functionFree`).
-/

namespace PrefixLisp

/-- No function is defined in the expression. -/
def Expr.DefinitionFree (e : Expr) : Prop :=
  e.All fun x => ∀ f params body, x ≠ .defun f params body

/-- No function occurs in any value that is bound in the scope, in whatever frame. -/
def Scope.FunctionFree (s : Scope) : Prop :=
  s.Holds fun _ v => v.FunctionFree

/-- A run, and beside it the same run, without functions and without reports of the depth limit. -/
def functionFree : Coupling :=
  .diagonal (fun _ => True) (fun _ => True) (fun _ => False) fun e =>
    ∀ limit, e.message ≠ (EvalError.failure (.depthExceeded limit)).message

theorem functionFree_value {v w : Value} : functionFree.value v w ↔ v = w ∧ v.FunctionFree := by
  rw [Value.functionFree_iff_leaves]
  exact Coupling.diagonal_value

theorem functionFree_machine {m n : Machine} :
    functionFree.machine m n ↔ m = n ∧ m.scope.FunctionFree := by
  simp only [functionFree, Coupling.diagonal, Scope.FunctionFree, Value.functionFree_iff_leaves,
    true_and]

theorem lawful_functionFree : functionFree.Lawful := by
  refine Coupling.lawful_diagonal nofun fun e he => ?_
  exact EvalError.message_ne_depthExceeded he.not_depthExceeded fun text heq =>
    he.not_defensive (heq ▸ .wordedFailure text)

theorem node_functionFree {room : Nat} {e : Expr} (he : e.DefinitionFree)
    (hheight : e.height ≤ room + 1) :
    functionFree.Node (fun c c' => c = c' ∧ c.DefinitionFree ∧ c.height ≤ room) e e := by
  obtain ⟨hdefun, hchildren⟩ := Expr.all_iff.1 he
  refine Coupling.node_self (fun c hc => ⟨hchildren c hc, ?_⟩) (fun _ _ => trivial)
    (fun _ _ => trivial) (fun f params body heq => absurd heq (hdefun f params body))
    (fun _ _ => Coupling.runs_printLine_diagonal (lawful_functionFree.error ⟨nofun, nofun⟩))
    fun _ _ _ => EvalError.message_ne_depthExceeded nofun nofun
  have := (Expr.height_le_iff.1 hheight).2 c hc
  omega

/-- With levels enough for its height, an expression without definitions is evaluated to the end:
what is evaluated one level below is less high by one. -/
theorem evalWithin_functionFree (limit : Nat) {room : Nat} {e : Expr} (he : e.DefinitionFree)
    (hheight : e.height ≤ room) :
    functionFree.Runs functionFree.value (e.evalWithin limit room) (e.evalWithin limit room) := by
  refine Coupling.evalWithin_diagonal (P := fun room e => e.DefinitionFree ∧ e.height ≤ room)
    lawful_functionFree ?_ (fun _ _ h => node_functionFree h.1 h.2) nofun ⟨he, hheight⟩
  intro e h
  exact absurd e.height_pos (Nat.not_lt.2 h.2)

/-- Where no function is bound, a program that defines none and whose expressions are no higher than
the depth limit never fails at a depth limit, and it does not fail in words that say so either.
Whatever else it ends in, no function occurs in its value, and none is bound when it ends. -/
theorem eval_functionFree (limit : Nat) (p : Program) (scope : Scope) (out : Output)
    (hdefun : ∀ e ∈ p, e.DefinitionFree) (hheight : ∀ e ∈ p, e.height ≤ limit)
    (hscope : scope.FunctionFree) :
    match Program.eval limit p ⟨scope, out⟩ with
    | .ok v m => v.FunctionFree ∧ m.scope.FunctionFree
    | .error e m => m.scope.FunctionFree ∧ ∀ limit' : Nat,
        e ≠ .failure (.depthExceeded limit') ∧
          e.message ≠ (EvalError.failure (.depthExceeded limit')).message := by
  have hruns : functionFree.Runs functionFree.value (Program.eval limit p)
      (Program.eval limit p) := by
    refine Coupling.runs_program (X := fun e e' => e = e' ∧ e ∈ p) ?_
      (fun _ => EvalError.message_ne_depthExceeded nofun nofun)
      (List.forall₂_same.2 fun e he => ⟨rfl, he⟩)
    rintro e _ ⟨rfl, he⟩
    exact evalWithin_functionFree limit (hdefun e he) (hheight e he)
  have hends := hruns ⟨scope, out⟩ _ (functionFree_machine.2 ⟨rfl, hscope⟩)
  generalize Program.eval limit p _ = r at hends ⊢
  cases hends with
  | ok hv hm => exact ⟨(functionFree_value.1 hv).2, (functionFree_machine.1 hm).2⟩
  | error he hm =>
    refine ⟨(functionFree_machine.1 hm).2, fun limit' => ⟨fun h => ?_, he limit'⟩⟩
    exact he limit' (congrArg _ h)
  | stop he => exact he.elim

/-- `(setq ys (append xs "a")) (head (tail (tail (tail ys))))`, where `xs` is bound in an outer
frame: the last expression is as high as the limit allows, and fails only at its top. -/
theorem eval_functionFree_head :
    let tail (e : Expr) : Expr := .call "tail" [e]
    let p : Program := [.assign "ys" (.call "append" [.symbol "xs", .string "a"]),
      .call "head" [tail (tail (tail (.symbol "ys")))]]
    let scope := (Scope.global.define "xs" (.list [.number .one])).push .empty
    (∀ e ∈ p, e.DefinitionFree) ∧ (∀ e ∈ p, e.height ≤ 5) ∧ scope.FunctionFree ∧
      ∃ m, Program.eval 5 p ⟨scope, .unbounded⟩ = .error (.failure .headOfEmpty) m ∧
        m.scope.FunctionFree := by
  intro tail p scope
  have hsymbol (name : String) : (Expr.symbol name).DefinitionFree :=
    Expr.all_iff.2 ⟨nofun, List.forall_mem_nil _⟩
  have hstring : (Expr.string "a").DefinitionFree := Expr.all_iff.2 ⟨nofun, List.forall_mem_nil _⟩
  have hcall (name : String) {args : List Expr} (h : ∀ e ∈ args, e.DefinitionFree) :
      (Expr.call name args).DefinitionFree := Expr.all_iff.2 ⟨nofun, h⟩
  have htail {e : Expr} (h : e.DefinitionFree) : (tail e).DefinitionFree :=
    hcall "tail" (List.forall_mem_singleton.2 h)
  have happend : (Expr.call "append" [.symbol "xs", .string "a"]).DefinitionFree :=
    hcall _ (List.forall_mem_cons.2 ⟨hsymbol _, List.forall_mem_singleton.2 hstring⟩)
  have hdefun : ∀ e ∈ p, e.DefinitionFree :=
    List.forall_mem_cons.2 ⟨Expr.all_iff.2 ⟨nofun, List.forall_mem_singleton.2 happend⟩,
      List.forall_mem_singleton.2 <| hcall _ <|
        List.forall_mem_singleton.2 (htail (htail (htail (hsymbol _))))⟩
  have hheight : ∀ e ∈ p, e.height ≤ 5 := by decide
  have hxs : (Value.list [.number .one]).FunctionFree :=
    Value.functionFree_list_iff.2 (List.forall_mem_singleton.2 nofun)
  have hscope : scope.FunctionFree :=
    (((Scope.holds_empty.define nofun).define hxs).push Bindings.holds_empty)
  have hends := eval_functionFree 5 p scope .unbounded hdefun hheight hscope
  exact ⟨hdefun, hheight, hscope, _, rfl, hends.1⟩

end PrefixLisp
