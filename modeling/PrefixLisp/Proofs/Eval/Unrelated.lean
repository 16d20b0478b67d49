import PrefixLisp.Proofs.Eval.Coupling
import PrefixLisp.Proofs.Eval.Effect
import PrefixLisp.Proofs.Expr.Occurrence

/-
  Bindings that have nothing to do with a run.

  A function sees the names of its callers, so a binding anywhere in the scope might be read in any
  call. It is not if its name stands nowhere in the program and in none of the functions that are
  bound, on their own or in lists: such a binding changes neither the outcome of a run nor its
  output, and it is still there in the end (`eval_bindAt`).

  The run without the binding and the one with it are coupled by `beside`. Both have the same
  values, and all functions in these avoid the name. A call puts one more frame in front of the
  binding, and takes it away again.
-/

namespace PrefixLisp

/-! ## Names that do not occur -/

/-- The name stands nowhere in the expression: not as a symbol or a callee, and not as what is
assigned or defined or as a parameter. -/
def Expr.Avoids (x : String) (e : Expr) : Prop :=
  e.All fun e => x ∉ e.ownNames

/-- The name is neither a parameter of the function nor in its body. -/
structure Definition.Avoids (x : String) (d : Definition) : Prop where
  params : x ∉ d.params
  body : d.body.Avoids x

/-- The name is in none of the functions in the value. -/
def Value.Avoids (x : String) (v : Value) : Prop :=
  v.Leaves (fun _ => True) (Definition.Avoids x)

namespace Scope

/-- The name is bound in no frame, and it is in none of the functions in the values that are. -/
def Avoids (x : String) (s : Scope) : Prop :=
  s.Holds fun name v => name ≠ x ∧ v.Avoids x

/-- Bind a name in the frame with `k` frames inside it; if there is none, bind nothing. -/
def bindAt (s : Scope) (x : String) (v : Value) : Nat → Scope
  | 0 => s.define x v
  | k + 1 => { s with outer := s.outer.modify k (·.insert x v) }

section

variable (s : Scope) (x : String) (v : Value) (k : Nat)

theorem frames_bindAt : (s.bindAt x v k).frames = s.frames.modify k (·.insert x v) := by
  cases k <;> rfl

theorem push_bindAt (frame : Bindings Value) :
    (s.push frame).bindAt x v (k + 1) = (s.bindAt x v k).push frame := by
  unfold push
  rw [frames_bindAt]
  rfl

theorem outer_bindAt : (s.bindAt x v (k + 1)).outer = s.outer.modify k (·.insert x v) :=
  rfl

variable {x}

theorem get?_bindAt {name : String} (h : name ≠ x) : (s.bindAt x v k).get? name = s.get? name := by
  unfold get?
  rw [frames_bindAt]
  induction s.frames generalizing k with
  | nil => rw [List.modify_nil]
  | cons frame frames ih =>
    cases k with
    | zero =>
      rw [List.modify_zero_cons, List.findSome?_cons, List.findSome?_cons, Bindings.get?_insert,
        if_neg h]
    | succ k => rw [List.modify_succ_cons, List.findSome?_cons, List.findSome?_cons, ih]

theorem define_bindAt {name : String} (h : name ≠ x) (w : Value) :
    (s.define name w).bindAt x v k = (s.bindAt x v k).define name w := by
  cases k with
  | zero => exact congrArg (Scope.mk · s.outer) (Bindings.insert_comm h s.top w v)
  | succ k => rfl

end

end Scope

/-! ## The coupling -/

/-- A run, and beside it the one with `x` bound to `v` behind `k` frames. -/
def beside (x : String) (v : Value) (k : Nat) : Coupling where
  name y := y ≠ x
  string _ := True
  definition d e := d = e ∧ d.Avoids x
  machine m n := m.scope.Avoids x ∧ n = { m with scope := m.scope.bindAt x v k }
  error _ := True
  stop _ := False

section

variable {x : String} {v : Value} {k : Nat}

theorem beside_value {a b : Value} : (beside x v k).value a b ↔ a = b ∧ a.Avoids x :=
  Value.alike_iff_eq

theorem lawful_beside : (beside x v k).Lawful where
  get? := by
    rintro m _ name ⟨hm, rfl⟩ hname
    dsimp only
    rw [Scope.get?_bindAt _ _ _ hname]
    cases hget : m.scope.get? name with
    | none => exact .none
    | some a => exact .some (beside_value.2 ⟨rfl, (hm.get? hget).2⟩)
  define := by
    rintro m _ name a b ⟨hm, rfl⟩ hname hab
    obtain ⟨rfl, ha⟩ := beside_value.1 hab
    refine ⟨hm.define ⟨hname, ha⟩, ?_⟩
    dsimp only
    rw [Scope.define_bindAt _ _ _ hname]
  same := by
    rintro d _ ⟨rfl, _⟩
    exact ⟨rfl, rfl⟩
  arity _ _ _ := trivial
  error _ := trivial

theorem node_beside {e : Expr} (h : e.Avoids x) :
    (beside x v k).Node (fun c c' => c = c' ∧ c.Avoids x) e e := by
  obtain ⟨hown, hchildren⟩ := Expr.all_iff.1 h
  refine Coupling.node_self hchildren (fun y hy heq => hown (heq ▸ hy)) (fun _ _ => trivial) ?_ ?_
    (fun _ _ _ => trivial)
  · rintro f params body rfl
    have hbody := hchildren body List.mem_cons_self
    exact ⟨trivial, rfl, List.not_mem_of_not_mem_cons hown, hbody⟩
  · intro a b hab
    obtain ⟨rfl, _⟩ := beside_value.1 hab
    refine Coupling.runs_printLine ?_ trivial _
    rintro m _ ⟨hm, rfl⟩
    exact ⟨rfl, fun _ => ⟨hm, rfl⟩⟩

/-- The frame of a call stands in front of the binding while the body runs. The body leaves the
frames of the caller alone, so the binding is where it was when that frame is dropped. -/
theorem Run.inFrame_beside {limit room : Nat} {body : Expr}
    (h : (beside x v (k + 1)).Runs (beside x v (k + 1)).value (body.evalWithin limit room)
      (body.evalWithin limit room)) {frame : Bindings Value}
    (hframe : frame.Holds fun name a => name ≠ x ∧ a.Avoids x) :
    (beside x v k).Runs (beside x v k).value (inFrame frame (body.evalWithin limit room))
      (inFrame frame (body.evalWithin limit room)) := by
  rintro m _ ⟨hm, rfl⟩
  have hends := h { m with scope := m.scope.push frame } _ ⟨hm.push hframe, rfl⟩
  have houter := (effect_confined.within_evalWithin limit room body (fun _ h => h)
    { m with scope := m.scope.push frame }).outer
  unfold inFrame
  dsimp only at hends ⊢
  rw [← Scope.push_bindAt]
  generalize hrun : body.evalWithin limit room { m with scope := m.scope.push frame } = r at hends ⊢
  generalize body.evalWithin limit room _ = q at hends ⊢
  have hpop {m' : Machine} (houter : m'.scope.outer = m.scope.frames) :
      (beside x v k).machine { m' with scope := m'.scope.pop }
        { m' with scope := (m'.scope.bindAt x v (k + 1)).pop } := by
    have houter' : (m'.scope.bindAt x v (k + 1)).outer = (m.scope.bindAt x v k).frames := by
      rw [Scope.outer_bindAt, houter, Scope.frames_bindAt]
    rw [Scope.pop_of_outer houter, Scope.pop_of_outer houter']
    exact ⟨hm, rfl⟩
  cases hends with
  | ok hab hm' =>
    obtain ⟨_, rfl⟩ := hm'
    rw [after_of_ok hrun] at houter
    exact .ok hab (hpop houter)
  | error he hm' =>
    obtain ⟨_, rfl⟩ := hm'
    rw [after_of_error hrun] at houter
    exact .error he (hpop houter)
  | stop he => exact he.elim

/-- An evaluation beside the one with the binding. Induction on the levels left, for any number of
frames in front of the binding, since a call adds one. -/
theorem evalWithin_beside (limit room : Nat) {e : Expr} (he : e.Avoids x) :
    (beside x v k).Runs (beside x v k).value (e.evalWithin limit room)
      (e.evalWithin limit room) := by
  induction room generalizing e k with
  | zero => exact Coupling.runs_throw trivial
  | succ room ih =>
    refine lawful_beside.evalWithin_succ (node_beside he) ?_ ?_
    · rintro c _ ⟨rfl, hc⟩
      exact ih hc
    · rintro d _ ⟨rfl, hd⟩ vs ws hvs
      obtain ⟨rfl, havoids⟩ := (forall₂_iff_eq fun _ _ _ => beside_value).1 hvs
      refine Run.inFrame_beside (ih hd.body) (Bindings.holds_ofParams fun p hp a ha => ?_)
      exact ⟨fun heq => hd.params (heq ▸ hp), havoids a ha⟩

end

/-- A binding of a name that is bound nowhere, and that stands neither in the program nor in a
function of the scope, is not seen. With it, in whichever frame, a run has the same outcome and the
same output, and it leaves the same scope behind, with this binding. -/
theorem eval_bindAt (limit : Nat) (p : Program) (scope : Scope) (out : Output) (x : String)
    (v : Value) (k : Nat) (hscope : scope.Avoids x) (hp : ∀ e ∈ p, e.Avoids x) :
    Program.eval limit p ⟨scope.bindAt x v k, out⟩ =
      match Program.eval limit p ⟨scope, out⟩ with
      | .ok w m => .ok w ⟨m.scope.bindAt x v k, m.out⟩
      | .error e m => .error e ⟨m.scope.bindAt x v k, m.out⟩ := by
  have hruns : (beside x v k).Runs (beside x v k).value (Program.eval limit p)
      (Program.eval limit p) := by
    refine Coupling.runs_program (X := fun c c' => c = c' ∧ c.Avoids x) ?_ (fun _ => trivial)
      (List.forall₂_same.2 fun e he => ⟨rfl, hp e he⟩)
    rintro e _ ⟨rfl, he⟩
    exact evalWithin_beside limit _ he
  have hends := hruns ⟨scope, out⟩ _ ⟨hscope, rfl⟩
  dsimp only at hends
  generalize Program.eval limit p ⟨scope, out⟩ = r at hends ⊢
  generalize Program.eval limit p _ = q at hends ⊢
  cases hends with
  | ok hab hm =>
    obtain ⟨rfl, _⟩ := beside_value.1 hab
    obtain ⟨_, rfl⟩ := hm
    rfl
  | error _ hm =>
    obtain ⟨_, rfl⟩ := hm
    rfl
  | stop he => exact he.elim

/-- A function that was in a list reads a name of its caller, and is not disturbed by a binding of
another one. -/
theorem eval_bindAt_head :
    let fs := Value.list [.function 0 ⟨"f", [], .symbol "y"⟩]
    let scope := Scope.empty.define "fs" fs
    let p : Program :=
      [.assign "y" (.number .one), .assign "f" (.call "head" [.symbol "fs"]), .call "f" []]
    scope.Avoids "x" ∧ (∀ e ∈ p, e.Avoids "x") ∧
      ∃ m, Program.eval 4 p ⟨scope, .unbounded⟩ = .ok (.number .one) m ∧
        Program.eval 4 p ⟨scope.bindAt "x" fs 0, .unbounded⟩ =
          .ok (.number .one) ⟨m.scope.bindAt "x" fs 0, m.out⟩ := by
  intro fs scope p
  have hleaf {e : Expr} (hown : "x" ∉ e.ownNames) (h : e.children = []) : e.Avoids "x" :=
    Expr.all_iff.2 ⟨hown, by rw [h]; exact List.forall_mem_nil _⟩
  have hone {e c : Expr} (hown : "x" ∉ e.ownNames) (h : e.children = [c]) (hc : c.Avoids "x") :
      e.Avoids "x" :=
    Expr.all_iff.2 ⟨hown, by rw [h]; exact List.forall_mem_singleton.2 hc⟩
  have hscope : scope.Avoids "x" := by
    have hf : Definition.Avoids "x" ⟨"f", [], .symbol "y"⟩ := ⟨by decide, hleaf (by decide) rfl⟩
    refine Scope.holds_empty.define ⟨by decide, Value.leaves_list_iff.2 ?_⟩
    exact List.forall_mem_singleton.2 (Value.leaves_function_iff.2 hf)
  have hp : ∀ e ∈ p, e.Avoids "x" := by
    have hhead : (Expr.call "head" [.symbol "fs"]).Avoids "x" :=
      hone (by decide) rfl (hleaf (by decide) rfl)
    refine List.forall_mem_cons.2 ⟨hone (by decide) rfl (hleaf (by decide) rfl), ?_⟩
    refine List.forall_mem_cons.2 ⟨hone (by decide) rfl hhead, ?_⟩
    exact List.forall_mem_singleton.2 (hleaf (by decide) rfl)
  obtain ⟨m, hrun⟩ : ∃ m, Program.eval 4 p ⟨scope, .unbounded⟩ = .ok (.number .one) m := by
    dsimp only [p, scope, fs]
    exact ⟨_, rfl⟩
  have hbound := eval_bindAt 4 p scope .unbounded "x" fs 0 hscope hp
  rw [hrun] at hbound
  exact ⟨hscope, hp, m, hrun, hbound⟩

end PrefixLisp
