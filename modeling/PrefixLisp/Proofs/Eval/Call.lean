import PrefixLisp.Proofs.Eval.Operands

/-
  Calls.

  A call goes in three stages. What its name stands for is settled first, with the number of
  arguments if that is a function: the call is refused (`Refuses`), before anything has happened, or
  there is a callee (`Calls`). Then the arguments are evaluated one after the other, up to the first
  that fails. The callee comes last (`Callee.Ends`). It is the one of the first stage, even if an
  argument has bound the name to something else meanwhile. But the body of a function runs on top of
  the scope that the arguments leave behind, which it can read and not change.

  `CallEnds` are the rules for this. A name is called or refused (`refuses_or_calls`), so every call
  has an end, and it is the one that the evaluator comes to (`eval_call_iff_callEnds`).
-/

namespace PrefixLisp

namespace Run

variable {ι α : Type} {f : ι → Run α}

/-- The first element that fails ends the traversal. -/
theorem mapM_append_cons_of_error {before : List ι} {x : ι} {as : List α} {m m₁ m' : Machine}
    {e : EvalError} (hbefore : before.mapM f m = .ok as m₁) (hx : f x m₁ = .error e m')
    (after : List ι) : (before ++ x :: after).mapM f m = .error e m' := by
  induction before generalizing as m with
  | nil =>
    obtain ⟨-, rfl⟩ := mapM_nil_eq_ok.1 hbefore
    rw [List.nil_append, List.mapM_cons, bind_of_error hx]
  | cons y ys ih =>
    obtain ⟨b, m₂, bs, hy, hys, -⟩ := mapM_cons_eq_ok.1 hbefore
    rw [List.cons_append, List.mapM_cons, bind_of_ok hy, bind_of_error (ih hys)]

/-- A traversal comes to its end, or there is a first element that fails. -/
theorem mapM_ok_or_error (f : ι → Run α) (xs : List ι) (m : Machine) :
    (∃ as m', xs.mapM f m = .ok as m') ∨
      ∃ before x after as m₁ e m', xs = before ++ x :: after ∧ before.mapM f m = .ok as m₁ ∧
        f x m₁ = .error e m' := by
  induction xs generalizing m with
  | nil => exact .inl ⟨[], m, rfl⟩
  | cons x xs ih =>
    cases hx : f x m with
    | error e m' => exact .inr ⟨[], x, xs, [], m, e, m', rfl, rfl, hx⟩
    | ok a m₁ =>
      rcases ih m₁ with ⟨as, m', hxs⟩ | ⟨before, y, after, as, m₂, e, m', rfl, hbefore, hy⟩
      · exact .inl ⟨a :: as, m', mapM_cons_eq_ok.2 ⟨a, m₁, as, hx, hxs, rfl⟩⟩
      · exact .inr ⟨x :: before, y, after, a :: as, m₂, e, m', rfl,
          mapM_cons_eq_ok.2 ⟨a, m₁, as, hx, hbefore, rfl⟩, hy⟩

end Run

namespace Bindings

theorem get?_ofParams (params : List String) (args : List Value) (name : String) :
    (ofParams params args).get? name = (params.zip args).reverse.lookup name := by
  rw [ofParams_eq, get?_insertAll, get?_empty, Option.or_none]

theorem eq_ofParams {params : List String} {args : List Value} {frame : Bindings Value}
    (h : ∀ name, frame.get? name = (params.zip args).reverse.lookup name) :
    frame = ofParams params args :=
  ext_get? fun name => (h name).trans (get?_ofParams params args name).symm

end Bindings

/-! ## The rules -/

/-- The call of a name with so many arguments is refused before any of them is evaluated. -/
inductive Refuses (s : Scope) (name : String) (given : Nat) : EvalError → Prop where
  | notFunction {v : Value} (hname : s.get? name = some v) (hv : v.kind ≠ .function) :
      Refuses s name given (.mismatch (.notFunction name v.kind))
  | unbound (hname : s.get? name = none) (hbuiltin : Builtin.find? name = none) :
      Refuses s name given (.unbound name)
  | arity {identity : Nat} {d : Definition} (hname : s.get? name = some (.function identity d))
      (hcount : d.params.length ≠ given) :
      Refuses s name given (.arity d.name (.exactly d.params.length) given)

inductive Callee where
  | function (d : Definition)
  | builtin (b : Builtin)

/-- What the call of a name with so many arguments will apply. -/
inductive Calls (s : Scope) (name : String) (given : Nat) : Callee → Prop where
  | function {identity : Nat} {d : Definition} (hname : s.get? name = some (.function identity d))
      (hcount : d.params.length = given) : Calls s name given (.function d)
  | builtin {b : Builtin} (hname : s.get? name = none) (hbuiltin : Builtin.find? name = some b) :
      Calls s name given (.builtin b)

/-- How a callee ends that is applied to values. The body of a function runs in a frame with its
parameters, a repeated one bound to its last value, and this frame is dropped in the end. -/
inductive Callee.Ends (eval : Expr → Run Value) (values : List Value) (m : Machine) :
    Callee → EStateM.Result EvalError Machine Value → Prop where
  | body {d : Definition} {frame : Bindings Value} {v : Value} {m' : Machine}
      (hframe : ∀ x, frame.get? x = (d.params.zip values).reverse.lookup x)
      (hbody : eval d.body ⟨m.scope.push frame, m.out⟩ = .ok v m') :
      Ends eval values m (.function d) (.ok v ⟨m.scope, m'.out⟩)
  | bodyFails {d : Definition} {frame : Bindings Value} {err : EvalError} {m' : Machine}
      (hframe : ∀ x, frame.get? x = (d.params.zip values).reverse.lookup x)
      (hbody : eval d.body ⟨m.scope.push frame, m.out⟩ = .error err m') :
      Ends eval values m (.function d) (.error err ⟨m.scope, m'.out⟩)
  | builtin {b : Builtin} {v : Value} (hcall : b.call values = .ok v) :
      Ends eval values m (.builtin b) (.ok v m)
  | builtinFails {b : Builtin} {err : EvalError} (hcall : b.call values = .error err) :
      Ends eval values m (.builtin b) (.error err m)

/-- How a call ends whose arguments, and the body of a function, are evaluated by `eval`. -/
inductive CallEnds (eval : Expr → Run Value) (name : String) (args : List Expr) (m : Machine) :
    EStateM.Result EvalError Machine Value → Prop where
  | refused {err : EvalError} (h : Refuses m.scope name args.length err) :
      CallEnds eval name args m (.error err m)
  | argument {callee : Callee} {before after : List Expr} {e : Expr} {values : List Value}
      {m₁ m' : Machine} {err : EvalError} (hcallee : Calls m.scope name args.length callee)
      (hargs : args = before ++ e :: after) (hbefore : before.mapM eval m = .ok values m₁)
      (he : eval e m₁ = .error err m') : CallEnds eval name args m (.error err m')
  | applied {callee : Callee} {values : List Value} {m₁ : Machine}
      {r : EStateM.Result EvalError Machine Value}
      (hcallee : Calls m.scope name args.length callee) (hargs : args.mapM eval m = .ok values m₁)
      (hends : callee.Ends eval values m₁ r) : CallEnds eval name args m r

/-! ## The evaluator -/

section

variable {limit room : Nat} {name : String} {args : List Expr} {m : Machine}

/-- When the body of a call ends, the frame of the call stands on the scope that it was pushed
onto. -/
theorem pop_scope_of_body {frame : Bindings Value} {body : Expr} {m' : Machine}
    (h : (body.evalWithin limit room).after ⟨m.scope.push frame, m.out⟩ = m') :
    m'.scope.pop = m.scope := by
  have hbody := effect_confined.within_evalWithin limit room body fun _ h => h
  exact Scope.pop_of_outer (h ▸ (hbody ⟨m.scope.push frame, m.out⟩).outer)

/-- Apply a callee to the values of its arguments. -/
def Callee.apply (limit room : Nat) (values : List Value) : Callee → Run Value
  | function d => Run.inFrame (.ofParams d.params values) (d.body.evalWithin limit room)
  | builtin b => Run.ofExcept (b.call values)

section

variable {d : Definition} {values : List Value}

theorem Callee.apply_function_of_ok {v : Value} {m' : Machine}
    (hbody : d.body.evalWithin limit room ⟨m.scope.push (.ofParams d.params values), m.out⟩ =
      .ok v m') :
    (function d).apply limit room values m = .ok v ⟨m.scope, m'.out⟩ := by
  rw [apply, Run.inFrame_of_ok hbody, pop_scope_of_body (Run.after_of_ok hbody)]

theorem Callee.apply_function_of_error {err : EvalError} {m' : Machine}
    (hbody : d.body.evalWithin limit room ⟨m.scope.push (.ofParams d.params values), m.out⟩ =
      .error err m') :
    (function d).apply limit room values m = .error err ⟨m.scope, m'.out⟩ := by
  rw [apply, Run.inFrame_of_error hbody, pop_scope_of_body (Run.after_of_error hbody)]

end

theorem Callee.ends_iff (callee : Callee) (values : List Value)
    (r : EStateM.Result EvalError Machine Value) :
    callee.Ends (Expr.evalWithin limit room) values m r ↔ callee.apply limit room values m = r := by
  constructor
  · intro h
    cases h with
    | body hframe hbody =>
      obtain rfl := Bindings.eq_ofParams hframe
      exact apply_function_of_ok hbody
    | bodyFails hframe hbody =>
      obtain rfl := Bindings.eq_ofParams hframe
      exact apply_function_of_error hbody
    | builtin hcall | builtinFails hcall =>
      rw [apply, hcall]
      rfl
  · rintro rfl
    cases callee with
    | function d =>
      have hframe := Bindings.get?_ofParams d.params values
      let start : Machine := ⟨m.scope.push (.ofParams d.params values), m.out⟩
      cases hbody : d.body.evalWithin limit room start with
      | ok v m' =>
        rw [apply_function_of_ok hbody]
        exact .body hframe hbody
      | error err m' =>
        rw [apply_function_of_error hbody]
        exact .bodyFails hframe hbody
    | builtin b =>
      rw [apply]
      cases hcall : b.call values with
      | ok v => exact .builtin hcall
      | error err => exact .builtinFails hcall

theorem refuses_or_calls (s : Scope) (name : String) (given : Nat) :
    (∃ err, Refuses s name given err) ∨ ∃ callee, Calls s name given callee := by
  cases hname : s.get? name with
  | none =>
    cases hbuiltin : Builtin.find? name with
    | none => exact .inl ⟨_, .unbound hname hbuiltin⟩
    | some b => exact .inr ⟨_, .builtin hname hbuiltin⟩
  | some v =>
    by_cases hv : v.kind = .function
    · obtain ⟨identity, d, rfl⟩ : ∃ identity d, v = .function identity d := by
        cases v <;> first | exact ⟨_, _, rfl⟩ | cases hv
      by_cases hcount : d.params.length = given
      · exact .inr ⟨_, .function hname hcount⟩
      · exact .inl ⟨_, .arity hname hcount⟩
    · exact .inl ⟨_, .notFunction hname hv⟩

theorem evalWithin_of_refuses {err : EvalError} (h : Refuses m.scope name args.length err) :
    (Expr.call name args).evalWithin limit (room + 1) m = .error err m := by
  rw [evalWithin_call]
  cases h with
  | @notFunction v hname hv =>
    rw [hname]
    cases v with
    | function => exact absurd rfl hv
    | _ => rfl
  | unbound hname hbuiltin =>
    rw [hname, hbuiltin]
  | @arity _ d hname hcount =>
    have hrefused : (Arity.exactly d.params.length).accepts args.length = false :=
      decide_eq_false (Ne.symm hcount)
    rw [hname]
    dsimp only
    rw [Arity.check, if_neg (by rw [hrefused]; exact Bool.false_ne_true)]
    rfl

theorem evalWithin_of_calls {callee : Callee} (h : Calls m.scope name args.length callee) :
    (Expr.call name args).evalWithin limit (room + 1) m =
      (args.mapM (Expr.evalWithin limit room) >>= fun values =>
        callee.apply limit room values) m := by
  rw [evalWithin_call]
  cases h with
  | @function _ d hname hcount =>
    have haccepts : (Arity.exactly d.params.length).accepts args.length :=
      decide_eq_true hcount.symm
    rw [hname]
    dsimp only
    rw [Arity.check, if_pos haccepts]
    rfl
  | builtin hname hbuiltin =>
    rw [hname, hbuiltin]
    rfl

theorem evalWithin_iff_callEnds (r : EStateM.Result EvalError Machine Value) :
    (Expr.call name args).evalWithin limit (room + 1) m = r ↔
      CallEnds (Expr.evalWithin limit room) name args m r := by
  constructor
  · rintro rfl
    rcases refuses_or_calls m.scope name args.length with ⟨err, h⟩ | ⟨callee, h⟩
    · rw [evalWithin_of_refuses h]
      exact .refused h
    rw [evalWithin_of_calls h]
    rcases Run.mapM_ok_or_error (Expr.evalWithin limit room) args m with
      ⟨values, m₁, hargs⟩ | ⟨before, e, after, values, m₁, err, m', hargs, hbefore, he⟩
    · rw [Run.bind_of_ok hargs]
      exact .applied h hargs ((callee.ends_iff values _).2 rfl)
    · have hfails := Run.mapM_append_cons_of_error hbefore he after
      rw [← hargs] at hfails
      rw [Run.bind_of_error hfails]
      exact .argument h hargs hbefore he
  · intro h
    cases h with
    | refused h => exact evalWithin_of_refuses h
    | argument h hargs hbefore he =>
      subst hargs
      rw [evalWithin_of_calls h, Run.bind_of_error (Run.mapM_append_cons_of_error hbefore he _)]
    | @applied callee values m₁ r h hargs hends =>
      rw [evalWithin_of_calls h, Run.bind_of_ok hargs]
      exact (callee.ends_iff values r).1 hends

end

/-- Calls go by the rules. A call is refused before anything has happened, by what its name stands
for and the number of its arguments; or the arguments are evaluated from the left, one level deeper,
and the first that fails ends the call; or the values are handed to the callee that the name stood
for at the start. The body of a function sees its parameters on top of what the arguments left
behind. -/
theorem eval_call_iff_callEnds (limit depth : Nat) (hdepth : depth < limit) (name : String)
    (args : List Expr) (m : Machine) (r : EStateM.Result EvalError Machine Value) :
    (Expr.call name args).eval limit depth m = r ↔
      CallEnds (fun e => e.eval limit (depth + 1)) name args m r := by
  obtain ⟨room, hroom⟩ : ∃ room, limit - depth = room + 1 := ⟨limit - depth - 1, by omega⟩
  have hoperand : limit - (depth + 1) = room := by omega
  unfold Expr.eval
  rw [hroom, hoperand]
  exact evalWithin_iff_callEnds r

/-- In `(f (setq f 1))` the argument rebinds `f`. The function that `f` was is called, and its body
finds the new value. -/
theorem eval_call_rebinds_callee :
    let d : Definition := ⟨"f", ["x"], .symbol "f"⟩
    let before := Scope.global.define "f" (.function 0 d)
    let after := before.define "f" (.number .one)
    0 < 3 ∧ (Expr.call "f" [.assign "f" (.number .one)]).eval 3 0 ⟨before, .unbounded⟩ =
      .ok (.number .one) ⟨after, .unbounded⟩ := by
  intro d before after
  have hargs : [Expr.assign "f" (.number .one)].mapM (fun e => e.eval 3 1) ⟨before, .unbounded⟩ =
      .ok [.number .one] ⟨after, .unbounded⟩ := rfl
  let m : Machine := ⟨after.push (.ofParams ["x"] [.number .one]), .unbounded⟩
  have hlookup : Run.lookup "f" m = .ok (some (.number .one)) m := by
    show EStateM.Result.ok ((after.push _).get? "f") m = _
    rw [Scope.get?_push, Scope.get?_define]
    rfl
  have hbody : d.body.eval 3 1 m = .ok (.number .one) m := by
    show (Run.lookup "f" >>= _) m = _
    rw [Run.bind_of_ok hlookup]
    rfl
  have hends : (Callee.function d).Ends (fun e => e.eval 3 1) [.number .one] ⟨after, .unbounded⟩
      (.ok (.number .one) ⟨after, m.out⟩) := .body (Bindings.get?_ofParams _ _) hbody
  exact ⟨by decide, (eval_call_iff_callEnds 3 0 (by decide) _ _ _ _).2
    (.applied (.function rfl rfl) hargs hends)⟩

end PrefixLisp
