import PrefixLisp.Proofs.Eval.Simulation
import PrefixLisp.Proofs.Scope

/-
  How far a run reaches.

  `Run.Within P x` says that `P` relates the machine before the run to the one after it, in
  success and in failure. If doing nothing and doing one thing after another stay within `P`
  (`Composes`), sequencing does too. An `Effect` is a family of such relations, one for each set of
  names that may be bound, and each operation of the evaluator stays within it, a call whatever its
  body binds. So an evaluation stays within an effect for the names that the expression itself binds
  (`Expr.Binds`), no matter which functions it calls (`Effect.within_evalWithin`).

  There are two effects here. A run only adds to the output (`effect_prints`), and it is confined to
  the innermost frame, and there to the names that the expression binds (`effect_confined`). So
  calls leak nothing (`eval_confined`).
-/

namespace PrefixLisp

/-! ## Effects -/

namespace Run

variable {α β : Type}

/-- The machine that a run leaves behind, with a value or with an error. -/
def after (x : Run α) (m : Machine) : Machine :=
  match x m with
  | .ok _ m' | .error _ m' => m'

/-- On whatever machine the run starts, `P` relates it to the one that the run leaves behind. -/
def Within (P : Machine → Machine → Prop) (x : Run α) : Prop :=
  ∀ m, P m (x.after m)

theorem after_of_ok {x : Run α} {m m' : Machine} {a : α} (h : x m = .ok a m') :
    x.after m = m' := by
  rw [after, h]

theorem after_of_error {x : Run α} {m m' : Machine} {e : EvalError} (h : x m = .error e m') :
    x.after m = m' := by
  rw [after, h]

theorem after_congr {x y : Run α} {m : Machine} (h : x m = y m) : x.after m = y.after m := by
  rw [after, after, h]

theorem bind_of_ok {x : Run α} {m m' : Machine} {a : α} (h : x m = .ok a m') (f : α → Run β) :
    (x >>= f) m = f a m' := by
  show EStateM.bind x f m = _
  rw [EStateM.bind, h]

theorem bind_of_error {x : Run α} {m m' : Machine} {e : EvalError} (h : x m = .error e m')
    (f : α → Run β) : (x >>= f) m = .error e m' := by
  show EStateM.bind x f m = _
  rw [EStateM.bind, h]

theorem after_bind_of_ok {x : Run α} {m m' : Machine} {a : α} (h : x m = .ok a m')
    (f : α → Run β) : (x >>= f).after m = (f a).after m' := by
  rw [after, after, bind_of_ok h]

theorem after_bind_of_error {x : Run α} {m m' : Machine} {e : EvalError}
    (h : x m = .error e m') (f : α → Run β) : (x >>= f).after m = x.after m := by
  rw [after, after, bind_of_error h, h]

theorem after_printLine (text : String) (m : Machine) :
    (printLine text).after m = { m with out := m.out.write (text ++ "\n") } := by
  unfold after
  rw [printLine_eq]
  split <;> rename_i h <;> split at h <;> cases h <;> rfl

theorem inFrame_of_ok {frame : Bindings Value} {body : Run α} {m m' : Machine} {a : α}
    (h : body { m with scope := m.scope.push frame } = .ok a m') :
    inFrame frame body m = .ok a { m' with scope := m'.scope.pop } := by
  rw [inFrame, h]

theorem inFrame_of_error {frame : Bindings Value} {body : Run α} {m m' : Machine} {e : EvalError}
    (h : body { m with scope := m.scope.push frame } = .error e m') :
    inFrame frame body m = .error e { m' with scope := m'.scope.pop } := by
  rw [inFrame, h]

theorem after_inFrame (frame : Bindings Value) (body : Run α) (m : Machine) :
    (inFrame frame body).after m =
      { body.after { m with scope := m.scope.push frame } with
        scope := (body.after { m with scope := m.scope.push frame }).scope.pop } := by
  unfold after inFrame
  cases body { m with scope := m.scope.push frame } <;> rfl

end Run

/-- Doing nothing stays within the relation, and so does one thing after another. -/
structure Composes (P : Machine → Machine → Prop) : Prop where
  refl : ∀ m, P m m
  trans : ∀ {m₁ m₂ m₃}, P m₁ m₂ → P m₂ m₃ → P m₁ m₃

namespace Composes

variable {P : Machine → Machine → Prop} {α β : Type}

theorem within_pure (hP : Composes P) (a : α) : Run.Within P (pure a : Run α) :=
  hP.refl

theorem within_throw (hP : Composes P) (e : EvalError) : Run.Within P (throw e : Run α) :=
  hP.refl

theorem within_lookup (hP : Composes P) (name : String) : (Run.lookup name).Within P :=
  hP.refl

theorem within_bind (hP : Composes P) {x : Run α} {f : α → Run β} (hx : x.Within P)
    (hf : ∀ a, (f a).Within P) : Run.Within P (x >>= f) := by
  intro m
  have hx := hx m
  cases h : x m with
  | ok a m' =>
    rw [Run.after_of_ok h] at hx
    rw [Run.after_bind_of_ok h]
    exact hP.trans hx (hf a m')
  | error e m' =>
    rw [Run.after_bind_of_error h]
    exact hx

end Composes

/-- A relation between machines, before and after, that each operation of the evaluator stays
within if it binds none but the given names. A call stays within it whatever its body binds. -/
structure Effect (P : (String → Prop) → Machine → Machine → Prop) : Prop where
  composes : ∀ names, Composes (P names)
  define : ∀ {names : String → Prop} {name : String}, names name → ∀ m v,
    P names m { m with scope := m.scope.define name v }
  write : ∀ {names} m text, P names m { m with out := m.out.write text }
  call : ∀ {names names' frame m m'}, P names' { m with scope := m.scope.push frame } m' →
    P names m { m' with scope := m'.scope.pop }

namespace Effect

variable {P : (String → Prop) → Machine → Machine → Prop} {names : String → Prop}

theorem within_define (hP : Effect P) {name : String} (h : names name) (v : Value) :
    (Run.define name v).Within (P names) :=
  fun m => hP.define h m v

theorem within_printLine (hP : Effect P) (names : String → Prop) (text : String) :
    (Run.printLine text).Within (P names) := by
  intro m
  rw [Run.after_printLine]
  exact hP.write m _

theorem within_inFrame (hP : Effect P) {names' : String → Prop} {body : Run Value}
    (h : body.Within (P names')) (frame : Bindings Value) :
    (Run.inFrame frame body).Within (P names) := by
  intro m
  rw [Run.after_inFrame]
  exact hP.call (h _)

theorem congruence (hP : Effect P) (names : String → Prop) :
    Congruence fun _ x _ => x.Within (P names) where
  pure := (hP.composes names).within_pure
  throw := (hP.composes names).within_throw
  bind := (hP.composes names).within_bind
  lookup := (hP.composes names).within_lookup
  printLine := hP.within_printLine names

/-- An evaluation stays within an effect for the names that the expression binds. Induction on the
levels left, so that the bodies of called functions are covered; what these bind does not count. -/
theorem within_evalWithin (hP : Effect P) (limit room : Nat) (e : Expr)
    (hnames : ∀ name, e.Binds name → names name) :
    (e.evalWithin limit room).Within (P names) := by
  induction room generalizing e names with
  | zero => exact (hP.composes names).within_throw _
  | succ room ih =>
    have hdefine : ∀ name v, e.Binds name → (Run.define name v).Within (P names) :=
      fun name v h => hP.within_define (hnames name h) v
    have hoperand : ∀ c ∈ e.operands, (c.evalWithin limit room).Within (P names) :=
      fun c hc => ih c fun name h => hnames name (.inside hc h)
    have hbody : ∀ frame (body : Expr),
        (Run.inFrame frame (body.evalWithin limit room)).Within (P names) :=
      fun frame body => hP.within_inFrame (ih body fun _ h => h) frame
    exact @Congruence.evalWithin_succ _ limit limit (hP.congruence names) room room e hdefine
      hoperand hbody

end Effect

/-! ## Output -/

/-- What was printed stays, maybe with more behind it. -/
def Prints (m m' : Machine) : Prop :=
  ∃ printed, m'.out.written = m.out.written ++ printed

theorem Output.exists_write_written (o : Output) (text : String) :
    ∃ printed, (o.write text).written = o.written ++ printed := by
  unfold write
  split <;> exact ⟨_, rfl⟩

theorem composes_prints : Composes Prints where
  refl _ := ⟨.empty, ByteArray.append_empty.symm⟩
  trans := by
    intro m₁ m₂ m₃ ⟨p, hp⟩ ⟨q, hq⟩
    exact ⟨p ++ q, by rw [hq, hp, ByteArray.append_assoc]⟩

theorem effect_prints : Effect fun _ => Prints where
  composes _ := composes_prints
  define _ _ _ := ⟨.empty, ByteArray.append_empty.symm⟩
  write m text := m.out.exists_write_written text
  call h := h

theorem evalWithin_prints (limit room : Nat) (e : Expr) : (e.evalWithin limit room).Within Prints :=
  effect_prints.within_evalWithin limit room e fun _ h => h

/-! ## Scope -/

/-- The frames below the innermost one are the same, and that one keeps all its bindings, those of
other names than the given ones unchanged. -/
structure Confined (names : String → Prop) (m m' : Machine) : Prop where
  outer : m'.scope.outer = m.scope.outer
  bound : ∀ name, (m.scope.top.get? name).isSome → (m'.scope.top.get? name).isSome
  others : ∀ name, ¬names name → m'.scope.top.get? name = m.scope.top.get? name

theorem Scope.get?_top_define (s : Scope) (name other : String) (v : Value) :
    (s.define name v).top.get? other = if other = name then some v else s.top.get? other :=
  s.top.get?_insert name other v

theorem composes_confined (names : String → Prop) : Composes (Confined names) where
  refl _ := ⟨rfl, fun _ h => h, fun _ _ => rfl⟩
  trans h h' := ⟨h'.outer.trans h.outer, fun name hname => h'.bound name (h.bound name hname),
    fun name hname => (h'.others name hname).trans (h.others name hname)⟩

theorem effect_confined : Effect Confined where
  composes := composes_confined
  define := by
    intro names name hname m v
    refine ⟨rfl, fun other hother => ?_, fun other hother => ?_⟩
    · dsimp only
      rw [Scope.get?_top_define]
      split
      · rfl
      · exact hother
    · dsimp only
      rw [Scope.get?_top_define, if_neg]
      rintro rfl
      exact hother hname
  write _ _ := ⟨rfl, fun _ h => h, fun _ _ => rfl⟩
  call := by
    intro names names' frame m m' h
    -- The caller's frames are those below the frame of the call.
    have hpop : m'.scope.pop = m.scope := Scope.pop_of_outer h.outer
    rw [hpop]
    exact ⟨rfl, fun _ h => h, fun _ _ => rfl⟩

/-- The frame of a call is dropped, and its body has left all other frames alone. -/
theorem scope_after_inFrame (limit room : Nat) (frame : Bindings Value) (body : Expr)
    (m : Machine) :
    ((Run.inFrame frame (body.evalWithin limit room)).after m).scope = m.scope := by
  have hbody := effect_confined.within_evalWithin limit room body fun _ h => h
  rw [Run.after_inFrame]
  exact Scope.pop_of_outer (hbody { m with scope := m.scope.push frame }).outer

/-- A call by what its name looks up to. -/
theorem evalWithin_call (limit room : Nat) (name : String) (args : List Expr) (m : Machine) :
    (Expr.call name args).evalWithin limit (room + 1) m =
      match m.scope.get? name with
      | some (.function _ d) =>
        (Run.ofExcept ((Arity.exactly d.params.length).check d.name args.length) >>= fun _ =>
          args.mapM (Expr.evalWithin limit room) >>= fun values =>
            Run.inFrame (.ofParams d.params values) (d.body.evalWithin limit room)) m
      | some v => .error (.mismatch (.notFunction name v.kind)) m
      | none =>
        match Builtin.find? name with
        | some b =>
          (args.mapM (Expr.evalWithin limit room) >>= fun values => Run.ofExcept (b.call values)) m
        | none => .error (.unbound name) m := by
  rw [Expr.evalWithin, Run.bind_of_ok (show Run.lookup name m = .ok (m.scope.get? name) m from rfl)]
  rcases m.scope.get? name with _ | v
  · cases Builtin.find? name <;> rfl
  · cases v <;> rfl

/-- What the body of a function does never reaches the caller: a call leaves the scope as it was,
if it comes to no argument, and else as the arguments leave it. -/
theorem scope_after_call (limit depth : Nat) (name : String) (args : List Expr) (m : Machine) :
    (((Expr.call name args).eval limit depth).after m).scope = m.scope ∨
      (((Expr.call name args).eval limit depth).after m).scope =
        (Run.after (args.mapM fun arg => arg.eval limit (depth + 1)) m).scope := by
  unfold Expr.eval
  rcases hroom : limit - depth with _ | room
  · exact .inl rfl
  obtain rfl : limit - (depth + 1) = room := by omega
  generalize hargs : args.mapM (Expr.evalWithin limit (limit - (depth + 1))) = evalArgs
  -- Whatever comes behind the arguments leaves the scope alone.
  have hbehind {f : List Value → Run Value} (hf : ∀ vs m', ((f vs).after m').scope = m'.scope) :
      (Run.after (evalArgs >>= f) m).scope = (evalArgs.after m).scope := by
    cases h : evalArgs m with
    | ok vs m' => rw [Run.after_bind_of_ok h, Run.after_of_ok h, hf]
    | error e m' => rw [Run.after_bind_of_error h]
  have hofExcept (r : Except EvalError Value) (m' : Machine) :
      ((Run.ofExcept r).after m').scope = m'.scope := by cases r <;> rfl
  have hcall := evalWithin_call limit (limit - (depth + 1)) name args m
  rw [hargs] at hcall
  split at hcall
  · rename_i d _
    cases hcheck : (Arity.exactly d.params.length).check d.name args.length with
    | error e =>
      rw [hcheck] at hcall
      exact .inl (congrArg Machine.scope (Run.after_of_error hcall))
    | ok _ =>
      rw [hcheck] at hcall
      rw [Run.after_congr hcall]
      exact .inr (hbehind fun vs m' => scope_after_inFrame _ _ _ d.body m')
  · exact .inl (congrArg Machine.scope (Run.after_of_error hcall))
  · split at hcall
    · rw [Run.after_congr hcall]
      exact .inr (hbehind fun vs m' => hofExcept _ m')
    · exact .inl (congrArg Machine.scope (Run.after_of_error hcall))

/-- An evaluation leaves all frames but the innermost as they were. It takes no binding out of the
innermost one, and it changes none there but of the names that the expression itself assigns or
defines, outside the bodies of its definitions. What the body of a called function does never
reaches the caller. -/
theorem eval_confined (limit depth : Nat) (e : Expr) (scope : Scope) (out : Output) :
    ((e.eval limit depth).after ⟨scope, out⟩).scope.outer = scope.outer ∧
    (∀ name, (scope.top.get? name).isSome →
      (((e.eval limit depth).after ⟨scope, out⟩).scope.top.get? name).isSome) ∧
    (∀ name, ¬e.Binds name →
      ((e.eval limit depth).after ⟨scope, out⟩).scope.top.get? name = scope.top.get? name) ∧
    ∀ name args, e = .call name args →
      ((e.eval limit depth).after ⟨scope, out⟩).scope = scope ∨
        ((e.eval limit depth).after ⟨scope, out⟩).scope =
          (Run.after (args.mapM fun arg => arg.eval limit (depth + 1)) ⟨scope, out⟩).scope := by
  have hconfined := effect_confined.within_evalWithin limit (limit - depth) e (fun _ h => h)
    ⟨scope, out⟩
  refine ⟨hconfined.outer, hconfined.bound, hconfined.others, ?_⟩
  rintro name args rfl
  exact scope_after_call limit depth name args ⟨scope, out⟩

end PrefixLisp
