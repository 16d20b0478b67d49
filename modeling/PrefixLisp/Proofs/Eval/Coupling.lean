import PrefixLisp.Proofs.Eval.Simulation
import PrefixLisp.Proofs.Expr.Occurrence
import PrefixLisp.Proofs.Scope
import PrefixLisp.Proofs.Value.Alike

/-
  Two runs whose values correspond.

  A simulation compares runs that give the very same values. A `Coupling` also lets the values
  differ: it says which machines go together, which definitions of functions do, and which strings
  and names occur at all. Values go together if they are alike but for such functions
  (`Coupling.value`). `C.Runs A x y` says that from machines that go together both runs end alike
  and leave such machines behind; the second run is not followed any further if the first one ends
  in an error at which the coupling stops.

  One level of an evaluation is coupled if the operands and the calls of functions are, one level
  below (`Lawful.evalWithin_succ`). What the two expressions have to do with each other is said by
  `Coupling.Node`: they are of one form, and `X` relates their parts. A property of a single run is
  the case in which everything goes together with itself only (`Coupling.diagonal`); there the
  induction on the levels is done once for all such properties (`evalWithin_diagonal`).
-/

namespace PrefixLisp

structure Coupling where
  /-- The names that may be looked up or bound. -/
  name : String → Prop
  /-- The strings that may occur in values. -/
  string : String → Prop
  definition : Definition → Definition → Prop
  machine : Machine → Machine → Prop
  /-- The errors in which both runs may end. -/
  error : EvalError → Prop
  /-- The errors of the first run at which the coupling stops. -/
  stop : EvalError → Prop

namespace Coupling

def value (C : Coupling) : Value → Value → Prop :=
  Value.Alike C.string C.definition

section

variable {α β γ δ : Type} (C : Coupling)

inductive Ends (A : α → β → Prop) :
    EStateM.Result EvalError Machine α → EStateM.Result EvalError Machine β → Prop where
  | ok {a : α} {b : β} {m n : Machine} (h : A a b) (hm : C.machine m n) : Ends A (.ok a m) (.ok b n)
  | error {e : EvalError} {m n : Machine} (he : C.error e) (hm : C.machine m n) :
      Ends A (.error e m) (.error e n)
  | stop {e : EvalError} {m : Machine} {r : EStateM.Result EvalError Machine β} (he : C.stop e) :
      Ends A (.error e m) r

/-- From machines that go together, both runs end in results that `A` relates or in the same error,
and again in machines that go together, or the coupling stops. -/
def Runs (A : α → β → Prop) (x : Run α) (y : Run β) : Prop :=
  ∀ m n, C.machine m n → C.Ends A (x m) (y n)

variable {C} {A : α → β → Prop} {B : γ → δ → Prop}

theorem runs_pure {a : α} {b : β} (h : A a b) : C.Runs A (pure a) (pure b) :=
  fun _ _ hm => .ok h hm

theorem runs_throw {e : EvalError} (h : C.error e) : C.Runs A (throw e) (throw e) :=
  fun _ _ hm => .error h hm

theorem runs_check {callee : String} {expected : Arity} {given : Nat}
    (h : C.error (.arity callee expected given)) :
    C.Runs Eq (Run.ofExcept (expected.check callee given))
      (Run.ofExcept (expected.check callee given)) := by
  unfold Arity.check
  split
  · exact runs_pure rfl
  · exact runs_throw h

/-- Printing the same text, on outputs that are the same and have no part in what goes together. -/
theorem runs_printLine (hout : ∀ {m n}, C.machine m n → m.out = n.out ∧
      ∀ o, C.machine { m with out := o } { n with out := o })
    (hfull : C.error (.failure .outputFull)) (text : String) :
    C.Runs Eq (Run.printLine text) (Run.printLine text) := by
  intro m n hm
  obtain ⟨heq, hwrite⟩ := hout hm
  rw [Run.printLine_eq, Run.printLine_eq, heq]
  split
  · exact .ok rfl (hwrite _)
  · exact .error hfull (hwrite _)

theorem runs_stop {e : EvalError} (h : C.stop e) (y : Run β) : C.Runs A (throw e) y :=
  fun _ _ _ => .stop h

theorem Runs.bind {x : Run α} {y : Run β} {f : α → Run γ} {g : β → Run δ} (hxy : C.Runs A x y)
    (hfg : ∀ a b, A a b → C.Runs B (f a) (g b)) : C.Runs B (x >>= f) (y >>= g) := by
  intro m n hm
  have hends := hxy m n hm
  show C.Ends B (EStateM.bind x f m) (EStateM.bind y g n)
  unfold EStateM.bind
  generalize x m = r at hends ⊢
  generalize y n = q at hends ⊢
  cases hends with
  | ok h hm' => exact hfg _ _ h _ _ hm'
  | error he hm' => exact .error he hm'
  | stop he => exact .stop he

theorem runs_mapM {ι κ : Type} {f : ι → Run α} {g : κ → Run β} {xs : List ι} {ys : List κ}
    (h : List.Forall₂ (fun x y => C.Runs A (f x) (g y)) xs ys) :
    C.Runs (List.Forall₂ A) (xs.mapM f) (ys.mapM g) := by
  induction h with
  | nil => exact runs_pure .nil
  | cons hxy _ ih =>
    rw [List.mapM_cons, List.mapM_cons]
    exact hxy.bind fun a b hab => ih.bind fun as bs habs => runs_pure (.cons hab habs)

end

/-- The expressions are of one form, and `X` relates their parts; the names and strings that stand
in the node itself are among those of the coupling. -/
inductive Node (C : Coupling) (X : Expr → Expr → Prop) : Expr → Expr → Prop where
  | number (n : Number) : Node C X (.number n) (.number n)
  | string {s : String} (hs : C.string s) : Node C X (.string s) (.string s)
  | symbol {x : String} (hx : C.name x) : Node C X (.symbol x) (.symbol x)
  | assign {x : String} {v w : Expr} (hx : C.name x) (hv : X v w) :
      Node C X (.assign x v) (.assign x w)
  | cond {test yes no test' yes' no' : Expr} (htest : X test test') (hyes : X yes yes')
      (hno : X no no') : Node C X (.cond test yes no) (.cond test' yes' no')
  | print {v w : Expr} (hv : X v w) (hprint : ∀ a b, C.value a b →
      C.Runs Eq (Run.printLine a.render) (Run.printLine b.render)) :
      Node C X (.print v) (.print w)
  | defun {f : String} {params : List String} {body body' : Expr} (hname : C.name f)
      (hstring : C.string f) (h : C.definition ⟨f, params, body⟩ ⟨f, params, body'⟩) :
      Node C X (.defun f params body) (.defun f params body')
  | call {f : String} {args args' : List Expr} (hf : C.name f) (hargs : List.Forall₂ X args args') :
      Node C X (.call f args) (.call f args')
  | prim {op : Operator} {args args' : List Expr}
      (hempty : op.isArithmetic → args = [] → C.error (.arity op.symbol (.atLeast 1) 0))
      (hargs : List.Forall₂ X args args') : Node C X (.prim op args) (.prim op args')

/-- An expression beside itself. -/
theorem node_self {C : Coupling} {P : Expr → Prop} {e : Expr} (hchildren : ∀ c ∈ e.children, P c)
    (hname : ∀ x ∈ e.ownNames, C.name x) (hstring : ∀ s, e = .string s → C.string s)
    (hdefun : ∀ f params body, e = .defun f params body →
      C.string f ∧ C.definition ⟨f, params, body⟩ ⟨f, params, body⟩)
    (hprint : ∀ a b, C.value a b → C.Runs Eq (Run.printLine a.render) (Run.printLine b.render))
    (hprim : ∀ op, e = .prim op [] → op.isArithmetic → C.error (.arity op.symbol (.atLeast 1) 0)) :
    C.Node (fun c c' => c = c' ∧ P c) e e := by
  have hargs {args : List Expr} (hargs : ∀ c ∈ args, P c) :
      List.Forall₂ (fun c c' => c = c' ∧ P c) args args :=
    List.forall₂_same.2 fun c hc => ⟨rfl, hargs c hc⟩
  cases e with
  | number n => exact .number n
  | string s => exact .string (hstring s rfl)
  | symbol name => exact .symbol (hname name List.mem_cons_self)
  | assign name value =>
    exact .assign (hname name List.mem_cons_self) ⟨rfl, hchildren value List.mem_cons_self⟩
  | cond test yes no =>
    simp only [Expr.children, List.forall_mem_cons] at hchildren
    obtain ⟨htest, hyes, hno, _⟩ := hchildren
    exact .cond ⟨rfl, htest⟩ ⟨rfl, hyes⟩ ⟨rfl, hno⟩
  | print value => exact .print ⟨rfl, hchildren value List.mem_cons_self⟩ hprint
  | defun name params body =>
    obtain ⟨hstring, hdefinition⟩ := hdefun name params body rfl
    exact .defun (hname name List.mem_cons_self) hstring hdefinition
  | call name args => exact .call (hname name List.mem_cons_self) (hargs hchildren)
  | prim op args =>
    refine .prim (fun hop hempty => ?_) (hargs hchildren)
    exact hprim op (hempty ▸ rfl) hop

/-- What evaluation asks of a coupling: look-ups and bindings go together, related definitions are
called alike, and the errors are those of evaluation. -/
structure Lawful (C : Coupling) : Prop where
  get? : ∀ {m n x}, C.machine m n → C.name x →
    Option.Rel C.value (m.scope.get? x) (n.scope.get? x)
  define : ∀ {m n x v w}, C.machine m n → C.name x → C.value v w →
    C.machine { m with scope := m.scope.define x v } { n with scope := n.scope.define x w }
  same : ∀ {d e}, C.definition d e → e.name = d.name ∧ e.params = d.params
  arity : ∀ {d e}, C.definition d e → ∀ expected given, C.error (.arity d.name expected given)
  error : ∀ {e}, e.Ordinary → C.error e

namespace Lawful

variable {C : Coupling}

theorem runs_ofExcept (hC : C.Lawful) {α β : Type} {A : α → β → Prop} {r : Except EvalError α}
    {q : Except EvalError β} (h : SameEnd A r q) :
    C.Runs A (Run.ofExcept r) (Run.ofExcept q) := by
  cases h with
  | ok h => exact runs_pure h
  | error h => exact runs_throw (hC.error h)

theorem runs_lookup (hC : C.Lawful) {x : String} (hx : C.name x) :
    C.Runs (Option.Rel C.value) (Run.lookup x) (Run.lookup x) :=
  fun _ _ hm => .ok (hC.get? hm hx) hm

theorem runs_define (hC : C.Lawful) {x : String} (hx : C.name x) {v w : Value}
    (h : C.value v w) : C.Runs Eq (Run.define x v) (Run.define x w) :=
  fun _ _ hm => .ok rfl (hC.define hm hx h)

section

variable {eval eval' : Expr → Run Value} {args args' : List Expr} {op : Operator}

theorem fold (hC : C.Lawful) (hop : op.isArithmetic)
    (hargs : List.Forall₂ (fun e e' => C.Runs C.value (eval e) (eval' e')) args args')
    {total total' : Value} (h : C.value total total') :
    C.Runs C.value (op.fold eval total args) (op.fold eval' total' args') := by
  induction hargs generalizing total total' with
  | nil => exact runs_pure h
  | cons harg _ ih =>
    exact harg.bind fun v w hvw =>
      (hC.runs_ofExcept (h.arithmetic hop hvw)).bind fun total total' h => ih h

theorem evalPrim (hC : C.Lawful)
    (hempty : op.isArithmetic → args = [] → C.error (.arity op.symbol (.atLeast 1) 0))
    (hargs : List.Forall₂ (fun e e' => C.Runs C.value (eval e) (eval' e')) args args') :
    C.Runs C.value (Expr.evalPrim eval op args) (Expr.evalPrim eval' op args') := by
  unfold Expr.evalPrim
  cases hop : op.isArithmetic with
  | true =>
    rw [if_pos rfl, if_pos rfl]
    cases hargs with
    | nil => exact runs_throw (hempty hop rfl)
    | cons hfirst hrest =>
      refine hfirst.bind fun v w hvw => ?_
      have hfold := hC.fold hop hrest hvw
      -- The first operand is refused for its kind, which is the same in both runs.
      dsimp only
      rw [hvw.kind_eq]
      split
      · exact hfold
      · refine (runs_throw (A := Eq) (hC.error ?_)).bind fun _ _ _ => hfold
        exact ⟨nofun, nofun⟩
  | false =>
    have hlength := hargs.length_eq
    have herror (given : Nat) : C.error (.arity op.symbol (.exactly 2) given) :=
      hC.error ⟨EvalError.not_defensive_comparison hop _ given, nofun⟩
    rw [if_neg Bool.false_ne_true, if_neg Bool.false_ne_true]
    rcases hargs with _ | ⟨hleft, _ | ⟨hright, _ | _⟩⟩
    · exact runs_throw (herror 0)
    · exact runs_throw (herror 1)
    · refine hleft.bind fun x y hxy => hright.bind fun x' y' hxy' => ?_
      refine (hC.runs_ofExcept (hxy.compare hop hxy')).bind fun b b' hb => ?_
      rw [hb]
      exact runs_pure (.number _)
    · dsimp only
      rw [hlength]
      exact runs_throw (herror _)

end

variable {X : Expr → Expr → Prop} {limit room room' : Nat} {e e' : Expr}

/-- One level of an evaluation, with coupled operands and coupled calls one level below. -/
theorem evalWithin_succ (hC : C.Lawful) (h : C.Node X e e')
    (hoperand : ∀ c c', X c c' →
      C.Runs C.value (c.evalWithin limit room) (c'.evalWithin limit room'))
    (hcall : ∀ d d', C.definition d d' → ∀ vs ws, List.Forall₂ C.value vs ws →
      C.Runs C.value (Run.inFrame (.ofParams d.params vs) (d.body.evalWithin limit room))
        (Run.inFrame (.ofParams d'.params ws) (d'.body.evalWithin limit room'))) :
    C.Runs C.value (e.evalWithin limit (room + 1)) (e'.evalWithin limit (room' + 1)) := by
  cases h with
  | number n => exact runs_pure (.number n)
  | string hs => exact runs_pure (.string hs)
  | symbol hx =>
    refine (hC.runs_lookup hx).bind fun found found' hfound => ?_
    cases hfound with
    | some hv => exact runs_pure hv
    | none => exact runs_throw (hC.error ⟨nofun, nofun⟩)
  | assign hx hv =>
    exact (hoperand _ _ hv).bind fun v w hvw =>
      (hC.runs_define hx hvw).bind fun _ _ _ => runs_pure hvw
  | cond htest hyes hno =>
    refine (hoperand _ _ htest).bind fun v w hvw => ?_
    rw [hvw.isTruthy_eq]
    split
    · exact hoperand _ _ hyes
    · exact hoperand _ _ hno
  | print hv hprint =>
    exact (hoperand _ _ hv).bind fun v w hvw =>
      (hprint v w hvw).bind fun _ _ _ => runs_pure hvw
  | defun hname hstring h =>
    exact (hC.runs_define hname (.function 0 h)).bind fun _ _ _ => runs_pure (.string hstring)
  | call hf hargs =>
    have hvalues := runs_mapM (hargs.imp hoperand)
    -- The name is bound in both runs or in neither; in the latter case it may be a builtin's.
    refine (hC.runs_lookup hf).bind fun found found' hfound => ?_
    cases hfound with
    | some hv =>
      cases hv with
      | function _ h =>
        obtain ⟨hname, hparams⟩ := hC.same h
        dsimp only
        rw [hname, hparams, hargs.length_eq]
        exact (runs_check (hC.arity h _ _)).bind fun _ _ _ =>
          hvalues.bind fun vs ws hvs => hparams ▸ hcall _ _ h vs ws hvs
      | _ => exact runs_throw (hC.error ⟨nofun, nofun⟩)
    | none =>
      dsimp only
      cases Builtin.find? _ with
      | some b => exact hvalues.bind fun vs ws hvs => hC.runs_ofExcept (b.call_alike hvs)
      | none => exact runs_throw (hC.error ⟨nofun, nofun⟩)
  | prim hempty hargs => exact hC.evalPrim hempty (hargs.imp hoperand)

end Lawful

theorem runs_program {C : Coupling} {X : Expr → Expr → Prop} {limit : Nat} {p p' : Program}
    (h : ∀ e e', X e e' → C.Runs C.value (e.eval limit) (e'.eval limit))
    (hempty : p = [] → C.error (.failure .emptyProgram)) (hp : List.Forall₂ X p p') :
    C.Runs C.value (Program.eval limit p) (Program.eval limit p') := by
  induction hp with
  | nil => exact runs_throw (hempty rfl)
  | cons he hes ih =>
    cases hes with
    | nil => exact h _ _ he
    | cons he' hes => exact (h _ _ he).bind fun _ _ _ => ih nofun

/-! ## A single run -/

/-- A run beside itself. Names are of `N`, strings of `S` and definitions of `G`, also in the values
that are bound, and errors are of `E`. -/
def diagonal (N S : String → Prop) (G : Definition → Prop) (E : EvalError → Prop) : Coupling where
  name := N
  string := S
  definition d e := d = e ∧ G d
  machine m n := m = n ∧ m.scope.Holds fun x v => N x ∧ v.Leaves S G
  error := E
  stop _ := False

section

variable {N S : String → Prop} {G : Definition → Prop} {E : EvalError → Prop}

theorem diagonal_value {v w : Value} :
    (diagonal N S G E).value v w ↔ v = w ∧ v.Leaves S G :=
  Value.alike_iff_eq

theorem lawful_diagonal
    (harity : ∀ d, G d → ∀ expected given, E (.arity d.name expected given))
    (herror : ∀ e, e.Ordinary → E e) : (diagonal N S G E).Lawful where
  get? := by
    rintro m _ name ⟨rfl, hm⟩ _
    cases hget : m.scope.get? name with
    | none => exact .none
    | some v => exact .some (diagonal_value.2 ⟨rfl, (hm.get? hget).2⟩)
  define := by
    rintro m _ name v w ⟨rfl, hm⟩ hname hvw
    obtain ⟨rfl, hv⟩ := diagonal_value.1 hvw
    exact ⟨rfl, hm.define ⟨hname, hv⟩⟩
  same := by
    rintro d _ ⟨rfl, _⟩
    exact ⟨rfl, rfl⟩
  arity := by
    rintro d _ ⟨rfl, hd⟩
    exact harity d hd
  error := herror _

theorem runs_printLine_diagonal (hfull : E (.failure .outputFull)) {v w : Value}
    (h : (diagonal N S G E).value v w) :
    (diagonal N S G E).Runs Eq (Run.printLine v.render) (Run.printLine w.render) := by
  obtain ⟨rfl, _⟩ := diagonal_value.1 h
  refine runs_printLine ?_ hfull _
  rintro m _ ⟨rfl, hm⟩
  exact ⟨rfl, fun _ => ⟨rfl, hm⟩⟩

theorem inFrame_diagonal {body : Run Value}
    (h : (diagonal N S G E).Runs (diagonal N S G E).value body body) {frame : Bindings Value}
    (hframe : frame.Holds fun x v => N x ∧ v.Leaves S G) :
    (diagonal N S G E).Runs (diagonal N S G E).value (Run.inFrame frame body)
      (Run.inFrame frame body) := by
  rintro m _ ⟨rfl, hm⟩
  have hends := h { m with scope := m.scope.push frame } _ ⟨rfl, hm.push hframe⟩
  unfold Run.inFrame
  generalize body _ = r at hends ⊢
  cases hends with
  | ok hv hm' => exact .ok hv ⟨rfl, hm'.2.pop⟩
  | error he hm' => exact .error he ⟨rfl, hm'.2.pop⟩
  | stop he => exact he.elim

variable {P : Nat → Expr → Prop} {limit : Nat}

/-- Let `P` hold of the expressions that are evaluated with so many levels left: then of the
operands with one less, and of the bodies of functions in any case. Induction on the levels. -/
theorem evalWithin_diagonal (hlawful : (diagonal N S G E).Lawful)
    (hzero : ∀ e, P 0 e → E (.failure (.depthExceeded limit)))
    (hnode : ∀ room e, P (room + 1) e →
      (diagonal N S G E).Node (fun c c' => c = c' ∧ P room c) e e)
    (hbody : ∀ room d, G d → P room d.body ∧ ∀ p ∈ d.params, N p) {room : Nat} {e : Expr}
    (he : P room e) :
    (diagonal N S G E).Runs (diagonal N S G E).value (e.evalWithin limit room)
      (e.evalWithin limit room) := by
  induction room generalizing e with
  | zero => exact runs_throw (hzero e he)
  | succ room ih =>
    refine hlawful.evalWithin_succ (hnode room e he) ?_ ?_
    · rintro c _ ⟨rfl, hc⟩
      exact ih hc
    · rintro d _ ⟨rfl, hd⟩ vs ws hvs
      obtain ⟨rfl, hvalues⟩ := (forall₂_iff_eq fun _ _ _ => diagonal_value).1 hvs
      obtain ⟨hbody, hparams⟩ := hbody room d hd
      exact inFrame_diagonal (ih hbody)
        (Bindings.holds_ofParams fun p hp v hv => ⟨hparams p hp, hvalues v hv⟩)

end

end Coupling

end PrefixLisp
