import PrefixLisp.Proofs.Eval.Effect
import PrefixLisp.Proofs.Value.Combination

/-
  The operands of an arithmetic operator.

  An operator keeps a running total, and evaluates each operand just before it adds it. There is no
  total before the first operand, which is only tested to be a number; `Operator.combine` goes on
  from either. An operand that has come to an end is added to the total or spoils it, never both
  (`Operator.combine_cons`, `Operator.Spoils.not_adds`), so it is known from the ends of the
  operands how far the operator gets (`eval_arithmetic_stops_at_spoiler`).
-/

namespace PrefixLisp

namespace Run

variable {ι α : Type}

theorem mapM_nil_eq_ok {f : ι → Run α} {as : List α} {m m' : Machine} :
    ([] : List ι).mapM f m = .ok as m' ↔ as = [] ∧ m' = m := by
  rw [List.mapM_nil]
  constructor
  · intro h
    cases h
    exact ⟨rfl, rfl⟩
  · rintro ⟨rfl, rfl⟩
    rfl

theorem mapM_cons_eq_ok {f : ι → Run α} {x : ι} {xs : List ι} {as : List α} {m m' : Machine} :
    (x :: xs).mapM f m = .ok as m' ↔
      ∃ b m₁ bs, f x m = .ok b m₁ ∧ xs.mapM f m₁ = .ok bs m' ∧ as = b :: bs := by
  rw [List.mapM_cons]
  constructor
  · intro h
    cases hx : f x m with
    | error e m₁ =>
      rw [bind_of_error hx] at h
      cases h
    | ok b m₁ =>
      rw [bind_of_ok hx] at h
      cases hxs : xs.mapM f m₁ with
      | error e m₂ =>
        rw [bind_of_error hxs] at h
        cases h
      | ok bs m₂ =>
        rw [bind_of_ok hxs] at h
        cases h
        exact ⟨b, m₁, bs, rfl, hxs, rfl⟩
  · intro ⟨b, m₁, bs, hx, hxs, has⟩
    rw [bind_of_ok hx, bind_of_ok hxs, has]
    rfl

end Run

namespace Operator

/-! ## Totals -/

/-- The left fold of the numbers behind the first one: no divisor is zero, and every result on the
way is in range. -/
structure Folds (op : Operator) (a : Number) (bs : List Number) (total : Number) : Prop where
  value : total.val = (bs.map (·.val)).foldl op.exact a.val
  inRange : ∀ n ∈ (bs.map (·.val)).scanl op.exact a.val, Number.InRange n
  divisors : op = .div → ∀ b ∈ bs, b.val ≠ 0

/-- The total of the numbers so far. There is none before the first. -/
inductive RunningTotal (op : Operator) : List Number → Option Number → Prop where
  | before : RunningTotal op [] none
  | behind {a : Number} {bs : List Number} {total : Number} (h : op.Folds a bs total) :
      RunningTotal op (a :: bs) (some total)

/-- One more number is added to the total. -/
inductive Adds (op : Operator) : Option Number → Number → Number → Prop where
  | first (b : Number) : Adds op none b b
  | next {a b c : Number} (hfits : Combination.Fits ⟨a.val, op, b.val⟩)
      (hvalue : c.val = op.exact a.val b.val) : Adds op (some a) b c

/-- The numbers are added one after the other. -/
inductive Totals (op : Operator) : Option Number → List Number → Option Number → Prop where
  | nil (t : Option Number) : Totals op t [] t
  | cons {t t' : Option Number} {b c : Number} {bs : List Number} (hb : op.Adds t b c)
      (hbs : Totals op (some c) bs t') : Totals op t (b :: bs) t'

variable {op : Operator}

theorem Adds.unique {t : Option Number} {b c c' : Number} (h : op.Adds t b c)
    (h' : op.Adds t b c') : c = c' := by
  cases h with
  | first => cases h' with | first => rfl
  | next _ hvalue => cases h' with | next _ hvalue' => exact Number.ext (hvalue.trans hvalue'.symm)

theorem folds_nil_iff {a total : Number} : op.Folds a [] total ↔ total = a := by
  constructor
  · intro h
    exact Number.ext h.value
  · rintro rfl
    exact ⟨rfl, List.forall_mem_singleton.2 total.inRange, fun _ => List.forall_mem_nil _⟩

theorem folds_cons_iff {a b total : Number} {bs : List Number} :
    op.Folds a (b :: bs) total ↔ ∃ c, op.Adds (some a) b c ∧ op.Folds c bs total := by
  constructor
  · intro ⟨hvalue, hrange, hdivisors⟩
    rw [List.map_cons, List.scanl_cons, List.forall_mem_cons] at hrange
    have hhead : op.exact a.val b.val ∈ (bs.map (·.val)).scanl op.exact (op.exact a.val b.val) := by
      cases bs <;> simp
    have hc : Number.InRange (op.exact a.val b.val) := hrange.2 _ hhead
    have hdivisor : ¬(op = .div ∧ b.val = 0) :=
      fun h => hdivisors h.1 b List.mem_cons_self h.2
    refine ⟨⟨_, hc⟩, .next ⟨hdivisor, hc⟩ rfl, hvalue, hrange.2, fun hop b' hb' => ?_⟩
    exact hdivisors hop b' (List.mem_cons_of_mem b hb')
  · intro ⟨c, hadds, hvalue, hrange, hdivisors⟩
    cases hadds with
    | next hfits hc =>
      rw [hc] at hvalue hrange
      refine ⟨hvalue, ?_, fun hop => List.forall_mem_cons.2 ⟨?_, hdivisors hop⟩⟩
      · rw [List.map_cons, List.scanl_cons, List.forall_mem_cons]
        exact ⟨a.inRange, hrange⟩
      · exact fun hzero => hfits.divisor ⟨hop, hzero⟩

theorem totals_some_iff {a total : Number} {bs : List Number} :
    op.Totals (some a) bs (some total) ↔ op.Folds a bs total := by
  induction bs generalizing a with
  | nil =>
    rw [folds_nil_iff]
    constructor
    · intro h
      cases h
      rfl
    · rintro rfl
      exact .nil _
  | cons b bs ih =>
    rw [folds_cons_iff]
    constructor
    · intro h
      cases h with
      | cons hb hbs => exact ⟨_, hb, ih.1 hbs⟩
    · intro ⟨c, hb, hbs⟩
      exact .cons hb (ih.2 hbs)

theorem Totals.exists_total {a : Number} {bs : List Number} {t : Option Number}
    (h : op.Totals (some a) bs t) : ∃ total, t = some total := by
  induction bs generalizing a with
  | nil =>
    cases h
    exact ⟨a, rfl⟩
  | cons b bs ih =>
    cases h with
    | cons _ hbs => exact ih hbs

/-- Adding numbers from the first one on is folding them. -/
theorem totals_none_iff {ns : List Number} {t : Option Number} :
    op.Totals none ns t ↔ op.RunningTotal ns t := by
  constructor
  · intro h
    cases h with
    | nil => exact .before
    | cons ha hbs =>
      cases ha with
      | first a =>
        obtain ⟨total, rfl⟩ := hbs.exists_total
        exact .behind (totals_some_iff.1 hbs)
  · intro h
    cases h with
    | before => exact .nil none
    | behind h => exact .cons (.first _) (totals_some_iff.2 h)

/-! ## Operands -/

/-- The end of an operand spoils the total, with this error and this machine: the operand fails, it
is no number, or it does not fit with the total. -/
inductive Spoils (op : Operator) :
    Option Number → EStateM.Result EvalError Machine Value → EvalError → Machine → Prop where
  | fails (t : Option Number) (err : EvalError) (m : Machine) : Spoils op t (.error err m) err m
  | firstKind {v : Value} (hv : v.kind ≠ .number) (m : Machine) :
      Spoils op none (.ok v m) (.mismatch (.notNumber op v.kind)) m
  | kind {v : Value} (hv : v.kind ≠ .number) (a : Number) (m : Machine) :
      Spoils op (some a) (.ok v m) (.mismatch (.notNumbers op .number v.kind)) m
  | combination {a b : Number} {err : EvalError} (h : Combination.FailsWith ⟨a.val, op, b.val⟩ err)
      (m : Machine) : Spoils op (some a) (.ok (.number b) m) err m

/-- Go on with a total, or begin. -/
def combine (op : Operator) (eval : Expr → Run Value) : Option Number → List Expr → Run Value
  | some a, es => op.fold eval (.number a) es
  | none, es => Expr.evalPrim eval op es

variable {eval : Expr → Run Value}

theorem combine_some_cons (a : Number) (e : Expr) (es : List Expr) :
    op.combine eval (some a) (e :: es) =
      eval e >>= fun v => Run.ofExcept (Value.arithmetic op (.number a) v) >>= fun total =>
        op.fold eval total es := rfl

theorem combine_none_cons (hop : op.isArithmetic) (e : Expr) (es : List Expr) :
    op.combine eval none (e :: es) =
      eval e >>= fun v =>
        if v.kind = .number then op.fold eval v es
        else throw (.mismatch (.notNumber op v.kind)) := by
  show Expr.evalPrim eval op (e :: es) = _
  rw [Expr.evalPrim, if_pos hop]
  refine congrArg (eval e >>= ·) (funext fun v => ?_)
  by_cases hv : v.kind = .number
  · rw [if_pos hv, if_pos hv]
  · rw [if_neg hv, if_neg hv]
    rfl

/-- A value that is no number spoils the total. -/
theorem combine_cons_of_kind (hop : op.isArithmetic) (t : Option Number) {e : Expr}
    (es : List Expr) {v : Value} {m m₁ : Machine} (he : eval e m = .ok v m₁)
    (hv : v.kind ≠ .number) :
    ∃ err, op.Spoils t (.ok v m₁) err m₁ ∧ op.combine eval t (e :: es) m = .error err m₁ := by
  cases t with
  | none =>
    refine ⟨_, .firstKind hv m₁, ?_⟩
    rw [combine_none_cons hop, Run.bind_of_ok he, if_neg hv]
    rfl
  | some a =>
    refine ⟨_, .kind hv a m₁, ?_⟩
    rw [combine_some_cons, Run.bind_of_ok he, Value.arithmetic_notNumber hv]
    rfl

/-- A number spoils the total, or it is added, and the rest follows. -/
theorem combine_cons_of_number (hop : op.isArithmetic) (t : Option Number) {e : Expr}
    (es : List Expr) {b : Number} {m m₁ : Machine} (he : eval e m = .ok (.number b) m₁) :
    (∃ err, op.Spoils t (.ok (.number b) m₁) err m₁ ∧
      op.combine eval t (e :: es) m = .error err m₁) ∨
    ∃ c, op.Adds t b c ∧ op.combine eval t (e :: es) m = op.combine eval (some c) es m₁ := by
  cases t with
  | none =>
    refine .inr ⟨b, .first b, ?_⟩
    rw [combine_none_cons hop, Run.bind_of_ok he]
    rfl
  | some a =>
    rw [combine_some_cons, Run.bind_of_ok he]
    by_cases hfits : Combination.Fits ⟨a.val, op, b.val⟩
    · obtain ⟨c, hc, harith⟩ := Value.arithmetic_of_fits hop hfits
      rw [harith]
      exact .inr ⟨c, .next hfits hc, rfl⟩
    · obtain ⟨err, hfails, harith⟩ := Value.arithmetic_of_not_fits hop hfits
      rw [harith]
      exact .inl ⟨err, .combination hfails m₁, rfl⟩

/-- An operand spoils the total, and that is the end, or it is added, and the rest follows. -/
theorem combine_cons (hop : op.isArithmetic) (eval : Expr → Run Value) (t : Option Number)
    (e : Expr) (es : List Expr) (m : Machine) :
    (∃ err m', op.Spoils t (eval e m) err m' ∧ op.combine eval t (e :: es) m = .error err m') ∨
    ∃ b m₁ c, eval e m = .ok (.number b) m₁ ∧ op.Adds t b c ∧
      op.combine eval t (e :: es) m = op.combine eval (some c) es m₁ := by
  cases he : eval e m with
  | error err m₁ =>
    refine .inl ⟨err, m₁, .fails t err m₁, ?_⟩
    cases t with
    | none => rw [combine_none_cons hop, Run.bind_of_error he]
    | some a => rw [combine_some_cons, Run.bind_of_error he]
  | ok v m₁ =>
    by_cases hv : v.kind = .number
    · obtain ⟨b, rfl⟩ : ∃ b, v = .number b := by
        cases v <;> first | exact ⟨_, rfl⟩ | cases hv
      rcases combine_cons_of_number hop t es he with ⟨err, hspoils, hend⟩ | ⟨c, hadds, hrest⟩
      · exact .inl ⟨err, m₁, hspoils, hend⟩
      · exact .inr ⟨b, m₁, c, rfl, hadds, hrest⟩
    · obtain ⟨err, hspoils, hend⟩ := combine_cons_of_kind hop t es he hv
      exact .inl ⟨err, m₁, hspoils, hend⟩

/-- What is added does not spoil. -/
theorem Spoils.not_adds {t : Option Number} {b c : Number} {m m' : Machine} {err : EvalError}
    (h : op.Spoils t (.ok (.number b) m) err m') : ¬op.Adds t b c := by
  intro hadds
  cases h with
  | firstKind hv | kind hv => exact hv rfl
  | combination hfails =>
    cases hadds with
    | next hfits => exact hfails.not_fits hfits

theorem Spoils.unique {t : Option Number} {x : EStateM.Result EvalError Machine Value}
    {err err' : EvalError} {m m' : Machine} (h : op.Spoils t x err m)
    (h' : op.Spoils t x err' m') : err = err' ∧ m = m' := by
  cases h with
  | fails => cases h' with | fails => exact ⟨rfl, rfl⟩
  | firstKind => cases h' with | firstKind => exact ⟨rfl, rfl⟩
  | kind hv =>
    cases h' with
    | kind => exact ⟨rfl, rfl⟩
    | combination => exact absurd rfl hv
  | combination hfails =>
    cases h' with
    | kind hv => exact absurd rfl hv
    | combination hfails' => exact ⟨hfails.unique hfails', rfl⟩

/-- Operands that are added leave the operator with their total and the others. -/
theorem combine_append (hop : op.isArithmetic) {t t' : Option Number} {before : List Expr}
    {ns : List Number} {m m₁ : Machine} (hbefore : before.mapM eval m = .ok (ns.map .number) m₁)
    (ht : op.Totals t ns t') (rest : List Expr) :
    op.combine eval t (before ++ rest) m = op.combine eval t' rest m₁ := by
  induction before generalizing t ns m with
  | nil =>
    obtain ⟨hns, rfl⟩ := Run.mapM_nil_eq_ok.1 hbefore
    obtain rfl := List.map_eq_nil_iff.1 hns
    cases ht
    rfl
  | cons e es ih =>
    obtain ⟨v, m₂, vs, he, hes, hns⟩ := Run.mapM_cons_eq_ok.1 hbefore
    cases ht with
    | nil => cases hns
    | @cons _ _ b c bs hb hbs =>
      cases hns
      rcases combine_cons hop eval t e (es ++ rest) m with ⟨err, m', hspoils, _⟩ | hadded
      · rw [he] at hspoils
        exact absurd hb hspoils.not_adds
      · obtain ⟨b', m₃, c', he', hb', hrest⟩ := hadded
        rw [he] at he'
        cases he'
        rw [List.cons_append, hrest, hb'.unique hb]
        exact ih hes hbs

/-- How far an operator gets: all operands are added, or one spoils the total of those before it. -/
theorem combine_ends (hop : op.isArithmetic) (t : Option Number) (es : List Expr)
    (hbegun : t = none → es ≠ []) (m : Machine) :
    (∃ ns total m', es.mapM eval m = .ok (ns.map .number) m' ∧ op.Totals t ns (some total) ∧
      op.combine eval t es m = .ok (.number total) m') ∨
    ∃ before e after ns t' m₁ err m', es = before ++ e :: after ∧
      before.mapM eval m = .ok (ns.map .number) m₁ ∧ op.Totals t ns t' ∧
        op.Spoils t' (eval e m₁) err m' ∧ op.combine eval t es m = .error err m' := by
  induction es generalizing t m with
  | nil =>
    cases t with
    | none => exact absurd rfl (hbegun rfl)
    | some a => exact .inl ⟨[], a, m, rfl, .nil _, rfl⟩
  | cons e es ih =>
    rcases combine_cons hop eval t e es m with ⟨err, m', hspoils, hend⟩ | hadded
    · exact .inr ⟨[], e, es, [], t, m, err, m', rfl, rfl, .nil t, hspoils, hend⟩
    obtain ⟨b, m₁, c, he, hb, hrest⟩ := hadded
    rw [hrest]
    rcases ih (some c) nofun m₁ with
      ⟨ns, total, m', hes, hns, hend⟩ | ⟨before, e', after, ns, t', m₂, err, m', rfl, hrun⟩
    · exact .inl ⟨b :: ns, total, m', Run.mapM_cons_eq_ok.2 ⟨_, m₁, _, he, hes, rfl⟩,
        .cons hb hns, hend⟩
    · obtain ⟨hbefore, hns, hspoils, hend⟩ := hrun
      exact .inr ⟨e :: before, e', after, b :: ns, t', m₂, err, m', rfl,
        Run.mapM_cons_eq_ok.2 ⟨_, m₁, _, he, hbefore, rfl⟩, .cons hb hns, hspoils, hend⟩

theorem combine_eq_ok_iff (hop : op.isArithmetic) {args : List Expr} (hne : args ≠ [])
    {v : Value} {m m' : Machine} :
    op.combine eval none args m = .ok v m' ↔
      ∃ ns total, args.mapM eval m = .ok (ns.map .number) m' ∧
        op.RunningTotal ns (some total) ∧ v = .number total := by
  constructor
  · intro h
    rcases combine_ends hop none args (fun _ => hne) m with
      ⟨ns, total, m₁, hargs, hns, hend⟩ | ⟨_, _, _, _, _, _, err, m₁, _, _, _, _, hend⟩
    · rw [hend] at h
      cases h
      exact ⟨ns, total, hargs, totals_none_iff.1 hns, rfl⟩
    · rw [hend] at h
      cases h
  · intro ⟨ns, total, hargs, hns, hv⟩
    have hend := combine_append hop hargs (totals_none_iff.2 hns) []
    rw [List.append_nil] at hend
    rw [hend, hv]
    rfl

theorem combine_eq_error_iff (hop : op.isArithmetic) {args : List Expr} (hne : args ≠ [])
    {err : EvalError} {m m' : Machine} :
    op.combine eval none args m = .error err m' ↔
      ∃ before e after ns t m₁, args = before ++ e :: after ∧
        before.mapM eval m = .ok (ns.map .number) m₁ ∧ op.RunningTotal ns t ∧
          op.Spoils t (eval e m₁) err m' := by
  constructor
  · intro h
    rcases combine_ends hop none args (fun _ => hne) m with
      ⟨_, _, _, _, _, hend⟩ | ⟨before, e, after, ns, t, m₁, err', m₂, hargs, hrun⟩
    · rw [hend] at h
      cases h
    · obtain ⟨hbefore, hns, hspoils, hend⟩ := hrun
      rw [hend] at h
      cases h
      exact ⟨before, e, after, ns, t, m₁, hargs, hbefore, totals_none_iff.1 hns, hspoils⟩
  · rintro ⟨before, e, after, ns, t, m₁, rfl, hbefore, hns, hspoils⟩
    rw [combine_append hop hbefore (totals_none_iff.2 hns)]
    rcases combine_cons hop eval t e after m₁ with ⟨err', m₂, hspoils', hend⟩ | hadded
    · obtain ⟨rfl, rfl⟩ := hspoils.unique hspoils'
      exact hend
    · obtain ⟨b, m₂, c, he, hb, _⟩ := hadded
      rw [he] at hspoils
      exact absurd hb hspoils.not_adds

end Operator

/-- Below the depth limit, operands are evaluated one level deeper. -/
theorem Expr.eval_prim {limit depth : Nat} (h : depth < limit) (op : Operator)
    (args : List Expr) :
    (prim op args).eval limit depth = evalPrim (fun e => e.eval limit (depth + 1)) op args := by
  obtain ⟨room, hroom⟩ : ∃ room, limit - depth = room + 1 := ⟨limit - depth - 1, by omega⟩
  have hoperand : limit - (depth + 1) = room := by omega
  unfold eval
  rw [hroom, hoperand, evalWithin]

/-- An arithmetic call evaluates its arguments from the left, one level deeper, and adds each to the
total. If all are numbers that fold, the result is their left fold, in the machine that they leave
behind. Else the call ends at the first argument that spoils the total of those before it, with the
error for this and in the machine that this argument leaves behind; nothing behind it is
evaluated. -/
theorem eval_arithmetic_stops_at_spoiler (limit depth : Nat) (hdepth : depth < limit)
    (op : Operator) (hop : op.isArithmetic) (args : List Expr) (hne : args ≠ []) (m : Machine) :
    let operand (e : Expr) : Run Value := e.eval limit (depth + 1)
    let call : Run Value := (Expr.prim op args).eval limit depth
    (∀ v m', call m = .ok v m' ↔ ∃ ns total, args.mapM operand m = .ok (ns.map .number) m' ∧
      op.RunningTotal ns (some total) ∧ v = .number total) ∧
    ∀ err m', call m = .error err m' ↔ ∃ before e after ns t m₁, args = before ++ e :: after ∧
      before.mapM operand m = .ok (ns.map .number) m₁ ∧ op.RunningTotal ns t ∧
        op.Spoils t (operand e m₁) err m' := by
  intro operand call
  have hcall : call = op.combine operand none args := Expr.eval_prim hdepth op args
  rw [hcall]
  exact ⟨fun v m' => Operator.combine_eq_ok_iff hop hne,
    fun err m' => Operator.combine_eq_error_iff hop hne⟩

/-- In `(+ (setq x 1) "a" (print x))` the string spoils the total: the call has bound `x`, and it
prints nothing. -/
theorem eval_arithmetic_stops_at_spoiler_string :
    let args : List Expr := [.assign "x" (.number .one), .string "a", .print (.symbol "x")]
    let m : Machine := ⟨.global, .unbounded⟩
    let m' : Machine := ⟨Scope.global.define "x" (.number .one), .unbounded⟩
    0 < 3 ∧ Operator.isArithmetic .add ∧ args ≠ [] ∧
      (Expr.prim .add args).eval 3 0 m =
        .error (.mismatch (.notNumbers .add .number .string)) m' :=
  ⟨by decide, rfl, List.cons_ne_nil _ _,
    ((eval_arithmetic_stops_at_spoiler 3 0 (by decide) .add rfl _ (List.cons_ne_nil _ _) _).2
      _ _).2 ⟨[.assign "x" (.number .one)], .string "a", [.print (.symbol "x")], [.one], some .one,
        _, rfl, rfl, .behind (Operator.folds_nil_iff.2 rfl), .kind (by decide) .one _⟩⟩

end PrefixLisp
