import PrefixLisp.Proofs.Eval.Effect
import PrefixLisp.Proofs.Expr.Occurrence
import PrefixLisp.Proofs.Value.Combination

/-
  Expressions that are computed from numbers alone.

  `Expr.denote` is the value of such an expression on the integers without bounds, and
  `Expr.combinations` are the steps of its evaluation, in order, as far as they can fail. A run
  `Computes` an integer through such steps if it ends in the error of the first one that does not
  fit, or in the number of this value, and leaves the machine alone either way. Sequencing puts the
  steps behind each other (`Computes.bind`), so an evaluation computes the denotation
  (`computes_evalWithin`).
-/

namespace PrefixLisp

namespace Expr

/-- Numbers, arithmetic on one operand or more, comparisons of two, and choices between such. -/
inductive Constant : Expr → Prop where
  | number (n : Number) : Constant (.number n)
  | arithmetic {op : Operator} {first : Expr} {rest : List Expr} (hop : op.isArithmetic)
      (hargs : ∀ e ∈ first :: rest, Constant e) : Constant (.prim op (first :: rest))
  | comparison {op : Operator} {left right : Expr} (hop : op.isArithmetic = false)
      (hleft : Constant left) (hright : Constant right) : Constant (.prim op [left, right])
  | cond {test yes no : Expr} (htest : Constant test) (hyes : Constant yes) (hno : Constant no) :
      Constant (.cond test yes no)

mutual

/-- The value on the integers. Operators fold from the left, and a test is passed unless it is
zero. -/
def denote : Expr → Int
  | number n => n.val
  | prim op (first :: rest) => denoteFold op first.denote rest
  | cond test yes no => if test.denote = 0 then no.denote else yes.denote
  | _ => 0

def denoteFold (op : Operator) (total : Int) : List Expr → Int
  | [] => total
  | e :: es => denoteFold op (op.exact total e.denote) es

end

mutual

/-- What is combined on the way to the value, from the left, and only in the branch that is
taken. -/
def combinations : Expr → List Combination
  | prim op (first :: rest) => first.combinations ++ combinationsFold op first.denote rest
  | cond test yes no =>
    test.combinations ++ if test.denote = 0 then no.combinations else yes.combinations
  | _ => []

def combinationsFold (op : Operator) (total : Int) : List Expr → List Combination
  | [] => []
  | e :: es =>
    e.combinations ++ ⟨total, op, e.denote⟩ :: combinationsFold op (op.exact total e.denote) es

end

end Expr

/-! ## Computing through combinations -/

/-- The run comes to the first combination that does not fit, and fails with its error, or else to
this value. The machine stays as it is. -/
def Computes (x : Run Value) (value : Int) (cs : List Combination) : Prop :=
  ∀ m, match cs.find? (fun c => ¬c.Fits) with
    | none => ∃ n : Number, n.val = value ∧ x m = .ok (.number n) m
    | some c => ∃ err, c.FailsWith err ∧ x m = .error err m

section

variable {x : Run Value} {f : Value → Run Value} {value value' : Int} {cs cs' : List Combination}
  {op : Operator}

theorem computes_pure (n : Number) : Computes (pure (.number n)) n.val [] :=
  fun _ => ⟨n, rfl, rfl⟩

theorem Computes.bind (hx : Computes x value cs)
    (hf : ∀ n : Number, n.val = value → Computes (f (.number n)) value' cs') :
    Computes (x >>= f) value' (cs ++ cs') := by
  intro m
  have hxm := hx m
  rw [List.find?_append]
  cases hfirst : cs.find? (fun c => ¬c.Fits) with
  | none =>
    rw [hfirst] at hxm
    obtain ⟨n, hn, hxm⟩ := hxm
    rw [Run.bind_of_ok hxm, Option.none_or]
    exact hf n hn m
  | some c =>
    rw [hfirst] at hxm
    obtain ⟨err, hfails, hxm⟩ := hxm
    exact ⟨err, hfails, Run.bind_of_error hxm f⟩

theorem computes_arithmetic (hop : op.isArithmetic) (a b : Number) :
    Computes (Run.ofExcept (Value.arithmetic op (.number a) (.number b)))
      (op.exact a.val b.val) [⟨a.val, op, b.val⟩] := by
  intro m
  by_cases hfits : Combination.Fits ⟨a.val, op, b.val⟩
  · obtain ⟨n, hn, harith⟩ := Value.arithmetic_of_fits hop hfits
    rw [List.find?_cons_of_neg (by simpa using hfits), harith]
    exact ⟨n, hn, rfl⟩
  · obtain ⟨err, hfails, harith⟩ := Value.arithmetic_of_not_fits hop hfits
    rw [List.find?_cons_of_pos (by simpa using hfits), harith]
    exact ⟨err, hfails, rfl⟩

/-- A comparison is a combination that always fits. -/
theorem computes_comparison (hop : op.isArithmetic = false) (a b : Number) :
    Computes (Run.ofExcept (Value.compare op (.number a) (.number b)) >>= fun r =>
      pure (.ofBool r)) (op.exact a.val b.val) [⟨a.val, op, b.val⟩] := by
  intro m
  obtain ⟨r, hcompare, n, hr, hn⟩ := Value.compare_numbers hop a b
  have hrange : Number.InRange (op.exact a.val b.val) := hn ▸ n.inRange
  have hdiv : op ≠ .div := by
    rintro rfl
    cases hop
  have hfits : Combination.Fits ⟨a.val, op, b.val⟩ := ⟨fun h => hdiv h.1, hrange⟩
  rw [List.find?_cons_of_neg (by simpa using hfits), hcompare]
  exact ⟨n, hn, by rw [← hr]; rfl⟩

variable {eval : Expr → Run Value}

theorem computes_fold (hop : op.isArithmetic) {es : List Expr}
    (h : ∀ e ∈ es, Computes (eval e) e.denote e.combinations) (a : Number) :
    Computes (op.fold eval (.number a) es) (Expr.denoteFold op a.val es)
      (Expr.combinationsFold op a.val es) := by
  induction es generalizing a with
  | nil =>
    rw [Expr.denoteFold, Expr.combinationsFold]
    exact computes_pure a
  | cons e es ih =>
    obtain ⟨he, hes⟩ := List.forall_mem_cons.1 h
    rw [Expr.denoteFold, Expr.combinationsFold]
    refine he.bind fun b hb => ?_
    rw [← hb]
    exact (computes_arithmetic hop a b).bind fun c hc => hc ▸ ih hes c

end

theorem Value.isTruthy_number (n : Number) : (Value.number n).isTruthy = true ↔ n.val ≠ 0 := by
  have hzero : Value.number n = .number .zero ↔ n.val = 0 := by
    rw [Value.number.injEq]
    exact ⟨fun h => h ▸ rfl, fun h => Number.ext h⟩
  rw [Value.isTruthy, decide_eq_true_eq, Ne, hzero]

theorem Expr.exists_room_of_height_le {e : Expr} {room : Nat} (h : e.height ≤ room) :
    ∃ r, room = r + 1 ∧ ∀ c ∈ e.children, c.height ≤ r := by
  obtain ⟨hpos, hchildren⟩ := height_le_iff.1 h
  refine ⟨room - 1, by omega, fun c hc => ?_⟩
  have := hchildren c hc
  omega

/-- The evaluation of a constant expression that has levels enough computes what the expression
denotes. Induction on how the expression is built; every operand has one level less. -/
theorem computes_evalWithin {limit room : Nat} {e : Expr} (he : e.Constant)
    (hroom : e.height ≤ room) : Computes (e.evalWithin limit room) e.denote e.combinations := by
  induction he generalizing room with
  | number n =>
    obtain ⟨room, rfl, _⟩ := Expr.exists_room_of_height_le hroom
    exact computes_pure n
  | @arithmetic op first rest hop _ ih =>
    obtain ⟨room, rfl, hchildren⟩ := Expr.exists_room_of_height_le hroom
    have hargs : ∀ e ∈ first :: rest, Computes (e.evalWithin limit room) e.denote e.combinations :=
      fun e he => ih e he (hchildren e he)
    obtain ⟨hfirst, hrest⟩ := List.forall_mem_cons.1 hargs
    rw [Expr.evalWithin, Expr.evalPrim, if_pos hop, Expr.denote, Expr.combinations]
    refine hfirst.bind fun a ha => ?_
    rw [← ha]
    exact computes_fold hop hrest a
  | @comparison op left right hop _ _ ihl ihr =>
    obtain ⟨room, rfl, hchildren⟩ := Expr.exists_room_of_height_le hroom
    simp only [Expr.children, List.forall_mem_cons] at hchildren
    obtain ⟨hleft, hright, _⟩ := hchildren
    rw [Expr.evalWithin, Expr.evalPrim, if_neg (Bool.eq_false_iff.1 hop), Expr.denote,
      Expr.combinations, Expr.denoteFold, Expr.denoteFold, Expr.combinationsFold,
      Expr.combinationsFold]
    refine (ihl hleft).bind fun a ha => (ihr hright).bind fun b hb => ?_
    rw [← ha, ← hb]
    exact computes_comparison hop a b
  | @cond test yes no _ _ _ iht ihy ihn =>
    obtain ⟨room, rfl, hchildren⟩ := Expr.exists_room_of_height_le hroom
    simp only [Expr.children, List.forall_mem_cons] at hchildren
    obtain ⟨htest, hyes, hno, _⟩ := hchildren
    rw [Expr.evalWithin, Expr.denote, Expr.combinations]
    refine (iht htest).bind fun t ht => ?_
    rw [← ht]
    by_cases hzero : t.val = 0
    · rw [if_pos hzero, if_pos hzero, if_neg fun h => (Value.isTruthy_number t).1 h hzero]
      exact ihn hno
    · rw [if_neg hzero, if_neg hzero, if_pos ((Value.isTruthy_number t).2 hzero)]
      exact ihy hyes

/-- A constant expression that nests no deeper than the limit allows is computed exactly, and
nothing but its outcome is changed. The outcome is the number that the expression denotes on the
integers, if every combination on the way fits; otherwise it is the error of the first one that
does not. -/
theorem eval_constant_exact (limit depth : Nat) (e : Expr) (he : e.Constant)
    (hdepth : depth + e.height ≤ limit) (m : Machine) :
    (∀ v m', e.eval limit depth m = .ok v m' ↔
      m' = m ∧ (∀ c ∈ e.combinations, c.Fits) ∧ ∃ n : Number, v = .number n ∧ n.val = e.denote) ∧
    ∀ err m', e.eval limit depth m = .error err m' ↔
      m' = m ∧ ∃ c, e.combinations.find? (fun c => ¬c.Fits) = some c ∧ c.FailsWith err := by
  have hcomputes : Computes (e.eval limit depth) e.denote e.combinations :=
    computes_evalWithin he (by omega)
  have hend := hcomputes m
  have hall : (∀ c ∈ e.combinations, c.Fits) ↔
      e.combinations.find? (fun c => ¬c.Fits) = none := by simp
  rw [hall]
  cases hfirst : e.combinations.find? (fun c => ¬c.Fits) with
  | none =>
    rw [hfirst] at hend
    obtain ⟨n, hn, hend⟩ := hend
    rw [hend]
    refine ⟨fun v m' => ⟨?_, ?_⟩, fun err m' => ⟨nofun, nofun⟩⟩
    · intro h
      cases h
      exact ⟨rfl, rfl, n, rfl, hn⟩
    · rintro ⟨rfl, _, n', rfl, hn'⟩
      rw [Number.ext (hn.trans hn'.symm)]
  | some c =>
    rw [hfirst] at hend
    obtain ⟨err, hfails, hend⟩ := hend
    rw [hend]
    refine ⟨fun v m' => ⟨nofun, nofun⟩, fun err' m' => ⟨?_, ?_⟩⟩
    · intro h
      cases h
      exact ⟨rfl, c, rfl, hfails⟩
    · rintro ⟨rfl, c', hc', hfails'⟩
      cases hc'
      rw [hfails.unique hfails']

/-- In `(+ (if (< 1 0) (/ 1 0) 9223372036854775807) 1 -1)` only the second sum is too large,
although the whole one is not. -/
theorem eval_constant_exact_overflow :
    let largest : Number := ⟨9223372036854775807, by decide⟩
    let choice : Expr := .cond (.prim .lt [.number .one, .number .zero])
      (.prim .div [.number .one, .number .zero]) (.number largest)
    let e : Expr := .prim .add [choice, .number .one, .number ⟨-1, by decide⟩]
    let m : Machine := ⟨.global, .unbounded⟩
    e.Constant ∧ 0 + e.height ≤ 4 ∧ e.denote = largest.val ∧
      e.eval 4 0 m = .error (.failure (.overflow largest .add .one)) m := by
  intro largest choice e m
  have hpair (a b : Number) : ∀ e ∈ [Expr.number a, .number b], e.Constant :=
    List.forall_mem_cons.2 ⟨.number a, List.forall_mem_singleton.2 (.number b)⟩
  have hchoice : choice.Constant :=
    .cond (.comparison rfl (.number _) (.number _)) (.arithmetic rfl (hpair _ _)) (.number _)
  have he : e.Constant := .arithmetic rfl (List.forall_mem_cons.2 ⟨hchoice, hpair _ _⟩)
  have hdepth : 0 + e.height ≤ 4 := by decide
  refine ⟨he, hdepth, by decide, ((eval_constant_exact 4 0 e he hdepth m).2 _ _).2 ⟨rfl, ?_⟩⟩
  exact ⟨⟨largest.val, .add, 1⟩, by decide, .overflow rfl rfl (by decide) (by decide)⟩

end PrefixLisp
