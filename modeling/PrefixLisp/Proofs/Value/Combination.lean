import PrefixLisp.Value.Arithmetic

/-
  Operators on the integers without bounds.

  `Operator.exact` is the mathematical value of an operator, and a `Combination` is an operator
  between two integers. It `Fits` if it divides by no zero and its value is in range; otherwise
  there is just one error that it fails with (`Combination.FailsWith.unique`).

  Arithmetic on two numbers is the exact value of their combination if that fits, and its error if
  not (`Value.arithmetic_of_fits`, `Value.arithmetic_of_not_fits`). A comparison of two numbers
  never fails (`Value.compare_numbers`).
-/

namespace PrefixLisp

/-- The value of an operator. Division truncates toward zero, and a comparison that holds is 1. -/
def Operator.exact : Operator → Int → Int → Int
  | .add, a, b => a + b
  | .sub, a, b => a - b
  | .mul, a, b => a * b
  | .div, a, b => a.tdiv b
  | .gt, a, b => if b < a then 1 else 0
  | .lt, a, b => if a < b then 1 else 0
  | .ge, a, b => if b ≤ a then 1 else 0
  | .le, a, b => if a ≤ b then 1 else 0
  | .eq, a, b => if a = b then 1 else 0
  | .ne, a, b => if a = b then 0 else 1

/-- An operator between two integers, in range or not. -/
structure Combination where
  left : Int
  op : Operator
  right : Int
deriving DecidableEq

namespace Combination

def value (c : Combination) : Int :=
  c.op.exact c.left c.right

structure Fits (c : Combination) : Prop where
  divisor : ¬(c.op = .div ∧ c.right = 0)
  inRange : Number.InRange c.value

theorem fits_iff {c : Combination} :
    c.Fits ↔ ¬(c.op = .div ∧ c.right = 0) ∧ Number.InRange c.value :=
  ⟨fun h => ⟨h.divisor, h.inRange⟩, fun h => ⟨h.1, h.2⟩⟩

instance : DecidablePred Fits :=
  fun _ => decidable_of_iff _ fits_iff.symm

/-- The error of a combination that does not fit. Overflow is reported with both operands, which
are in range themselves. -/
inductive FailsWith (c : Combination) : EvalError → Prop where
  | divisionByZero (hop : c.op = .div) (hzero : c.right = 0) :
      FailsWith c (.failure .divisionByZero)
  | overflow {a b : Number} (ha : a.val = c.left) (hb : b.val = c.right)
      (hdivisor : ¬(c.op = .div ∧ c.right = 0)) (hrange : ¬Number.InRange c.value) :
      FailsWith c (.failure (.overflow a c.op b))

theorem FailsWith.not_fits {c : Combination} {err : EvalError} (h : c.FailsWith err) :
    ¬c.Fits := by
  intro hfits
  cases h with
  | divisionByZero hop hzero => exact hfits.divisor ⟨hop, hzero⟩
  | overflow _ _ _ hrange => exact hrange hfits.inRange

theorem FailsWith.unique {c : Combination} {err err' : EvalError} (h : c.FailsWith err)
    (h' : c.FailsWith err') : err = err' := by
  cases h with
  | divisionByZero hop hzero =>
    cases h' with
    | divisionByZero => rfl
    | overflow _ _ hdivisor => exact absurd ⟨hop, hzero⟩ hdivisor
  | overflow ha hb hdivisor =>
    cases h' with
    | divisionByZero hop hzero => exact absurd ⟨hop, hzero⟩ hdivisor
    | overflow ha' hb' =>
      rw [Number.ext (ha.trans ha'.symm), Number.ext (hb.trans hb'.symm)]

end Combination

namespace Value

variable {op : Operator} {a b : Number}

theorem exactly?_eq_exact (hop : op.isArithmetic) (a b : Int) :
    exactly? op a b = some (op.exact a b) := by
  cases op <;> first | rfl | cases hop

/-- Arithmetic on two numbers: first the divisor is looked at, then the range of the value. -/
theorem arithmetic_numbers (hop : op.isArithmetic) (a b : Number) :
    arithmetic op (.number a) (.number b) =
      if op = .div ∧ b.val = 0 then .error (.failure .divisionByZero)
      else match Number.ofInt? (op.exact a.val b.val) with
        | none => .error (.failure (.overflow a op b))
        | some n => .ok (.number n) := by
  have hzero : b = .zero ↔ b.val = 0 := ⟨fun h => h ▸ rfl, fun h => Number.ext h⟩
  by_cases hdiv : op = .div ∧ b.val = 0
  · obtain ⟨rfl, rfl⟩ : op = .div ∧ b = .zero := ⟨hdiv.1, hzero.2 hdiv.2⟩
    rfl
  · have hdiv' : ¬(op = .div ∧ b = .zero) := fun h => hdiv ⟨h.1, hzero.1 h.2⟩
    rw [if_neg hdiv]
    simp only [arithmetic, numbers, exactly?_eq_exact hop, bind, Except.bind, if_neg hdiv']
    cases Number.ofInt? (op.exact a.val b.val) <;> rfl

theorem arithmetic_of_fits (hop : op.isArithmetic) (h : Combination.Fits ⟨a.val, op, b.val⟩) :
    ∃ n : Number, n.val = op.exact a.val b.val ∧
      arithmetic op (.number a) (.number b) = .ok (.number n) := by
  have hn : Number.ofInt? (op.exact a.val b.val) = some ⟨_, h.inRange⟩ :=
    Number.ofInt?_val ⟨_, h.inRange⟩
  refine ⟨⟨_, h.inRange⟩, rfl, ?_⟩
  rw [arithmetic_numbers hop, if_neg h.divisor, hn]

theorem arithmetic_of_not_fits (hop : op.isArithmetic)
    (h : ¬Combination.Fits ⟨a.val, op, b.val⟩) :
    ∃ err, Combination.FailsWith ⟨a.val, op, b.val⟩ err ∧
      arithmetic op (.number a) (.number b) = .error err := by
  rw [arithmetic_numbers hop]
  by_cases hdiv : op = .div ∧ b.val = 0
  · exact ⟨_, .divisionByZero hdiv.1 hdiv.2, if_pos hdiv⟩
  · have hrange : ¬Number.InRange (op.exact a.val b.val) := fun hr => h ⟨hdiv, hr⟩
    refine ⟨_, .overflow rfl rfl hdiv hrange, ?_⟩
    rw [if_neg hdiv, Number.ofInt?_eq_none_iff.2 hrange]

/-- A number goes with nothing else. -/
theorem arithmetic_notNumber {v : Value} (hv : v.kind ≠ .number) (op : Operator) (a : Number) :
    arithmetic op (.number a) v = .error (.mismatch (.notNumbers op .number v.kind)) := by
  cases v with
  | number b => exact absurd rfl hv
  | _ => rfl

/-- Comparisons of two numbers are 1 or 0, as they hold or not. -/
theorem compare_numbers (hop : op.isArithmetic = false) (a b : Number) :
    ∃ r : Bool, compare op (.number a) (.number b) = .ok r ∧
      ∃ n : Number, ofBool r = .number n ∧ n.val = op.exact a.val b.val := by
  have hofBool (c : Prop) [Decidable c] :
      ∃ n : Number, ofBool (decide c) = .number n ∧ n.val = if c then 1 else 0 := by
    by_cases h : c
    · exact ⟨.one, by rw [decide_eq_true h]; rfl, (if_pos h).symm⟩
    · exact ⟨.zero, by rw [decide_eq_false h]; rfl, (if_neg h).symm⟩
  have heq : a = b ↔ a.val = b.val := ⟨fun h => h ▸ rfl, Number.ext⟩
  cases op with
  | add | sub | mul | div => cases hop
  | gt | lt | ge | le => exact ⟨_, rfl, hofBool _⟩
  | eq =>
    obtain ⟨n, hn, hval⟩ := hofBool (a = b)
    exact ⟨_, by rw [compare, equals], n, hn, by simp only [hval, heq, Operator.exact]⟩
  | ne =>
    obtain ⟨n, hn, hval⟩ := hofBool (¬a = b)
    refine ⟨decide (¬a = b), ?_, n, hn, by simp only [hval, heq, Operator.exact, ite_not]⟩
    rw [compare, equals, decide_not]
    rfl

end Value

end PrefixLisp
