import PrefixLisp.Value.Error

/-
  Reports that are there for what no source text leads to.

  A run can be given trees that the reader never makes, and a host program can bring values and
  reports of its own. Evaluation has errors for such cases. `EvalError.Defensive` lists them, and no
  other error is worded like one of their failures (`EvalError.message_ne`).

  The report of the depth limit is one that only the limit itself leads to. An `Ordinary` report is
  neither defensive nor this one; and no report but that of a host program is worded like it
  (`EvalError.message_ne_depthExceeded`).
-/

namespace PrefixLisp

theorem Operator.symbol_injective : Function.Injective Operator.symbol := by
  intro a b
  cases a <;> cases b <;> decide

namespace EvalError

/-- Failures of operators that are used for what they are not, and of a program with nothing in
it. -/
inductive Failure.Defensive : Failure → Prop where
  | emptyProgram : Defensive .emptyProgram
  | notArithmetic (op : Operator) : Defensive (.notArithmetic op)
  | notComparison (op : Operator) : Defensive (.notComparison op)

/-- These failures, operands that an arithmetic operator does not take, and what a host program
words. -/
inductive Defensive : EvalError → Prop where
  | operands {callee : String} {expected : Arity} {given : Nat} {op : Operator}
      (hop : op.isArithmetic) (h : callee = op.symbol) : Defensive (.arity callee expected given)
  | failure {f : Failure} (hf : f.Defensive) : Defensive (.failure f)
  | wordedFailure (text : String) : Defensive (.failure (.worded text))
  | wordedMismatch (text : String) : Defensive (.mismatch (.worded text))

/-- What the rules of evaluation, the operators and the builtins report by themselves: nothing
defensive, and not that the depth limit is exceeded. -/
structure Ordinary (e : EvalError) : Prop where
  not_defensive : ¬e.Defensive
  not_depthExceeded : ∀ limit, e ≠ .failure (.depthExceeded limit)

/-- A report about the operands of a comparison is not one about arithmetic. -/
theorem not_defensive_comparison {op : Operator} (hop : op.isArithmetic = false)
    (expected : Arity) (given : Nat) : ¬Defensive (.arity op.symbol expected given) := by
  rintro ⟨hop', h⟩
  rw [← Operator.symbol_injective h, hop] at hop'
  cases hop'

/-! ## Wording -/

theorem head?_toList_append {s : String} {c : Char} (h : s.toList.head? = some c) (t : String) :
    (s ++ t).toList.head? = some c := by
  rw [String.toList_append, List.head?_append, h]
  rfl

/-- The first character of the text. What is reported stands further behind. -/
def Failure.initial? : Failure → Option Char
  | divisionByZero => some 'd'
  | overflow _ _ _ | indexOutOfBounds _ _ => some 'i'
  | notArithmetic _ | notComparison _ => some '\''
  | headOfEmpty => some 'h'
  | listTooLong => some 'l'
  | depthExceeded _ => some 'E'
  | outputFull => some 'f'
  | emptyProgram => some 'c'
  | worded text => text.toList.head?

theorem Failure.head?_text (f : Failure) : f.text.toList.head? = f.initial? := by
  cases f with
  | overflow =>
    iterate 5 refine head?_toList_append ?_ _
    rfl
  | indexOutOfBounds =>
    iterate 3 refine head?_toList_append ?_ _
    rfl
  | notArithmetic | notComparison | depthExceeded =>
    iterate 2 refine head?_toList_append ?_ _
    rfl
  | _ => rfl

/-- A message tells whether it is that of a failure, and then how the failure's text begins. -/
theorem exists_failure_of_message_eq {e : EvalError} {f : Failure}
    (h : e.message = (EvalError.failure f).message) :
    ∃ g, e = .failure g ∧ g.initial? = f.initial? := by
  have hhead : e.message.toList.head? = some 'E' := by
    rw [h]
    exact head?_toList_append rfl f.text
  cases e with
  | unbound name =>
    have hother : (unbound name).message.toList.head? = some 'S' := by
      iterate 2 refine head?_toList_append ?_ _
      rfl
    exact absurd (hother.symm.trans hhead) (by decide)
  | arity callee expected given =>
    have hother : (arity callee expected given).message.toList.head? = some 'I' := by
      iterate 5 refine head?_toList_append ?_ _
      rfl
    exact absurd (hother.symm.trans hhead) (by decide)
  | mismatch m =>
    have hother : (mismatch m).message.toList.head? = some 'T' := head?_toList_append rfl m.text
    exact absurd (hother.symm.trans hhead) (by decide)
  | failure g =>
    have hlist := congrArg String.toList h
    unfold message at hlist
    rw [String.toList_append, String.toList_append] at hlist
    refine ⟨g, rfl, ?_⟩
    rw [← Failure.head?_text, ← Failure.head?_text, List.append_cancel_left hlist]

/-- Whether a character is a letter, but not the first one of the text for an empty program. -/
def opensOther (c : Char) : Bool :=
  c.isAlpha && c ≠ 'c'

theorem Failure.opensOther_initial? {f : Failure} (h : ¬EvalError.Defensive (.failure f)) :
    f.initial?.any opensOther := by
  cases f with
  | emptyProgram => exact absurd (.failure .emptyProgram) h
  | notArithmetic op => exact absurd (.failure (.notArithmetic op)) h
  | notComparison op => exact absurd (.failure (.notComparison op)) h
  | worded text => exact absurd (.wordedFailure text) h
  | _ => rfl

theorem Failure.Defensive.not_opensOther_initial? {f : Failure} (h : f.Defensive) :
    ¬f.initial?.any opensOther := by
  cases h <;> exact Bool.false_ne_true

/-- Errors that are not defensive have other messages than defensive failures. -/
theorem message_ne {e : EvalError} (h : ¬e.Defensive) {f : Failure} (hf : f.Defensive) :
    e.message ≠ (EvalError.failure f).message := by
  intro heq
  obtain ⟨g, rfl, hinitial⟩ := exists_failure_of_message_eq heq
  have hopens := Failure.opensOther_initial? h
  rw [hinitial] at hopens
  exact hf.not_opensOther_initial? hopens

/-- Nothing else is worded like a report of the depth limit, unless a host program words it. -/
theorem message_ne_depthExceeded {e : EvalError}
    (hdepth : ∀ limit, e ≠ .failure (.depthExceeded limit))
    (hworded : ∀ text, e ≠ .failure (.worded text)) (limit : Nat) :
    e.message ≠ (EvalError.failure (.depthExceeded limit)).message := by
  intro heq
  obtain ⟨g, rfl, hinitial⟩ := exists_failure_of_message_eq heq
  cases g with
  | depthExceeded limit' => exact hdepth limit' rfl
  | worded text => exact hworded text rfl
  | _ => simp [Failure.initial?] at hinitial

end EvalError

end PrefixLisp
