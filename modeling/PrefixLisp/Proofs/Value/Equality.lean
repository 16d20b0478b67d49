import PrefixLisp.Proofs.Value.Occurrence
import PrefixLisp.Value.Arithmetic

/-
  Equality as programs see it, and sameness.

  `Value.equals` refuses functions and values of two kinds. It goes through lists from the left and
  stops at the first pair of items that differs or is refused, so the order of the items decides
  whether there is an answer at all. But if there is one, it is the one that `Value.beq` gives
  (`eq_iff_of_equals`), and comparing the other way round gives the same answer, or a refusal too
  (`mirrored_equals`).

  A value is equal to itself just if no function occurs in it (`equals_self_iff`). So equality is
  symmetric and transitive wherever it is defined (`equals_coherent`).
-/

namespace PrefixLisp.Value

/-- What comparing two values in one order and in the other gives: one answer, or two refusals that
name the two kinds in either order. -/
inductive Mirrored : Except EvalError Bool → Except EvalError Bool → Prop where
  | ok (r : Bool) : Mirrored (.ok r) (.ok r)
  | incomparable (left right : Kind) :
      Mirrored (.error (.mismatch (.incomparable left right)))
        (.error (.mismatch (.incomparable right left)))

theorem Mirrored.ok_iff {x y : Except EvalError Bool} (h : Mirrored x y) (r : Bool) :
    x = .ok r ↔ y = .ok r := by
  cases h with
  | ok s => exact Iff.rfl
  | incomparable left right => exact ⟨nofun, nofun⟩

theorem mirrored_decide {α : Type} [DecidableEq α] (a b : α) :
    Mirrored (.ok (decide (a = b))) (.ok (decide (b = a))) := by
  rw [show decide (b = a) = decide (a = b) from decide_eq_decide.2 eq_comm]
  exact .ok _

/-! ## Lists -/

section

variable {x y : Value} {xs ys : List Value}

theorem equalsAll_cons_of_equal (h : x.equals y = .ok true) (xs ys : List Value) :
    equalsAll (x :: xs) (y :: ys) = equalsAll xs ys := by
  rw [equalsAll, h]

/-- A pair that is not equal decides. -/
theorem equalsAll_cons_of_not_equal (h : x.equals y ≠ .ok true) (xs ys : List Value) :
    equalsAll (x :: xs) (y :: ys) = x.equals y := by
  rw [equalsAll]
  split
  · contradiction
  · rfl

theorem mirrored_equalsAll (h : ∀ x ∈ xs, ∀ y, Mirrored (x.equals y) (y.equals x)) :
    Mirrored (equalsAll xs ys) (equalsAll ys xs) := by
  induction xs generalizing ys with
  | nil => cases ys <;> exact .ok true
  | cons x xs ih =>
    cases ys with
    | nil => exact .ok true
    | cons y ys =>
      obtain ⟨hx, hxs⟩ := List.forall_mem_cons.1 h
      have hpair := hx y
      by_cases heq : x.equals y = .ok true
      · rw [equalsAll_cons_of_equal heq, equalsAll_cons_of_equal ((hpair.ok_iff true).1 heq)]
        exact ih hxs
      · have hne : y.equals x ≠ .ok true := mt (hpair.ok_iff true).2 heq
        rw [equalsAll_cons_of_not_equal heq, equalsAll_cons_of_not_equal hne]
        exact hpair

theorem eq_iff_of_equalsAll (h : ∀ x ∈ xs, ∀ {y r}, x.equals y = .ok r → (r = true ↔ x = y))
    (hlength : xs.length = ys.length) {r : Bool} (hall : equalsAll xs ys = .ok r) :
    r = true ↔ xs = ys := by
  induction xs generalizing ys with
  | nil =>
    obtain rfl := List.length_eq_zero_iff.1 hlength.symm
    cases hall
    exact ⟨fun _ => rfl, fun _ => rfl⟩
  | cons x xs ih =>
    cases ys with
    | nil => cases hlength
    | cons y ys =>
      obtain ⟨hx, hxs⟩ := List.forall_mem_cons.1 h
      rw [List.cons.injEq]
      by_cases heq : x.equals y = .ok true
      · rw [equalsAll_cons_of_equal heq] at hall
        have hxy : x = y := (hx heq).1 rfl
        rw [ih hxs (Nat.succ.inj hlength) hall]
        exact (and_iff_right hxy).symm
      · rw [equalsAll_cons_of_not_equal heq] at hall
        have hr : r ≠ true := fun hr => heq (hr ▸ hall)
        have hxy : x ≠ y := mt (hx hall).2 hr
        exact iff_of_false hr fun hcons => hxy hcons.1

theorem equalsAll_self_iff (xs : List Value) :
    equalsAll xs xs = .ok true ↔ ∀ x ∈ xs, x.equals x = .ok true := by
  induction xs with
  | nil => exact iff_of_true rfl (List.forall_mem_nil _)
  | cons x xs ih =>
    rw [List.forall_mem_cons]
    by_cases heq : x.equals x = .ok true
    · rw [equalsAll_cons_of_equal heq, ih]
      exact (and_iff_right heq).symm
    · rw [equalsAll_cons_of_not_equal heq]
      exact iff_of_false heq fun hcons => heq hcons.1

end

/-! ## Values -/

theorem equals_list (xs ys : List Value) :
    (list xs).equals (list ys) = if xs.length = ys.length then equalsAll xs ys else .ok false := by
  rw [equals]

/-- The order in which two values are compared plays no part, but in the wording of a refusal. -/
theorem mirrored_equals (a b : Value) : Mirrored (a.equals b) (b.equals a) := by
  induction a using inductionOnItems generalizing b with
  | number n =>
    cases b with
    | number m => exact mirrored_decide n m
    | _ => exact .incomparable _ _
  | string s =>
    cases b with
    | string t => exact mirrored_decide s t
    | _ => exact .incomparable _ _
  | list xs ih =>
    cases b with
    | list ys =>
      rw [equals_list, equals_list]
      by_cases hlength : xs.length = ys.length
      · rw [if_pos hlength, if_pos hlength.symm]
        exact mirrored_equalsAll ih
      · rw [if_neg hlength, if_neg (Ne.symm hlength)]
        exact .ok false
    | _ => exact .incomparable _ _
  | function identity d => cases b <;> exact .incomparable _ _
  | nil =>
    cases b with
    | nil => exact .ok true
    | _ => exact .incomparable _ _

/-- An answer is the right one. -/
theorem eq_iff_of_equals {a b : Value} {r : Bool} (h : a.equals b = .ok r) : r = true ↔ a = b := by
  induction a using inductionOnItems generalizing b r with
  | number n =>
    cases b <;> cases h
    rw [decide_eq_true_iff, number.injEq]
  | string s =>
    cases b <;> cases h
    rw [decide_eq_true_iff, string.injEq]
  | list xs ih =>
    cases b with
    | list ys =>
      rw [equals_list] at h
      rw [list.injEq]
      by_cases hlength : xs.length = ys.length
      · rw [if_pos hlength] at h
        exact eq_iff_of_equalsAll (fun x hx _ _ => ih x hx) hlength h
      · rw [if_neg hlength] at h
        cases h
        exact iff_of_false Bool.false_ne_true fun heq => hlength (congrArg List.length heq)
    | _ => cases h
  | function identity d => cases b <;> cases h
  | nil =>
    cases b <;> cases h
    exact iff_of_true rfl rfl

theorem equals_self_iff (a : Value) : a.equals a = .ok true ↔ a.FunctionFree := by
  induction a using inductionOnItems with
  | number n => exact iff_of_true (congrArg Except.ok (decide_eq_true rfl)) nofun
  | string s => exact iff_of_true (congrArg Except.ok (decide_eq_true rfl)) nofun
  | list xs ih =>
    rw [equals_list, if_pos rfl, equalsAll_self_iff, functionFree_list_iff]
    exact forall₂_congr ih
  | function identity d => exact iff_of_false nofun (not_functionFree_function identity d)
  | nil => exact iff_of_true rfl nofun

theorem equals_eq_ok_true_iff {a b : Value} :
    a.equals b = .ok true ↔ a = b ∧ a.FunctionFree := by
  constructor
  · intro h
    obtain rfl := (eq_iff_of_equals h).1 rfl
    exact ⟨rfl, (equals_self_iff a).1 h⟩
  · rintro ⟨rfl, hfree⟩
    exact (equals_self_iff a).2 hfree

/-- Equality as programs see it goes together with sameness. An answer is the one that sameness
gives. Two values are found equal just if they are the same and no function occurs in them. Either
order of the two gives the same answer, or both are refused. Values found equal to one value are
found equal to each other. The operator `!=` gives the opposite of `==`, and fails as it does. -/
theorem equals_coherent (a b c : Value) :
    (∀ r, a.equals b = .ok r → r = a.beq b) ∧
    (a.equals b = .ok true ↔ a.beq b = true ∧ ∀ identity d, ¬Occurs (.function identity d) a) ∧
    Mirrored (a.equals b) (b.equals a) ∧
    (a.equals b = .ok true → b.equals a = .ok true) ∧
    (a.equals b = .ok true → b.equals c = .ok true → a.equals c = .ok true) ∧
    (∀ r, compare .ne a b = .ok (!r) ↔ compare .eq a b = .ok r) ∧
    ∀ e, compare .ne a b = .error e ↔ compare .eq a b = .error e := by
  have hmirrored := mirrored_equals a b
  refine ⟨fun r h => ?_, ?_, hmirrored, (hmirrored.ok_iff true).1, fun hab hbc => ?_,
    fun r => ?_, fun e => ?_⟩
  · rw [Bool.eq_iff_iff, beq_iff_eq]
    exact eq_iff_of_equals h
  · rw [beq_iff_eq]
    exact equals_eq_ok_true_iff
  · obtain ⟨rfl, _⟩ := equals_eq_ok_true_iff.1 hab
    exact hbc
  · show (!·) <$> a.equals b = .ok (!r) ↔ a.equals b = .ok r
    cases a.equals b with
    | ok s =>
      show Except.ok (!s) = Except.ok (!r) ↔ _
      rw [Except.ok.injEq, Except.ok.injEq, Bool.not_inj_iff]
    | error e => exact ⟨nofun, nofun⟩
  · show (!·) <$> a.equals b = .error e ↔ a.equals b = .error e
    cases a.equals b with
    | ok s => exact ⟨nofun, nofun⟩
    | error e' => exact Iff.rfl

/-- Which items come first decides whether there is an answer. -/
example (d : Definition) :
    (list [.number .one, .function 0 d]).equals (list [.number .zero, .function 0 d]) = .ok false ∧
    (list [.function 0 d, .number .one]).equals (list [.function 0 d, .number .zero]) =
      .error (.mismatch (.incomparable .function .function)) :=
  ⟨rfl, rfl⟩

end PrefixLisp.Value
