import Mathlib.Data.List.Forall2
import PrefixLisp.Builtin.Call
import PrefixLisp.Proofs.Value.Defensive
import PrefixLisp.Proofs.Value.Occurrence
import PrefixLisp.Value.Arithmetic

/-
  Values of one shape.

  `Alike S F v w` says that two values have the same shape, numbers and strings, where all strings
  are of `S`, and that their functions are related by `F`, place by place. The operators and the
  builtins pass strings and functions on but never look into them. So on values that are alike they
  end alike (`SameEnd`): in values that are alike, or both in the same error, which is an `Ordinary`
  one if the operator is used for what it is (`Alike.arithmetic`, `Alike.compare`,
  `Builtin.call_alike`).

  If `F` relates a definition to itself only, then so is a value alike to itself only
  (`alike_iff_eq`): the operators keep whatever holds of all strings and functions in a value.
-/

namespace PrefixLisp

section

variable {α β : Type} {vs : List α}

/-- Lists related place by place, where only what is of `P` is related, and to itself only. -/
theorem forall₂_iff_eq {R : α → α → Prop} {P : α → Prop} {ws : List α}
    (h : ∀ v ∈ vs, ∀ {w}, R v w ↔ v = w ∧ P v) :
    List.Forall₂ R vs ws ↔ vs = ws ∧ ∀ v ∈ vs, P v := by
  induction vs generalizing ws with
  | nil => simp [eq_comm]
  | cons v vs ih =>
    obtain ⟨hv, hvs⟩ := List.forall_mem_cons.1 h
    cases ws with
    | nil => simp
    | cons w ws =>
      rw [List.forall₂_cons, hv, ih hvs, List.forall_mem_cons, List.cons.injEq]
      exact and_and_and_comm

/-- Lists related place by place, where the image under `f` is what is related. -/
theorem forall₂_iff_eq_map {R : α → β → Prop} {f : α → β} {ws : List β}
    (h : ∀ v ∈ vs, ∀ {w}, R v w ↔ w = f v) : List.Forall₂ R vs ws ↔ ws = vs.map f := by
  induction vs generalizing ws with
  | nil => simp
  | cons v vs ih =>
    obtain ⟨hv, hvs⟩ := List.forall_mem_cons.1 h
    cases ws with
    | nil => simp
    | cons w ws => rw [List.forall₂_cons, hv, ih hvs, List.map_cons, List.cons.injEq]

end

/-- Both end in related values, or both in the same error, which is an ordinary one. -/
inductive SameEnd {α β : Type} (A : α → β → Prop) :
    Except EvalError α → Except EvalError β → Prop where
  | ok {a : α} {b : β} (h : A a b) : SameEnd A (.ok a) (.ok b)
  | error {e : EvalError} (h : e.Ordinary) : SameEnd A (.error e) (.error e)

theorem SameEnd.bind {α β γ δ : Type} {A : α → β → Prop} {B : γ → δ → Prop}
    {r : Except EvalError α} {q : Except EvalError β} {f : α → Except EvalError γ}
    {g : β → Except EvalError δ} (h : SameEnd A r q)
    (hfg : ∀ a b, A a b → SameEnd B (f a) (g b)) : SameEnd B (r >>= f) (q >>= g) := by
  cases h with
  | ok h => exact hfg _ _ h
  | error h => exact .error h

theorem SameEnd.map {α γ : Type} {r q : Except EvalError α} (h : SameEnd Eq r q) (f : α → γ) :
    SameEnd Eq (f <$> r) (f <$> q) := by
  cases h with
  | ok h => exact .ok (congrArg f h)
  | error h => exact .error h

namespace Value

/-- The same shape, numbers and strings, the strings of `S`, and functions that `F` relates. -/
inductive Alike (S : String → Prop) (F : Definition → Definition → Prop) :
    Value → Value → Prop where
  | number (n : Number) : Alike S F (.number n) (.number n)
  | string {s : String} (hs : S s) : Alike S F (.string s) (.string s)
  | list {vs ws : List Value} (h : List.Forall₂ (Alike S F) vs ws) : Alike S F (.list vs) (.list ws)
  | function (identity : Nat) {d e : Definition} (h : F d e) :
      Alike S F (.function identity d) (.function identity e)
  | nil : Alike S F .nil .nil

variable {S : String → Prop} {F : Definition → Definition → Prop}

/-- A relation of definitions to themselves makes values alike to themselves. -/
theorem alike_iff_eq {G : Definition → Prop} {v w : Value} :
    Alike S (fun d e => d = e ∧ G d) v w ↔ v = w ∧ v.Leaves S G := by
  induction v using inductionOnItems generalizing w with
  | number n =>
    constructor
    · rintro ⟨⟩
      exact ⟨rfl, leaves_number n⟩
    · rintro ⟨rfl, _⟩
      exact .number n
  | string s =>
    constructor
    · rintro ⟨⟩
      exact ⟨rfl, leaves_string_iff.2 ‹_›⟩
    · rintro ⟨rfl, h⟩
      exact .string (leaves_string_iff.1 h)
  | list vs ih =>
    have hitems {ws : List Value} : List.Forall₂ _ vs ws ↔ vs = ws ∧ ∀ v ∈ vs, v.Leaves S G :=
      forall₂_iff_eq ih
    constructor
    · rintro ⟨⟩
      obtain ⟨rfl, h⟩ := hitems.1 ‹_›
      exact ⟨rfl, leaves_list_iff.2 h⟩
    · rintro ⟨rfl, h⟩
      exact .list (hitems.2 ⟨rfl, leaves_list_iff.1 h⟩)
  | function identity d =>
    constructor
    · rintro ⟨⟩
      rename_i h
      exact ⟨by rw [h.1], leaves_function_iff.2 h.2⟩
    · rintro ⟨rfl, h⟩
      exact .function identity ⟨rfl, leaves_function_iff.1 h⟩
  | nil =>
    constructor
    · rintro ⟨⟩
      exact ⟨rfl, leaves_nil⟩
    · rintro ⟨rfl, _⟩
      exact .nil

/-! ## Operators -/

namespace Alike

variable {v w v' w' : Value}

theorem kind_eq (h : Alike S F v w) : v.kind = w.kind := by
  cases h <;> rfl

theorem isTruthy_eq (h : Alike S F v w) : v.isTruthy = w.isTruthy := by
  cases h <;> rfl

theorem numbers (op : Operator) (h : Alike S F v w) (h' : Alike S F v' w') :
    SameEnd Eq (numbers op v v') (numbers op w w') := by
  cases h <;> cases h'
  case number.number => exact .ok rfl
  all_goals exact .error ⟨nofun, nofun⟩

theorem exactly?_ne_none {op : Operator} (hop : op.isArithmetic) (a b : Int) :
    exactly? op a b ≠ none := by
  cases op <;> first | exact Option.some_ne_none _ | cases hop

theorem arithmetic {op : Operator} (hop : op.isArithmetic) (h : Alike S F v w)
    (h' : Alike S F v' w') : SameEnd (Alike S F) (arithmetic op v v') (arithmetic op w w') := by
  refine (h.numbers op h').bind ?_
  rintro ⟨a, b⟩ _ rfl
  dsimp only
  split
  · exact .error ⟨nofun, nofun⟩
  · cases hexact : exactly? op a.val b.val with
    | none => exact absurd hexact (exactly?_ne_none hop _ _)
    | some n =>
      dsimp only
      cases Number.ofInt? n with
      | none => exact .error ⟨nofun, nofun⟩
      | some c => exact .ok (.number c)

/-- Two lists are compared alike if their items are. -/
theorem equalsAll {vs ws vs' ws' : List Value}
    (hequals : ∀ v ∈ vs, ∀ {w v' w'}, Alike S F v w → Alike S F v' w' →
      SameEnd Eq (v.equals v') (w.equals w'))
    (hs : List.Forall₂ (Alike S F) vs ws) (hs' : List.Forall₂ (Alike S F) vs' ws') :
    SameEnd Eq (equalsAll vs vs') (equalsAll ws ws') := by
  induction hs generalizing vs' ws' with
  | nil => cases hs' <;> exact .ok rfl
  | @cons v w _ _ hv _ ih =>
    cases hs' with
    | nil => exact .ok rfl
    | @cons v' w' _ _ hv' hvs' =>
      obtain ⟨hequals, hrest⟩ := List.forall_mem_cons.1 hequals
      have hfirst := hequals hv hv'
      have hrest := ih hrest hvs'
      rw [Value.equalsAll, Value.equalsAll]
      generalize v.equals v' = r at hfirst ⊢
      generalize w.equals w' = q at hfirst ⊢
      cases hfirst with
      | error he => exact .error he
      | ok heq =>
        subst heq
        split
        · exact hrest
        · exact .ok rfl

theorem equals (h : Alike S F v w) (h' : Alike S F v' w') :
    SameEnd Eq (v.equals v') (w.equals w') := by
  induction v using inductionOnItems generalizing w v' w' with
  | list vs ih =>
    cases h
    rename_i hs
    cases h'
    case list vs' ws' hs' =>
      rw [Value.equals, Value.equals, hs.length_eq, hs'.length_eq]
      split
      · exact equalsAll (fun v hv => ih v hv) hs hs'
      · exact .ok rfl
    all_goals exact .error ⟨nofun, nofun⟩
  | _ =>
    cases h
    cases h'
    all_goals first | exact .ok rfl | exact .error ⟨nofun, nofun⟩

theorem compare {op : Operator} (hop : op.isArithmetic = false) (h : Alike S F v w)
    (h' : Alike S F v' w') : SameEnd Eq (compare op v v') (compare op w w') := by
  cases op with
  | eq => exact h.equals h'
  | ne => exact (h.equals h').map _
  | gt | lt | ge | le => exact (h.numbers _ h').map _
  | add | sub | mul | div => cases hop

/-! ## Builtins -/

theorem items (operation : Builtin) (h : Alike S F v w) :
    SameEnd (List.Forall₂ (Alike S F)) (v.items operation) (w.items operation) := by
  cases h
  case list h => exact .ok h
  all_goals exact .error ⟨nofun, nofun⟩

theorem index (operation : Builtin) (h : Alike S F v w) :
    SameEnd Eq (v.index operation) (w.index operation) := by
  cases h
  case number => exact .ok rfl
  all_goals exact .error ⟨nofun, nofun⟩

theorem head (h : Alike S F v w) : SameEnd (Alike S F) v.head w.head := by
  refine (h.items .head).bind fun xs ys hxs => ?_
  cases hxs with
  | nil => exact .error ⟨nofun, nofun⟩
  | cons hx _ => exact .ok hx

theorem tail (h : Alike S F v w) : SameEnd (Alike S F) v.tail w.tail := by
  refine (h.items .tail).bind fun xs ys hxs => .ok (.list ?_)
  cases hxs with
  | nil => exact .nil
  | cons _ hxs => exact hxs

theorem append (h : Alike S F v w) (h' : Alike S F v' w') :
    SameEnd (Alike S F) (v.append v') (w.append w') :=
  (h.items .append).bind fun _ _ hxs => .ok (.list (List.rel_append hxs (.cons h' .nil)))

theorem splice (h : Alike S F v w) (start stop : Number) :
    SameEnd (Alike S F) (v.splice start stop) (w.splice start stop) :=
  (h.items .splice).bind fun _ _ hxs =>
    .ok (.list (List.forall₂_drop _ (List.forall₂_take _ hxs)))

theorem length (h : Alike S F v w) : SameEnd (Alike S F) v.length w.length := by
  refine (h.items .length).bind fun xs ys hxs => ?_
  rw [hxs.length_eq]
  cases Number.ofInt? ys.length with
  | some n => exact .ok (.number n)
  | none => exact .error ⟨nofun, nofun⟩

theorem getElem? {vs ws : List Value} (h : List.Forall₂ (Alike S F) vs ws) (i : Nat) :
    Option.Rel (Alike S F) vs[i]? ws[i]? := by
  induction h generalizing i with
  | nil => exact .none
  | cons hv _ ih =>
    cases i with
    | zero => exact .some hv
    | succ i => exact ih i

theorem nth (h : Alike S F v w) (i : Number) : SameEnd (Alike S F) (v.nth i) (w.nth i) := by
  refine (h.items .nth).bind fun xs ys hxs => ?_
  have hitem := getElem? hxs i.val.toNat
  dsimp only
  rw [hxs.length_eq]
  by_cases hi : i.val < 0
  · rw [if_pos hi, if_pos hi]
    exact .error ⟨nofun, nofun⟩
  · rw [if_neg hi, if_neg hi]
    generalize xs[i.val.toNat]? = found at hitem ⊢
    generalize ys[i.val.toNat]? = found' at hitem ⊢
    cases hitem with
    | some hx => exact .ok hx
    | none => exact .error ⟨nofun, nofun⟩

end Alike

end Value

namespace Builtin

variable {S : String → Prop} {F : Definition → Definition → Prop} {args args' : List Value}

theorem name_ne_symbol (b : Builtin) (op : Operator) : b.name ≠ op.symbol := by
  cases b <;> cases op <;> decide

theorem sameEnd_arity {A : Value → Value → Prop} (b : Builtin) (given : Nat) :
    SameEnd A (.error (.arity b.name b.arity given)) (.error (.arity b.name b.arity given)) := by
  refine .error ⟨?_, nofun⟩
  rintro ⟨_, h⟩
  exact b.name_ne_symbol _ h

/-- A call with a number of arguments that the builtin does not take. -/
theorem call_of_not_accepts {b : Builtin} (h : b.arity.accepts args.length = false) :
    b.call args = .error (.arity b.name b.arity args.length) := by
  cases b
  case list => cases h
  all_goals
    rcases args with _ | ⟨_, _ | ⟨_, _ | ⟨_, _ | ⟨_, _⟩⟩⟩⟩
    all_goals first | rfl | cases h

/-- A builtin ends alike on arguments that are alike. -/
theorem call_alike (b : Builtin) (h : List.Forall₂ (Value.Alike S F) args args') :
    SameEnd (Value.Alike S F) (b.call args) (b.call args') := by
  cases haccepts : b.arity.accepts args.length with
  | false =>
    have haccepts' := haccepts
    rw [h.length_eq] at haccepts'
    rw [call_of_not_accepts haccepts, call_of_not_accepts haccepts', h.length_eq]
    exact b.sameEnd_arity _
  | true =>
    cases b with
    | list => exact .ok (.list h)
    | head =>
      obtain ⟨v, rfl⟩ := List.length_eq_one_iff.1 (of_decide_eq_true haccepts)
      obtain _ | ⟨hv, ⟨⟩⟩ := h
      exact hv.head
    | tail =>
      obtain ⟨v, rfl⟩ := List.length_eq_one_iff.1 (of_decide_eq_true haccepts)
      obtain _ | ⟨hv, ⟨⟩⟩ := h
      exact hv.tail
    | length =>
      obtain ⟨v, rfl⟩ := List.length_eq_one_iff.1 (of_decide_eq_true haccepts)
      obtain _ | ⟨hv, ⟨⟩⟩ := h
      exact hv.length
    | append =>
      obtain ⟨v, item, rfl⟩ := List.length_eq_two.1 (of_decide_eq_true haccepts)
      obtain _ | ⟨hv, _ | ⟨hitem, ⟨⟩⟩⟩ := h
      exact hv.append hitem
    | nth =>
      obtain ⟨v, i, rfl⟩ := List.length_eq_two.1 (of_decide_eq_true haccepts)
      obtain _ | ⟨hv, _ | ⟨hi, ⟨⟩⟩⟩ := h
      refine (hi.index .nth).bind ?_
      rintro n _ rfl
      exact hv.nth n
    | splice =>
      obtain ⟨v, start, stop, rfl⟩ := List.length_eq_three.1 (of_decide_eq_true haccepts)
      obtain _ | ⟨hv, _ | ⟨hstart, _ | ⟨hstop, ⟨⟩⟩⟩⟩ := h
      refine (hstart.index .splice).bind ?_
      rintro n _ rfl
      refine (hstop.index .splice).bind ?_
      rintro n' _ rfl
      exact hv.splice n n'

end Builtin

end PrefixLisp
