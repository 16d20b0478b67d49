import PrefixLisp.Proofs.Value.Alike
import PrefixLisp.Proofs.Value.Sequence

/-
  How a call of a builtin ends.

  A call is refused for the number of its arguments, else for their kinds (`Builtin.Mistyped`), else
  because the item that it asks for is not there (`Builtin.Misses`), and otherwise it has a value.
  `Builtin.Ends` lists the four ways, and every call ends in one of them (`call_ends`).

  A call looks for its arguments at their places, and a splice cuts a list at two places. In
  `Builtin.callByPlaces` both may be in vain, and then so is the whole call. It never is, and it
  ends as the call does (`callByPlaces_eq`): the number of arguments is tested before any of them
  is looked for, and a list is cut at two of its places, in order.
-/

namespace PrefixLisp

namespace Value

theorem kind_eq_list_iff {v : Value} : v.kind = .list ↔ ∃ xs, v = list xs := by
  cases v <;> simp [kind]

theorem kind_eq_number_iff {v : Value} : v.kind = .number ↔ ∃ n, v = number n := by
  cases v <;> simp [kind]

theorem items_of_kind_ne {v : Value} (h : v.kind ≠ .list) (operation : Builtin) :
    v.items operation = .error (.mismatch (.notList operation v.kind)) := by
  cases v with
  | list xs => exact absurd rfl h
  | _ => rfl

theorem index_of_kind_ne {v : Value} (h : v.kind ≠ .number) (operation : Builtin) :
    v.index operation = .error (.mismatch (.notIndex operation v.kind)) := by
  cases v with
  | number n => exact absurd rfl h
  | _ => rfl

end Value

namespace Builtin

open Value (cut between)

/-! ## The four ways in which a call ends -/

/-- The places of the arguments that have to be lists. -/
def listPlaces : Builtin → List Nat
  | list => []
  | head | tail | append | splice | length | nth => [0]

/-- The places of the arguments that have to be numbers. -/
def indexPlaces : Builtin → List Nat
  | list | head | tail | append | length => []
  | nth => [1]
  | splice => [1, 2]

/-- Some argument is not of the kind that its place asks for. -/
def Mistyped (b : Builtin) (args : List Value) : Prop :=
  (∃ place ∈ b.listPlaces, ∃ v ∈ args[place]?, v.kind ≠ .list) ∨
    ∃ place ∈ b.indexPlaces, ∃ v ∈ args[place]?, v.kind ≠ .number

/-- The item that is asked for is not there. -/
inductive Misses : Builtin → List Value → Prop where
  | head : Misses head [.list []]
  | nth {xs : List Value} {i : Number} (h : i.val < 0 ∨ xs.length ≤ i.val) :
      Misses nth [.list xs, .number i]

/-- Arguments of the number and the kinds that the builtin takes. -/
inductive Fits : Builtin → List Value → Prop where
  | list {items : List Value} : Fits list items
  | head {xs : List Value} : Fits head [.list xs]
  | tail {xs : List Value} : Fits tail [.list xs]
  | append {xs : List Value} {item : Value} : Fits append [.list xs, item]
  | splice {xs : List Value} {start stop : Number} :
      Fits splice [.list xs, .number start, .number stop]
  | length {xs : List Value} : Fits length [.list xs]
  | nth {xs : List Value} {i : Number} : Fits nth [.list xs, .number i]

/-- How a call ends. -/
inductive Ends (b : Builtin) (args : List Value) : Except EvalError Value → Prop where
  | arity (h : b.arity.accepts args.length = false) :
      Ends b args (.error (.arity b.name b.arity args.length))
  | mismatch {m : EvalError.Mismatch} (h : b.arity.accepts args.length) (hkinds : b.Mistyped args) :
      Ends b args (.error (.mismatch m))
  | failure {f : EvalError.Failure} (h : b.arity.accepts args.length) (hkinds : ¬b.Mistyped args)
      (hitem : b.Misses args) : Ends b args (.error (.failure f))
  | value {v : Value} (h : b.arity.accepts args.length) (hkinds : ¬b.Mistyped args)
      (hitem : ¬b.Misses args) : Ends b args (.ok v)

variable {b : Builtin} {args : List Value}

theorem Fits.not_mistyped (h : b.Fits args) : ¬b.Mistyped args := by
  cases h <;> simp [Mistyped, listPlaces, indexPlaces, Value.kind]

/-- The call is refused for the kinds of its arguments. -/
def Refused (b : Builtin) (args : List Value) : Prop :=
  b.Mistyped args ∧ ∃ m, b.call args = .error (.mismatch m)

/-- A call that asks for a list is refused if there is none. -/
theorem fits_or_refused_of_list {v : Value} {place : Nat} {operation : Builtin}
    {f : List Value → Except EvalError Value} (hplace : place ∈ b.listPlaces)
    (hv : args[place]? = some v) (hcall : b.call args = v.items operation >>= f)
    (hlist : ∀ xs, v = .list xs → b.Fits args ∨ b.Refused args) :
    b.Fits args ∨ b.Refused args := by
  by_cases hkind : v.kind = .list
  · obtain ⟨xs, hxs⟩ := Value.kind_eq_list_iff.1 hkind
    exact hlist xs hxs
  · rw [Value.items_of_kind_ne hkind] at hcall
    exact .inr ⟨.inl ⟨place, hplace, v, hv, hkind⟩, _, hcall⟩

/-- A call that asks for a number is refused if there is none. -/
theorem fits_or_refused_of_number {v : Value} {place : Nat} {operation : Builtin}
    {f : Number → Except EvalError Value} (hplace : place ∈ b.indexPlaces)
    (hv : args[place]? = some v) (hcall : b.call args = v.index operation >>= f)
    (hnumber : ∀ n, v = .number n → b.Fits args ∨ b.Refused args) :
    b.Fits args ∨ b.Refused args := by
  by_cases hkind : v.kind = .number
  · obtain ⟨n, hn⟩ := Value.kind_eq_number_iff.1 hkind
    exact hnumber n hn
  · rw [Value.index_of_kind_ne hkind] at hcall
    exact .inr ⟨.inr ⟨place, hplace, v, hv, hkind⟩, _, hcall⟩

/-- As many arguments as the builtin takes fit it, or the call is refused for their kinds. -/
theorem fits_or_refused (h : b.arity.accepts args.length) : b.Fits args ∨ b.Refused args := by
  -- The indices are asked for from left to right, and then the list.
  cases b with
  | list => exact .inl .list
  | head =>
    obtain ⟨v, rfl⟩ := List.length_eq_one_iff.1 (of_decide_eq_true h)
    refine fits_or_refused_of_list (List.mem_singleton_self 0) rfl rfl ?_
    rintro xs rfl
    exact .inl .head
  | tail =>
    obtain ⟨v, rfl⟩ := List.length_eq_one_iff.1 (of_decide_eq_true h)
    refine fits_or_refused_of_list (List.mem_singleton_self 0) rfl rfl ?_
    rintro xs rfl
    exact .inl .tail
  | length =>
    obtain ⟨v, rfl⟩ := List.length_eq_one_iff.1 (of_decide_eq_true h)
    refine fits_or_refused_of_list (List.mem_singleton_self 0) rfl rfl ?_
    rintro xs rfl
    exact .inl .length
  | append =>
    obtain ⟨v, item, rfl⟩ := List.length_eq_two.1 (of_decide_eq_true h)
    refine fits_or_refused_of_list (List.mem_singleton_self 0) rfl rfl ?_
    rintro xs rfl
    exact .inl .append
  | nth =>
    obtain ⟨v, i, rfl⟩ := List.length_eq_two.1 (of_decide_eq_true h)
    refine fits_or_refused_of_number (List.mem_singleton_self 1) rfl rfl ?_
    rintro n rfl
    refine fits_or_refused_of_list (List.mem_singleton_self 0) rfl rfl ?_
    rintro xs rfl
    exact .inl .nth
  | splice =>
    obtain ⟨v, start, stop, rfl⟩ := List.length_eq_three.1 (of_decide_eq_true h)
    refine fits_or_refused_of_number List.mem_cons_self rfl rfl ?_
    rintro n rfl
    refine fits_or_refused_of_number (List.mem_cons_of_mem 1 List.mem_cons_self) rfl rfl ?_
    rintro m rfl
    refine fits_or_refused_of_list (List.mem_singleton_self 0) rfl rfl ?_
    rintro xs rfl
    exact .inl .splice

/-- Arguments that fit give a value, unless the item that is asked for is not there. -/
theorem Fits.value_or_misses (h : b.Fits args)
    (hsize : ∀ xs, .list xs ∈ args → xs.length < 9223372036854775808) :
    ¬b.Misses args ∧ (∃ v, b.call args = .ok v) ∨
      b.Misses args ∧ ∃ f, b.call args = .error (.failure f) := by
  cases h with
  | list | tail | append | splice => exact .inl ⟨nofun, _, rfl⟩
  | @head xs =>
    cases xs with
    | nil => exact .inr ⟨.head, _, rfl⟩
    | cons x xs => exact .inl ⟨nofun, x, rfl⟩
  | @length xs =>
    obtain ⟨n, hn⟩ := Number.exists_val_eq (hsize xs List.mem_cons_self)
    exact .inl ⟨nofun, _, Value.length_list hn⟩
  | @nth xs i =>
    by_cases hi : i.val < 0 ∨ xs.length ≤ i.val
    · exact .inr ⟨.nth hi, _, Value.nth_list_of_outside hi⟩
    · refine .inl ⟨fun hmisses => ?_, _,
        Value.nth_list_of_lt (j := i.val.toNat) (by omega) (by omega)⟩
      cases hmisses with
      | nth h => exact hi h

theorem call_ends (b : Builtin) {args : List Value}
    (hsize : ∀ xs, .list xs ∈ args → xs.length < 9223372036854775808) :
    b.Ends args (b.call args) := by
  cases h : b.arity.accepts args.length with
  | false =>
    rw [call_of_not_accepts h]
    exact .arity h
  | true =>
    rcases fits_or_refused h with hfits | ⟨hkinds, m, hcall⟩
    · rcases hfits.value_or_misses hsize with ⟨hitem, v, hcall⟩ | ⟨hitem, f, hcall⟩
      · rw [hcall]
        exact .value h hfits.not_mistyped hitem
      · rw [hcall]
        exact .failure h hfits.not_mistyped hitem
    · rw [hcall]
      exact .mismatch h hkinds

/-! ## Looking for arguments at their places -/

/-- A computation that may look where nothing is, and then comes to nothing. -/
abbrev Reading (α : Type) := ExceptT EvalError Option α

namespace Reading

/-- What comes to an end, one way or the other. -/
def settled {α : Type} (r : Except EvalError α) : Reading α :=
  ExceptT.mk (some r)

/-- What stands at a place. -/
def at? (args : List Value) (place : Nat) : Reading Value :=
  ExceptT.lift args[place]?

/-- The items from one place of a list to another one, which is not before it. -/
def slice? (xs : List Value) (start stop : Nat) : Reading (List Value) :=
  if start ≤ stop ∧ stop ≤ xs.length then settled (.ok ((xs.take stop).drop start))
  else ExceptT.lift none

/-- The splice as one slice between the bounds, cut to the places of the list. -/
def splice (v : Value) (start stop : Number) : Reading Value := do
  let xs ← settled (v.items .splice)
  let start := (cut xs.length start).toNat
  let stop := (cut xs.length stop).toNat
  if stop ≤ start then return .list []
  return .list (← slice? xs start stop)

end Reading

open Reading in
/-- A call that tests the number of its arguments and then looks for each of them at its place. -/
def callByPlaces (b : Builtin) (args : List Value) : Reading Value := do
  settled (b.arity.check b.name args.length)
  match b with
  | .list => return .list args
  | .head => settled (← at? args 0).head
  | .tail => settled (← at? args 0).tail
  | .append => settled ((← at? args 0).append (← at? args 1))
  | .splice =>
    let start ← settled ((← at? args 1).index .splice)
    let stop ← settled ((← at? args 2).index .splice)
    Reading.splice (← at? args 0) start stop
  | .length => settled (← at? args 0).length
  | .nth =>
    let i ← settled ((← at? args 1).index .nth)
    settled ((← at? args 0).nth i)

namespace Reading

theorem settled_error_bind {α β : Type} (e : EvalError) (f : α → Reading β) :
    settled (.error e) >>= f = settled (.error e) := rfl

theorem settled_ok_bind {α β : Type} (a : α) (f : α → Reading β) :
    settled (.ok a) >>= f = f a := rfl

/-- Bounds that are cut to the places of a list have the same items between them. -/
theorem take_drop_cut (xs : List Value) {start stop : Number}
    (h : cut xs.length start < cut xs.length stop) :
    (xs.take (cut xs.length stop).toNat).drop (cut xs.length start).toNat =
      between xs start stop := by
  have hstart : (cut xs.length start).toNat = start.val.toNat := by
    unfold cut at h ⊢
    omega
  have hstop : xs.take (cut xs.length stop).toNat = xs.take stop.val.toNat := by
    rw [List.take_eq_take_iff, cut]
    omega
  rw [hstart, hstop, between]

/-- A list is only sliced between two of its places, in order. -/
theorem splice_eq (v : Value) (start stop : Number) :
    splice v start stop = settled (v.splice start stop) := by
  by_cases hkind : v.kind = .list
  · obtain ⟨xs, rfl⟩ := Value.kind_eq_list_iff.1 hkind
    have hlength := Value.length_between xs start stop
    have hstart := Value.cut_nonneg xs.length start
    have hstop := Value.cut_le xs.length stop
    rw [splice, Value.items, settled_ok_bind, Value.splice_list]
    dsimp only
    split
    · have hnone : (between xs start stop).length = 0 := by omega
      rw [List.eq_nil_of_length_eq_zero hnone]
      rfl
    · have hlt : cut xs.length start < cut xs.length stop := by omega
      rw [slice?, if_pos ⟨by omega, by omega⟩, take_drop_cut xs hlt]
      rfl
  · rw [splice, Value.splice, Value.items_of_kind_ne hkind, settled_error_bind]
    rfl

end Reading

theorem callByPlaces_eq (b : Builtin) (args : List Value) :
    b.callByPlaces args = .settled (b.call args) := by
  cases h : b.arity.accepts args.length with
  | false =>
    have hcheck : b.arity.check b.name args.length =
        .error (.arity b.name b.arity args.length) := by rw [Arity.check, h]; rfl
    unfold callByPlaces
    rw [hcheck, Reading.settled_error_bind, call_of_not_accepts h]
  | true =>
    have hcheck : b.arity.check b.name args.length = .ok () := by rw [Arity.check, h]; rfl
    unfold callByPlaces
    rw [hcheck, Reading.settled_ok_bind]
    cases b with
    | list => rfl
    | head =>
      obtain ⟨v, rfl⟩ := List.length_eq_one_iff.1 (of_decide_eq_true h)
      rfl
    | tail =>
      obtain ⟨v, rfl⟩ := List.length_eq_one_iff.1 (of_decide_eq_true h)
      rfl
    | length =>
      obtain ⟨v, rfl⟩ := List.length_eq_one_iff.1 (of_decide_eq_true h)
      rfl
    | append =>
      obtain ⟨v, item, rfl⟩ := List.length_eq_two.1 (of_decide_eq_true h)
      rfl
    | nth =>
      obtain ⟨v, i, rfl⟩ := List.length_eq_two.1 (of_decide_eq_true h)
      show (Reading.settled (i.index .nth) >>= fun n => Reading.settled (v.nth n)) =
        .settled (i.index .nth >>= v.nth)
      cases i.index .nth <;> rfl
    | splice =>
      obtain ⟨v, start, stop, rfl⟩ := List.length_eq_three.1 (of_decide_eq_true h)
      show (Reading.settled (start.index .splice) >>= fun n =>
          Reading.settled (stop.index .splice) >>= fun m => Reading.splice v n m) =
        .settled (start.index .splice >>= fun n => stop.index .splice >>= v.splice n)
      cases start.index .splice with
      | error e => rfl
      | ok n =>
        cases stop.index .splice with
        | error e => rfl
        | ok m => exact Reading.splice_eq v n m

/-- A call is refused for the number of its arguments if and only if the builtin does not take as
many. Otherwise it is refused for their kinds if and only if one is not of the kind that its place
asks for; otherwise it fails if and only if the item that it asks for is not there; and otherwise it
has a value. It never looks for an argument, nor cuts a list, where there is nothing. -/
theorem call_classified (b : Builtin) (args : List Value)
    (hsize : ∀ xs, .list xs ∈ args → xs.length < 9223372036854775808) :
    ((∃ callee expected given, b.call args = .error (.arity callee expected given)) ↔
      b.arity.accepts args.length = false) ∧
    (b.arity.accepts args.length →
      ((∃ m, b.call args = .error (.mismatch m)) ↔ b.Mistyped args) ∧
      (¬b.Mistyped args →
        ((∃ f, b.call args = .error (.failure f)) ↔ b.Misses args) ∧
        (¬b.Misses args → ∃ v, b.call args = .ok v))) ∧
    (b.callByPlaces args).run = some (b.call args) := by
  have hends := call_ends b hsize
  rw [callByPlaces_eq]
  generalize b.call args = r at hends ⊢
  cases hends with
  | arity h =>
    refine ⟨iff_of_true ⟨_, _, _, rfl⟩ h, fun haccepts => ?_, rfl⟩
    rw [h] at haccepts
    cases haccepts
  | mismatch h hkinds =>
    exact ⟨iff_of_false (by simp) (by simp [h]),
      fun _ => ⟨iff_of_true ⟨_, rfl⟩ hkinds, fun hnot => absurd hkinds hnot⟩, rfl⟩
  | failure h hkinds hitem =>
    exact ⟨iff_of_false (by simp) (by simp [h]), fun _ => ⟨iff_of_false (by simp) hkinds,
      fun _ => ⟨iff_of_true ⟨_, rfl⟩ hitem, fun hnot => absurd hitem hnot⟩⟩, rfl⟩
  | value h hkinds hitem =>
    exact ⟨iff_of_false (by simp) (by simp [h]), fun _ => ⟨iff_of_false (by simp) hkinds,
      fun _ => ⟨iff_of_false (by simp) hitem, fun _ => ⟨_, rfl⟩⟩⟩, rfl⟩

/-- A splice between the least and the greatest of all numbers. -/
theorem call_classified_splice :
    let least : Number := ⟨-9223372036854775808, by decide⟩
    let greatest : Number := ⟨9223372036854775807, by decide⟩
    let args := [Value.list [.nil, .number .one], .number least, .number greatest]
    (∀ xs, .list xs ∈ args → xs.length < 9223372036854775808) ∧
    ((∃ callee expected given, splice.call args = .error (.arity callee expected given)) ↔
      splice.arity.accepts args.length = false) ∧
    (splice.arity.accepts args.length →
      ((∃ m, splice.call args = .error (.mismatch m)) ↔ splice.Mistyped args) ∧
      (¬splice.Mistyped args →
        ((∃ f, splice.call args = .error (.failure f)) ↔ splice.Misses args) ∧
        (¬splice.Misses args → ∃ v, splice.call args = .ok v))) ∧
    (splice.callByPlaces args).run = some (splice.call args) := by
  intro least greatest args
  have hsize : ∀ xs, .list xs ∈ args → xs.length < 9223372036854775808 := by
    intro xs hxs
    have hitems : xs = [.nil, .number .one] := by simpa [args] using hxs
    rw [hitems]
    decide
  exact ⟨hsize, call_classified splice args hsize⟩

end Builtin

end PrefixLisp
