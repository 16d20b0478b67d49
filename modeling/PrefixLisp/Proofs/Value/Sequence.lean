import PrefixLisp.Builtin.Call

/-
  The laws of list values.

  Each operation on a list is one on its sequence of items, and the first part says which. A bound
  may be any number: it counts as if cut to the places of the list (`cut`), and so `splice` gives
  the items `between` its two bounds. Whatever is taken out of a list or put into one is the item
  itself, with the identity of a function.

  The laws that tie the operations together are about these sequences. That a list is its front with
  the items behind it appended one by one is an induction on them (`foldlM_append_list`); the others
  go item by item. `sequence_laws` is all of them.
-/

namespace PrefixLisp

/-- The number of items of a list that fits into memory. -/
theorem Number.exists_val_eq {n : Nat} (h : n < 9223372036854775808) :
    ∃ a : Number, a.val = n :=
  ⟨⟨n, by unfold InRange; omega⟩, rfl⟩

namespace Value

variable {xs : List Value}

/-! ## The operations on a list -/

/-- A bound, cut to the places of a list with `n` items. -/
def cut (n : Nat) (bound : Number) : Int :=
  max 0 (min bound.val n)

theorem cut_nonneg (n : Nat) (bound : Number) : 0 ≤ cut n bound :=
  Int.le_max_left _ _

theorem cut_le (n : Nat) (bound : Number) : cut n bound ≤ n := by
  unfold cut
  omega

/-- The items from one bound up to, not including, the other. -/
def between (xs : List Value) (start stop : Number) : List Value :=
  (xs.take stop.val.toNat).drop start.val.toNat

theorem bind_items_list {α : Type} (operation : Builtin) (xs : List Value)
    (f : List Value → Except EvalError α) : ((list xs).items operation >>= f) = f xs := rfl

theorem append_list (xs : List Value) (v : Value) :
    (list xs).append v = .ok (list (xs ++ [v])) := rfl

theorem tail_list (xs : List Value) : (list xs).tail = .ok (list xs.tail) := rfl

theorem splice_list (xs : List Value) (start stop : Number) :
    (list xs).splice start stop = .ok (list (between xs start stop)) := rfl

theorem head_nil : (list []).head = .error (.failure .headOfEmpty) := rfl

theorem head_cons (x : Value) (xs : List Value) : (list (x :: xs)).head = .ok x := rfl

theorem length_list {n : Number} (hn : n.val = xs.length) :
    (list xs).length = .ok (number n) := by
  rw [length, bind_items_list, Number.ofInt?_eq_some_iff.2 hn]
  rfl

/-- The items are counted from 0. -/
theorem nth_list_of_lt {i : Number} {j : Nat} (hi : i.val = j) (hj : j < xs.length) :
    (list xs).nth i = .ok xs[j] := by
  have hplace : i.val.toNat = j := by omega
  rw [nth, bind_items_list]
  dsimp only
  rw [if_neg (by omega), hplace, List.getElem?_eq_getElem hj]
  rfl

theorem nth_list_of_outside {i : Number} (h : i.val < 0 ∨ xs.length ≤ i.val) :
    (list xs).nth i = .error (.failure (.indexOutOfBounds i xs.length)) := by
  rw [nth, bind_items_list]
  dsimp only
  by_cases hi : i.val < 0
  · rw [if_pos hi]
    rfl
  · rw [if_neg hi, List.getElem?_eq_none (by omega)]
    rfl

/-- An index gives the item that stands there, and nothing else. -/
theorem nth_list_eq_ok_iff {i : Number} {x : Value} :
    (list xs).nth i = .ok x ↔ 0 ≤ i.val ∧ xs[i.val.toNat]? = some x := by
  by_cases hi : 0 ≤ i.val ∧ i.val.toNat < xs.length
  · obtain ⟨hpos, hlt⟩ := hi
    rw [nth_list_of_lt (by omega) hlt, List.getElem?_eq_getElem hlt]
    simp [hpos]
  · rw [nth_list_of_outside (by omega)]
    refine iff_of_false nofun fun ⟨hpos, hx⟩ => hi ⟨hpos, ?_⟩
    exact (List.getElem?_eq_some_iff.1 hx).1

/-! ## Items between two bounds -/

theorem length_between (xs : List Value) (start stop : Number) :
    ((between xs start stop).length : Int) =
      max 0 (cut xs.length stop - cut xs.length start) := by
  unfold between cut
  rw [List.length_drop, List.length_take]
  omega

/-- The items between two bounds stand behind the first one. -/
theorem getElem_between {start stop : Number} {i j : Nat} (hj : j < (between xs start stop).length)
    (hi : (i : Int) = cut xs.length start + j) :
    ∃ h : i < xs.length, (between xs start stop)[j] = xs[i] := by
  have hlength := length_between xs start stop
  have hcut : cut xs.length start = start.val.toNat := by
    unfold cut at hlength ⊢
    omega
  obtain rfl : i = start.val.toNat + j := by omega
  have hlt : start.val.toNat + j < xs.length := by
    unfold cut at hlength
    omega
  exact ⟨hlt, by simp [between]⟩

theorem between_one {n : Number} (hn : n.val = xs.length) : between xs .one n = xs.tail := by
  have hall : n.val.toNat = xs.length := by omega
  have hfirst : Number.one.val.toNat = 1 := rfl
  rw [between, hall, hfirst, List.take_length, List.drop_one]

/-- A list is what stands before a bound, and what stands behind it. -/
theorem between_append_between (k : Number) {n : Number} (hn : n.val = xs.length) :
    between xs .zero k ++ between xs k n = xs := by
  have hall : n.val.toNat = xs.length := by omega
  have hfirst : Number.zero.val.toNat = 0 := rfl
  rw [between, between, hall, hfirst, List.take_length, List.drop_zero, List.take_append_drop]

/-- Items are appended one by one. -/
theorem foldlM_append_list (xs ys : List Value) :
    ys.foldlM append (list xs) = .ok (list (xs ++ ys)) := by
  induction ys generalizing xs with
  | nil =>
    rw [List.append_nil]
    rfl
  | cons y ys ih =>
    have h := ih (xs ++ [y])
    rw [List.append_assoc, List.singleton_append] at h
    exact h

/-! ## The laws -/

/-- A new item comes last, and the others stay where they are. -/
theorem append_law (v : Value) {n : Number} (hn : n.val = xs.length)
    (hsize : xs.length < 9223372036854775807) :
    ∃ m : Number, (list (xs ++ [v])).length = .ok (number m) ∧ m.val = n.val + 1 ∧
      (list (xs ++ [v])).nth n = .ok v ∧
      ∀ i : Number, 0 ≤ i.val → i.val < n.val →
        ∃ x, (list xs).nth i = .ok x ∧ (list (xs ++ [v])).nth i = .ok x := by
  have hlength : (xs ++ [v]).length = xs.length + 1 := List.length_append
  obtain ⟨m, hm⟩ := Number.exists_val_eq (n := xs.length + 1) (by omega)
  refine ⟨m, length_list (by rw [hm, hlength]), by omega, ?_, fun i hpos hlt => ?_⟩
  · rw [nth_list_of_lt hn (by omega), List.getElem_concat_length rfl]
  · have hi : i.val.toNat < xs.length := by omega
    refine ⟨xs[i.val.toNat], nth_list_of_lt (by omega) hi, ?_⟩
    rw [nth_list_of_lt (j := i.val.toNat) (by omega) (by omega), List.getElem_append_left hi]

/-- A splice is as long as its bounds are apart, and begins at the first one. -/
theorem splice_law (hsize : xs.length < 9223372036854775808) (start stop : Number) :
    ∃ m : Number, (list (between xs start stop)).length = .ok (number m) ∧
      m.val = max 0 (cut xs.length stop - cut xs.length start) ∧
      ∀ i j : Number, 0 ≤ j.val → j.val < m.val → i.val = cut xs.length start + j.val →
        ∃ x, (list xs).nth i = .ok x ∧ (list (between xs start stop)).nth j = .ok x := by
  have hlength := length_between xs start stop
  obtain ⟨m, hm⟩ := Number.exists_val_eq (n := (between xs start stop).length) (by
    unfold cut at hlength
    omega)
  refine ⟨m, length_list hm, hm.trans hlength, fun i j hpos hlt hi => ?_⟩
  have hj : j.val.toNat < (between xs start stop).length := by omega
  have hcut := cut_nonneg xs.length start
  obtain ⟨hi', hitem⟩ := getElem_between (i := i.val.toNat) hj (by omega)
  refine ⟨xs[i.val.toNat], nth_list_of_lt (by omega) hi', ?_⟩
  rw [nth_list_of_lt (by omega) hj, hitem]

/-- The first item is the one at index 0; an empty list has neither. -/
theorem head_law (xs : List Value) :
    (∃ x, xs.head? = some x ∧ (list xs).head = .ok x ∧ (list xs).nth .zero = .ok x) ∨
      xs = [] ∧ (∃ f, (list xs).head = .error (.failure f)) ∧
        ∃ f, (list xs).nth .zero = .error (.failure f) := by
  cases xs with
  | nil => exact .inr ⟨rfl, ⟨_, head_nil⟩, _, nth_list_of_outside (.inr (Int.le_refl 0))⟩
  | cons x xs =>
    have hfirst : 0 < (x :: xs).length := Nat.zero_lt_succ _
    exact .inl ⟨x, rfl, head_cons x xs, nth_list_of_lt rfl hfirst⟩

/-- The laws of the list `xs`, which has `n` items, and of one more item `v`. -/
structure SequenceLaws (xs : List Value) (v : Value) (n : Number) : Prop where
  length : n.val = xs.length ∧ (list xs).length = .ok (number n)
  /-- An index gives the item that stands there. -/
  nth : ∀ i x, (list xs).nth i = .ok x ↔ 0 ≤ i.val ∧ xs[i.val.toNat]? = some x
  /-- An appended item comes last, and the others stay. -/
  append : ∃ ys m, (list xs).append v = .ok ys ∧ ys.length = .ok (number m) ∧ m.val = n.val + 1 ∧
    ys.nth n = .ok v ∧
    ∀ i : Number, 0 ≤ i.val → i.val < n.val → ∃ x, (list xs).nth i = .ok x ∧ ys.nth i = .ok x
  /-- A splice has the items between its bounds, cut to the places of the list. -/
  splice : ∀ start stop, ∃ ys m, (list xs).splice start stop = .ok ys ∧
    ys.length = .ok (number m) ∧ m.val = max 0 (cut xs.length stop - cut xs.length start) ∧
    ∀ i j : Number, 0 ≤ j.val → j.val < m.val → i.val = cut xs.length start + j.val →
      ∃ x, (list xs).nth i = .ok x ∧ ys.nth j = .ok x
  tail : ∃ ys, (list xs).tail = .ok ys ∧ (list xs).splice .one n = .ok ys
  /-- The head is the item at index 0, or both fail. -/
  head : (∃ x, xs.head? = some x ∧ (list xs).head = .ok x ∧ (list xs).nth .zero = .ok x) ∨
    xs = [] ∧ (∃ f, (list xs).head = .error (.failure f)) ∧
      ∃ f, (list xs).nth .zero = .error (.failure f)
  /-- The items behind a bound, appended one by one to those before it, give the list back. -/
  split : ∀ k, ∃ front back, (list xs).splice .zero k = .ok front ∧
    (list xs).splice k n = .ok (list back) ∧ back.foldlM Value.append front = .ok (list xs)

/-- Every list that leaves room for one more item obeys the laws. -/
theorem sequence_laws (xs : List Value) (v : Value) (hsize : xs.length < 9223372036854775807) :
    ∃ n, SequenceLaws xs v n := by
  have hfits : xs.length < 9223372036854775808 := by omega
  obtain ⟨n, hn⟩ := Number.exists_val_eq hfits
  refine ⟨n, ⟨hn, length_list hn⟩, fun i x => nth_list_eq_ok_iff, ?_, fun start stop => ?_,
    ⟨list xs.tail, tail_list xs, ?_⟩, head_law xs, fun k => ?_⟩
  · obtain ⟨m, hlaw⟩ := append_law v hn hsize
    exact ⟨list (xs ++ [v]), m, append_list xs v, hlaw⟩
  · obtain ⟨m, hlaw⟩ := splice_law hfits start stop
    exact ⟨list (between xs start stop), m, splice_list xs start stop, hlaw⟩
  · rw [splice_list, between_one hn]
  · refine ⟨list (between xs .zero k), between xs k n, splice_list xs .zero k,
      splice_list xs k n, ?_⟩
    rw [foldlM_append_list, between_append_between k hn]

/-- Two functions of one definition stay apart. -/
theorem sequence_laws_functions :
    let d : Definition := ⟨"f", ["a"], .symbol "a"⟩
    let xs := [function 1 d, list [], function 2 d]
    xs.length < 9223372036854775807 ∧ ∃ n, SequenceLaws xs nil n :=
  ⟨by decide, sequence_laws _ nil (by decide)⟩

end Value

end PrefixLisp
