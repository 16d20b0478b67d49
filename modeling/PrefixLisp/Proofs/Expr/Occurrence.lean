import PrefixLisp.Expr.Basic

/-
  The expressions inside an expression.

  `Occurs d x e` says that `x` stands in `e` with `d` forms around it, and `height` counts the
  levels of `e`: there is an expression at every depth below the height, and none at or beyond
  it (`exists_occurs_iff`). `All P e` says that `P` holds of everything in `e`, and `all_iff`
  unfolds it by one level. `inductionOnChildren` is induction that hands each expression the
  hypothesis for its children, whatever form it has.
-/

namespace PrefixLisp.Expr

/-- The expressions directly inside another; the one inside a definition is its body. -/
def children : Expr → List Expr
  | number _ | string _ | symbol _ => []
  | assign _ value | print value => [value]
  | cond test yes no => [test, yes, no]
  | defun _ _ body => [body]
  | call _ args | prim _ args => args

/-- The names that stand in the node itself. -/
def ownNames : Expr → List String
  | symbol name | assign name _ | call name _ => [name]
  | defun name params _ => name :: params
  | number _ | string _ | cond _ _ _ | print _ | prim _ _ => []

/-- `x` stands in `e` with `d` forms around it. -/
inductive Occurs : Nat → Expr → Expr → Prop where
  | here (e : Expr) : Occurs 0 e e
  | inside {d : Nat} {x c e : Expr} (hc : c ∈ e.children) (hx : Occurs d x c) : Occurs (d + 1) x e

mutual

/-- The number of levels: an expression without children has one. -/
def height : Expr → Nat
  | number _ | string _ | symbol _ => 1
  | assign _ value | print value | defun _ _ value => 1 + value.height
  | cond test yes no => 1 + max test.height (max yes.height no.height)
  | call _ args | prim _ args => 1 + heightAll args

/-- The number of levels of the highest, 0 if there is none. -/
def heightAll : List Expr → Nat
  | [] => 0
  | e :: es => max e.height (heightAll es)

end

theorem sizeOf_lt_of_mem_children {c e : Expr} (h : c ∈ e.children) : sizeOf c < sizeOf e := by
  cases e with
  | number | string | symbol => exact absurd h List.not_mem_nil
  | assign | print | defun =>
    obtain rfl := List.mem_singleton.1 h
    simp +arith
  | cond test yes no =>
    simp only [children, List.mem_cons, List.not_mem_nil, or_false] at h
    obtain rfl | rfl | rfl := h <;> simp +arith
  | call _ args | prim _ args =>
    have := List.sizeOf_lt_of_mem (show c ∈ args from h)
    simp +arith
    omega

@[elab_as_elim]
theorem inductionOnChildren {P : Expr → Prop}
    (step : ∀ e : Expr, (∀ c ∈ e.children, P c) → P e) (e : Expr) : P e :=
  step e fun c _ => inductionOnChildren step c
termination_by sizeOf e
decreasing_by exact sizeOf_lt_of_mem_children ‹_›

/-! ## Height -/

theorem lt_heightAll_iff {n : Nat} {es : List Expr} :
    n < heightAll es ↔ ∃ e ∈ es, n < e.height := by
  induction es with
  | nil => simp [heightAll]
  | cons e es ih =>
    have hmax : n < max e.height (heightAll es) ↔ n < e.height ∨ n < heightAll es := by omega
    rw [heightAll, hmax, ih]
    simp only [List.mem_cons, or_and_right, exists_or, exists_eq_left]

theorem heightAll_le_iff {es : List Expr} {n : Nat} :
    heightAll es ≤ n ↔ ∀ e ∈ es, e.height ≤ n := by
  rw [← Nat.not_lt, lt_heightAll_iff]
  simp only [not_exists, not_and, Nat.not_lt]

theorem height_eq (e : Expr) : e.height = 1 + heightAll e.children := by
  cases e <;> simp [height, children, heightAll]

theorem height_pos (e : Expr) : 0 < e.height := by
  rw [height_eq]
  omega

theorem height_le_iff {e : Expr} {n : Nat} :
    e.height ≤ n ↔ 0 < n ∧ ∀ c ∈ e.children, 1 + c.height ≤ n := by
  rw [height_eq]
  constructor
  · intro h
    have hc := heightAll_le_iff.1 (show heightAll e.children ≤ n - 1 by omega)
    exact ⟨by omega, fun c hmem => by have := hc c hmem; omega⟩
  · intro ⟨hn, hc⟩
    have : heightAll e.children ≤ n - 1 :=
      heightAll_le_iff.2 fun c hmem => by have := hc c hmem; omega
    omega

theorem Occurs.lt_height {d : Nat} {x e : Expr} (h : Occurs d x e) : d < e.height := by
  induction h with
  | here e => exact height_pos e
  | inside hc _ ih =>
    have := (height_le_iff.1 (Nat.le_refl _)).2 _ hc
    omega

/-- Some expression stands at every depth below the height. -/
theorem exists_occurs_of_lt {d : Nat} {e : Expr} (h : d < e.height) : ∃ x, Occurs d x e := by
  induction d generalizing e with
  | zero => exact ⟨e, .here e⟩
  | succ d ih =>
    rw [height_eq] at h
    obtain ⟨c, hc, hd⟩ := lt_heightAll_iff.1 (show d < heightAll e.children by omega)
    obtain ⟨x, hx⟩ := ih hd
    exact ⟨x, .inside hc hx⟩

theorem exists_occurs_iff {d : Nat} {e : Expr} : (∃ x, Occurs d x e) ↔ d < e.height :=
  ⟨fun ⟨_, hx⟩ => hx.lt_height, exists_occurs_of_lt⟩

/-- A bound on the depth of everything inside is a bound on the height. -/
theorem height_le_iff_occurs {n : Nat} {e : Expr} :
    e.height ≤ n ↔ ∀ d x, Occurs d x e → d < n := by
  constructor
  · intro h d x hx
    have := exists_occurs_iff.1 ⟨x, hx⟩
    omega
  · intro h
    refine Nat.not_lt.1 fun hn => ?_
    obtain ⟨x, hx⟩ := exists_occurs_iff.2 hn
    exact absurd (h n x hx) (Nat.lt_irrefl n)

/-! ## Properties of everything inside -/

/-- The property holds of the expression and of all that stands in it. -/
def All (P : Expr → Prop) (e : Expr) : Prop :=
  ∀ d x, Occurs d x e → P x

theorem all_iff {P : Expr → Prop} {e : Expr} : e.All P ↔ P e ∧ ∀ c ∈ e.children, c.All P := by
  constructor
  · intro h
    exact ⟨h 0 e (.here e), fun c hc d x hx => h (d + 1) x (.inside hc hx)⟩
  · intro ⟨he, hc⟩ d x hx
    cases hx with
    | here => exact he
    | inside hmem hx => exact hc _ hmem _ _ hx

end PrefixLisp.Expr
