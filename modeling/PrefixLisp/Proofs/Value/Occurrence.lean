import PrefixLisp.Value.Basic

/-
  The values inside a value.

  `Occurs x v` says that `x` is `v` or stands in it, in lists of any depth. What a program can get
  at in a value besides its shape are strings and functions; `Leaves S G v` says that all strings
  that occur in `v` are of `S` and all functions of `G`, and it is settled item by item
  (`leaves_list_iff`), and so is that there is no function in it (`FunctionFree`).
  `inductionOnItems` is induction that hands a list the hypothesis for its items.
-/

namespace PrefixLisp.Value

/-- `x` is the value, or it occurs in an item of it. -/
inductive Occurs (x : Value) : Value → Prop where
  | here : Occurs x x
  | item {v : Value} {items : List Value} (hv : v ∈ items) (hx : Occurs x v) :
      Occurs x (.list items)

@[elab_as_elim]
theorem inductionOnItems {P : Value → Prop} (number : ∀ n, P (.number n))
    (string : ∀ s, P (.string s)) (list : ∀ items, (∀ v ∈ items, P v) → P (.list items))
    (function : ∀ identity d, P (.function identity d)) (nil : P .nil) : ∀ v, P v
  | .number n => number n
  | .string s => string s
  | .list items =>
    list items fun v _ => inductionOnItems number string list function nil v
  | .function identity d => function identity d
  | .nil => nil

/-- All strings in the value are of `S` and all functions of `G`. -/
structure Leaves (S : String → Prop) (G : Definition → Prop) (v : Value) : Prop where
  string : ∀ s, Occurs (.string s) v → S s
  function : ∀ identity d, Occurs (.function identity d) v → G d

section

variable {S : String → Prop} {G : Definition → Prop}

theorem leaves_number (n : Number) : Leaves S G (.number n) :=
  ⟨nofun, nofun⟩

theorem leaves_nil : Leaves S G .nil :=
  ⟨nofun, nofun⟩

theorem leaves_string_iff {s : String} : Leaves S G (.string s) ↔ S s := by
  refine ⟨fun h => h.string s .here, fun h => ⟨fun t ht => ?_, nofun⟩⟩
  cases ht
  exact h

theorem leaves_function_iff {identity : Nat} {d : Definition} :
    Leaves S G (.function identity d) ↔ G d := by
  refine ⟨fun h => h.function identity d .here, fun h => ⟨nofun, fun i e he => ?_⟩⟩
  cases he
  exact h

theorem leaves_list_iff {items : List Value} :
    Leaves S G (.list items) ↔ ∀ v ∈ items, Leaves S G v := by
  constructor
  · intro h v hv
    exact ⟨fun s hs => h.string s (.item hv hs), fun i d hd => h.function i d (.item hv hd)⟩
  · intro h
    constructor
    · rintro s (_ | ⟨hv, hs⟩)
      exact (h _ hv).string s hs
    · rintro i d (_ | ⟨hv, hd⟩)
      exact (h _ hv).function i d hd

end

/-- No function occurs in the value. -/
def FunctionFree (v : Value) : Prop :=
  ∀ identity d, ¬Occurs (.function identity d) v

theorem functionFree_iff_leaves {v : Value} :
    v.FunctionFree ↔ v.Leaves (fun _ => True) fun _ => False :=
  ⟨fun h => ⟨fun _ _ => trivial, h⟩, fun h => h.function⟩

theorem not_functionFree_function (identity : Nat) (d : Definition) :
    ¬(function identity d).FunctionFree :=
  fun h => h identity d .here

theorem functionFree_list_iff {items : List Value} :
    (list items).FunctionFree ↔ ∀ v ∈ items, v.FunctionFree := by
  constructor
  · intro h v hv identity d hd
    exact h identity d (.item hv hd)
  · rintro h identity d (_ | ⟨hv, hd⟩)
    exact h _ hv identity d hd

end PrefixLisp.Value
