import PrefixLisp.Proofs.Eval.Coupling
import PrefixLisp.Proofs.Eval.Effect
import PrefixLisp.Proofs.Eval.Printing

/-
  Runs without printing.

  Muting puts the value in place of every `print`, throughout a tree, and throughout the bodies of
  the functions in values and scopes. A muted program goes like the program itself and prints
  nothing (`eval_muted`): what is printed plays no part in what is evaluated. It needs fewer levels,
  so it may get further where the program runs into the depth limit.

  The two runs are coupled by muting (`muting`). A muted tree is of the form of the tree itself but
  for its prints, each of which takes a level that the muted tree does not have.
-/

namespace PrefixLisp

/-! ## Muting -/

namespace Expr

mutual

/-- The expression with each `print` replaced by what it prints. -/
def muted : Expr → Expr
  | number n => number n
  | string s => string s
  | symbol name => symbol name
  | assign name value => assign name value.muted
  | cond test yes no => cond test.muted yes.muted no.muted
  | print value => value.muted
  | defun name params body => defun name params body.muted
  | call name args => call name (mutedAll args)
  | prim op args => prim op (mutedAll args)

def mutedAll : List Expr → List Expr
  | [] => []
  | e :: es => e.muted :: mutedAll es

end

theorem mutedAll_eq_map (es : List Expr) : mutedAll es = es.map muted := by
  induction es with
  | nil => rfl
  | cons e es ih => exact congrArg (e.muted :: ·) ih

end Expr

def Program.muted (p : Program) : Program :=
  p.map Expr.muted

def Definition.muted (d : Definition) : Definition :=
  { d with body := d.body.muted }

namespace Value

mutual

/-- The value with the bodies of all its functions muted. -/
def muted : Value → Value
  | number n => number n
  | string s => string s
  | list items => list (mutedAll items)
  | function identity d => function identity d.muted
  | nil => nil

def mutedAll : List Value → List Value
  | [] => []
  | v :: vs => v.muted :: mutedAll vs

end

theorem mutedAll_eq_map (vs : List Value) : mutedAll vs = vs.map muted := by
  induction vs with
  | nil => rfl
  | cons v vs ih => exact congrArg (v.muted :: ·) ih

/-- To be alike but for muted functions is to be muted. -/
theorem alike_iff_muted {v w : Value} :
    Alike (fun _ => True) (fun d e => e = d.muted) v w ↔ w = v.muted := by
  induction v using inductionOnItems generalizing w with
  | number n => exact ⟨by rintro ⟨⟩; rfl, by rintro rfl; exact .number n⟩
  | string s => exact ⟨by rintro ⟨⟩; rfl, by rintro rfl; exact .string trivial⟩
  | list vs ih =>
    have hitems {ws : List Value} : List.Forall₂ _ vs ws ↔ ws = vs.map muted :=
      forall₂_iff_eq_map ih
    rw [muted, mutedAll_eq_map]
    constructor
    · rintro ⟨⟩
      obtain rfl := hitems.1 ‹_›
      rfl
    · rintro rfl
      exact .list (hitems.2 rfl)
  | function identity d =>
    constructor
    · rintro ⟨⟩
      rename_i h
      rw [h]
      rfl
    · rintro rfl
      exact .function identity rfl
  | nil => exact ⟨by rintro ⟨⟩; rfl, by rintro rfl; exact .nil⟩

end Value

/-! ## Muted scopes -/

namespace Bindings

variable {α β : Type}

/-- The same names, bound to the images. -/
def map (f : α → β) (b : Bindings α) : Bindings β where
  entries := b.entries.map fun e => (e.1, f e.2)
  sorted := List.pairwise_map.2 b.sorted

theorem get?_map (f : α → β) (b : Bindings α) (name : String) :
    (b.map f).get? name = (b.get? name).map f := by
  unfold get? map
  dsimp only
  induction b.entries with
  | nil => rfl
  | cons e es ih =>
    rw [List.map_cons, List.lookup_cons, List.lookup_cons, ih]
    cases name == e.1 <;> rfl

theorem map_insertEntry (f : α → β) (name : String) (a : α) (es : List (String × α)) :
    (insertEntry name a es).map (fun e => (e.1, f e.2)) =
      insertEntry name (f a) (es.map fun e => (e.1, f e.2)) := by
  induction es with
  | nil => rfl
  | cons e es ih =>
    rw [List.map_cons, insertEntry, insertEntry]
    dsimp only
    split
    · rfl
    · split
      · rfl
      · rw [List.map_cons, ih]

theorem map_insert (f : α → β) (b : Bindings α) (name : String) (a : α) :
    (b.insert name a).map f = (b.map f).insert name (f a) :=
  ext_entries (map_insertEntry f name a b.entries)

theorem map_insertAll (f : α → β) (b : Bindings α) (es : List (String × α)) :
    (b.insertAll es).map f = (b.map f).insertAll (es.map fun e => (e.1, f e.2)) := by
  unfold insertAll
  induction es generalizing b with
  | nil => rfl
  | cons e es ih => rw [List.foldl_cons, ih, map_insert, List.map_cons, List.foldl_cons]

theorem map_ofParams (f : Value → Value) (params : List String) (args : List Value) :
    (ofParams params args).map f = ofParams params (args.map f) := by
  rw [ofParams_eq, ofParams_eq, map_insertAll, List.zip_map_right]
  rfl

end Bindings

namespace Scope

/-- The scope with all its values muted. -/
def muted (s : Scope) : Scope :=
  ⟨s.top.map Value.muted, s.outer.map (Bindings.map Value.muted)⟩

theorem get?_muted (s : Scope) (name : String) :
    s.muted.get? name = (s.get? name).map Value.muted := by
  have hframes : s.muted.frames = s.frames.map (Bindings.map Value.muted) := rfl
  unfold get?
  rw [hframes]
  induction s.frames with
  | nil => rfl
  | cons frame frames ih =>
    rw [List.map_cons, List.findSome?_cons, List.findSome?_cons, ih, Bindings.get?_map]
    cases frame.get? name <;> rfl

theorem muted_define (s : Scope) (name : String) (v : Value) :
    (s.define name v).muted = s.muted.define name v.muted := by
  unfold define muted
  rw [Bindings.map_insert]

theorem muted_push (s : Scope) (frame : Bindings Value) :
    (s.push frame).muted = s.muted.push (frame.map Value.muted) :=
  rfl

theorem muted_pop (s : Scope) : s.pop.muted = s.muted.pop := by
  obtain ⟨top, _ | ⟨frame, outer⟩⟩ := s <;> rfl

end Scope

/-! ## The coupling -/

/-- A run, printing without a limit, and beside it the muted run, which leaves its output alone.
Nothing is said of the muted run where the other one ends at the depth limit. -/
def muting (limit : Nat) (out : Output) : Coupling where
  name _ := True
  string _ := True
  definition d e := e = d.muted
  machine m n := n.scope = m.scope.muted ∧ m.out.room = none ∧ n.out = out
  error _ := True
  stop e := e = .failure (.depthExceeded limit)

section

variable {limit : Nat} {out : Output}

theorem muting_value {v w : Value} : (muting limit out).value v w ↔ w = v.muted :=
  Value.alike_iff_muted

theorem lawful_muting : (muting limit out).Lawful where
  get? := by
    intro m n x hm _
    rw [hm.1, Scope.get?_muted]
    cases m.scope.get? x with
    | none => exact .none
    | some v => exact .some (muting_value.2 rfl)
  define := by
    intro m n x v w hm _ hvw
    obtain rfl := muting_value.1 hvw
    exact ⟨by rw [Scope.muted_define, ← hm.1], hm.2⟩
  same := by
    rintro d _ rfl
    exact ⟨rfl, rfl⟩
  arity _ _ _ := trivial
  error _ := trivial

theorem node_muted {e : Expr} (h : ∀ v, e ≠ .print v) :
    (muting limit out).Node (fun c c' => c' = c.muted) e e.muted := by
  have hargs (args : List Expr) :
      List.Forall₂ (fun c c' => c' = Expr.muted c) args (Expr.mutedAll args) := by
    exact (forall₂_iff_eq_map fun _ _ _ => Iff.rfl).2 (Expr.mutedAll_eq_map args)
  cases e with
  | number n => exact .number n
  | string s => exact .string trivial
  | symbol name => exact .symbol trivial
  | assign name value => exact .assign trivial rfl
  | cond test yes no => exact .cond rfl rfl rfl
  | print value => exact absurd rfl (h value)
  | defun name params body => exact .defun trivial trivial rfl
  | call name args => exact .call trivial (hargs args)
  | prim op args => exact .prim (fun _ _ => trivial) (hargs args)

/-- Printing goes beside doing nothing. -/
theorem runs_printLine_muted (text : String) {v w : Value} (h : (muting limit out).value v w) :
    (muting limit out).Runs (muting limit out).value (Run.printLine text >>= fun _ => pure v)
      (pure w) := by
  intro m n ⟨hscope, hroom, hout⟩
  have hprint := Run.printLine_eq text m
  rw [if_pos (Output.fits_of_room_eq_none hroom _), Output.write_of_room_eq_none hroom] at hprint
  rw [Run.bind_of_ok hprint]
  exact .ok h ⟨hscope, rfl, hout⟩

theorem Run.inFrame_muted {x y : Run Value}
    (h : (muting limit out).Runs (muting limit out).value x y) (frame : Bindings Value) :
    (muting limit out).Runs (muting limit out).value (inFrame frame x)
      (inFrame (frame.map Value.muted) y) := by
  intro m n ⟨hscope, hroom, hout⟩
  have hends := h { m with scope := m.scope.push frame }
    { n with scope := n.scope.push (frame.map Value.muted) }
    ⟨by rw [Scope.muted_push, ← hscope], hroom, hout⟩
  unfold inFrame
  generalize x _ = r at hends ⊢
  generalize y _ = q at hends ⊢
  cases hends with
  | ok hvw hm => exact .ok hvw ⟨by rw [Scope.muted_pop, ← hm.1], hm.2⟩
  | error he hm => exact .error he ⟨by rw [Scope.muted_pop, ← hm.1], hm.2⟩
  | stop he => exact .stop he

/-- A muted evaluation, with at least as many levels left, beside the evaluation itself. Induction
on the levels of the latter; a `print` uses up one of them, and none of the muted run. -/
theorem evalWithin_muted {room room' : Nat} (h : room ≤ room') (e : Expr) :
    (muting limit out).Runs (muting limit out).value (e.evalWithin limit room)
      (e.muted.evalWithin limit room') := by
  induction room generalizing room' e with
  | zero => exact Coupling.runs_stop rfl _
  | succ room ih =>
    by_cases hprint : ∃ v, e = .print v
    · obtain ⟨value, rfl⟩ := hprint
      have hvalue := ih (show room ≤ room' by omega) value
      rw [← bind_pure (Expr.evalWithin limit room' _)]
      exact hvalue.bind fun v w hvw => runs_printLine_muted v.render hvw
    · obtain ⟨room', rfl⟩ : ∃ n, room' = n + 1 := ⟨room' - 1, by omega⟩
      have hle : room ≤ room' := by omega
      refine lawful_muting.evalWithin_succ (node_muted fun v hv => hprint ⟨v, hv⟩) ?_ ?_
      · rintro c _ rfl
        exact ih hle c
      · rintro d _ rfl vs ws hvs
        have hws : ws = vs.map Value.muted :=
          (forall₂_iff_eq_map (f := Value.muted) fun _ _ _ => muting_value).1 hvs
        rw [hws, ← Bindings.map_ofParams]
        exact Run.inFrame_muted (ih hle d.body) _

theorem program_muted (limit : Nat) (out : Output) (p : Program) :
    (muting limit out).Runs (muting limit out).value (Program.eval limit p)
      (Program.eval limit p.muted) := by
  refine Coupling.runs_program (X := fun e e' => e' = e.muted) ?_ (fun _ => trivial)
    ((forall₂_iff_eq_map fun _ _ _ => Iff.rfl).2 rfl)
  rintro e _ rfl
  exact evalWithin_muted (Nat.le_refl _) e

end

/-- Printing does not influence evaluation. On an output without a limit, where a run does not end
at the depth limit, the muted program in the muted scope has the same outcome, muted, and leaves the
muted scope behind, and it prints nothing. -/
theorem eval_muted (limit : Nat) (p : Program) (scope : Scope) (out out' : Output)
    (hroom : out.room = none) :
    match Program.eval limit p ⟨scope, out⟩ with
    | .ok v m =>
      Program.eval limit p.muted ⟨scope.muted, out'⟩ = .ok v.muted ⟨m.scope.muted, out'⟩
    | .error e m => e ≠ .failure (.depthExceeded limit) →
      Program.eval limit p.muted ⟨scope.muted, out'⟩ = .error e ⟨m.scope.muted, out'⟩ := by
  have hends := program_muted limit out' p ⟨scope, out⟩ ⟨scope.muted, out'⟩
    ⟨rfl, hroom, rfl⟩
  generalize Program.eval limit p _ = r at hends ⊢
  generalize Program.eval limit p.muted _ = q at hends ⊢
  cases hends with
  | @ok v w m n hvw hm =>
    obtain ⟨nscope, nout⟩ := n
    obtain ⟨rfl, _, rfl⟩ := hm
    rw [muting_value.1 hvw]
  | @error e m n _ hm =>
    obtain ⟨nscope, nout⟩ := n
    obtain ⟨rfl, _, rfl⟩ := hm
    exact fun _ => rfl
  | stop he => exact fun hne => absurd he hne

/-- A function that prints, called under another name: muted, it runs on an output that is full. -/
theorem eval_muted_full :
    let p : Program := [.assign "g" (.symbol "f"), .print (.call "g" [.number .one])]
    let scope := Scope.global.define "f" (.function 0 ⟨"f", ["x"], .print (.symbol "x")⟩)
    Output.unbounded.room = none ∧
      ∃ m, Program.eval 4 p ⟨scope, .unbounded⟩ = .ok (.number .one) m ∧
        Program.eval 4 p.muted ⟨scope.muted, .limited 0⟩ =
          .ok (.number .one) ⟨m.scope.muted, .limited 0⟩ := by
  intro p scope
  obtain ⟨m, hrun⟩ : ∃ m, Program.eval 4 p ⟨scope, .unbounded⟩ = .ok (.number .one) m := ⟨_, rfl⟩
  have hmuted := eval_muted 4 p scope .unbounded (.limited 0) rfl
  rw [hrun] at hmuted
  exact ⟨rfl, m, hrun, hmuted⟩

end PrefixLisp
