import Mathlib.Data.List.Forall2
import PrefixLisp.Proofs.Scope
import PrefixLisp.Proofs.Text.ByteOrder

/-
  Scopes and what was done to them.

  A scope is reached from its outermost frame by defining names, pushing frames and popping them
  (`Scope.Step`). The `Scope.History` of these steps is kept without any map: for each frame that is
  still there, the list of all definitions that were made in it. One step keeps the scope and its
  history in accordance (`Records.step`), so any number of them does (`Records.run`), and a name
  looks up to the latest definition in the innermost frame with any (`Records.get?_eq_some_iff`).

  The frames below those that some steps push and pop stay as they are (`run_outer`). With the order
  of the listing this makes a scope a stack of maps (`scope_is_stack_of_maps`).
-/

namespace PrefixLisp

namespace Bindings

variable {α : Type}

/-- Sorted entries are found under their names. -/
theorem lookup_eq_some_iff_mem {es : List (String × α)} (h : es.Pairwise (·.1 < ·.1))
    {name : String} {a : α} : es.lookup name = some a ↔ (name, a) ∈ es := by
  induction es with
  | nil => exact ⟨nofun, nofun⟩
  | cons e es ih =>
    obtain ⟨he, hes⟩ := List.pairwise_cons.1 h
    rw [List.lookup_cons, List.mem_cons]
    by_cases hname : name = e.1
    · have hnone : (name, a) ∉ es := fun hmem => String.lt_irrefl _ (hname ▸ he _ hmem)
      rw [beq_iff_eq.2 hname, or_iff_left hnone]
      constructor
      · intro hsome
        exact Prod.ext hname (Option.some.inj hsome).symm
      · intro heq
        rw [← heq]
    · have hne : (name, a) ≠ e := fun heq => hname (congrArg Prod.fst heq)
      rw [beq_eq_false_iff_ne.2 hname, or_iff_right hne]
      exact ih hes

theorem mem_entries_iff (b : Bindings α) (name : String) (a : α) :
    (name, a) ∈ b.entries ↔ b.get? name = some a :=
  (lookup_eq_some_iff_mem b.sorted).symm

end Bindings

namespace Scope

/-- What can be done to a scope. -/
inductive Step where
  | define (name : String) (v : Value)
  | push
  | pop

def step (s : Scope) : Step → Scope
  | .define name v => s.define name v
  | .push => s.push .empty
  | .pop => s.pop

def run (s : Scope) (steps : List Step) : Scope :=
  steps.foldl step s

/-- How many frames stand above a frame behind the steps, if `above` stand there before them;
`none` if the frame itself is dropped on the way. -/
def Step.above? : (above : Nat) → List Step → Option Nat
  | n, [] => some n
  | n, .define _ _ :: steps => above? n steps
  | n, .push :: steps => above? (n + 1) steps
  | n + 1, .pop :: steps => above? n steps
  | 0, .pop :: _ => none

/-- The definitions that were made in the frames that are there, the latest first. -/
structure History where
  top : List (String × Value)
  outer : List (List (String × Value))

namespace History

def frames (h : History) : List (List (String × Value)) :=
  h.top :: h.outer

def step (h : History) : Step → History
  | .define name v => { h with top := (name, v) :: h.top }
  | .push => ⟨[], h.frames⟩
  | .pop =>
    match h.outer with
    | [] => h
    | top :: outer => ⟨top, outer⟩

def run (h : History) (steps : List Step) : History :=
  steps.foldl step h

/-- In the innermost frame in which the name was defined, it was last defined as `v`. -/
def Latest (h : History) (name : String) (v : Value) : Prop :=
  ∃ inner made outer, h.frames = inner ++ made :: outer ∧
    (∀ other ∈ inner, ∀ w, (name, w) ∉ other) ∧
    ∃ later earlier, made = later ++ (name, v) :: earlier ∧ ∀ w, (name, w) ∉ later

theorem lookup_eq_none_iff {name : String} {made : List (String × Value)} :
    made.lookup name = none ↔ ∀ v, (name, v) ∉ made := by
  rw [List.lookup_eq_none_iff]
  constructor
  · intro h v hv
    simpa using h _ hv
  · rintro h ⟨other, v⟩ hv
    rw [bne_iff_ne]
    rintro rfl
    exact h v hv

theorem lookup_eq_some_iff {name : String} {v : Value} {made : List (String × Value)} :
    made.lookup name = some v ↔
      ∃ later earlier, made = later ++ (name, v) :: earlier ∧ ∀ w, (name, w) ∉ later := by
  rw [List.lookup_eq_some_iff]
  simp only [← lookup_eq_none_iff, List.lookup_eq_none_iff]

theorem latest_iff {h : History} {name : String} {v : Value} :
    h.Latest name v ↔ h.frames.findSome? (·.lookup name) = some v := by
  rw [List.findSome?_eq_some_iff]
  constructor
  · intro ⟨inner, made, outer, hframes, hinner, hmade⟩
    exact ⟨inner, made, outer, hframes, lookup_eq_some_iff.2 hmade,
      fun other hother => lookup_eq_none_iff.2 (hinner other hother)⟩
  · intro ⟨inner, made, outer, hframes, hmade, hinner⟩
    exact ⟨inner, made, outer, hframes,
      fun other hother => lookup_eq_none_iff.1 (hinner other hother), lookup_eq_some_iff.1 hmade⟩

/-- The scope has the frames of the history, and each binds its names to what they were last defined
as. -/
def Records (s : Scope) (h : History) : Prop :=
  List.Forall₂ (fun frame made => ∀ name, frame.get? name = made.lookup name) s.frames h.frames

theorem records_root (root : Bindings Value) : Records ⟨root, []⟩ ⟨root.entries, []⟩ :=
  .cons (fun _ => rfl) .nil

namespace Records

variable {s : Scope} {h : History}

theorem step (hr : Records s h) (st : Step) : Records (s.step st) (h.step st) := by
  obtain ⟨top, outer⟩ := s
  obtain ⟨made, below⟩ := h
  obtain _ | ⟨htop, houter⟩ := hr
  cases st with
  | define name v =>
    refine .cons (fun other => ?_) houter
    have hbefore : top.get? other = made.lookup other := htop other
    show (top.insert name v).get? other = ((name, v) :: made).lookup other
    rw [Bindings.get?_insert, hbefore, List.lookup_cons]
    by_cases hname : other = name
    · rw [if_pos hname, beq_iff_eq.2 hname]
    · rw [if_neg hname, beq_eq_false_iff_ne.2 hname]
  | push => exact .cons (fun _ => rfl) (.cons htop houter)
  | pop =>
    cases houter with
    | nil => exact .cons htop .nil
    | cons htop' houter' => exact .cons htop' houter'

theorem run (hr : Records s h) (steps : List Step) : Records (s.run steps) (h.run steps) := by
  induction steps generalizing s h with
  | nil => exact hr
  | cons st steps ih => exact ih (hr.step st)

theorem get?_eq (hr : Records s h) (name : String) :
    s.get? name = h.frames.findSome? (·.lookup name) := by
  unfold Scope.get?
  unfold Records at hr
  generalize s.frames = frames, h.frames = history at hr ⊢
  induction hr with
  | nil => rfl
  | cons hframe _ ih => rw [List.findSome?_cons, List.findSome?_cons, hframe, ih]

theorem get?_eq_some_iff (hr : Records s h) (name : String) (v : Value) :
    s.get? name = some v ↔ h.Latest name v := by
  rw [hr.get?_eq, latest_iff]

theorem get?_eq_none_iff (hr : Records s h) (name : String) :
    s.get? name = none ↔ ∀ made ∈ h.frames, ∀ v, (name, v) ∉ made := by
  rw [hr.get?_eq, List.findSome?_eq_none_iff]
  exact forall₂_congr fun _ _ => lookup_eq_none_iff

end Records

end History

theorem run_append (s : Scope) (before after : List Step) :
    s.run (before ++ after) = (s.run before).run after :=
  List.foldl_append

/-- Steps that keep a frame leave all frames below it alone. -/
theorem run_outer {s : Scope} {above above' : Nat} {steps : List Step}
    (h : Step.above? above steps = some above') (hs : above ≤ s.outer.length) :
    (s.run steps).outer.drop above' = s.outer.drop above := by
  induction steps generalizing s above with
  | nil =>
    cases h
    rfl
  | cons st steps ih =>
    cases st with
    | define name v => exact ih (s := s.define name v) h hs
    | push => exact ih (s := s.push .empty) h (Nat.succ_le_succ hs)
    | pop =>
      cases above with
      | zero => cases h
      | succ above =>
        obtain ⟨top, _ | ⟨frame, outer⟩⟩ := s
        · exact absurd hs (Nat.not_succ_le_zero above)
        · exact ih (s := ⟨frame, outer⟩) h (Nat.le_of_succ_le_succ hs)

/-- A frame that is pushed and popped leaves nothing behind, whatever was done on top of it. -/
theorem run_push_pop (s : Scope) {steps : List Step} (h : Step.above? 0 steps = some 0) :
    s.run (.push :: steps ++ [.pop]) = s := by
  have houter : ((s.push .empty).run steps).outer = s.frames :=
    run_outer (s := s.push .empty) h (Nat.zero_le _)
  rw [run_append]
  exact pop_of_outer houter

/-- The names of the listing are in the order of their bytes. -/
theorem visible_byteOrder (s : Scope) :
    s.visible.entries.Pairwise fun e d => e.1.toUTF8.data.toList < d.1.toUTF8.data.toList :=
  s.visible.sorted.imp Utf8.toUTF8_lt

/-- Scopes are stacks of maps. Whatever steps were taken from an outermost frame on, a name looks up
to what it was last defined as in the innermost frame with a definition of it, and to nothing if no
frame has any. The listing is in strict order of the bytes of the names, so no name comes twice, and
it lists just what the names look up to. And a frame that is pushed and popped again leaves the
scope as it was, whatever was done in it and in frames on top of it. -/
theorem scope_is_stack_of_maps (root : Bindings Value) (steps : List Step) :
    let s := Scope.run ⟨root, []⟩ steps
    let h := History.run ⟨root.entries, []⟩ steps
    (∀ name v, s.get? name = some v ↔ h.Latest name v) ∧
    (∀ name, s.get? name = none ↔ ∀ made ∈ h.frames, ∀ v, (name, v) ∉ made) ∧
    s.visible.entries.Pairwise (fun e d => e.1.toUTF8.data.toList < d.1.toUTF8.data.toList) ∧
    (s.visible.entries.map Prod.fst).Nodup ∧
    (∀ name v, (name, v) ∈ s.visible.entries ↔ s.get? name = some v) ∧
    ∀ inner, Step.above? 0 inner = some 0 → s.run (.push :: inner ++ [.pop]) = s := by
  intro s h
  have hr : History.Records s h := (History.records_root root).run steps
  refine ⟨hr.get?_eq_some_iff, hr.get?_eq_none_iff, s.visible_byteOrder, ?_, fun name v => ?_,
    fun inner hinner => s.run_push_pop hinner⟩
  · refine List.pairwise_map.2 (s.visible.sorted.imp fun hlt heq => ?_)
    exact String.lt_irrefl _ (heq ▸ hlt)
  · rw [Bindings.mem_entries_iff, get?_visible]

end Scope

end PrefixLisp
