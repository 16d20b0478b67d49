import PrefixLisp.Eval

/-
  Look-ups through frames.

  A frame laid over another hides it (`Bindings.get?_overlay`), so the visible bindings of a scope
  look up to what the scope does (`Scope.get?_visible`). A binding is made in front of all others
  (`Scope.get?_define`), a pushed frame in front of the scope (`Scope.get?_push`), and the frame of
  a call binds its parameters the way one would bind them in any other frame
  (`Bindings.get?_insertAll`).

  Frames with the same look-ups are equal (`Bindings.ext_get?`), so the order in which different
  names are bound does not matter (`Bindings.insert_comm`). `Scope.Holds P s` says that all bindings
  of all frames are of `P`; whatever evaluation does to a scope keeps it, if what it binds is of
  `P`.
-/

namespace PrefixLisp

namespace Bindings

variable {α : Type}

/-- Bind one name after the other. -/
def insertAll (b : Bindings α) (es : List (String × α)) : Bindings α :=
  es.foldl (fun b e => b.insert e.1 e.2) b

/-- The last entry of a name counts. -/
theorem get?_insertAll (b : Bindings α) (es : List (String × α)) (name : String) :
    (b.insertAll es).get? name = (es.reverse.lookup name).or (b.get? name) := by
  unfold insertAll
  induction es generalizing b with
  | nil => rfl
  | cons e es ih =>
    rw [List.foldl_cons, ih, get?_insert, List.reverse_cons, List.lookup_append, Option.or_assoc]
    congr 1
    rw [List.lookup_cons, List.lookup_nil]
    by_cases h : name = e.1
    · rw [if_pos h, beq_iff_eq.2 h]
      rfl
    · rw [if_neg h, beq_eq_false_iff_ne.2 h]
      rfl

theorem lookup_reverse {es : List (String × α)} (h : es.Pairwise (·.1 < ·.1)) (name : String) :
    es.reverse.lookup name = es.lookup name := by
  induction es with
  | nil => rfl
  | cons e es ih =>
    obtain ⟨he, hes⟩ := List.pairwise_cons.1 h
    rw [List.reverse_cons, List.lookup_append, ih hes, List.lookup_cons, List.lookup_cons,
      List.lookup_nil]
    by_cases hname : name = e.1
    · have hnone : es.lookup name = none := by
        rw [List.lookup_eq_none_iff]
        intro d hd
        have hlt := he d hd
        rw [← hname] at hlt
        have hne : name ≠ d.1 := fun heq => String.lt_irrefl _ (heq ▸ hlt)
        simpa using hne
      rw [hnone, beq_iff_eq.2 hname]
      rfl
    · rw [beq_eq_false_iff_ne.2 hname]
      exact Option.or_none

theorem get?_overlay (upper lower : Bindings α) (name : String) :
    (upper.overlay lower).get? name = (upper.get? name).or (lower.get? name) := by
  have h := get?_insertAll lower upper.entries name
  rwa [lookup_reverse upper.sorted] at h

theorem ofParams_eq (params : List String) (args : List Value) :
    ofParams params args = empty.insertAll (params.zip args) :=
  rfl

/-- A name in front of all others is not among them. -/
theorem lookup_eq_none_of_lt {name : String} {es : List (String × α)} (h : ∀ e ∈ es, name < e.1) :
    es.lookup name = none := by
  rw [List.lookup_eq_none_iff]
  intro e he
  have hne : name ≠ e.1 := fun heq => String.lt_irrefl _ (heq ▸ h e he)
  simpa using hne

theorem lookup_cons_of_lt {name : String} {e : String × α} {es : List (String × α)}
    (h : (e :: es).Pairwise (·.1 < ·.1)) (hlt : name < e.1) : (e :: es).lookup name = none := by
  refine lookup_eq_none_of_lt (List.forall_mem_cons.2 ⟨hlt, fun d hd => ?_⟩)
  exact String.lt_trans hlt ((List.pairwise_cons.1 h).1 d hd)

/-- Sorted entries are determined by what they look up to. -/
theorem entries_eq_of_lookup {es ds : List (String × α)} (hes : es.Pairwise (·.1 < ·.1))
    (hds : ds.Pairwise (·.1 < ·.1)) (h : ∀ name, es.lookup name = ds.lookup name) : es = ds := by
  induction es generalizing ds with
  | nil =>
    cases ds with
    | nil => rfl
    | cons d ds =>
      have hd := h d.1
      rw [List.lookup_nil, List.lookup_cons_self] at hd
      cases hd
  | cons e es ih =>
    have he := h e.1
    rw [List.lookup_cons_self] at he
    cases ds with
    | nil => cases he
    | cons d ds =>
      have hd := h d.1
      rw [List.lookup_cons_self] at hd
      -- A first name that came before the other one would not be found in the other list.
      have hname : e.1 = d.1 := by
        refine String.le_antisymm (String.not_lt.1 fun hlt => ?_) (String.not_lt.1 fun hlt => ?_)
        · rw [lookup_cons_of_lt hes hlt] at hd
          cases hd
        · rw [lookup_cons_of_lt hds hlt] at he
          cases he
      rw [hname, List.lookup_cons_self] at he
      obtain rfl : e = d := Prod.ext hname (Option.some.inj he)
      have ⟨hes₁, hes⟩ := List.pairwise_cons.1 hes
      have ⟨hds₁, hds⟩ := List.pairwise_cons.1 hds
      refine congrArg (e :: ·) (ih hes hds fun name => ?_)
      by_cases hne : name = e.1
      · rw [hne, lookup_eq_none_of_lt hes₁, lookup_eq_none_of_lt hds₁]
      · have hrest := h name
        rwa [List.lookup_cons, List.lookup_cons, beq_eq_false_iff_ne.2 hne] at hrest

theorem ext_entries {b c : Bindings α} (h : b.entries = c.entries) : b = c := by
  cases b
  cases c
  cases h
  rfl

theorem ext_get? {b c : Bindings α} (h : ∀ name, b.get? name = c.get? name) : b = c :=
  ext_entries (entries_eq_of_lookup b.sorted c.sorted h)

theorem insert_comm {name other : String} (h : name ≠ other) (b : Bindings α) (a c : α) :
    (b.insert name a).insert other c = (b.insert other c).insert name a := by
  refine ext_get? fun x => ?_
  rw [get?_insert, get?_insert, get?_insert, get?_insert]
  by_cases hx : x = other
  · rw [if_pos hx, if_neg (hx ▸ h.symm), if_pos hx]
  · rw [if_neg hx, if_neg hx]

/-! ## What all bindings have -/

/-- All bindings of the frame are of `P`. -/
def Holds (P : String → α → Prop) (b : Bindings α) : Prop :=
  ∀ name a, b.get? name = some a → P name a

variable {P : String → α → Prop} {b : Bindings α}

theorem holds_empty : (empty : Bindings α).Holds P :=
  nofun

theorem Holds.insert (h : b.Holds P) {name : String} {a : α} (ha : P name a) :
    (b.insert name a).Holds P := by
  intro other c hc
  rw [get?_insert] at hc
  split at hc
  · cases hc
    rename_i heq
    rwa [heq]
  · exact h other c hc

theorem Holds.insertAll (h : b.Holds P) {es : List (String × α)} (hes : ∀ e ∈ es, P e.1 e.2) :
    (b.insertAll es).Holds P := by
  induction es generalizing b with
  | nil => exact h
  | cons e es ih =>
    obtain ⟨he, hes⟩ := List.forall_mem_cons.1 hes
    exact ih (h.insert he) hes

theorem holds_ofParams {P : String → Value → Prop} {params : List String} {args : List Value}
    (h : ∀ p ∈ params, ∀ v ∈ args, P p v) : (ofParams params args).Holds P := by
  rw [ofParams_eq]
  refine holds_empty.insertAll fun e he => ?_
  have ⟨hp, hv⟩ := List.of_mem_zip he
  exact h e.1 hp e.2 hv

end Bindings

namespace Scope

theorem get?_eq (s : Scope) (name : String) :
    s.get? name = (s.top.get? name).or (s.outer.findSome? (·.get? name)) := by
  unfold get? frames
  rw [List.findSome?_cons]
  cases s.top.get? name <;> rfl

theorem get?_define (s : Scope) (name other : String) (v : Value) :
    (s.define name v).get? other = if other = name then some v else s.get? other := by
  rw [get?_eq, get?_eq]
  unfold define
  dsimp only
  rw [Bindings.get?_insert]
  split <;> rfl

theorem get?_push (s : Scope) (frame : Bindings Value) (name : String) :
    (s.push frame).get? name = (frame.get? name).or (s.get? name) :=
  get?_eq _ _

theorem get?_visible (s : Scope) (name : String) : s.visible.get? name = s.get? name := by
  unfold visible get?
  induction s.frames with
  | nil => rfl
  | cons frame frames ih =>
    rw [List.foldr_cons, Bindings.get?_overlay, ih, List.findSome?_cons]
    cases frame.get? name <;> rfl

/-- Dropping the frame of a call leaves the caller's scope, if the frames below it are as they
were. -/
theorem pop_of_outer {s caller : Scope} (h : s.outer = caller.frames) : s.pop = caller := by
  unfold pop
  rw [h]
  rfl

/-- All bindings of all frames are of `P`. -/
def Holds (P : String → Value → Prop) (s : Scope) : Prop :=
  ∀ frame ∈ s.frames, frame.Holds P

variable {P : String → Value → Prop} {s : Scope}

theorem holds_empty : empty.Holds P :=
  List.forall_mem_singleton.2 Bindings.holds_empty

namespace Holds

theorem get? (h : s.Holds P) {name : String} {v : Value} (hv : s.get? name = some v) :
    P name v := by
  obtain ⟨frame, hframe, hget⟩ := List.exists_of_findSome?_eq_some hv
  exact h frame hframe name v hget

theorem define (h : s.Holds P) {name : String} {v : Value} (hv : P name v) :
    (s.define name v).Holds P := by
  obtain ⟨htop, houter⟩ := List.forall_mem_cons.1 h
  exact List.forall_mem_cons.2 ⟨htop.insert hv, houter⟩

theorem push (h : s.Holds P) {frame : Bindings Value} (hframe : frame.Holds P) :
    (s.push frame).Holds P :=
  List.forall_mem_cons.2 ⟨hframe, h⟩

theorem pop (h : s.Holds P) : s.pop.Holds P := by
  obtain ⟨top, _ | ⟨frame, outer⟩⟩ := s
  · exact h
  · exact fun f hf => h f (List.mem_cons_of_mem top hf)

end Holds

end Scope

end PrefixLisp
