import PrefixLisp.Proofs.Eval.Coupling
import PrefixLisp.Proofs.Scope
import PrefixLisp.Proofs.Session.Lines

/-
  What a session keeps.

  Whatever is read from a source text is well-formed: its names are names, its strings hold no
  quote, its operators have operands, and its definitions name each parameter once and stay within
  the nesting limit. A run makes its names, strings and functions from these, and the builtins only
  pass them on. So all that is ever bound in a session and all that it returns is well-formed, after
  any number of source texts, whether they failed or not (`session_wellFormed`). Evaluation has
  errors for trees that are not well-formed, and for calls that it never makes; a session does not
  come across them.

  The run is coupled with itself (`wellFormed`), so evaluation is an instance of
  `Coupling.evalWithin_diagonal`; from one source text to all of them is an induction on their
  number (`Session.eval_wellFormed`, `Session.after_wellFormed`).
-/

namespace PrefixLisp

/-! ## Well-formed values -/

/-- An expression that stands in a program that is well-formed under this nesting limit. -/
structure Expr.WellFormed (limit : Nat) (e : Expr) : Prop where
  writable : e.All Writable
  distinctParams : e.All DistinctParams
  height_le : e.height ≤ limit

/-- A function that such a program can define. -/
structure Definition.WellFormed (limit : Nat) (d : Definition) : Prop where
  name : IsName d.name
  params : ∀ p ∈ d.params, IsName p
  distinct : d.params.Nodup
  writable : d.body.All Expr.Writable
  distinctParams : d.body.All Expr.DistinctParams
  height_lt : d.body.height < limit

/-- No string in the value has a quote in it, and all functions in it are well-formed. -/
def Value.WellFormed (limit : Nat) (v : Value) : Prop :=
  v.Leaves (fun s => '"' ∉ s.toList) (Definition.WellFormed limit)

/-- What is bound are names, and they are bound to well-formed values. -/
def Scope.WellFormed (limit : Nat) (s : Scope) : Prop :=
  s.Holds fun name v => IsName name ∧ v.WellFormed limit

namespace Expr

theorem Writable.isName {e : Expr} (h : e.Writable) : ∀ x ∈ e.ownNames, IsName x := by
  cases e with
  | symbol | assign | call => exact List.forall_mem_singleton.2 h
  | defun => exact List.forall_mem_cons.2 h
  | number | string | cond | print | prim => exact List.forall_mem_nil _

theorem WellFormed.child {limit : Nat} {e c : Expr} (h : e.WellFormed limit)
    (hc : c ∈ e.children) : c.WellFormed limit ∧ c.height < limit := by
  have hheight := (height_le_iff.1 h.height_le).2 c hc
  exact ⟨⟨(all_iff.1 h.writable).2 c hc, (all_iff.1 h.distinctParams).2 c hc, by omega⟩, by omega⟩

end Expr

theorem Definition.WellFormed.body {limit : Nat} {d : Definition} (h : d.WellFormed limit) :
    d.body.WellFormed limit :=
  ⟨h.writable, h.distinctParams, Nat.le_of_lt h.height_lt⟩

theorem Definition.WellFormed.of_defun {limit : Nat} {f : String} {params : List String}
    {body : Expr} (h : (Expr.defun f params body).WellFormed limit) :
    Definition.WellFormed limit ⟨f, params, body⟩ := by
  have ⟨hname, hparams⟩ := (Expr.all_iff.1 h.writable).1
  have ⟨hbody, hheight⟩ := h.child List.mem_cons_self
  exact ⟨hname, hparams, (Expr.all_iff.1 h.distinctParams).1, hbody.writable, hbody.distinctParams,
    hheight⟩

theorem Program.WellFormed.expr {config : Config} {p : Program} (h : p.WellFormed config) {e : Expr}
    (he : e ∈ p) : e.WellFormed config.nestingLimit :=
  ⟨h.writable e he, h.distinctParams e he, h.height_le e he⟩

/-! ## One run -/

/-- A run, and beside it the same run, where all that is seen is well-formed. -/
def wellFormed (limit : Nat) : Coupling where
  name := IsName
  string s := '"' ∉ s.toList
  definition d e := d = e ∧ d.WellFormed limit
  machine m n := m = n ∧ m.scope.WellFormed limit
  error e := ¬e.Defensive
  stop _ := False

section

variable {limit : Nat}

theorem wellFormed_value {v w : Value} :
    (wellFormed limit).value v w ↔ v = w ∧ v.WellFormed limit :=
  Coupling.diagonal_value

theorem lawful_wellFormed : (wellFormed limit).Lawful := by
  refine Coupling.lawful_diagonal ?_ fun _ h => h.not_defensive
  rintro d hd expected given ⟨_, heq⟩
  exact hd.name.ne_symbol _ heq

theorem node_wellFormed {e : Expr} (h : e.WellFormed limit) :
    (wellFormed limit).Node (fun c c' => c = c' ∧ c.WellFormed limit) e e := by
  have hwritable := (Expr.all_iff.1 h.writable).1
  refine Coupling.node_self (fun c hc => (h.child hc).1) hwritable.isName ?_ ?_
    (fun _ _ => Coupling.runs_printLine_diagonal nofun) ?_
  · rintro s rfl
    exact hwritable
  · rintro f params body rfl
    exact ⟨hwritable.1.1.quote_not_mem, rfl, .of_defun h⟩
  · rintro op rfl _
    exact absurd rfl hwritable

theorem evalWithin_wellFormed (depthLimit room : Nat) {e : Expr} (he : e.WellFormed limit) :
    (wellFormed limit).Runs (wellFormed limit).value (e.evalWithin depthLimit room)
      (e.evalWithin depthLimit room) :=
  Coupling.evalWithin_diagonal (P := fun _ e => e.WellFormed limit) lawful_wellFormed
    (fun _ _ => nofun) (fun _ _ => node_wellFormed) (fun _ _ hd => ⟨hd.body, hd.params⟩) he

end

theorem program_wellFormed {config : Config} {p : Program} (h : p.WellFormed config) :
    (wellFormed config.nestingLimit).Runs (wellFormed config.nestingLimit).value
      (Program.eval config.depthLimit p) (Program.eval config.depthLimit p) := by
  refine Coupling.runs_program (X := fun c c' => c = c' ∧ c.WellFormed config.nestingLimit) ?_
    (fun hnil => absurd hnil h.ne_nil) (List.forall₂_same.2 fun e he => ⟨rfl, h.expr he⟩)
  rintro e _ ⟨rfl, he⟩
  exact evalWithin_wellFormed _ _ he

/-! ## Sessions -/

theorem Program.ofSource_ne_eval {config : Config} {source : String} {e : EvalError} :
    Program.ofSource config source ≠ .error (.eval e) := by
  have hparse (r : Except ParseError Program) : r.mapError Error.parse ≠ .error (.eval e) := by
    cases r <;> exact nofun
  unfold ofSource
  dsimp only
  split
  · exact nofun
  · exact hparse _

theorem Scope.wellFormed_global (limit : Nat) : global.WellFormed limit := by
  have hname : IsName "nil" :=
    ⟨⟨_, _, rfl, by decide, List.all_eq_true.1 (by decide)⟩, fun k => by cases k <;> decide⟩
  exact holds_empty.define ⟨hname, Value.leaves_nil⟩

namespace Session

/-- The session behind source texts that are run one by one, each with an output of its own. -/
def after (s : Session) (calls : List (String × Output)) : Session :=
  calls.foldl (fun s call => (s.eval call.1 call.2).2.1) s

/-- A source text leaves well-formed bindings behind, and ends in a well-formed value or in an
error that is not a defensive one. -/
theorem eval_wellFormed {s : Session} (h : s.globals.WellFormed s.config.nestingLimit)
    (source : String) (out : Output) :
    (s.eval source out).2.1.globals.WellFormed s.config.nestingLimit ∧
      (∀ v, (s.eval source out).1 = .ok v → v.WellFormed s.config.nestingLimit) ∧
        ∀ e, (s.eval source out).1 = .error (.eval e) → ¬e.Defensive := by
  unfold eval
  cases hparse : s.parse source with
  | error e =>
    refine ⟨h, nofun, ?_⟩
    rintro e' ⟨⟩
    exact absurd hparse Program.ofSource_ne_eval
  | ok p =>
    have hends := program_wellFormed (Program.WellFormed.of_ofSource hparse) ⟨s.globals, out⟩ _
      ⟨rfl, h⟩
    dsimp only
    generalize Program.eval s.config.depthLimit p _ = r at hends ⊢
    cases hends with
    | ok hv hm =>
      dsimp only
      refine ⟨hm.2, ?_, fun _ h => nomatch h⟩
      rintro _ ⟨⟩
      exact (wellFormed_value.1 hv).2
    | error he hm =>
      dsimp only
      refine ⟨hm.2, nofun, ?_⟩
      rintro _ ⟨⟩
      exact he
    | stop he => exact he.elim

theorem after_wellFormed {s : Session} (h : s.globals.WellFormed s.config.nestingLimit)
    (calls : List (String × Output)) :
    (s.after calls).config = s.config ∧
      (s.after calls).globals.WellFormed s.config.nestingLimit := by
  induction calls generalizing s with
  | nil => exact ⟨rfl, h⟩
  | cons call calls ih =>
    have hconfig := s.eval_config call.1 call.2
    have hglobals := (eval_wellFormed h call.1 call.2).1
    rw [← hconfig] at hglobals ⊢
    exact ih hglobals

end Session

/-- In every session, whatever source texts it has run so far, all names that are bound are names
and all values that are bound are well-formed. The next source text, whatever it is, has no value
that is not well-formed, and it does not end in a defensive error, nor in one that is worded like a
defensive failure. -/
theorem session_wellFormed (config : Config) (calls : List (String × Output)) (source : String)
    (out : Output) :
    let s := (Session.new config).after calls
    s.globals.WellFormed config.nestingLimit ∧
      (∀ v, (s.eval source out).1 = .ok v → v.WellFormed config.nestingLimit) ∧
        ∀ e, (s.eval source out).1 = .error (.eval e) → ¬e.Defensive ∧
          ∀ f : EvalError.Failure, f.Defensive → e.message ≠ (EvalError.failure f).message := by
  intro s
  obtain ⟨hconfig, hglobals⟩ :=
    Session.after_wellFormed (s := .new config) (Scope.wellFormed_global _) calls
  have hconfig : s.config = config := hconfig
  have hs : s.globals.WellFormed s.config.nestingLimit := by
    rw [hconfig]
    exact hglobals
  obtain ⟨_, hvalue, herror⟩ := Session.eval_wellFormed hs source out
  rw [hconfig] at hvalue
  refine ⟨hglobals, hvalue, fun e he => ⟨herror e he, fun f hf => ?_⟩⟩
  exact EvalError.message_ne (herror e he) hf

end PrefixLisp
