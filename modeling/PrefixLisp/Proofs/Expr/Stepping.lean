import Mathlib.Data.List.Nodup
import PrefixLisp.Expr.Reader
import PrefixLisp.Proofs.Expr.Occurrence

/-
  What one token does to the reader.

  `Reader.Steps limit r t r'` lists the ways on which the reader takes a token, guards included,
  and `step_eq_ok_iff` says that `Reader.step` succeeds on these and no others. What a run keeps
  is proved from this list, never from the body of `step`.

  `Expr.Fits limit d e` says that everything in `e` starts above the nesting limit if `e` itself
  starts at depth `d`, and that no definition in `e` repeats a parameter. A reader is `Bounded`
  if it holds only such expressions, and every step keeps it so (`Steps.bounded`).
-/

namespace PrefixLisp

/-- A definition names each parameter once; other expressions have none. -/
def Expr.DistinctParams : Expr → Prop
  | .defun _ params _ => params.Nodup
  | _ => True

/-- Starting at depth `d`, the expression has nothing in it that starts at the limit or deeper,
and no definition that repeats a parameter. -/
def Expr.Fits (limit d : Nat) (e : Expr) : Prop :=
  d + e.height ≤ limit ∧ e.All DistinctParams

theorem Expr.fits_iff {limit d : Nat} {e : Expr} :
    e.Fits limit d ↔
      d < limit ∧ e.DistinctParams ∧ ∀ c ∈ e.children, c.Fits limit (d + 1) := by
  have hheight : d + e.height ≤ limit ↔
      d < limit ∧ ∀ c ∈ e.children, d + 1 + c.height ≤ limit := by
    constructor
    · intro h
      obtain ⟨hpos, hc⟩ := height_le_iff.1 (show e.height ≤ limit - d by omega)
      exact ⟨by omega, fun c hmem => by have := hc c hmem; omega⟩
    · intro ⟨hd, hc⟩
      have := height_le_iff (e := e) (n := limit - d) |>.2
        ⟨by omega, fun c hmem => by have := hc c hmem; omega⟩
      omega
  unfold Fits
  rw [hheight, all_iff]
  constructor
  · intro ⟨⟨hd, hc⟩, he, hall⟩
    exact ⟨hd, he, fun c hmem => ⟨hc c hmem, hall c hmem⟩⟩
  · intro ⟨hd, he, hc⟩
    exact ⟨⟨hd, fun c hmem => (hc c hmem).1⟩, he, fun c hmem => (hc c hmem).2⟩

namespace Reader

/-- All the ways on which the reader takes a token. -/
inductive Steps (limit : Nat) : Reader → Token → Reader → Prop where
  | number {frames : List Frame} {finished : List Expr} {t : Token} {n : Number}
      (hd : frames.length < limit) (ht : t.kind = .number n) :
      Steps limit ⟨.expression, frames, finished⟩ t (accept (.number n) frames finished)
  | string {frames : List Frame} {finished : List Expr} {t : Token}
      (hd : frames.length < limit) (ht : t.kind = .string) :
      Steps limit ⟨.expression, frames, finished⟩ t
        (accept (.ofStringLexeme t.lexeme) frames finished)
  | symbol {frames : List Frame} {finished : List Expr} {t : Token}
      (hd : frames.length < limit) (ht : t.kind = .symbol) :
      Steps limit ⟨.expression, frames, finished⟩ t (accept (.symbol t.lexeme) frames finished)
  | openParen {frames : List Frame} {finished : List Expr} {t : Token}
      (hd : frames.length < limit) (ht : t.kind = .openParen) :
      Steps limit ⟨.expression, frames, finished⟩ t ⟨.form, frames, finished⟩
  | endCall {name : String} {args : List Expr} {frames : List Frame} {finished : List Expr}
      {t : Token} (ht : t.kind = .closeParen) :
      Steps limit ⟨.expression, .call name args :: frames, finished⟩ t
        (accept (.call name args.reverse) frames finished)
  | endPrim {op : Operator} {args : List Expr} {frames : List Frame} {finished : List Expr}
      {t : Token} (hne : args ≠ []) (ht : t.kind = .closeParen) :
      Steps limit ⟨.expression, .prim op args :: frames, finished⟩ t
        (accept (.prim op args.reverse) frames finished)
  | defun {frames : List Frame} {finished : List Expr} {t : Token}
      (ht : t.kind = .keyword .defun) :
      Steps limit ⟨.form, frames, finished⟩ t ⟨.functionName, frames, finished⟩
  | setq {frames : List Frame} {finished : List Expr} {t : Token} (ht : t.kind = .keyword .setq) :
      Steps limit ⟨.form, frames, finished⟩ t ⟨.variableName, frames, finished⟩
  | cond {frames : List Frame} {finished : List Expr} {t : Token}
      (ht : t.kind = .keyword .ifElse) :
      Steps limit ⟨.form, frames, finished⟩ t ⟨.expression, .test :: frames, finished⟩
  | print {frames : List Frame} {finished : List Expr} {t : Token}
      (ht : t.kind = .keyword .print) :
      Steps limit ⟨.form, frames, finished⟩ t ⟨.expression, .print :: frames, finished⟩
  | call {frames : List Frame} {finished : List Expr} {t : Token} (ht : t.kind = .symbol) :
      Steps limit ⟨.form, frames, finished⟩ t
        ⟨.expression, .call t.lexeme [] :: frames, finished⟩
  | prim {frames : List Frame} {finished : List Expr} {t : Token} {op : Operator}
      (ht : t.kind = .operator op) :
      Steps limit ⟨.form, frames, finished⟩ t ⟨.expression, .prim op [] :: frames, finished⟩
  | variableName {frames : List Frame} {finished : List Expr} {t : Token}
      (ht : t.kind = .symbol) :
      Steps limit ⟨.variableName, frames, finished⟩ t
        ⟨.expression, .assign t.lexeme :: frames, finished⟩
  | functionName {frames : List Frame} {finished : List Expr} {t : Token}
      (ht : t.kind = .symbol) :
      Steps limit ⟨.functionName, frames, finished⟩ t ⟨.parameterList t.lexeme, frames, finished⟩
  | parameterList {name : String} {frames : List Frame} {finished : List Expr} {t : Token}
      (ht : t.kind = .openParen) :
      Steps limit ⟨.parameterList name, frames, finished⟩ t ⟨.parameters name [], frames, finished⟩
  | parameter {name : String} {params : List String} {frames : List Frame}
      {finished : List Expr} {t : Token} (hnew : t.lexeme ∉ params) (ht : t.kind = .symbol) :
      Steps limit ⟨.parameters name params, frames, finished⟩ t
        ⟨.parameters name (t.lexeme :: params), frames, finished⟩
  | endParameters {name : String} {params : List String} {frames : List Frame}
      {finished : List Expr} {t : Token} (ht : t.kind = .closeParen) :
      Steps limit ⟨.parameters name params, frames, finished⟩ t
        ⟨.expression, .body name params.reverse :: frames, finished⟩
  | close {form : Expr} {frames : List Frame} {finished : List Expr} {t : Token}
      (ht : t.kind = .closeParen) :
      Steps limit ⟨.close form, frames, finished⟩ t (accept form frames finished)

variable {limit : Nat}

theorem beginExpression_steps {r r' : Reader} {t : Token} (hr : r.focus = .expression)
    (h : beginExpression limit r t = .ok r') : Steps limit r t r' := by
  obtain ⟨focus, frames, finished⟩ := r
  subst hr
  unfold beginExpression at h
  split at h
  · cases h
  · rename_i hd
    have hd := Nat.not_le.1 hd
    split at h <;> cases h
    · exact .number hd ‹_›
    · exact .string hd ‹_›
    · exact .symbol hd ‹_›
    · exact .openParen hd ‹_›

theorem beginForm_steps {r r' : Reader} {t : Token} (hr : r.focus = .form)
    (h : beginForm r t = .ok r') : Steps limit r t r' := by
  obtain ⟨focus, frames, finished⟩ := r
  subst hr
  unfold beginForm at h
  split at h <;> cases h
  · exact .defun ‹_›
  · exact .setq ‹_›
  · exact .cond ‹_›
  · exact .print ‹_›
  · exact .call ‹_›
  · exact .prim ‹_›

theorem steps_of_step {r r' : Reader} {t : Token} (h : step limit r t = .ok r') :
    Steps limit r t r' := by
  obtain ⟨focus, frames, finished⟩ := r
  cases focus with
  | expression =>
    simp only [step] at h
    split at h
    · cases h
      exact .endCall ‹_›
    · cases h
    · rename_i hne ht
      cases h
      exact .endPrim hne ht
    · exact beginExpression_steps rfl h
  | form => exact beginForm_steps rfl h
  | variableName =>
    simp only [step] at h
    split at h <;> cases h
    exact .variableName ‹_›
  | functionName =>
    simp only [step] at h
    split at h <;> cases h
    exact .functionName ‹_›
  | parameterList name =>
    simp only [step] at h
    split at h <;> cases h
    exact .parameterList ‹_›
  | parameters name params =>
    simp only [step] at h
    split at h
    · cases h
      exact .endParameters ‹_›
    · split at h
      · split at h <;> cases h
        exact .parameter ‹_› ‹_›
      · cases h
  | close form =>
    simp only [step] at h
    split at h <;> cases h
    exact .close ‹_›

theorem step_of_steps {r r' : Reader} {t : Token} (h : Steps limit r t r') :
    step limit r t = .ok r' := by
  cases h with
  | number hd ht | string hd ht | symbol hd ht | openParen hd ht =>
    simp [step, beginExpression, ht, Nat.not_le.2 hd]
  | endCall ht => simp [step, ht]
  | @endPrim op args frames finished t hne ht =>
    obtain ⟨a, as, rfl⟩ := List.exists_cons_of_ne_nil hne
    simp [step, ht]
  | defun ht | setq ht | cond ht | print ht | call ht | prim ht => simp [step, beginForm, ht]
  | parameter hnew ht => simp [step, ht, hnew]
  | variableName ht | functionName ht | parameterList ht | endParameters ht | close ht =>
    simp [step, ht]

theorem step_eq_ok_iff {r r' : Reader} {t : Token} :
    step limit r t = .ok r' ↔ Steps limit r t r' :=
  ⟨steps_of_step, step_of_steps⟩

/-! ## Runs -/

theorem run_cons (r : Reader) (t : Token) (ts : List Token) :
    run limit r (t :: ts) = (step limit r t).bind fun r => run limit r ts := rfl

theorem run_append (r : Reader) (ts us : List Token) :
    run limit r (ts ++ us) = (run limit r ts).bind fun r => run limit r us :=
  List.foldlM_append

theorem run_cons_of_steps {r r' : Reader} {t : Token} (h : Steps limit r t r')
    (ts : List Token) : run limit r (t :: ts) = run limit r' ts := by
  rw [run_cons, step_of_steps h]
  rfl

theorem run_append_of_run {r r' : Reader} {ts : List Token} (h : run limit r ts = .ok r')
    (us : List Token) : run limit r (ts ++ us) = run limit r' us := by
  rw [run_append, h]
  rfl

theorem run_cons_eq_ok {r r' : Reader} {t : Token} {ts : List Token}
    (h : run limit r (t :: ts) = .ok r') :
    ∃ r₁, Steps limit r t r₁ ∧ run limit r₁ ts = .ok r' := by
  rw [run_cons] at h
  cases hs : step limit r t with
  | error e =>
    rw [hs] at h
    cases h
  | ok r₁ =>
    rw [hs] at h
    exact ⟨r₁, steps_of_step hs, h⟩

/-- What every step keeps, every run keeps; `P` may speak of the tokens that were taken. -/
theorem run_induction {P : Reader → List Token → Prop}
    (hstep : ∀ {r r' : Reader} {taken : List Token} {t : Token},
      P r taken → Steps limit r t r' → P r' (taken ++ [t]))
    {r r' : Reader} (taken : List Token) {ts : List Token} (hr : P r taken)
    (h : run limit r ts = .ok r') : P r' (taken ++ ts) := by
  induction ts generalizing r taken with
  | nil =>
    cases h
    rwa [List.append_nil]
  | cons t ts ih =>
    obtain ⟨r₁, hs, hrest⟩ := run_cons_eq_ok h
    rw [List.append_cons]
    exact ih (taken ++ [t]) (hstep hr hs) hrest

/-! ## Bounds -/

/-- The complete expressions that an open form holds. -/
def Frame.parts : Frame → List Expr
  | .assign _ | .test | .print | .body _ _ => []
  | .yes t => [t]
  | .no t y => [t, y]
  | .call _ args | .prim _ args => args

def Frame.params : Frame → List String
  | .body _ params => params
  | _ => []

/-- Every open form stands above the limit, and what it holds fits one level deeper. -/
def FramesFit (limit : Nat) : List Frame → Prop
  | [] => True
  | f :: fs =>
    fs.length < limit ∧ f.params.Nodup ∧ (∀ e ∈ f.parts, e.Fits limit (fs.length + 1)) ∧
      FramesFit limit fs

def Focus.Fits (limit d : Nat) : Focus → Prop
  | .expression => True
  | .form | .variableName | .functionName | .parameterList _ => d < limit
  | .parameters _ params => d < limit ∧ params.Nodup
  | .close e => e.Fits limit d

structure Bounded (limit : Nat) (r : Reader) : Prop where
  finished : ∀ e ∈ r.finished, e.Fits limit 0
  frames : FramesFit limit r.frames
  focus : r.focus.Fits limit r.frames.length

theorem start_bounded : Bounded limit start :=
  ⟨nofun, trivial, trivial⟩

theorem accept_bounded {e : Expr} {frames : List Frame} {finished : List Expr}
    (he : e.Fits limit frames.length) (hframes : FramesFit limit frames)
    (hfinished : ∀ e ∈ finished, e.Fits limit 0) : Bounded limit (accept e frames finished) := by
  cases frames with
  | nil => exact ⟨List.forall_mem_cons.2 ⟨he, hfinished⟩, trivial, trivial⟩
  | cons f fs =>
    obtain ⟨hlt, hparams, hparts, hfs⟩ := hframes
    cases f with
    | test =>
      exact ⟨hfinished, ⟨hlt, .nil, by simpa [Frame.parts] using he, hfs⟩, trivial⟩
    | yes test =>
      refine ⟨hfinished, ⟨hlt, .nil, ?_, hfs⟩, trivial⟩
      exact List.forall_mem_cons.2 ⟨hparts test List.mem_cons_self, by simpa using he⟩
    | call _ args | prim _ args =>
      exact ⟨hfinished, ⟨hlt, .nil, List.forall_mem_cons.2 ⟨he, hparts⟩, hfs⟩, trivial⟩
    | assign | print =>
      exact ⟨hfinished, hfs, Expr.fits_iff.2 ⟨hlt, trivial, List.forall_mem_singleton.2 he⟩⟩
    | body name params =>
      exact ⟨hfinished, hfs, Expr.fits_iff.2 ⟨hlt, hparams, List.forall_mem_singleton.2 he⟩⟩
    | no test yes =>
      refine ⟨hfinished, hfs, Expr.fits_iff.2 ⟨hlt, trivial, ?_⟩⟩
      have ⟨htest, hyes⟩ := List.forall_mem_cons.1 hparts
      exact List.forall_mem_cons.2 ⟨htest, List.forall_mem_cons.2
        ⟨List.forall_mem_singleton.1 hyes, List.forall_mem_singleton.2 he⟩⟩

/-- An expression of one token fits wherever one more level is free. -/
theorem fits_leaf {d : Nat} {e : Expr} (hd : d < limit) (he : e.children = [])
    (hparams : e.DistinctParams) : e.Fits limit d :=
  Expr.fits_iff.2 ⟨hd, hparams, by rw [he]; nofun⟩

theorem Steps.bounded {r r' : Reader} {t : Token} (h : Steps limit r t r')
    (hr : Bounded limit r) : Bounded limit r' := by
  obtain ⟨hfinished, hframes, hfocus⟩ := hr
  cases h with
  | number hd | symbol hd => exact accept_bounded (fits_leaf hd rfl trivial) hframes hfinished
  | string hd =>
    obtain ⟨s, hs⟩ := Expr.ofStringLexeme_eq_string t.lexeme
    rw [hs]
    exact accept_bounded (fits_leaf hd rfl trivial) hframes hfinished
  | openParen hd => exact ⟨hfinished, hframes, hd⟩
  | endCall | endPrim =>
    obtain ⟨hlt, _, hparts, hfs⟩ := hframes
    refine accept_bounded (Expr.fits_iff.2 ⟨hlt, trivial, fun c hc => ?_⟩) hfs hfinished
    exact hparts c (List.mem_reverse.1 hc)
  | defun | setq => exact ⟨hfinished, hframes, hfocus⟩
  | cond | print | call | prim | variableName =>
    exact ⟨hfinished, ⟨hfocus, .nil, nofun, hframes⟩, trivial⟩
  | functionName => exact ⟨hfinished, hframes, hfocus⟩
  | parameterList => exact ⟨hfinished, hframes, hfocus, .nil⟩
  | parameter hnew => exact ⟨hfinished, hframes, hfocus.1, List.nodup_cons.2 ⟨hnew, hfocus.2⟩⟩
  | endParameters =>
    exact ⟨hfinished, ⟨hfocus.1, List.nodup_reverse.2 hfocus.2, nofun, hframes⟩, trivial⟩
  | close => exact accept_bounded hfocus hframes hfinished

theorem run_bounded {r r' : Reader} {ts : List Token} (h : run limit r ts = .ok r')
    (hr : Bounded limit r) : Bounded limit r' :=
  run_induction (P := fun r _ => Bounded limit r) (fun hr hs => hs.bounded hr) [] hr h

end Reader

end PrefixLisp
