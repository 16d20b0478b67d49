import PrefixLisp.Proofs.Eval.Effect
import PrefixLisp.Session

/-
  What the depth limit does to a run.

  `CutShort limit x y` says that the run `x` ends exactly like `y`, or else in the error of the
  depth limit, and then `y` has printed all that `x` has. It passes through sequencing, since a run
  only adds to the output, and so it is a `Congruence`. An evaluation with fewer levels left is
  thus the one with more levels, cut short (`evalWithin_cutShort`), and a session under a higher
  depth limit has the same results, the depth error apart (`depthLimit_cuts_short`).
-/

namespace PrefixLisp

/-- From every machine `x` ends exactly like `y`, or the depth limit cuts it short, and then `y`
prints on from there; and `y` only adds to the output. -/
structure CutShort {α : Type} (limit : Nat) (x y : Run α) : Prop where
  ends : ∀ m, x m = y m ∨
    ∃ m', x m = .error (.failure (.depthExceeded limit)) m' ∧ Prints m' (y.after m)
  prints : y.Within Prints

section

variable {α β : Type} {limit limit' : Nat}

theorem cutShort_self {x : Run α} (h : x.Within Prints) : CutShort limit x x :=
  ⟨fun _ => .inl rfl, h⟩

theorem cutShort_depthExceeded {y : Run α} (h : y.Within Prints) :
    CutShort limit (throw (.failure (.depthExceeded limit))) y :=
  ⟨fun m => .inr ⟨m, rfl, h m⟩, h⟩

theorem cutShort_define (name : String) (v : Value) :
    CutShort limit (Run.define name v) (Run.define name v) :=
  cutShort_self fun m => composes_prints.refl m

/-- What comes behind a run that was cut short does not happen; behind the longer one, more may be
printed. -/
theorem CutShort.bind {x y : Run α} {f g : α → Run β} (hxy : CutShort limit x y)
    (hfg : ∀ a, CutShort limit (f a) (g a)) : CutShort limit (x >>= f) (y >>= g) := by
  have hprints : ∀ a, (g a).Within Prints := fun a => (hfg a).prints
  refine ⟨fun m => ?_, composes_prints.within_bind hxy.prints hprints⟩
  rcases hxy.ends m with heq | ⟨m', hx, hm'⟩
  · cases hy : y m with
    | ok a m₁ =>
      rw [Run.bind_of_ok (heq.trans hy), Run.bind_of_ok hy, Run.after_bind_of_ok hy]
      exact (hfg a).ends m₁
    | error e m₁ =>
      rw [Run.bind_of_error (heq.trans hy), Run.bind_of_error hy]
      exact .inl rfl
  · refine .inr ⟨m', Run.bind_of_error hx f, ?_⟩
    cases hy : y m with
    | ok a m₁ =>
      rw [Run.after_of_ok hy] at hm'
      rw [Run.after_bind_of_ok hy]
      exact composes_prints.trans hm' (hprints a m₁)
    | error e m₁ =>
      rw [Run.after_bind_of_error hy]
      exact hm'

theorem CutShort.inFrame {x y : Run Value} (h : CutShort limit x y) (frame : Bindings Value) :
    CutShort limit (Run.inFrame frame x) (Run.inFrame frame y) := by
  refine ⟨fun m => ?_, fun m => ?_⟩
  · rw [Run.after_inFrame]
    unfold Run.inFrame
    rcases h.ends { m with scope := m.scope.push frame } with heq | ⟨m', hx, hm'⟩
    · rw [heq]
      exact .inl rfl
    · rw [hx]
      exact .inr ⟨_, rfl, hm'⟩
  · rw [Run.after_inFrame]
    exact h.prints { m with scope := m.scope.push frame }

theorem cutShort_congruence (limit : Nat) : Congruence fun _ x y => CutShort limit x y where
  pure a := cutShort_self (composes_prints.within_pure a)
  throw e := cutShort_self (composes_prints.within_throw e)
  bind := CutShort.bind
  lookup name := cutShort_self (composes_prints.within_lookup name)
  printLine text := cutShort_self (effect_prints.within_printLine (fun _ => False) text)

/-- With fewer levels left, an evaluation is the same one, cut short. Induction on the fewer
levels; each level uses up one on either side. -/
theorem evalWithin_cutShort {room room' : Nat} (h : room ≤ room') (e : Expr) :
    CutShort limit (e.evalWithin limit room) (e.evalWithin limit' room') := by
  induction room generalizing room' e with
  | zero => exact cutShort_depthExceeded (evalWithin_prints limit' room' e)
  | succ room ih =>
    obtain ⟨room', rfl⟩ : ∃ n, room' = n + 1 := ⟨room' - 1, by omega⟩
    have ih (e : Expr) : CutShort limit (e.evalWithin limit room) (e.evalWithin limit' room') :=
      ih (by omega) e
    exact (cutShort_congruence limit).evalWithin_succ (fun name v _ => cutShort_define name v)
      (fun c _ => ih c) fun frame body => (ih body).inFrame frame

theorem program_cutShort (h : limit ≤ limit') (p : Program) :
    CutShort limit (Program.eval limit p) (Program.eval limit' p) :=
  (cutShort_congruence limit).program (evalWithin_cutShort h) p

end

/-- The same session under another depth limit. -/
def Session.withDepthLimit (s : Session) (limit : Nat) : Session :=
  { s with config := { s.config with depthLimit := limit } }

/-- A higher depth limit changes nothing about a run that the lower one does not cut short. -/
theorem Session.eval_withDepthLimit (s : Session) {limit : Nat} (h : s.config.depthLimit ≤ limit)
    (source : String) (out : Output) :
    ((s.eval source out).1 = ((s.withDepthLimit limit).eval source out).1 ∧
      (s.eval source out).2.1.globals = ((s.withDepthLimit limit).eval source out).2.1.globals ∧
        (s.eval source out).2.2 = ((s.withDepthLimit limit).eval source out).2.2) ∨
    ((s.eval source out).1 = .error (.eval (.failure (.depthExceeded s.config.depthLimit))) ∧
      ∃ more, ((s.withDepthLimit limit).eval source out).2.2.written =
        (s.eval source out).2.2.written ++ more) := by
  have hparse : (s.withDepthLimit limit).parse source = s.parse source := rfl
  unfold eval
  rw [hparse]
  cases s.parse source with
  | error e => exact .inl ⟨rfl, rfl, rfl⟩
  | ok p =>
    dsimp only
    have hglobals : (s.withDepthLimit limit).globals = s.globals := rfl
    have hlimit : (s.withDepthLimit limit).config.depthLimit = limit := rfl
    rw [hglobals, hlimit]
    rcases (program_cutShort h p).ends ⟨s.globals, out⟩ with heq | ⟨m, hshort, more, hmore⟩
    · rw [heq]
      cases Program.eval limit p ⟨s.globals, out⟩ <;> exact .inl ⟨rfl, rfl, rfl⟩
    · rw [hshort]
      cases hlong : Program.eval limit p ⟨s.globals, out⟩ with
      | ok v m' =>
        rw [Run.after_of_ok hlong] at hmore
        exact .inr ⟨rfl, more, hmore⟩
      | error e m' =>
        rw [Run.after_of_error hlong] at hmore
        exact .inr ⟨rfl, more, hmore⟩

/-- The depth limit only cuts runs short. With no more levels left, an evaluation has the same
outcome, scope and output, or it fails at the depth limit and the other one prints all that it has
printed. In particular, raising the limit of a session changes no result but the depth error. -/
theorem depthLimit_cuts_short (e : Expr) (scope : Scope) (out : Output)
    (limit depth limit' depth' : Nat) (h : (limit : Int) - depth ≤ limit' - depth') :
    (e.eval limit depth ⟨scope, out⟩ = e.eval limit' depth' ⟨scope, out⟩ ∨
      ∃ m printed more, e.eval limit depth ⟨scope, out⟩ =
          .error (.failure (.depthExceeded limit)) m ∧
        m.out.written = out.written ++ printed ∧
        ((e.eval limit' depth').after ⟨scope, out⟩).out.written =
          out.written ++ printed ++ more) ∧
    (EvalError.Failure.depthExceeded limit).text =
      s!"Evaluation depth limit exceeded (max: {limit})" ∧
    ∀ (s : Session) (source : String) (levels : Nat),
      let raised := s.withDepthLimit (s.config.depthLimit + levels)
      ((s.eval source out).1 = (raised.eval source out).1 ∧
        (s.eval source out).2.1.globals = (raised.eval source out).2.1.globals ∧
          (s.eval source out).2.2 = (raised.eval source out).2.2) ∨
      ((s.eval source out).1 = .error (.eval (.failure (.depthExceeded s.config.depthLimit))) ∧
        ∃ more,
          (raised.eval source out).2.2.written = (s.eval source out).2.2.written ++ more) := by
  refine ⟨?_, rfl, fun s source levels => s.eval_withDepthLimit (by omega) source out⟩
  have hroom : limit - depth ≤ limit' - depth' := by omega
  have hcut : CutShort limit (e.eval limit depth) (e.eval limit' depth') :=
    evalWithin_cutShort hroom e
  rcases hcut.ends ⟨scope, out⟩ with heq | ⟨m, hshort, more, hmore⟩
  · exact .inl heq
  · obtain ⟨printed, hprinted⟩ := evalWithin_prints limit (limit - depth) e ⟨scope, out⟩
    have hafter : (e.evalWithin limit (limit - depth)).after ⟨scope, out⟩ = m :=
      Run.after_of_error hshort
    rw [hafter] at hprinted
    refine .inr ⟨m, printed, more, hshort, hprinted, ?_⟩
    rw [hprinted] at hmore
    exact hmore

/-- A function that prints and calls itself is cut short under every limit. -/
theorem depthLimit_cuts_short_runaway :
    let body := Expr.cond (.print (.number .one)) (.call "f" []) (.number .zero)
    let scope := Scope.global.define "f" (.function 0 ⟨"f", [], body⟩)
    let short := (Expr.call "f" []).eval 5 0 ⟨scope, .unbounded⟩
    let long := (Expr.call "f" []).eval 10 3
    ((5 : Nat) : Int) - (0 : Nat) ≤ (10 : Nat) - (3 : Nat) ∧
      (short = long ⟨scope, .unbounded⟩ ∨
        ∃ m printed more, short = .error (.failure (.depthExceeded 5)) m ∧
          m.out.written = .empty ++ printed ∧
            (long.after ⟨scope, .unbounded⟩).out.written = .empty ++ printed ++ more) :=
  ⟨by decide, (depthLimit_cuts_short (.call "f" []) _ .unbounded 5 0 10 3 (by decide)).1⟩

end PrefixLisp
