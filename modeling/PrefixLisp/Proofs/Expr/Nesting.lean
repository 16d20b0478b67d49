import PrefixLisp.Proofs.Expr.Viable

/-
  What the nesting limit does to reading.

  The limit is looked at in one place only, where an expression starts. So under a lower limit every
  token is taken or refused as under a higher one, or else it is refused because of the limit
  (`Reader.step_lower`), and the same goes for whole token lists (`Program.ofTokens_lower`).

  Which expressions are too deep can be seen in the program that is read under the higher limit.
  `Expr.startDepths` says of each token of an expression at which depth an expression starts with
  it, and the reader finds the expressions at just these depths (`Reader.starts_of_derives`). What
  the lower limit refuses is the first token that starts an expression at it
  (`nestingLimit_refuses_first`).
-/

namespace PrefixLisp

namespace Reader

variable {limit limit' : Nat}

/-! ## A lower limit -/

theorem beginExpression_lower (h : limit ≤ limit') (r : Reader) (t : Token) :
    beginExpression limit r t = beginExpression limit' r t ∨
      limit ≤ r.frames.length ∧
        beginExpression limit r t = report .tooDeeplyNested (.nestingAtMost limit) t := by
  by_cases hd : limit ≤ r.frames.length
  · refine .inr ⟨hd, ?_⟩
    rw [beginExpression, if_pos hd]
  · have hd' : ¬limit' ≤ r.frames.length := by omega
    refine .inl ?_
    rw [beginExpression, beginExpression, if_neg hd, if_neg hd']

/-- Under the lower limit the token fares as under the higher one, or it is refused because an
expression cannot start as deep as this. -/
theorem step_lower (h : limit ≤ limit') (r : Reader) (t : Token) :
    step limit r t = step limit' r t ∨
      limit ≤ r.frames.length ∧
        step limit r t = report .tooDeeplyNested (.nestingAtMost limit) t := by
  unfold step
  split
  · split
    · exact .inl rfl
    · exact .inl rfl
    · exact .inl rfl
    · exact beginExpression_lower h r t
  all_goals exact .inl rfl

theorem run_lower (h : limit ≤ limit') (r : Reader) (ts : List Token) :
    run limit r ts = run limit' r ts ∨
      ∃ e, run limit r ts = .error e ∧ e.expected = .nestingAtMost limit := by
  induction ts generalizing r with
  | nil => exact .inl rfl
  | cons t ts ih =>
    rw [run_cons, run_cons]
    rcases step_lower h r t with hstep | ⟨_, hstep⟩
    · rw [hstep]
      cases step limit' r t with
      | error e => exact .inl rfl
      | ok r' => exact ih r'
    · rw [hstep]
      exact .inr ⟨_, rfl, rfl⟩

theorem missing?_lower (limit limit' : Nat) (r : Reader) (h : limit ≤ limit') :
    r.missing? limit = r.missing? limit' ∨ r.missing? limit = some (.nestingAtMost limit) := by
  obtain ⟨focus, frames, finished⟩ := r
  cases focus with
  | expression =>
    cases frames with
    | nil => exact .inl rfl
    | cons f fs =>
      by_cases hd : limit ≤ fs.length + 1
      · cases f <;> simp [missing?, hd]
      · have hd' : ¬limit' ≤ fs.length + 1 := by omega
        cases f <;> simp [missing?, hd, hd']
  | _ => exact .inl rfl

end Reader

open Reader

/-- Under a lower limit the outcome is the same, or it is an error of the nesting limit. -/
theorem Program.ofTokens_lower {limit limit' : Nat} (h : limit ≤ limit') (ts : List Token) :
    Program.ofTokens limit ts = Program.ofTokens limit' ts ∨
      ∃ e, Program.ofTokens limit ts = .error e ∧ e.expected = .nestingAtMost limit := by
  rcases run_lower h start ts with hrun | ⟨e, hrun, he⟩
  · cases hr : start.run limit' ts with
    | error e =>
      rw [hr] at hrun
      rw [ofTokens_of_run_error hrun, ofTokens_of_run_error hr]
      exact .inl rfl
    | ok r =>
      rw [hr] at hrun
      rw [ofTokens_of_run hrun, ofTokens_of_run hr]
      rcases missing?_lower limit limit' r h with hmissing | hmissing
      · rw [hmissing]
        exact .inl rfl
      · rw [hmissing]
        exact .inr ⟨_, rfl, rfl⟩
  · exact .inr ⟨e, ofTokens_of_run_error hrun, he⟩

/-! ## Where expressions start -/

namespace Expr

mutual

/-- For each token of an expression that stands at depth `d`: the depth of the expression that
starts with this token, if there is one. -/
def startDepths (d : Nat) : Expr → List (Option Nat)
  | number _ | string _ | symbol _ => [some d]
  | assign _ value => some d :: none :: none :: value.startDepths (d + 1) ++ [none]
  | cond test yes no =>
    some d :: none :: test.startDepths (d + 1) ++ yes.startDepths (d + 1) ++
      no.startDepths (d + 1) ++ [none]
  | print value => some d :: none :: value.startDepths (d + 1) ++ [none]
  | defun _ params body =>
    some d :: none :: none :: none :: List.replicate params.length none ++
      none :: body.startDepths (d + 1) ++ [none]
  | call _ args | prim _ args => some d :: none :: startDepthsAll (d + 1) args ++ [none]

def startDepthsAll (d : Nat) : List Expr → List (Option Nat)
  | [] => []
  | e :: es => e.startDepths d ++ startDepthsAll d es

end

end Expr

namespace Reader

variable {limit : Nat}

/-- The depth of the expression that starts with the token, if the reader is to take it as one. -/
def starts? (r : Reader) (t : Token) : Option Nat :=
  match r.focus with
  | .expression => if t.kind = .closeParen then none else some r.frames.length
  | _ => none

theorem starts?_of_closeParen (r : Reader) {t : Token} (ht : t.kind = .closeParen) :
    r.starts? t = none := by
  unfold starts?
  split
  · exact if_pos ht
  · rfl

/-- The same for each token of a run, as far as it goes. -/
def startsAlong (limit : Nat) (r : Reader) : List Token → List (Option Nat)
  | [] => []
  | t :: ts =>
    r.starts? t ::
      match step limit r t with
      | .ok r' => startsAlong limit r' ts
      | .error _ => []

theorem startsAlong_cons_of_steps {r r' : Reader} {t : Token} (h : Steps limit r t r')
    (ts : List Token) : startsAlong limit r (t :: ts) = r.starts? t :: startsAlong limit r' ts := by
  rw [startsAlong, step_of_steps h]

theorem startsAlong_append_of_run {r r' : Reader} {ts : List Token} (h : run limit r ts = .ok r')
    (us : List Token) :
    startsAlong limit r (ts ++ us) = startsAlong limit r ts ++ startsAlong limit r' us := by
  induction ts generalizing r with
  | nil =>
    cases h
    rfl
  | cons t ts ih =>
    obtain ⟨r₁, hs, hrest⟩ := run_cons_eq_ok h
    rw [List.cons_append, startsAlong_cons_of_steps hs, startsAlong_cons_of_steps hs, ih hrest,
      List.cons_append]

theorem length_startsAlong {r r' : Reader} {ts : List Token} (h : run limit r ts = .ok r') :
    (startsAlong limit r ts).length = ts.length := by
  induction ts generalizing r with
  | nil => rfl
  | cons t ts ih =>
    obtain ⟨r₁, hs, hrest⟩ := run_cons_eq_ok h
    rw [startsAlong_cons_of_steps hs, List.length_cons, ih hrest, List.length_cons]

/-- An expression that is taken starts above the limit. -/
theorem Steps.starts?_lt {r r' : Reader} {t : Token} (h : Steps limit r t r') :
    ∀ d ∈ r.starts? t, d < limit := by
  intro d hd
  cases h with
  | number hlt ht | string hlt ht | symbol hlt ht | openParen hlt ht =>
    simp only [starts?, ht, reduceCtorEq, if_false, Option.mem_def, Option.some.injEq] at hd
    omega
  | endCall ht | endPrim _ ht =>
    simp [starts?, ht] at hd
  | _ => cases hd

theorem startsAlong_params {ps : List Token} (name : String) (params : List String)
    (frames : List Frame) (finished : List Expr) (hps : ∀ p ∈ ps, p.kind = .symbol)
    (hnodup : ((ps.map (·.lexeme)).reverse ++ params).Nodup) :
    startsAlong limit ⟨.parameters name params, frames, finished⟩ ps =
      List.replicate ps.length none := by
  induction ps generalizing params with
  | nil => rfl
  | cons p ps ih =>
    obtain ⟨hp, hps⟩ := List.forall_mem_cons.1 hps
    rw [List.map_cons, List.reverse_cons, List.append_assoc, List.singleton_append] at hnodup
    have hnew : p.lexeme ∉ params :=
      (List.nodup_cons.1 (List.nodup_append.1 hnodup).2.1).1
    rw [startsAlong_cons_of_steps (.parameter hnew hp), ih (p.lexeme :: params) hps hnodup]
    rfl

/-- On the tokens of a phrase the reader finds the expressions at the depths that the tree says. -/
def FindsStarts (limit : Nat) : Phrase → List Token → Prop
  | .expr e, ts => ∀ frames finished, e.Fits limit frames.length →
      startsAlong limit ⟨.expression, frames, finished⟩ ts = e.startDepths frames.length
  | .form e, ts => ∀ frames finished, e.Fits limit frames.length →
      some frames.length :: startsAlong limit ⟨.form, frames, finished⟩ ts ++ [none] =
        e.startDepths frames.length
  | .sequence es, ts => ∀ frames finished, Collecting frames →
      (∀ e ∈ es, e.Fits limit frames.length) →
      startsAlong limit ⟨.expression, frames, finished⟩ ts =
        Expr.startDepthsAll frames.length es

/-- A single token that is an expression. -/
theorem startsAlong_singleton {frames : List Frame} {finished : List Expr} {t : Token}
    (ht : t.kind ≠ .closeParen) :
    startsAlong limit ⟨.expression, frames, finished⟩ [t] = [some frames.length] := by
  have hstart : starts? ⟨.expression, frames, finished⟩ t = some frames.length := if_neg ht
  rw [startsAlong, hstart]
  cases step limit ⟨.expression, frames, finished⟩ t <;> rfl

theorem starts_of_derives {ph : Phrase} {ts : List Token} (h : ph.Derives ts) :
    FindsStarts limit ph ts := by
  induction h with
  | number ht =>
    intro frames finished _
    rw [startsAlong_singleton (by rw [ht]; nofun), Expr.startDepths]
  | @string t ht =>
    intro frames finished _
    obtain ⟨s, hs⟩ := Expr.ofStringLexeme_eq_string t.lexeme
    rw [startsAlong_singleton (by rw [ht]; nofun), hs, Expr.startDepths]
  | symbol ht =>
    intro frames finished _
    rw [startsAlong_singleton (by rw [ht]; nofun), Expr.startDepths]
  | @parens o c e ts ho hform hc ih =>
    intro frames finished hfits
    obtain ⟨r, hr, hclose⟩ := takes_of_derives hform frames finished hfits
    have hopen : starts? ⟨.expression, frames, finished⟩ o = some frames.length :=
      if_neg (by rw [ho]; nofun)
    have hclosed : startsAlong limit r [c] = [none] := by
      rw [startsAlong_cons_of_steps (hclose c hc), starts?_of_closeParen r hc]
      rfl
    rw [List.cons_append, startsAlong_cons_of_steps (.openParen (Expr.fits_iff.1 hfits).1 ho),
      hopen, startsAlong_append_of_run hr, hclosed]
    exact ih frames finished hfits
  | @assign k x v ts hk hx _ ih =>
    intro frames finished hfits
    have hv := (Expr.fits_iff.1 hfits).2.2 v List.mem_cons_self
    rw [startsAlong_cons_of_steps (.setq hk), startsAlong_cons_of_steps (.variableName hx),
      ih (.assign x.lexeme :: frames) finished hv, Expr.startDepths]
    rfl
  | @cond k test yes no ts us vs hk ht hy _ iht ihy ihn =>
    intro frames finished hfits
    have hparts := (Expr.fits_iff.1 hfits).2.2
    simp only [Expr.children, List.forall_mem_cons] at hparts
    obtain ⟨htest, hyes, hno, _⟩ := hparts
    have htestRun := takes_of_derives ht (.test :: frames) finished htest
    have hyesRun := takes_of_derives hy (.yes test :: frames) finished hyes
    rw [List.cons_append, List.cons_append, List.cons_append,
      startsAlong_cons_of_steps (.cond hk), List.append_assoc,
      startsAlong_append_of_run htestRun, iht (.test :: frames) finished htest]
    rw [accept, startsAlong_append_of_run hyesRun, ihy (.yes test :: frames) finished hyes,
      accept, ihn (.no test yes :: frames) finished hno, Expr.startDepths]
    simp [starts?]
  | @print k v ts hk _ ih =>
    intro frames finished hfits
    have hv := (Expr.fits_iff.1 hfits).2.2 v List.mem_cons_self
    rw [startsAlong_cons_of_steps (.print hk), ih (.print :: frames) finished hv,
      Expr.startDepths]
    rfl
  | @defun k f o c ps b ts hk hf ho hps hc _ ih =>
    intro frames finished hfits
    obtain ⟨_, hnodup, hparts⟩ := Expr.fits_iff.1 hfits
    have hb := hparts b List.mem_cons_self
    have hnodup' : ((ps.map Token.lexeme).reverse ++ []).Nodup := by
      rw [List.append_nil]
      exact List.nodup_reverse.2 hnodup
    rw [List.cons_append, List.cons_append, List.cons_append, List.cons_append,
      startsAlong_cons_of_steps (.defun hk), startsAlong_cons_of_steps (.functionName hf),
      startsAlong_cons_of_steps (.parameterList ho),
      startsAlong_append_of_run (run_params f.lexeme [] frames finished hps hnodup'),
      startsAlong_params f.lexeme [] frames finished hps hnodup',
      startsAlong_cons_of_steps (.endParameters hc), List.append_nil, List.reverse_reverse,
      ih (.body f.lexeme (ps.map (·.lexeme)) :: frames) finished hb, Expr.startDepths]
    simp [starts?]
  | @call f es ts hf _ ih =>
    intro frames finished hfits
    have hargs := (Expr.fits_iff.1 hfits).2.2
    rw [startsAlong_cons_of_steps (.call hf),
      ih (.call f.lexeme [] :: frames) finished trivial hargs, Expr.startDepths]
    rfl
  | @prim k op es ts hk _ _ ih =>
    intro frames finished hfits
    have hargs := (Expr.fits_iff.1 hfits).2.2
    rw [startsAlong_cons_of_steps (.prim hk),
      ih (.prim op [] :: frames) finished trivial hargs, Expr.startDepths]
    rfl
  | nil =>
    intro frames finished _ _
    rw [Expr.startDepthsAll]
    rfl
  | @cons e es ts us he _ ihe ihes =>
    intro frames finished hcoll hfits
    obtain ⟨hefits, hesfits⟩ := List.forall_mem_cons.1 hfits
    obtain ⟨frames', finished', haccept, hcoll', hlen⟩ := accept_collecting e finished hcoll
    rw [startsAlong_append_of_run (takes_of_derives he frames finished hefits),
      ihe frames finished hefits, haccept, ihes frames' finished' hcoll' (hlen ▸ hesfits), hlen,
      Expr.startDepthsAll]

/-! ## The first token that is too deep -/

theorem FramesFit.length_le {frames : List Frame} (h : FramesFit limit frames) :
    frames.length ≤ limit := by
  cases frames with
  | nil => exact Nat.zero_le limit
  | cons f fs => exact h.1

/-- What is refused because of the lower limit only starts an expression. -/
theorem Steps.starts?_of_refused {limit' : Nat} {r r' : Reader} {t : Token}
    (h : Steps limit' r t r')
    (hstep : step limit r t = report .tooDeeplyNested (.nestingAtMost limit) t) :
    r.starts? t = some r.frames.length := by
  cases h with
  | number _ ht | string _ ht | symbol _ ht | openParen _ ht =>
    exact if_neg (by rw [ht]; nofun)
  | endCall ht => cases (step_of_steps (.endCall ht)).symm.trans hstep
  | endPrim hne ht => cases (step_of_steps (.endPrim hne ht)).symm.trans hstep
  | defun ht | setq ht | cond ht | print ht | call ht | prim ht =>
    simp [step, beginForm, ht, report] at hstep
  | parameter hnew ht => simp [step, ht, hnew, report] at hstep
  | variableName ht | functionName ht | parameterList ht | endParameters ht | close ht =>
    simp [step, ht, report] at hstep

/-- A run that only the lower limit stops is stopped by the first token that starts an expression
at it. What was taken before started above the limit. -/
theorem run_refused {limit' : Nat} (h : limit ≤ limit') {r r' : Reader} {ts : List Token}
    (hr : Bounded limit r) (hrun : run limit' r ts = .ok r') (hnot : run limit r ts ≠ .ok r') :
    ∃ t, (ts.zip (startsAlong limit' r ts)).find? (·.2 = some limit) = some (t, some limit) ∧
      run limit r ts = report .tooDeeplyNested (.nestingAtMost limit) t := by
  induction ts generalizing r with
  | nil => exact absurd hrun hnot
  | cons t ts ih =>
    obtain ⟨r₁, hs, hrest⟩ := run_cons_eq_ok hrun
    rw [startsAlong_cons_of_steps hs, List.zip_cons_cons]
    rcases step_lower h r t with hstep | ⟨hd, hstep⟩
    · have hs' : Steps limit r t r₁ := steps_of_step (hstep.trans (step_of_steps hs))
      have habove : ¬r.starts? t = some limit :=
        fun ht => Nat.lt_irrefl limit (hs'.starts?_lt limit ht)
      rw [run_cons_of_steps hs'] at hnot ⊢
      rw [List.find?_cons_of_neg (by simpa using habove)]
      exact ih (hs'.bounded hr) hrest hnot
    · have hdepth : r.frames.length = limit := Nat.le_antisymm hr.frames.length_le hd
      have hstart : r.starts? t = some limit := hdepth ▸ hs.starts?_of_refused hstep
      refine ⟨t, ?_, ?_⟩
      · rw [hstart, List.find?_cons_of_pos (by simp)]
      · rw [run_cons, hstep]
        rfl

end Reader

/-- What a lower nesting limit does to reading. The result is the same in all its parts, or it is
an error that expects at most so many levels. If the tokens are a program under the higher limit,
they are the same program under the lower one when no expression of it has more levels than that;
otherwise the first token that starts an expression at this depth is reported. -/
theorem nestingLimit_refuses_first (limit limit' : Nat) (h : limit ≤ limit') (ts : List Token) :
    (Program.ofTokens limit ts = Program.ofTokens limit' ts ∨
      ∃ e, Program.ofTokens limit ts = .error e ∧
        e.expected.text = s!"at most {limit} levels of nesting") ∧
    ∀ p, Program.ofTokens limit' ts = .ok p →
      ((∀ e ∈ p, e.height ≤ limit) → Program.ofTokens limit ts = .ok p) ∧
      ((¬∀ e ∈ p, e.height ≤ limit) →
        (Expr.startDepthsAll 0 p).length = ts.length ∧
        ∃ t, (ts.zip (Expr.startDepthsAll 0 p)).find? (·.2 = some limit) = some (t, some limit) ∧
          Program.ofTokens limit ts =
            .error ⟨.tooDeeplyNested, .nestingAtMost limit, some t.lexeme, t.pos⟩) := by
  refine ⟨?_, fun p hp => ?_⟩
  · rcases Program.ofTokens_lower h ts with heq | ⟨e, he, hexpected⟩
    · exact .inl heq
    · exact .inr ⟨e, he, by rw [hexpected]; rfl⟩
  obtain ⟨⟨hne, hderives⟩, hfits⟩ := Program.ofTokens_eq_ok_iff_fits.1 hp
  have hlow : Program.ofTokens limit ts = .ok p ↔ ∀ e ∈ p, e.height ≤ limit := by
    rw [Program.ofTokens_eq_ok_iff_fits]
    constructor
    · intro ⟨_, hfits'⟩ e he
      have := (hfits' e he).1
      omega
    · intro hheight
      refine ⟨⟨hne, hderives⟩, fun e he => ⟨?_, (hfits e he).2⟩⟩
      have := hheight e he
      omega
  refine ⟨hlow.2, fun hdeep => ?_⟩
  have hrun := (Program.ofTokens_eq_ok_iff_run.1 hp).2
  have hstarts : startsAlong limit' start ts = Expr.startDepthsAll 0 p :=
    starts_of_derives hderives [] [] trivial hfits
  have hnot : start.run limit ts ≠ .ok ⟨.expression, [], p.reverse⟩ :=
    fun hok => hdeep (hlow.1 (Program.ofTokens_eq_ok_iff_run.2 ⟨hne, hok⟩))
  obtain ⟨t, hfirst, hrefused⟩ := run_refused h start_bounded hrun hnot
  rw [hstarts] at hfirst
  refine ⟨?_, t, hfirst, Program.ofTokens_of_run_error hrefused⟩
  rw [← hstarts]
  exact length_startsAlong hrun

/-- In `(f (g x) y)`, which has three levels, a limit of two is reached at the `x`. -/
theorem nestingLimit_refuses_first_argument :
    let ts : List Token := [⟨.openParen, "(", ⟨1, 1⟩⟩, ⟨.symbol, "f", ⟨1, 2⟩⟩,
      ⟨.openParen, "(", ⟨1, 4⟩⟩, ⟨.symbol, "g", ⟨1, 5⟩⟩, ⟨.symbol, "x", ⟨1, 7⟩⟩,
      ⟨.closeParen, ")", ⟨1, 8⟩⟩, ⟨.symbol, "y", ⟨1, 10⟩⟩, ⟨.closeParen, ")", ⟨1, 11⟩⟩]
    let p : Program := [.call "f" [.call "g" [.symbol "x"], .symbol "y"]]
    2 ≤ 5 ∧ Program.ofTokens 5 ts = .ok p ∧ (¬∀ e ∈ p, e.height ≤ 2) ∧
      ∃ t, (ts.zip (Expr.startDepthsAll 0 p)).find? (·.2 = some 2) = some (t, some 2) ∧
        Program.ofTokens 2 ts = .error ⟨.tooDeeplyNested, .nestingAtMost 2, some t.lexeme, t.pos⟩ :=
  have hp : Program.ofTokens 5 _ = .ok _ := by decide
  have hdeep : ¬∀ e ∈ _, Expr.height e ≤ 2 := by decide
  ⟨by decide, hp, hdeep, (((nestingLimit_refuses_first 2 5 (by decide) _).2 _ hp).2 hdeep).2⟩

end PrefixLisp
