import PrefixLisp.Proofs.Expr.Reading

/-
  Where reading stops.

  A token list is `Viable` under a nesting limit if something can be put behind it that makes it a
  program. The reader can be completed from every place where another level is free
  (`Reader.completable_of_levels_lt`), and each token opens one level at most
  (`Reader.run_levels_le`). So with a limit above the number of tokens, whatever the reader has
  taken is viable, and the limit plays no part (`Reader.run_relimit`).

  Hence a report about a token is about the first one that cannot be continued, and a report about
  the end of the tokens is about a viable list that is no program (`error_at_first_unviable`).
-/

namespace PrefixLisp

/-- The tokens begin some program that stays within the nesting limit. -/
def Viable (limit : Nat) (ts : List Token) : Prop :=
  ∃ more p, Program.ofTokens limit (ts ++ more) = .ok p

namespace Reader

variable {limit : Nat}

/-! ## Completing what was read -/

/-- Some tokens lead from here to the end of a program. -/
def Completable (limit : Nat) (r : Reader) : Prop :=
  ∃ more finished, finished ≠ [] ∧ run limit r more = .ok ⟨.expression, [], finished⟩

theorem Steps.completable {r r' : Reader} {t : Token} (h : Steps limit r t r')
    (hr' : Completable limit r') : Completable limit r := by
  obtain ⟨more, finished, hne, hrun⟩ := hr'
  exact ⟨t :: more, finished, hne, (run_cons_of_steps h more).trans hrun⟩

/-- A token that can stand for a name or for an expression. -/
def nameToken : Token := ⟨.symbol, "x", .start⟩

def openToken : Token := ⟨.openParen, "(", .start⟩

def closeToken : Token := ⟨.closeParen, ")", .start⟩

/-- Where an expression may start, a name can stand for it. -/
theorem completable_expression {frames : List Frame} {finished : List Expr}
    (hd : frames.length < limit)
    (h : Completable limit (accept (.symbol nameToken.lexeme) frames finished)) :
    Completable limit ⟨.expression, frames, finished⟩ :=
  Steps.completable (.symbol hd rfl) h

/-- Once an expression is complete, the forms around it can be completed one after the other, the
innermost first. -/
theorem completable_accept {frames : List Frame} (hd : frames.length < limit) (e : Expr)
    (finished : List Expr) : Completable limit (accept e frames finished) := by
  induction frames generalizing e with
  | nil => exact ⟨[], e :: finished, List.cons_ne_nil _ _, rfl⟩
  | cons f fs ih =>
    have hfs : fs.length < limit := Nat.lt_of_succ_lt hd
    have hclose (form : Expr) : Completable limit ⟨.close form, fs, finished⟩ :=
      Steps.completable (t := closeToken) (.close rfl) (ih hfs form)
    have hlast (test yes : Expr) : Completable limit ⟨.expression, .no test yes :: fs, finished⟩ :=
      completable_expression hd (hclose _)
    cases f with
    | assign name => exact hclose _
    | test => exact completable_expression hd (hlast e _)
    | yes test => exact hlast test e
    | no test yes => exact hclose _
    | print => exact hclose _
    | body name params => exact hclose _
    | call name args => exact Steps.completable (t := closeToken) (.endCall rfl) (ih hfs _)
    | prim op args =>
      exact Steps.completable (t := closeToken) (.endPrim (List.cons_ne_nil _ _) rfl) (ih hfs _)

/-! ## Levels -/

/-- The depth at which the next expression starts, if the form around it goes on with one. -/
def levels (r : Reader) : Nat :=
  match r.focus with
  | .variableName | .functionName | .parameterList _ | .parameters _ _ => r.frames.length + 1
  | .expression | .form | .close _ => r.frames.length

theorem frames_length_le_levels (r : Reader) : r.frames.length ≤ r.levels := by
  unfold levels
  split <;> omega

theorem levels_accept_le (e : Expr) (frames : List Frame) (finished : List Expr) :
    (accept e frames finished).levels ≤ frames.length := by
  cases frames with
  | nil => exact Nat.le_refl 0
  | cons f fs => cases f <;> simp [accept, levels]

/-- The reader can be completed wherever the next expression starts above the limit. -/
theorem completable_of_levels_lt {r : Reader} (h : r.levels < limit) : Completable limit r := by
  obtain ⟨focus, frames, finished⟩ := r
  have hd : frames.length < limit :=
    Nat.lt_of_le_of_lt (frames_length_le_levels ⟨focus, frames, finished⟩) h
  have hinside {f : Frame} (hf : frames.length + 1 < limit) :
      Completable limit ⟨.expression, f :: frames, finished⟩ :=
    completable_expression hf (completable_accept hf _ finished)
  have hparams {name : String} {params : List String} (hf : frames.length + 1 < limit) :
      Completable limit ⟨.parameters name params, frames, finished⟩ :=
    Steps.completable (t := closeToken) (.endParameters rfl) (hinside hf)
  have hlist {name : String} (hf : frames.length + 1 < limit) :
      Completable limit ⟨.parameterList name, frames, finished⟩ :=
    Steps.completable (t := openToken) (.parameterList rfl) (hparams hf)
  cases focus with
  | expression => exact completable_expression hd (completable_accept hd _ finished)
  | form =>
    -- A call without arguments needs no further level.
    refine Steps.completable (t := nameToken) (.call rfl) ?_
    exact Steps.completable (t := closeToken) (.endCall rfl) (completable_accept hd _ finished)
  | variableName => exact Steps.completable (t := nameToken) (.variableName rfl) (hinside h)
  | functionName => exact Steps.completable (t := nameToken) (.functionName rfl) (hlist h)
  | parameterList name => exact hlist h
  | parameters name params => exact hparams h
  | close form =>
    exact Steps.completable (t := closeToken) (.close rfl) (completable_accept hd form finished)

theorem Steps.levels_le {r r' : Reader} {t : Token} (h : Steps limit r t r') :
    r'.levels ≤ r.levels + 1 := by
  cases h with
  | number | string | symbol =>
    exact Nat.le_succ_of_le (levels_accept_le _ _ _)
  | endCall | endPrim | close =>
    refine Nat.le_trans (levels_accept_le _ _ _) ?_
    simp only [levels, List.length_cons]
    omega
  | _ => simp [levels]

/-- The limit plays no part where it is not reached. -/
theorem Steps.relimit {limit' : Nat} {r r' : Reader} {t : Token} (h : Steps limit r t r')
    (hd : r.frames.length < limit') : Steps limit' r t r' := by
  cases h with
  | number _ ht => exact .number hd ht
  | string _ ht => exact .string hd ht
  | symbol _ ht => exact .symbol hd ht
  | openParen _ ht => exact .openParen hd ht
  | endCall ht => exact .endCall ht
  | endPrim hne ht => exact .endPrim hne ht
  | defun ht => exact .defun ht
  | setq ht => exact .setq ht
  | cond ht => exact .cond ht
  | print ht => exact .print ht
  | call ht => exact .call ht
  | prim ht => exact .prim ht
  | variableName ht => exact .variableName ht
  | functionName ht => exact .functionName ht
  | parameterList ht => exact .parameterList ht
  | parameter hnew ht => exact .parameter hnew ht
  | endParameters ht => exact .endParameters ht
  | close ht => exact .close ht

/-- A token opens one level at most. -/
theorem run_levels_le {r : Reader} {ts : List Token} (h : run limit start ts = .ok r) :
    r.levels ≤ ts.length := by
  refine run_induction (P := fun r taken => r.levels ≤ taken.length) ?_ [] (Nat.zero_le _) h
  intro r r' taken t hr hs
  rw [List.length_append, List.length_singleton]
  exact Nat.le_trans hs.levels_le (Nat.succ_le_succ hr)

/-- Tokens that are no more than one limit are taken under it, if they are under any other. -/
theorem run_relimit {limit' : Nat} {r : Reader} {ts : List Token}
    (h : run limit start ts = .ok r) (hlen : ts.length ≤ limit') :
    run limit' start ts = .ok r := by
  refine run_induction (P := fun r taken => taken.length ≤ limit' → run limit' start taken = .ok r)
    ?_ [] (fun _ => rfl) h hlen
  intro r r' taken t hr hs hlen
  rw [List.length_append, List.length_singleton] at hlen
  have hrun := hr (Nat.le_of_succ_le hlen)
  have hd : r.frames.length < limit' := by
    have := frames_length_le_levels r
    have := run_levels_le hrun
    omega
  rw [run_append_of_run hrun, run_cons_of_steps (hs.relimit hd)]
  rfl

/-! ## Reports -/

/-- If the reader refuses the token, the report names it. -/
def ReportsOn (t : Token) (x : Except ParseError Reader) : Prop :=
  ∀ e, x = .error e → e.found = some t.lexeme ∧ e.pos = t.pos ∧ e.kind ≠ .unexpectedEnd

theorem reportsOn_ok (t : Token) (r : Reader) : ReportsOn t (.ok r) :=
  nofun

theorem reportsOn_report {kind : ParseError.Kind} (hkind : kind ≠ .unexpectedEnd)
    (expected : ParseError.Expectation) (t : Token) : ReportsOn t (report kind expected t) := by
  intro e he
  cases he
  exact ⟨rfl, rfl, hkind⟩

theorem reportsOn_beginExpression (limit : Nat) (r : Reader) (t : Token) :
    ReportsOn t (beginExpression limit r t) := by
  unfold beginExpression
  split
  · exact reportsOn_report (by decide) _ t
  · split
    case h_5 => exact reportsOn_report (by decide) _ t
    all_goals exact reportsOn_ok t _

theorem reportsOn_beginForm (r : Reader) (t : Token) : ReportsOn t (beginForm r t) := by
  unfold beginForm
  split
  case h_7 => exact reportsOn_report (by decide) _ t
  all_goals exact reportsOn_ok t _

theorem reportsOn_step (limit : Nat) (r : Reader) (t : Token) : ReportsOn t (step limit r t) := by
  have hguard {c : Prop} [Decidable c] {x y : Except ParseError Reader} (hx : ReportsOn t x)
      (hy : ReportsOn t y) : ReportsOn t (if c then x else y) := by
    split
    · exact hx
    · exact hy
  unfold step
  split
  · split
    · exact reportsOn_ok t _
    · exact reportsOn_report (by decide) _ t
    · exact reportsOn_ok t _
    · exact reportsOn_beginExpression limit r t
  · exact reportsOn_beginForm r t
  · exact hguard (reportsOn_ok t _) (reportsOn_report (by decide) _ t)
  · exact hguard (reportsOn_ok t _) (reportsOn_report (by decide) _ t)
  · exact hguard (reportsOn_ok t _) (reportsOn_report (by decide) _ t)
  · exact hguard (reportsOn_ok t _) (hguard
      (hguard (reportsOn_report (by decide) _ t) (reportsOn_ok t _))
      (reportsOn_report (by decide) _ t))
  · exact hguard (reportsOn_ok t _) (reportsOn_report (by decide) _ t)

/-- A run that fails does so at one of its tokens, and takes all before it. -/
theorem run_eq_error {r : Reader} {ts : List Token} {e : ParseError}
    (h : run limit r ts = .error e) :
    ∃ before t after r', ts = before ++ t :: after ∧ run limit r before = .ok r' ∧
      step limit r' t = .error e := by
  induction ts generalizing r with
  | nil => cases h
  | cons t ts ih =>
    rw [run_cons] at h
    cases hs : step limit r t with
    | error e' =>
      rw [hs] at h
      cases h
      exact ⟨[], t, ts, r, rfl, rfl, hs⟩
    | ok r₁ =>
      rw [hs] at h
      obtain ⟨before, u, after, r', rfl, hbefore, hu⟩ := ih h
      refine ⟨t :: before, u, after, r', rfl, ?_, hu⟩
      rw [run_cons, hs]
      exact hbefore

/-- What fails at a token fails there whatever comes behind it. -/
theorem run_append_error {r r' : Reader} {before : List Token} {t : Token} {e : ParseError}
    (h : run limit r before = .ok r') (ht : step limit r' t = .error e) (more : List Token) :
    run limit r (before ++ t :: more) = .error e := by
  rw [run_append_of_run h, run_cons, ht]
  rfl

end Reader

open Reader

namespace Program

variable {limit : Nat} {ts : List Token}

theorem ofTokens_of_run_error {e : ParseError} (h : start.run limit ts = .error e) :
    Program.ofTokens limit ts = .error e := by
  unfold ofTokens
  rw [h]
  rfl

theorem ofTokens_of_run {r : Reader} (h : start.run limit ts = .ok r) :
    Program.ofTokens limit ts =
      match r.missing? limit with
      | none => .ok r.finished.reverse
      | some expected => .error ⟨.unexpectedEnd, expected, none, Token.endPosition ts⟩ := by
  unfold ofTokens
  rw [h]
  show (match r.missing? limit with
    | none => _
    | some expected => _) = _
  split <;> rfl

/-- Reading fails at a token that is refused, or at the end of tokens that are all taken. -/
theorem ofTokens_eq_error {e : ParseError} (h : Program.ofTokens limit ts = .error e) :
    (∃ before t after r, ts = before ++ t :: after ∧ start.run limit before = .ok r ∧
      step limit r t = .error e) ∨
    ((∃ r, start.run limit ts = .ok r) ∧ e.found = none ∧ e.kind = .unexpectedEnd) := by
  cases hrun : start.run limit ts with
  | error e' =>
    rw [ofTokens_of_run_error hrun] at h
    cases h
    exact .inl (run_eq_error hrun)
  | ok r =>
    rw [ofTokens_of_run hrun] at h
    split at h <;> cases h
    exact .inr ⟨⟨r, rfl⟩, rfl, rfl⟩

end Program

theorem Viable.exists_run {limit : Nat} {ts : List Token} (h : Viable limit ts) :
    ∃ r, start.run limit ts = .ok r := by
  obtain ⟨more, p, hp⟩ := h
  obtain ⟨_, hrun⟩ := Program.ofTokens_eq_ok_iff_run.1 hp
  cases hts : start.run limit ts with
  | ok r => exact ⟨r, rfl⟩
  | error e =>
    rw [run_append, hts] at hrun
    cases hrun

section

variable {limit : Nat} {ts : List Token}

/-- Under a limit above its length, a list is viable if the reader takes all of it. -/
theorem viable_of_run {r : Reader} (hlen : ts.length < limit) (h : start.run limit ts = .ok r) :
    Viable limit ts := by
  have hlevels : r.levels < limit := Nat.lt_of_le_of_lt (run_levels_le h) hlen
  obtain ⟨more, finished, hne, hmore⟩ := completable_of_levels_lt hlevels
  refine ⟨more, finished.reverse, Program.ofTokens_eq_ok_iff_run.2 ?_⟩
  rw [run_append_of_run h, hmore, List.reverse_reverse]
  exact ⟨mt List.reverse_eq_nil_iff.1 hne, rfl⟩

/-- Under a limit above its length, a list is viable if it is so under any limit. -/
theorem Viable.relimit {limit' : Nat} (h : Viable limit' ts) (hlen : ts.length < limit) :
    Viable limit ts := by
  obtain ⟨r, hr⟩ := h.exists_run
  exact viable_of_run hlen (run_relimit hr (Nat.le_of_lt hlen))

/-- A refused token makes a viable list unviable, whatever the limit, and decides the outcome. -/
theorem refused_of_step_error {before after : List Token} {t : Token} {r : Reader} {e : ParseError}
    (hlen : (before ++ t :: after).length < limit) (hr : start.run limit before = .ok r)
    (ht : step limit r t = .error e) :
    Viable limit before ∧ (∀ limit', ¬Viable limit' (before ++ [t])) ∧
      ∀ more, Program.ofTokens limit (before ++ t :: more) = .error e := by
  have hstop (more : List Token) : start.run limit (before ++ t :: more) = .error e :=
    run_append_error hr ht more
  rw [List.length_append, List.length_cons] at hlen
  refine ⟨viable_of_run (by omega) hr, fun limit' hviable => ?_,
    fun more => Program.ofTokens_of_run_error (hstop more)⟩
  have hshort : (before ++ [t]).length < limit := by
    rw [List.length_append, List.length_singleton]
    omega
  obtain ⟨r', hr'⟩ := (hviable.relimit hshort).exists_run
  rw [hstop []] at hr'
  cases hr'

end

/-- Errors stand at the first token that cannot be continued. With a nesting limit above the number
of tokens: a report about a token has a viable list before it, which the token makes unviable under
every limit, and the report is the same whatever comes behind; a report about the end is of the
kind for it, and the list is viable but no program. So the lists with such a report are just the
viable ones that are no programs. Which lists are viable does not depend on such a limit. -/
theorem error_at_first_unviable (limit : Nat) (ts : List Token) (hlen : ts.length < limit) :
    (∀ e lexeme, Program.ofTokens limit ts = .error e → e.found = some lexeme →
      ∃ before t after, ts = before ++ t :: after ∧ lexeme = t.lexeme ∧ e.pos = t.pos ∧
        Viable limit before ∧ (∀ limit', ¬Viable limit' (before ++ [t])) ∧
          ∀ more, Program.ofTokens limit (before ++ t :: more) = .error e) ∧
    (∀ e, Program.ofTokens limit ts = .error e → e.found = none →
      e.kind = .unexpectedEnd ∧ Viable limit ts ∧ ∀ p, Program.ofTokens limit ts ≠ .ok p) ∧
    ((∃ e, Program.ofTokens limit ts = .error e ∧ e.kind = .unexpectedEnd) ↔
      Viable limit ts ∧ ∀ p, Program.ofTokens limit ts ≠ .ok p) ∧
    ∀ limit', Viable limit' ts → Viable limit ts := by
  have hend {e : ParseError} (he : Program.ofTokens limit ts = .error e)
      (hrun : ∃ r, start.run limit ts = .ok r) :
      Viable limit ts ∧ ∀ p, Program.ofTokens limit ts ≠ .ok p := by
    obtain ⟨r, hr⟩ := hrun
    exact ⟨viable_of_run hlen hr, fun p hp => by rw [he] at hp; cases hp⟩
  refine ⟨fun e lexeme he hfound => ?_, fun e he hfound => ?_, ⟨?_, ?_⟩,
    fun limit' h => h.relimit hlen⟩
  · rcases Program.ofTokens_eq_error he with ⟨before, t, after, r, rfl, hr, ht⟩ | ⟨_, hnone, _⟩
    · obtain ⟨hlexeme, hpos, _⟩ := reportsOn_step limit r t e ht
      rw [hlexeme] at hfound
      cases hfound
      exact ⟨before, t, after, rfl, rfl, hpos, refused_of_step_error hlen hr ht⟩
    · rw [hnone] at hfound
      cases hfound
  · rcases Program.ofTokens_eq_error he with ⟨_, t, _, r, _, _, ht⟩ | ⟨hrun, _, hkind⟩
    · rw [(reportsOn_step limit r t e ht).1] at hfound
      cases hfound
    · exact ⟨hkind, hend he hrun⟩
  · intro ⟨e, he, hkind⟩
    rcases Program.ofTokens_eq_error he with ⟨_, t, _, r, _, _, ht⟩ | ⟨hrun, _, _⟩
    · exact absurd hkind (reportsOn_step limit r t e ht).2.2
    · exact hend he hrun
  · intro ⟨hviable, hnot⟩
    obtain ⟨r, hr⟩ := hviable.exists_run
    cases he : Program.ofTokens limit ts with
    | ok p => exact absurd he (hnot p)
    | error e =>
      rcases Program.ofTokens_eq_error he with ⟨before, t, after, r', rfl, hr', ht⟩ | ⟨_, _, hkind⟩
      · rw [run_append_error hr' ht] at hr
        cases hr
      · exact ⟨e, rfl, hkind⟩

/-- In `(+)` it is the closing parenthesis that cannot be continued. -/
theorem error_at_first_unviable_operand :
    let ts : List Token := [⟨.openParen, "(", ⟨1, 1⟩⟩, ⟨.operator .add, "+", ⟨1, 2⟩⟩,
      ⟨.closeParen, ")", ⟨1, 3⟩⟩]
    let e : ParseError := ⟨.unexpectedToken, .operand, some ")", ⟨1, 3⟩⟩
    ts.length < 4 ∧ Program.ofTokens 4 ts = .error e ∧
      ∃ before t after, ts = before ++ t :: after ∧ ")" = t.lexeme ∧ e.pos = t.pos ∧
        Viable 4 before ∧ (∀ limit', ¬Viable limit' (before ++ [t])) ∧
          ∀ more, Program.ofTokens 4 (before ++ t :: more) = .error e :=
  ⟨by decide, by decide, (error_at_first_unviable 4 _ (by decide)).1 _ ")" (by decide) rfl⟩

end PrefixLisp
