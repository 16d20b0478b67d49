import Mathlib.Data.Fintype.EquivFin
import Mathlib.Data.List.DropRight
import PrefixLisp.Proofs.Expr.Viable

/-
  What is said to be expected.

  A report names a kind of token (`Expectation.Names`). It is right if such a token, in the place of
  the one that was refused or behind the end, can be continued to a program.

  `Reader.Awaits` lists the places where the reader names something that it would take, and each of
  them keeps its word (`Awaits.exists_steps`). Every report about a token is made at one of these
  places (`awaits_of_refused`). A report about the end is too, unless an operator waits for its
  first operand: there a closing parenthesis is named, which is refused (`awaits_of_missing?`). As
  only an operator token leads to that place (`run_awaitsOperand_iff`), a report is wrong just if it
  is about the end and the last token is an operator (`expected_can_follow_iff`).
-/

namespace PrefixLisp

/-- The names at the end of the tokens, back to the last token that is not one. -/
def Token.trailingNames (ts : List Token) : List String :=
  (ts.rtakeWhile (·.kind = .symbol)).map (·.lexeme)

/-- The last token is an operator. -/
def Token.EndInOperator (ts : List Token) : Prop :=
  ∃ t ∈ ts.getLast?, ∃ op, t.kind = .operator op

/-- Behind the tokens `before`, the token `t` is of the kind that the expectation names. The
parameters that another one has to be distinct from are the names at the end of `before`. -/
def ParseError.Expectation.Names (before : List Token) (t : Token) : Expectation → Prop
  | .expression | .operand => ∃ n, t.kind = .number n
  | .form | .formHead | .variableName | .functionName => t.kind = .symbol
  | .parameterList => t.kind = .openParen
  | .parameterOrClose | .close => t.kind = .closeParen
  | .distinctParameters => t.kind = .symbol ∧ t.lexeme ∉ Token.trailingNames before
  | .nestingAtMost _ | .worded _ => False

open ParseError (Expectation)

namespace Token

theorem trailingNames_concat (ts : List Token) (t : Token) :
    trailingNames (ts ++ [t]) =
      if t.kind = .symbol then trailingNames ts ++ [t.lexeme] else [] := by
  unfold trailingNames
  rw [List.rtakeWhile_concat]
  simp only [decide_eq_true_eq]
  split
  · rw [List.map_append, List.map_singleton]
  · rfl

theorem endInOperator_concat {ts : List Token} {t : Token} :
    EndInOperator (ts ++ [t]) ↔ ∃ op, t.kind = .operator op := by
  simp [EndInOperator]

end Token

namespace Reader

variable {limit : Nat}

/-! ## What the reader would take -/

/-- The reader is at a place where it names what it would take. -/
inductive Awaits : Reader → Expectation → Prop where
  | expression {frames : List Frame} {finished : List Expr} :
      Awaits ⟨.expression, frames, finished⟩ .expression
  | operand {frames : List Frame} {finished : List Expr} :
      Awaits ⟨.expression, frames, finished⟩ .operand
  | endCall {name : String} {args : List Expr} {frames : List Frame} {finished : List Expr} :
      Awaits ⟨.expression, .call name args :: frames, finished⟩ .close
  | endPrim {op : Operator} {args : List Expr} {frames : List Frame} {finished : List Expr}
      (hne : args ≠ []) : Awaits ⟨.expression, .prim op args :: frames, finished⟩ .close
  | form {frames : List Frame} {finished : List Expr} : Awaits ⟨.form, frames, finished⟩ .form
  | formHead {frames : List Frame} {finished : List Expr} :
      Awaits ⟨.form, frames, finished⟩ .formHead
  | variableName {frames : List Frame} {finished : List Expr} :
      Awaits ⟨.variableName, frames, finished⟩ .variableName
  | functionName {frames : List Frame} {finished : List Expr} :
      Awaits ⟨.functionName, frames, finished⟩ .functionName
  | parameterList {name : String} {frames : List Frame} {finished : List Expr} :
      Awaits ⟨.parameterList name, frames, finished⟩ .parameterList
  | parameterOrClose {name : String} {params : List String} {frames : List Frame}
      {finished : List Expr} : Awaits ⟨.parameters name params, frames, finished⟩ .parameterOrClose
  | distinctParameters {name : String} {params : List String} {frames : List Frame}
      {finished : List Expr} :
      Awaits ⟨.parameters name params, frames, finished⟩ .distinctParameters
  | close {form : Expr} {frames : List Frame} {finished : List Expr} :
      Awaits ⟨.close form, frames, finished⟩ .close

/-- The parameters that the reader has are the names at the end of what it has taken. -/
def KnowsParams (r : Reader) (taken : List Token) : Prop :=
  ∀ name params, r.focus = .parameters name params → params.reverse = Token.trailingNames taken

/-- The innermost form is an operator that has no operand yet. -/
def AwaitsOperand (r : Reader) : Prop :=
  ∃ op frames, r.focus = .expression ∧ r.frames = .prim op [] :: frames

/-- What the reader names there, it takes. -/
theorem Awaits.exists_steps {r : Reader} {x : Expectation} {taken : List Token} {t : Token}
    (h : Awaits r x) (hd : r.frames.length < limit) (hparams : r.KnowsParams taken)
    (ht : x.Names taken t) : ∃ r', Steps limit r t r' := by
  cases h with
  | expression | operand =>
    obtain ⟨n, hn⟩ := ht
    exact ⟨_, .number hd hn⟩
  | endCall => exact ⟨_, .endCall ht⟩
  | endPrim hne => exact ⟨_, .endPrim hne ht⟩
  | form | formHead => exact ⟨_, .call ht⟩
  | variableName => exact ⟨_, .variableName ht⟩
  | functionName => exact ⟨_, .functionName ht⟩
  | parameterList => exact ⟨_, .parameterList ht⟩
  | parameterOrClose => exact ⟨_, .endParameters ht⟩
  | @distinctParameters name params =>
    obtain ⟨hkind, hnew⟩ := ht
    rw [← hparams name params rfl, List.mem_reverse] at hnew
    exact ⟨_, .parameter hnew hkind⟩
  | close => exact ⟨_, .close ht⟩

/-- Some token is of the kind that the reader names there. -/
theorem Awaits.exists_names {r : Reader} {x : Expectation} (h : Awaits r x)
    (taken : List Token) : ∃ t, x.Names taken t := by
  cases h with
  | expression | operand => exact ⟨⟨.number .zero, "0", .start⟩, .zero, rfl⟩
  | form | formHead | variableName | functionName => exact ⟨nameToken, rfl⟩
  | parameterList => exact ⟨openToken, rfl⟩
  | endCall | endPrim | parameterOrClose | close => exact ⟨closeToken, rfl⟩
  | distinctParameters =>
    obtain ⟨name, hnew⟩ := Infinite.exists_notMem_finset (Token.trailingNames taken).toFinset
    exact ⟨⟨.symbol, name, .start⟩, rfl, by simpa using hnew⟩

/-! ## Reports -/

theorem awaits_of_beginExpression {r : Reader} {t : Token} {e : ParseError}
    (hr : r.focus = .expression) (hd : r.frames.length < limit)
    (h : beginExpression limit r t = .error e) : Awaits r e.expected := by
  obtain ⟨focus, frames, finished⟩ := r
  subst hr
  unfold beginExpression at h
  rw [if_neg (Nat.not_le.2 hd)] at h
  split at h <;> cases h
  exact .expression

theorem awaits_of_beginForm {r : Reader} {t : Token} {e : ParseError} (hr : r.focus = .form)
    (h : beginForm r t = .error e) : Awaits r e.expected := by
  obtain ⟨focus, frames, finished⟩ := r
  subst hr
  unfold beginForm at h
  split at h <;> cases h
  exact .formHead

/-- A report about a token names what would be taken in its place. -/
theorem awaits_of_refused {r : Reader} {t : Token} {e : ParseError}
    (hd : r.frames.length < limit) (h : step limit r t = .error e) : Awaits r e.expected := by
  obtain ⟨focus, frames, finished⟩ := r
  cases focus with
  | expression =>
    simp only [step] at h
    split at h
    · cases h
    · cases h
      exact .operand
    · cases h
    · exact awaits_of_beginExpression rfl hd h
  | form => exact awaits_of_beginForm rfl h
  | variableName =>
    simp only [step] at h
    split at h <;> cases h
    exact .variableName
  | functionName =>
    simp only [step] at h
    split at h <;> cases h
    exact .functionName
  | parameterList name =>
    simp only [step] at h
    split at h <;> cases h
    exact .parameterList
  | parameters name params =>
    simp only [step] at h
    split at h
    · cases h
    · split at h
      · split at h <;> cases h
        exact .distinctParameters
      · cases h
        exact .parameterOrClose
  | close form =>
    simp only [step] at h
    split at h <;> cases h
    exact .close

/-- A report about the end names what would be taken there, if no operator waits for its first
operand. -/
theorem awaits_of_missing? {r : Reader} {x : Expectation} (hd : r.frames.length < limit)
    (hoperand : ¬r.AwaitsOperand) (h : r.missing? limit = some x) : Awaits r x := by
  obtain ⟨focus, frames, finished⟩ := r
  cases focus with
  | expression =>
    have hinside {f : Frame} {fs : List Frame} (hfs : (f :: fs).length < limit)
        (hx : some (if limit ≤ (f :: fs).length then .nestingAtMost limit else .expression) =
          some x) : Awaits ⟨.expression, f :: fs, finished⟩ x := by
      rw [if_neg (Nat.not_le.2 hfs)] at hx
      cases hx
      exact .expression
    rcases frames with _ | ⟨f, fs⟩
    · simp only [missing?] at h
      split at h <;> cases h
      exact .expression
    · cases f with
      | call name args =>
        cases h
        exact .endCall
      | prim op args =>
        cases h
        refine .endPrim fun hargs => hoperand ?_
        subst hargs
        exact ⟨op, fs, rfl, rfl⟩
      | _ => exact hinside hd h
  | form =>
    cases h
    exact .form
  | variableName =>
    cases h
    exact .variableName
  | functionName =>
    cases h
    exact .functionName
  | parameterList name =>
    cases h
    exact .parameterList
  | parameters name params =>
    cases h
    exact .parameterOrClose
  | close form =>
    cases h
    exact .close

/-- An operator without operands is said to wait for a closing parenthesis. -/
theorem AwaitsOperand.missing? {r : Reader} (h : r.AwaitsOperand) :
    r.missing? limit = some .close := by
  obtain ⟨op, frames, hfocus, hframes⟩ := h
  rw [Reader.missing?, hfocus, hframes]

theorem AwaitsOperand.awaits {r : Reader} (h : r.AwaitsOperand) : Awaits r .operand := by
  obtain ⟨op, frames, hfocus, hframes⟩ := h
  obtain ⟨focus, frames, finished⟩ := r
  cases hfocus
  exact .operand

/-- An operator without operands is refused a closing parenthesis. -/
theorem AwaitsOperand.step {r : Reader} {t : Token} (h : r.AwaitsOperand)
    (ht : t.kind = .closeParen) :
    Reader.step limit r t = report .unexpectedToken .operand t := by
  obtain ⟨op, frames, hfocus, hframes⟩ := h
  rw [Reader.step, hfocus, hframes, ht]

/-! ## Where the reader is -/

theorem not_awaitsOperand_accept (e : Expr) (frames : List Frame) (finished : List Expr) :
    ¬(accept e frames finished).AwaitsOperand := by
  rintro ⟨op, fs, hfocus, hframes⟩
  cases frames with
  | nil => cases hframes
  | cons f _ => cases f <;> cases hfocus <;> cases hframes

/-- Only an operator leads to a place where an operator waits for its first operand. -/
theorem Steps.awaitsOperand_iff {r r' : Reader} {t : Token} (h : Steps limit r t r') :
    r'.AwaitsOperand ↔ ∃ op, t.kind = .operator op := by
  cases h with
  | prim ht => exact ⟨fun _ => ⟨_, ht⟩, fun _ => ⟨_, _, rfl, rfl⟩⟩
  | number _ ht | string _ ht | symbol _ ht | endCall ht | endPrim _ ht | close ht =>
    exact ⟨fun h => absurd h (not_awaitsOperand_accept _ _ _), by simp [ht]⟩
  | _ => simp_all [AwaitsOperand]

theorem run_awaitsOperand_iff {r : Reader} {ts : List Token} (h : run limit start ts = .ok r) :
    r.AwaitsOperand ↔ Token.EndInOperator ts := by
  refine run_induction (P := fun r taken => r.AwaitsOperand ↔ Token.EndInOperator taken) ?_ []
    ?_ h
  · intro r r' taken t _ hs
    rw [hs.awaitsOperand_iff, Token.endInOperator_concat]
  · simp [AwaitsOperand, Token.EndInOperator, start]

theorem focus_accept_ne (e : Expr) (frames : List Frame) (finished : List Expr) (name : String)
    (params : List String) : (accept e frames finished).focus ≠ .parameters name params := by
  cases frames with
  | nil => nofun
  | cons f _ => cases f <;> nofun

theorem Steps.knowsParams {r r' : Reader} {taken : List Token} {t : Token}
    (h : Steps limit r t r') (hr : r.KnowsParams taken) : r'.KnowsParams (taken ++ [t]) := by
  intro name params hfocus
  rw [Token.trailingNames_concat]
  cases h with
  | parameterList ht =>
    cases hfocus
    simp [ht]
  | parameter _ ht =>
    cases hfocus
    rw [if_pos ht, List.reverse_cons, hr _ _ rfl]
  | number | string | symbol | endCall | endPrim | close =>
    exact absurd hfocus (focus_accept_ne _ _ _ _ _)
  | _ => cases hfocus

theorem run_knowsParams {r : Reader} {ts : List Token} (h : run limit start ts = .ok r) :
    r.KnowsParams ts :=
  run_induction (P := KnowsParams) (fun hr hs => hs.knowsParams hr) []
    (fun _ _ hfocus => by cases hfocus) h

end Reader

open Reader

/-- Reading stops behind the tokens `before`: at the first token that cannot be continued, or at the
end. The report says which token that is, or that it is the end. -/
inductive ParseError.StopsBehind (limit : Nat) (e : ParseError) :
    List Token → List Token → Prop where
  | token {before after : List Token} {t : Token} (hviable : Viable limit before)
      (hrefused : ¬Viable limit (before ++ [t])) (hfound : e.found = some t.lexeme)
      (hpos : e.pos = t.pos) : StopsBehind limit e before (before ++ t :: after)
  | theEnd {before : List Token} (hviable : Viable limit before) (hfound : e.found = none) :
      StopsBehind limit e before before

section

variable {limit : Nat} {before : List Token} {r : Reader} {t : Token}

/-- A token that the reader takes can be continued to a program. -/
theorem viable_concat_of_steps {r' : Reader} (hlen : before.length + 1 < limit)
    (hr : start.run limit before = .ok r) (ht : Steps limit r t r') :
    Viable limit (before ++ [t]) := by
  refine viable_of_run (r := r') (by simpa using hlen) ?_
  rw [run_append_of_run hr, run_cons_of_steps ht]
  rfl

theorem frames_length_lt_of_run (hlen : before.length < limit)
    (hr : start.run limit before = .ok r) : r.frames.length < limit :=
  Nat.lt_of_le_of_lt (Nat.le_trans (frames_length_le_levels r) (run_levels_le hr)) hlen

/-- Where the reader names what it would take, such a token can be continued to a program. -/
theorem viable_of_awaits {x : Expectation} (hlen : before.length + 1 < limit)
    (hr : start.run limit before = .ok r) (h : Awaits r x) (ht : x.Names before t) :
    Viable limit (before ++ [t]) := by
  have hd := frames_length_lt_of_run (Nat.lt_of_succ_lt hlen) hr
  obtain ⟨r', hs⟩ := h.exists_steps hd (run_knowsParams hr) ht
  exact viable_concat_of_steps hlen hr hs

theorem not_viable_of_awaitsOperand (hlen : before.length + 1 < limit)
    (hr : start.run limit before = .ok r) (h : r.AwaitsOperand) (ht : t.kind = .closeParen) :
    ¬Viable limit (before ++ [t]) := by
  have hlen' : (before ++ [t]).length < limit := by simpa using hlen
  exact (refused_of_step_error hlen' hr (h.step ht)).2.1 limit

/-- At the end, a token of the kind that is named can be continued to a program, unless the last
token is an operator. -/
theorem viable_iff_of_missing? {x : Expectation} (hlen : before.length + 1 < limit)
    (hr : start.run limit before = .ok r) (hx : r.missing? limit = some x)
    (ht : x.Names before t) : Viable limit (before ++ [t]) ↔ ¬Token.EndInOperator before := by
  rw [← run_awaitsOperand_iff hr]
  by_cases hoperand : r.AwaitsOperand
  · obtain rfl : x = .close := Option.some.inj (hx.symm.trans hoperand.missing?)
    exact iff_of_false (not_viable_of_awaitsOperand hlen hr hoperand ht) (not_not.2 hoperand)
  · have hd := frames_length_lt_of_run (Nat.lt_of_succ_lt hlen) hr
    exact iff_of_true (viable_of_awaits hlen hr (awaits_of_missing? hd hoperand hx) ht) hoperand

theorem exists_names_of_missing? {x : Expectation} (hlen : before.length < limit)
    (hr : start.run limit before = .ok r) (hx : r.missing? limit = some x) :
    ∃ t, x.Names before t := by
  by_cases hoperand : r.AwaitsOperand
  · obtain rfl : x = .close := Option.some.inj (hx.symm.trans hoperand.missing?)
    exact ⟨closeToken, rfl⟩
  · exact (awaits_of_missing? (frames_length_lt_of_run hlen hr) hoperand hx).exists_names before

end

/-- Behind the place where reading stops, every token of the kind that the report names can be
continued to a program. The one exception is a report about the end right behind an operator: it
names a closing parenthesis, which cannot be continued there, where an operand could be. -/
theorem expected_can_follow_iff (limit : Nat) (ts : List Token) (hlen : ts.length + 1 < limit)
    (e : ParseError) (he : Program.ofTokens limit ts = .error e) :
    ∃ before, e.StopsBehind limit before ts ∧ (∃ t, e.expected.Names before t) ∧
      (∀ t, e.expected.Names before t →
        (Viable limit (before ++ [t]) ↔ ¬(e.found = none ∧ Token.EndInOperator before))) ∧
      (e.found = none → Token.EndInOperator before → e.expected = .close ∧
        ∀ t, Expectation.operand.Names before t → Viable limit (before ++ [t])) := by
  rcases Program.ofTokens_eq_error he with ⟨before, t, after, r, rfl, hr, ht⟩ | ⟨⟨r, hr⟩, hfound, _⟩
  · have hlen' : before.length + 1 < limit := by
      rw [List.length_append, List.length_cons] at hlen
      omega
    obtain ⟨hfound, hpos, _⟩ := reportsOn_step limit r t e ht
    have hsome : e.found ≠ none := by
      rw [hfound]
      nofun
    have hawaits : Awaits r e.expected :=
      awaits_of_refused (frames_length_lt_of_run (Nat.lt_of_succ_lt hlen') hr) ht
    obtain ⟨hviable, hrefused, _⟩ := refused_of_step_error (Nat.lt_of_succ_lt hlen) hr ht
    refine ⟨before, .token hviable (hrefused limit) hfound hpos, hawaits.exists_names before,
      fun u hu => ?_, fun hnone => absurd hnone hsome⟩
    exact iff_of_true (viable_of_awaits hlen' hr hawaits hu) fun h => hsome h.1
  · have hmissing : r.missing? limit = some e.expected := by
      rw [Program.ofTokens_of_run hr] at he
      split at he <;> cases he
      assumption
    have hlen' := Nat.lt_of_succ_lt hlen
    refine ⟨ts, .theEnd (viable_of_run hlen' hr) hfound, exists_names_of_missing? hlen' hr hmissing,
      fun u hu => ?_, fun _ hoperator => ?_⟩
    · rw [viable_iff_of_missing? hlen hr hmissing hu, and_iff_right hfound]
    · have hoperand := (run_awaitsOperand_iff hr).2 hoperator
      exact ⟨Option.some.inj (hmissing.symm.trans hoperand.missing?),
        fun u hu => viable_of_awaits hlen hr hoperand.awaits hu⟩

/-- An operator and then nothing: a closing parenthesis is said to be expected, and under no nesting
limit can it be continued to a program. -/
theorem close_expected_behind_operator :
    let ts : List Token := [⟨.openParen, "(", ⟨1, 1⟩⟩, ⟨.operator .add, "+", ⟨1, 2⟩⟩]
    Program.ofTokens 256 ts = .error ⟨.unexpectedEnd, .close, none, ⟨1, 3⟩⟩ ∧
      ∀ t, Expectation.close.Names ts t → ∀ limit, ¬Viable limit (ts ++ [t]) := by
  intro ts
  refine ⟨by decide, fun t ht => ?_⟩
  have hr : start.run 256 ts = .ok ⟨.expression, [.prim .add []], []⟩ := by decide
  have hoperand : AwaitsOperand ⟨.expression, [.prim .add []], []⟩ := ⟨.add, [], rfl, rfl⟩
  have hlen : (ts ++ [t]).length < 256 := by simp [ts]
  exact (refused_of_step_error hlen hr (hoperand.step ht)).2.1

/-- In `(defun f (a a` the second parameter is refused, and one of another name could stand for
it. -/
theorem expected_can_follow_iff_parameter :
    let ts : List Token := [⟨.openParen, "(", ⟨1, 1⟩⟩, ⟨.keyword .defun, "defun", ⟨1, 2⟩⟩,
      ⟨.symbol, "f", ⟨1, 8⟩⟩, ⟨.openParen, "(", ⟨1, 10⟩⟩, ⟨.symbol, "a", ⟨1, 11⟩⟩,
      ⟨.symbol, "a", ⟨1, 13⟩⟩]
    let e : ParseError := ⟨.duplicateParameter, .distinctParameters, some "a", ⟨1, 13⟩⟩
    ts.length + 1 < 8 ∧ Program.ofTokens 8 ts = .error e ∧
      ∃ before, e.StopsBehind 8 before ts ∧ (∃ t, e.expected.Names before t) ∧
        (∀ t, e.expected.Names before t →
          (Viable 8 (before ++ [t]) ↔ ¬(e.found = none ∧ Token.EndInOperator before))) ∧
        (e.found = none → Token.EndInOperator before → e.expected = .close ∧
          ∀ t, Expectation.operand.Names before t → Viable 8 (before ++ [t])) :=
  ⟨by decide, by decide, expected_can_follow_iff 8 _ (by decide) _ (by decide)⟩

end PrefixLisp
