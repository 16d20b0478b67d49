import PrefixLisp.Proofs.Expr.Grammar
import PrefixLisp.Proofs.Expr.Stepping

/-
  The reader accepts exactly what the grammar derives.

  One direction follows a derivation: on the tokens of an expression that fits, the reader goes
  from waiting for an expression to having accepted it (`takes_of_derives`). The other direction
  follows the run: the tokens taken so far spell what the reader holds, the finished
  expressions, then the open forms from the outermost one on, then the focus (`Spelled`), and
  every step keeps this (`Steps.spelled`).

  `ofTokens_eq_ok_iff_derives`: a token list reads as a program if and only if it derives the
  program, no definition repeats a parameter and nothing starts at the nesting limit or deeper;
  and it derives at most one program.
-/

namespace PrefixLisp

namespace Reader

variable {limit : Nat}

/-! ## From a derivation to a run -/

/-- The open form takes any number of expressions, as the program itself does. -/
def Collecting : List Frame → Prop
  | [] => True
  | .call _ _ :: _ | .prim _ _ :: _ => True
  | _ => False

/-- Accept one expression after the other. -/
def acceptAll (es : List Expr) (r : Reader) : Reader :=
  es.foldl (fun r e => accept e r.frames r.finished) r

theorem accept_collecting (e : Expr) {frames : List Frame} (finished : List Expr)
    (h : Collecting frames) :
    ∃ frames' finished', accept e frames finished = ⟨.expression, frames', finished'⟩ ∧
      Collecting frames' ∧ frames'.length = frames.length := by
  cases frames with
  | nil => exact ⟨[], e :: finished, rfl, trivial, rfl⟩
  | cons f fs =>
    cases f with
    | call name args => exact ⟨.call name (e :: args) :: fs, finished, rfl, trivial, rfl⟩
    | prim op args => exact ⟨.prim op (e :: args) :: fs, finished, rfl, trivial, rfl⟩
    | _ => exact h.elim

/-- A reader that keeps what it accepts in one list ends up with all of it there. -/
theorem acceptAll_eq (holding : List Expr → Reader)
    (h : ∀ e es, accept e (holding es).frames (holding es).finished = holding (e :: es))
    (es held : List Expr) : acceptAll es (holding held) = holding (es.reverse ++ held) := by
  induction es generalizing held with
  | nil => rfl
  | cons e es ih =>
    rw [List.reverse_cons, List.append_assoc, List.singleton_append, ← ih, ← h]
    rfl

/-- Parameters are taken up to the closing parenthesis, the last one first. -/
theorem run_params {ps : List Token} (name : String) (params : List String) (frames : List Frame)
    (finished : List Expr) (hps : ∀ p ∈ ps, p.kind = .symbol)
    (hnodup : ((ps.map (·.lexeme)).reverse ++ params).Nodup) :
    run limit ⟨.parameters name params, frames, finished⟩ ps =
      .ok ⟨.parameters name ((ps.map (·.lexeme)).reverse ++ params), frames, finished⟩ := by
  induction ps generalizing params with
  | nil => rfl
  | cons p ps ih =>
    obtain ⟨hp, hps⟩ := List.forall_mem_cons.1 hps
    rw [List.map_cons, List.reverse_cons, List.append_assoc, List.singleton_append] at hnodup ⊢
    have hnew : p.lexeme ∉ params :=
      (List.nodup_cons.1 (List.nodup_append.1 hnodup).2.1).1
    rw [run_cons_of_steps (.parameter hnew hp)]
    exact ih (p.lexeme :: params) hps hnodup

/-- What it means that the reader takes the tokens of a phrase. After a form it waits for the
closing parenthesis, in one of two ways. -/
def Takes (limit : Nat) : Phrase → List Token → Prop
  | .expr e, ts => ∀ frames finished, e.Fits limit frames.length →
      run limit ⟨.expression, frames, finished⟩ ts = .ok (accept e frames finished)
  | .form e, ts => ∀ frames finished, e.Fits limit frames.length →
      ∃ r, run limit ⟨.form, frames, finished⟩ ts = .ok r ∧
        ∀ c : Token, c.kind = .closeParen → Steps limit r c (accept e frames finished)
  | .sequence es, ts => ∀ frames finished, Collecting frames →
      (∀ e ∈ es, e.Fits limit frames.length) →
      run limit ⟨.expression, frames, finished⟩ ts =
        .ok (acceptAll es ⟨.expression, frames, finished⟩)

theorem takes_of_derives {ph : Phrase} {ts : List Token} (h : ph.Derives ts) :
    Takes limit ph ts := by
  induction h with
  | number ht =>
    intro frames finished hfits
    rw [run_cons_of_steps (.number (Expr.fits_iff.1 hfits).1 ht)]
    rfl
  | string ht =>
    intro frames finished hfits
    rw [run_cons_of_steps (.string (Expr.fits_iff.1 hfits).1 ht)]
    rfl
  | symbol ht =>
    intro frames finished hfits
    rw [run_cons_of_steps (.symbol (Expr.fits_iff.1 hfits).1 ht)]
    rfl
  | parens ho _ hc ih =>
    intro frames finished hfits
    obtain ⟨r, hr, hclose⟩ := ih frames finished hfits
    rw [List.cons_append, run_cons_of_steps (.openParen (Expr.fits_iff.1 hfits).1 ho),
      run_append_of_run hr, run_cons_of_steps (hclose _ hc)]
    rfl
  | @assign k x v ts hk hx _ ih =>
    intro frames finished hfits
    have hv := (Expr.fits_iff.1 hfits).2.2 v List.mem_cons_self
    refine ⟨_, ?_, fun c hc => .close hc⟩
    rw [run_cons_of_steps (.setq hk), run_cons_of_steps (.variableName hx)]
    exact ih (.assign x.lexeme :: frames) finished hv
  | @cond k test yes no ts us vs hk _ _ _ iht ihy ihn =>
    intro frames finished hfits
    have hparts := (Expr.fits_iff.1 hfits).2.2
    simp only [Expr.children, List.forall_mem_cons] at hparts
    obtain ⟨htest, hyes, hno, _⟩ := hparts
    refine ⟨_, ?_, fun c hc => .close hc⟩
    rw [List.cons_append, List.cons_append, run_cons_of_steps (.cond hk), List.append_assoc,
      run_append_of_run (iht (.test :: frames) finished htest)]
    exact (run_append_of_run (ihy (.yes test :: frames) finished hyes) vs).trans
      (ihn (.no test yes :: frames) finished hno)
  | @print k v ts hk _ ih =>
    intro frames finished hfits
    have hv := (Expr.fits_iff.1 hfits).2.2 v List.mem_cons_self
    refine ⟨_, ?_, fun c hc => .close hc⟩
    rw [run_cons_of_steps (.print hk)]
    exact ih (.print :: frames) finished hv
  | @defun k f o c ps b ts hk hf ho hps hc _ ih =>
    intro frames finished hfits
    obtain ⟨_, hnodup, hparts⟩ := Expr.fits_iff.1 hfits
    have hb := hparts b List.mem_cons_self
    refine ⟨_, ?_, fun c hc => .close hc⟩
    have hparams := @run_params limit _ f.lexeme [] frames finished hps
      (by rw [List.append_nil]; exact List.nodup_reverse.2 hnodup)
    rw [List.append_nil] at hparams
    rw [List.cons_append, List.cons_append, List.cons_append, run_cons_of_steps (.defun hk),
      run_cons_of_steps (.functionName hf), run_cons_of_steps (.parameterList ho),
      run_append_of_run hparams, run_cons_of_steps (.endParameters hc), List.reverse_reverse]
    exact ih (.body f.lexeme (ps.map (·.lexeme)) :: frames) finished hb
  | @call f es ts hf _ ih =>
    intro frames finished hfits
    have hargs := ih (.call f.lexeme [] :: frames) finished trivial (Expr.fits_iff.1 hfits).2.2
    rw [acceptAll_eq (fun args => ⟨.expression, .call f.lexeme args :: frames, finished⟩)
      (fun _ _ => rfl), List.append_nil] at hargs
    refine ⟨_, (run_cons_of_steps (.call hf) ts).trans hargs, fun c hc => ?_⟩
    have h : Steps limit ⟨.expression, .call f.lexeme es.reverse :: frames, finished⟩ c
        (accept (.call f.lexeme es.reverse.reverse) frames finished) := .endCall hc
    rwa [List.reverse_reverse] at h
  | @prim k op es ts hk hne _ ih =>
    intro frames finished hfits
    have hargs := ih (.prim op [] :: frames) finished trivial (Expr.fits_iff.1 hfits).2.2
    rw [acceptAll_eq (fun args => ⟨.expression, .prim op args :: frames, finished⟩)
      (fun _ _ => rfl), List.append_nil] at hargs
    refine ⟨_, (run_cons_of_steps (.prim hk) ts).trans hargs, fun c hc => ?_⟩
    have hne := mt List.reverse_eq_nil_iff.1 hne
    have h : Steps limit ⟨.expression, .prim op es.reverse :: frames, finished⟩ c
        (accept (.prim op es.reverse.reverse) frames finished) := .endPrim hne hc
    rwa [List.reverse_reverse] at h
  | nil => exact fun _ _ _ _ => rfl
  | @cons e es ts us _ _ ihe ihes =>
    intro frames finished hcoll hfits
    obtain ⟨he, hes⟩ := List.forall_mem_cons.1 hfits
    obtain ⟨frames', finished', haccept, hcoll', hlen⟩ := accept_collecting e finished hcoll
    rw [run_append_of_run (ihe frames finished he), haccept,
      ihes frames' finished' hcoll' (hlen ▸ hes), ← haccept]
    rfl

/-! ## From a run to a derivation -/

/-- The tokens of an open form so far. -/
inductive Frame.Spelled : Frame → List Token → Prop where
  | assign {o k x : Token} (ho : o.kind = .openParen) (hk : k.kind = .keyword .setq)
      (hx : x.kind = .symbol) : Spelled (.assign x.lexeme) [o, k, x]
  | test {o k : Token} (ho : o.kind = .openParen) (hk : k.kind = .keyword .ifElse) :
      Spelled .test [o, k]
  | yes {o k : Token} {t : Expr} {ts : List Token} (ho : o.kind = .openParen)
      (hk : k.kind = .keyword .ifElse) (ht : Phrase.Derives (.expr t) ts) :
      Spelled (.yes t) (o :: k :: ts)
  | no {o k : Token} {t y : Expr} {ts us : List Token} (ho : o.kind = .openParen)
      (hk : k.kind = .keyword .ifElse) (ht : Phrase.Derives (.expr t) ts)
      (hy : Phrase.Derives (.expr y) us) : Spelled (.no t y) (o :: k :: ts ++ us)
  | print {o k : Token} (ho : o.kind = .openParen) (hk : k.kind = .keyword .print) :
      Spelled .print [o, k]
  | body {o k f o' c : Token} {ps : List Token} (ho : o.kind = .openParen)
      (hk : k.kind = .keyword .defun) (hf : f.kind = .symbol) (ho' : o'.kind = .openParen)
      (hps : ∀ p ∈ ps, p.kind = .symbol) (hc : c.kind = .closeParen) :
      Spelled (.body f.lexeme (ps.map (·.lexeme))) (o :: k :: f :: o' :: ps ++ [c])
  | call {o f : Token} {args : List Expr} {ts : List Token} (ho : o.kind = .openParen)
      (hf : f.kind = .symbol) (hargs : Phrase.Derives (.sequence args.reverse) ts) :
      Spelled (.call f.lexeme args) (o :: f :: ts)
  | prim {o k : Token} {op : Operator} {args : List Expr} {ts : List Token}
      (ho : o.kind = .openParen) (hk : k.kind = .operator op)
      (hargs : Phrase.Derives (.sequence args.reverse) ts) : Spelled (.prim op args) (o :: k :: ts)

/-- The tokens of all open forms so far, the outermost first. -/
inductive FramesSpelled : List Frame → List Token → Prop where
  | nil : FramesSpelled [] []
  | cons {f : Frame} {fs : List Frame} {ts us : List Token} (hfs : FramesSpelled fs ts)
      (hf : f.Spelled us) : FramesSpelled (f :: fs) (ts ++ us)

/-- The tokens of the form around the focus, if it is not among the open ones yet. -/
inductive Focus.Spelled : Focus → List Token → Prop where
  | expression : Spelled .expression []
  | form {o : Token} (ho : o.kind = .openParen) : Spelled .form [o]
  | variableName {o k : Token} (ho : o.kind = .openParen) (hk : k.kind = .keyword .setq) :
      Spelled .variableName [o, k]
  | functionName {o k : Token} (ho : o.kind = .openParen) (hk : k.kind = .keyword .defun) :
      Spelled .functionName [o, k]
  | parameterList {o k f : Token} (ho : o.kind = .openParen) (hk : k.kind = .keyword .defun)
      (hf : f.kind = .symbol) : Spelled (.parameterList f.lexeme) [o, k, f]
  | parameters {o k f o' : Token} {ps : List Token} (ho : o.kind = .openParen)
      (hk : k.kind = .keyword .defun) (hf : f.kind = .symbol) (ho' : o'.kind = .openParen)
      (hps : ∀ p ∈ ps, p.kind = .symbol) :
      Spelled (.parameters f.lexeme (ps.map (·.lexeme)).reverse) (o :: k :: f :: o' :: ps)
  | close {o : Token} {e : Expr} {ts : List Token} (ho : o.kind = .openParen)
      (he : Phrase.Derives (.form e) ts) : Spelled (.close e) (o :: ts)

/-- The tokens spell what the reader holds. -/
structure Spelled (r : Reader) (taken : List Token) : Prop where
  split : ∃ ts us vs, taken = ts ++ us ++ vs ∧
    Phrase.Derives (.sequence r.finished.reverse) ts ∧ FramesSpelled r.frames us ∧
      r.focus.Spelled vs

theorem start_spelled : Spelled start [] :=
  ⟨[], [], [], rfl, .nil, .nil, .expression⟩

/-- One more expression at the end of a sequence that is kept last first. -/
theorem derives_reverse_cons {es : List Expr} {e : Expr} {ts us : List Token}
    (hes : Phrase.Derives (.sequence es.reverse) ts) (he : Phrase.Derives (.expr e) us) :
    Phrase.Derives (.sequence (e :: es).reverse) (ts ++ us) := by
  rw [List.reverse_cons]
  exact hes.append he.singleton

theorem accept_spelled {e : Expr} {frames : List Frame} {finished : List Expr}
    {ts us vs : List Token} (hts : Phrase.Derives (.sequence finished.reverse) ts)
    (hframes : FramesSpelled frames us) (he : Phrase.Derives (.expr e) vs) :
    Spelled (accept e frames finished) (ts ++ us ++ vs) := by
  cases hframes with
  | nil =>
    refine ⟨ts ++ vs, [], [], by simp, ?_, .nil, .expression⟩
    exact derives_reverse_cons hts he
  | @cons f fs us ws hfs hf =>
    cases hf with
    | assign ho hk hx =>
      exact ⟨ts, us, _, by simp, hts, hfs, .close ho (.assign hk hx he)⟩
    | test ho hk =>
      exact ⟨ts, _, [], by simp, hts, .cons hfs (.yes ho hk he), .expression⟩
    | yes ho hk ht =>
      exact ⟨ts, _, [], by simp, hts, .cons hfs (.no ho hk ht he), .expression⟩
    | no ho hk ht hy =>
      exact ⟨ts, us, _, by simp, hts, hfs, .close ho (.cond hk ht hy he)⟩
    | print ho hk => exact ⟨ts, us, _, by simp, hts, hfs, .close ho (.print hk he)⟩
    | body ho hk hf ho' hps hc =>
      exact ⟨ts, us, _, by simp, hts, hfs, .close ho (.defun hk hf ho' hps hc he)⟩
    | call ho hf hargs =>
      exact ⟨ts, _, [], by simp, hts, .cons hfs (.call ho hf (derives_reverse_cons hargs he)),
        .expression⟩
    | prim ho hk hargs =>
      exact ⟨ts, _, [], by simp, hts, .cons hfs (.prim ho hk (derives_reverse_cons hargs he)),
        .expression⟩

theorem Steps.spelled {r r' : Reader} {taken : List Token} {t : Token} (hr : Spelled r taken)
    (h : Steps limit r t r') : Spelled r' (taken ++ [t]) := by
  obtain ⟨ts, us, vs, rfl, hts, hframes, hfocus⟩ := hr
  cases h with
  | number _ ht =>
    cases hfocus
    rw [List.append_nil]
    exact accept_spelled hts hframes (.number ht)
  | string _ ht =>
    cases hfocus
    rw [List.append_nil]
    exact accept_spelled hts hframes (.string ht)
  | symbol _ ht =>
    cases hfocus
    rw [List.append_nil]
    exact accept_spelled hts hframes (.symbol ht)
  | openParen _ ht =>
    cases hfocus
    exact ⟨ts, us, [t], by simp, hts, hframes, .form ht⟩
  | endCall ht =>
    cases hfocus
    cases hframes with
    | @cons _ _ us ws hfs hf =>
      cases hf with
      | @call o f _ ws ho hf hargs =>
        have h := accept_spelled hts hfs (.parens ho (.call hf hargs) ht)
        simpa using h
  | endPrim hne ht =>
    cases hfocus
    cases hframes with
    | @cons _ _ us ws hfs hf =>
      cases hf with
      | prim ho hk hargs =>
        have hne := mt List.reverse_eq_nil_iff.1 hne
        have h := accept_spelled hts hfs (.parens ho (.prim hk hne hargs) ht)
        simpa using h
  | defun ht =>
    cases hfocus with
    | form ho => exact ⟨ts, us, _, by simp, hts, hframes, .functionName ho ht⟩
  | setq ht =>
    cases hfocus with
    | form ho => exact ⟨ts, us, _, by simp, hts, hframes, .variableName ho ht⟩
  | cond ht =>
    cases hfocus with
    | form ho => exact ⟨ts, _, [], by simp, hts, .cons hframes (.test ho ht), .expression⟩
  | print ht =>
    cases hfocus with
    | form ho => exact ⟨ts, _, [], by simp, hts, .cons hframes (.print ho ht), .expression⟩
  | call ht =>
    cases hfocus with
    | form ho => exact ⟨ts, _, [], by simp, hts, .cons hframes (.call ho ht .nil), .expression⟩
  | prim ht =>
    cases hfocus with
    | form ho => exact ⟨ts, _, [], by simp, hts, .cons hframes (.prim ho ht .nil), .expression⟩
  | variableName ht =>
    cases hfocus with
    | variableName ho hk =>
      exact ⟨ts, _, [], by simp, hts, .cons hframes (.assign ho hk ht), .expression⟩
  | functionName ht =>
    cases hfocus with
    | functionName ho hk => exact ⟨ts, us, _, by simp, hts, hframes, .parameterList ho hk ht⟩
  | parameterList ht =>
    cases hfocus with
    | @parameterList o k f ho hk hf =>
      have hnone : ∀ p ∈ ([] : List Token), p.kind = .symbol := by simp
      exact ⟨ts, us, [o, k, f, t], by simp, hts, hframes, .parameters ho hk hf ht hnone⟩
  | parameter _ ht =>
    cases hfocus with
    | @parameters o k f o' ps ho hk hf ho' hps =>
      refine ⟨ts, us, o :: k :: f :: o' :: (ps ++ [t]), by simp, hts, hframes, ?_⟩
      have hps' : ∀ p ∈ ps ++ [t], p.kind = .symbol := by
        intro p hp
        rcases List.mem_append.1 hp with hp | hp
        · exact hps p hp
        · exact List.mem_singleton.1 hp ▸ ht
      have h := Focus.Spelled.parameters ho hk hf ho' hps'
      rwa [List.map_append, List.reverse_append] at h
  | endParameters ht =>
    cases hfocus with
    | parameters ho hk hf ho' hps =>
      have h := Frame.Spelled.body ho hk hf ho' hps ht
      rw [List.reverse_reverse]
      exact ⟨ts, _, [], by simp, hts, .cons hframes h, .expression⟩
  | close ht =>
    cases hfocus with
    | close ho he =>
      have h := accept_spelled hts hframes (.parens ho he ht)
      simpa using h

theorem run_spelled {r : Reader} {ts : List Token} (h : run limit start ts = .ok r) :
    Spelled r ts :=
  run_induction (fun hr hs => hs.spelled hr) [] start_spelled h

theorem missing?_eq_none_iff {r : Reader} :
    r.missing? limit = none ↔ r.focus = .expression ∧ r.frames = [] ∧ r.finished ≠ [] := by
  obtain ⟨focus, frames, finished⟩ := r
  cases focus with
  | expression =>
    rcases frames with _ | ⟨f, fs⟩
    · by_cases h : finished = [] <;> simp [missing?, h]
    · cases f <;> simp [missing?]
  | _ => simp [missing?]

end Reader

open Reader

theorem Program.ofTokens_eq_ok_iff_run {limit : Nat} {ts : List Token} {p : Program} :
    Program.ofTokens limit ts = .ok p ↔
      p ≠ [] ∧ start.run limit ts = .ok ⟨.expression, [], p.reverse⟩ := by
  unfold Program.ofTokens
  cases hrun : start.run limit ts with
  | error e => simp [bind, Except.bind]
  | ok r =>
    obtain ⟨focus, frames, finished⟩ := r
    simp only [bind, Except.bind]
    cases hmissing : missing? limit ⟨focus, frames, finished⟩ with
    | some expected =>
      have hnot := mt missing?_eq_none_iff.2 (by rw [hmissing]; nofun)
      refine ⟨nofun, fun ⟨hne, heq⟩ => ?_⟩
      cases heq
      exact absurd ⟨rfl, rfl, mt List.reverse_eq_nil_iff.1 hne⟩ hnot
    | none =>
      obtain ⟨rfl, rfl, hne⟩ := missing?_eq_none_iff.1 hmissing
      constructor
      · intro h
        cases h
        exact ⟨mt List.reverse_eq_nil_iff.1 hne, by rw [List.reverse_reverse]⟩
      · intro ⟨_, heq⟩
        cases heq
        exact congrArg Except.ok (List.reverse_reverse p)

theorem Program.ofTokens_eq_ok_iff_fits {limit : Nat} {ts : List Token} {p : Program} :
    Program.ofTokens limit ts = .ok p ↔ p.Derives ts ∧ ∀ e ∈ p, e.Fits limit 0 := by
  rw [ofTokens_eq_ok_iff_run]
  constructor
  · intro ⟨hne, hrun⟩
    have hfits := (run_bounded hrun start_bounded).finished
    obtain ⟨ts, us, vs, rfl, hts, hframes, hfocus⟩ := run_spelled hrun
    cases hframes
    cases hfocus
    rw [List.reverse_reverse] at hts
    rw [List.append_nil, List.append_nil]
    exact ⟨⟨hne, hts⟩, fun e he => hfits e (List.mem_reverse.2 he)⟩
  · intro ⟨⟨hne, hts⟩, hfits⟩
    have hrun := takes_of_derives hts [] [] trivial hfits
    rw [acceptAll_eq (fun finished => ⟨.expression, [], finished⟩) (fun _ _ => rfl),
      List.append_nil] at hrun
    exact ⟨hne, hrun⟩

/-- Reading decides the grammar: the program is the one that the tokens derive, its definitions
name each parameter once, and nothing in it starts at the limit or deeper. -/
theorem ofTokens_eq_ok_iff_derives (limit : Nat) (ts : List Token) :
    (∀ p : Program, Program.ofTokens limit ts = .ok p ↔
      p.Derives ts ∧ (∀ e ∈ p, e.All Expr.DistinctParams) ∧
        ∀ e ∈ p, ∀ d x, Expr.Occurs d x e → d < limit) ∧
    ∀ p q : Program, p.Derives ts → q.Derives ts → p = q := by
  refine ⟨fun p => ?_, fun p q hp hq => Program.derives_unique hp hq⟩
  rw [Program.ofTokens_eq_ok_iff_fits]
  simp only [Expr.Fits, Nat.zero_add, Expr.height_le_iff_occurs]
  constructor
  · intro ⟨hp, hfits⟩
    exact ⟨hp, fun e he => (hfits e he).2, fun e he => (hfits e he).1⟩
  · intro ⟨hp, hdistinct, hdepth⟩
    exact ⟨hp, fun e he => ⟨hdepth e he, hdistinct e he⟩⟩

end PrefixLisp
